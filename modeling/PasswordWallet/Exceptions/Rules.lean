import Mathlib.Logic.Basic

/-!
# A logic for programs that keep their state when they throw

`wp m Q E s` says what a run of `m` from the state `s` does: if it returns `a`, then `Q a`
holds of the state that it leaves, and if it throws `e`, then `E e`.
-/

namespace Exceptions

variable {ε σ α β : Type}

def wp (m : EStateM ε σ α) (Q : α → σ → Prop) (E : ε → σ → Prop) (s : σ) : Prop :=
  match m s with
  | .ok a s' => Q a s'
  | .error e s' => E e s'

section Rules

variable {m : EStateM ε σ α} {Q Q' : α → σ → Prop} {E E' : ε → σ → Prop} {s : σ}

@[simp] theorem wp_pure (a : α) : wp (pure a : EStateM ε σ α) Q E s ↔ Q a s := Iff.rfl

@[simp] theorem wp_throw (e : ε) : wp (throw e : EStateM ε σ α) Q E s ↔ E e s := Iff.rfl

@[simp] theorem wp_get {Q : σ → σ → Prop} : wp (get : EStateM ε σ σ) Q E s ↔ Q s s := Iff.rfl

@[simp] theorem wp_set {Q : PUnit → σ → Prop} (s' : σ) :
    wp (set s' : EStateM ε σ PUnit) Q E s ↔ Q ⟨⟩ s' := Iff.rfl

@[simp] theorem wp_modify {Q : PUnit → σ → Prop} (f : σ → σ) :
    wp (modify f : EStateM ε σ PUnit) Q E s ↔ Q ⟨⟩ (f s) := Iff.rfl

@[simp] theorem wp_bind (f : α → EStateM ε σ β) {Q : β → σ → Prop} :
    wp (m >>= f) Q E s ↔ wp m (fun a s' => wp (f a) Q E s') E s := by
  simp only [wp, bind, EStateM.bind]
  cases m s <;> rfl

theorem wp_ite {p : Prop} [Decidable p] {m' : EStateM ε σ α} :
    wp (if p then m else m') Q E s ↔ (p → wp m Q E s) ∧ (¬p → wp m' Q E s) := by
  by_cases hp : p
  · rw [if_pos hp, and_iff_left fun h => absurd hp h, forall_prop_of_true hp]
  · rw [if_neg hp, and_iff_right fun h => absurd h hp, forall_prop_of_true hp]

theorem wp_mono (h : wp m Q E s) (hok : ∀ a s', Q a s' → Q' a s')
    (herror : ∀ e s', E e s' → E' e s') : wp m Q' E' s := by
  unfold wp at h ⊢
  cases hm : m s with
  | ok a s' =>
      rw [hm] at h
      exact hok a s' h
  | error e s' =>
      rw [hm] at h
      exact herror e s' h

end Rules

end Exceptions
