import PasswordWallet.PowerLoss.Logic

/-!
# Operations one after the other

A device is used by a list of operations, each a program of its own that starts
where the one before it has come to its end.  `performs_iff` is the rule for a
property of the states between them that one operation may break: the property
holds in all of them if and only if each operation keeps it.
-/

namespace PowerLoss

variable {P W V α β ι : Type} [Durable P W]

/-- The operations of a list, in order. -/
def Program.performs (run : ι → Program P W V Unit) : List ι → Program P W V Unit
  | [] => pure ()
  | op :: rest => do
      run op
      performs run rest

section Laws

theorem Program.bind_assoc {γ : Type} (m : Program P W V α) (f : α → Program P W V β)
    (g : β → Program P W V γ) : m >>= f >>= g = m >>= fun a => f a >>= g := by
  funext p v
  show bind (bind m f) g p v = bind m (fun a => bind (f a) g) p v
  unfold bind
  cases hm : m p v with
  | mk trace ram result =>
      cases result with
      | none => rfl
      | some a =>
          simp only
          cases hf : f a (replay p trace) ram with
          | mk next last result =>
              cases result with
              | none => rfl
              | some b => simp only [replay_append, List.append_assoc]

theorem Program.bind_pure (m : Program P W V α) : m >>= pure = m := by
  funext p v
  show bind m pure p v = m p v
  unfold bind
  cases hm : m p v with
  | mk trace ram result =>
      cases result with
      | none => rfl
      | some a =>
          show (⟨trace ++ [], ram, some a⟩ : Run W V α) = _
          rw [List.append_nil]

instance : LawfulMonad (Program P W V) :=
  .mk' _ Program.bind_pure (fun _ _ => funext₂ fun _ _ => bind_silent rfl) Program.bind_assoc

end Laws

section Completes

variable {p p' : P} {v v' : V}

@[simp] theorem completes_pure {a b : α} :
    Completes (pure a : Program P W V α) p v b p' v' ↔ a = b ∧ p' = p ∧ v' = v := by
  show some a = some b ∧ p' = p ∧ v' = v ↔ _
  rw [Option.some.injEq]

theorem completes_bind {m : Program P W V α} {f : α → Program P W V β} {b : β} :
    Completes (m >>= f) p v b p' v' ↔
      ∃ a p₁ v₁, Completes m p v a p₁ v₁ ∧ Completes (f a) p₁ v₁ b p' v' := by
  constructor
  · intro h
    have hresult := h.1
    change (Program.bind m f p v).result = some b at hresult
    unfold Program.bind at hresult
    cases hm : m p v with
    | mk trace ram result =>
        rw [hm] at hresult
        cases result with
        | none => cases hresult
        | some a =>
            have hfirst : Completes m p v a (replay p trace) ram := by
              rw [Completes, hm]
              exact ⟨rfl, rfl, rfl⟩
            have hsecond : Completes (f a) (replay p trace) ram b
                (replay (replay p trace) (f a (replay p trace) ram).trace)
                (f a (replay p trace) ram).ram := ⟨hresult, rfl, rfl⟩
            obtain ⟨-, rfl, rfl⟩ := h.unique (hfirst.bind hsecond)
            exact ⟨a, _, _, hfirst, hsecond⟩
  · rintro ⟨a, p₁, v₁, hfirst, hsecond⟩
    exact hfirst.bind hsecond

end Completes

section Performs

variable {run : ι → Program P W V Unit} {p : P} {v : V} {I : P → V → Prop}

/-- `Good` holds after all the operations that are come to if and only if each of
them, where it is come to, `Keeps` it; `I` holds in any case. -/
theorem performs_iff {Good : P → V → Prop} {Keeps : ι → P → V → Prop} (operations : List ι)
    (hstep : ∀ op p v, I p v → Good p v →
      wp (run op) (fun _ p' v' => I p' v' ∧ (Good p' v' ↔ Keeps op p v))
        (fun _ _ => Keeps op p v) (fun _ _ => True) p v)
    (h : I p v) (hgood : Good p v) :
    (∀ front back, operations = front ++ back → ∀ p' v',
        Completes (Program.performs run front) p v () p' v' → Good p' v') ↔
      ∀ front op back, operations = front ++ op :: back → ∀ p' v',
        Completes (Program.performs run front) p v () p' v' → Keeps op p' v' := by
  induction operations generalizing p v with
  | nil =>
      refine ⟨fun _ front op back hsplit => ?_, fun _ front back hsplit p' v' hrun => ?_⟩
      · simp at hsplit
      · obtain ⟨rfl, rfl⟩ := List.append_eq_nil_iff.mp hsplit.symm
        obtain ⟨-, rfl, rfl⟩ := completes_pure.mp hrun
        exact hgood
  | cons op rest ih =>
      have hrun := hstep op p v h hgood
      constructor
      · intro hall
        have hkeeps : Keeps op p v := by
          have hpost := hrun.2
          cases hresult : (run op p v).result with
          | none =>
              rw [hresult] at hpost
              exact hpost
          | some a =>
              rw [hresult] at hpost
              refine hpost.2.mp (hall [op] rest rfl _ _ (completes_bind.mpr ?_))
              exact ⟨a, _, _, ⟨hresult, rfl, rfl⟩, completes_pure.mpr ⟨rfl, rfl, rfl⟩⟩
        intro front op' back hsplit p' v' hfront
        cases front with
        | nil =>
            obtain ⟨rfl, -⟩ := List.cons.inj hsplit
            obtain ⟨-, rfl, rfl⟩ := completes_pure.mp hfront
            exact hkeeps
        | cons first front =>
            obtain ⟨rfl, hrest⟩ := List.cons.inj hsplit
            obtain ⟨_, p₁, v₁, hfirst, hfront⟩ := completes_bind.mp hfront
            obtain ⟨h₁, hiff⟩ := wp_completes hrun hfirst
            refine (ih h₁ (hiff.mpr hkeeps)).mp (fun front back hsplit p' v' hfront => ?_)
              front op' back hrest p' v' hfront
            exact hall (op :: front) back (by rw [hsplit, List.cons_append]) p' v'
              (hfirst.bind hfront)
      · intro hall front back hsplit p' v' hfront
        cases front with
        | nil =>
            obtain ⟨-, rfl, rfl⟩ := completes_pure.mp hfront
            exact hgood
        | cons first front =>
            obtain ⟨rfl, hrest⟩ := List.cons.inj hsplit
            obtain ⟨_, p₁, v₁, hfirst, hfront⟩ := completes_bind.mp hfront
            obtain ⟨h₁, hiff⟩ := wp_completes hrun hfirst
            have hkeeps := hall [] op rest rfl p v (completes_pure.mpr ⟨rfl, rfl, rfl⟩)
            refine (ih h₁ (hiff.mpr hkeeps)).mpr (fun front op' back hsplit p' v' hfront => ?_)
              front back hrest p' v' hfront
            exact hall (op :: front) op' back (by rw [hsplit, List.cons_append]) p' v'
              (hfirst.bind hfront)

end Performs

end PowerLoss
