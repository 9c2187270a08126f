import PasswordWallet.PowerLoss.Logic

/-!
# Programs that record what they do

A program can be written again so that its result says more about the run: what it
has read on the way, say.  Such a program *records* the first one: it makes the same
writes, leaves the same volatile state, hangs where the first one hangs, and its
result contains that of the first one.  What is known of the first program is then
known of the one that records it (`Records.wp_iff`).
-/

namespace PowerLoss

variable {P W V α β γ δ : Type}

/-- `m'` runs as `m` does from a state, and `f` of its result is the result of `m`. -/
def Records (f : β → α) (m' : Program P W V β) (m : Program P W V α) (p : P) (v : V) : Prop :=
  m p v = ⟨(m' p v).trace, (m' p v).ram, (m' p v).result.map f⟩

variable {f : β → α} {g : δ → γ} {m' : Program P W V β} {m : Program P W V α} {p p' : P} {v v' : V}

theorem records_refl : Records id m m p v := by
  unfold Records
  cases hm : m p v with
  | mk trace ram result => simp

theorem records_pure [Durable P W] {b : β} :
    Records f (pure b : Program P W V β) (pure (f b)) p v := rfl

theorem records_hang :
    Records f (Program.hang : Program P W V β) (Program.hang : Program P W V α) p v := rfl

theorem records_bind [Durable P W] {k' : β → Program P W V δ} {k : α → Program P W V γ}
    (h : Records f m' m p v)
    (hrest : ∀ b p₁ v₁, Completes m' p v b p₁ v₁ → Records g (k' b) (k (f b)) p₁ v₁) :
    Records g (m' >>= k') (m >>= k) p v := by
  show Program.bind m k p v = ⟨(Program.bind m' k' p v).trace, (Program.bind m' k' p v).ram,
    (Program.bind m' k' p v).result.map g⟩
  unfold Records at h
  unfold Program.bind
  rw [h]
  cases hm : m' p v with
  | mk trace ram result =>
      cases result with
      | none => rfl
      | some b =>
          have hcompletes : Completes m' p v b (replay p trace) ram := by
            rw [Completes, hm]
            exact ⟨rfl, rfl, rfl⟩
          have hrest := hrest b _ _ hcompletes
          unfold Records at hrest
          simp only [Option.map_some]
          rw [hrest]

/-- Only the run counts. -/
theorem records_congr {n' : Program P W V β} {n : Program P W V α} {p₁ : P} {v₁ : V}
    (h' : m' p v = n' p₁ v₁) (h : m p v = n p₁ v₁) :
    Records f m' m p v ↔ Records f n' n p₁ v₁ := by
  rw [Records, Records, h', h]

theorem Records.completes [Durable P W] {b : β} (h : Records f m' m p v)
    (hrun : Completes m' p v b p' v') :
    Completes m p v (f b) p' v' := by
  obtain ⟨hresult, rfl, rfl⟩ := hrun
  unfold Records at h
  rw [Completes, h]
  exact ⟨by rw [hresult]; rfl, rfl, rfl⟩

/-- A program that records another one meets its specification. -/
theorem Records.wp_iff [Durable P W] {Q : α → P → V → Prop} {H : P → V → Prop}
    {C : Step W → P → Prop}
    (h : Records f m' m p v) :
    wp m' (fun b p' v' => Q (f b) p' v') H C p v ↔ wp m Q H C p v := by
  unfold Records at h
  unfold wp
  rw [h]
  cases (m' p v).result with
  | none => exact Iff.rfl
  | some b => exact Iff.rfl

end PowerLoss
