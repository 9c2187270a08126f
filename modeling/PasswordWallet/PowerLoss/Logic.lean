import PasswordWallet.PowerLoss.Program

/-!
# A logic for programs that may lose power

`wp m Q H C p v` says what a run of `m` from the durable store `p` and the
volatile state `v` does, whatever it does:

* if it returns `a`, then `Q a` holds of the state it leaves;
* if it hangs, then `H` holds of the state it hangs in;
* after each write `step` it makes, `C step` holds of the durable store, so
  that a power loss right there leaves a store satisfying `C step`.

With `H` false the program is shown to end; with `H` true it may hang.  The
rules below compute `wp` through the program constructs, so a specification is
proved by rewriting with them and used with `wp_mono`.
-/

namespace PowerLoss

variable {P W V α β : Type} [Durable P W]

/-- `C step` holds of the durable store after each write `step` of the trace. -/
def Along (C : Step W → P → Prop) : P → List (Step W) → Prop
  | _, [] => True
  | p, step :: rest =>
      C step (Durable.apply p step.write) ∧ Along C (Durable.apply p step.write) rest

@[simp] theorem along_append {C : Step W → P → Prop} {p : P} {first second : List (Step W)} :
    Along C p (first ++ second) ↔ Along C p first ∧ Along C (replay p first) second := by
  induction first generalizing p with
  | nil => simp [Along]
  | cons step rest ih => simp [Along, ih, and_assoc]

theorem Along.mono {C C' : Step W → P → Prop} {p : P} {trace : List (Step W)}
    (h : Along C p trace) (himp : ∀ step p', C step p' → C' step p') : Along C' p trace := by
  induction trace generalizing p with
  | nil => trivial
  | cons step rest ih => exact ⟨himp _ _ h.1, ih h.2⟩

theorem Along.and {C C' : Step W → P → Prop} {p : P} {trace : List (Step W)}
    (h : Along C p trace) (h' : Along C' p trace) :
    Along (fun step p' => C step p' ∧ C' step p') p trace := by
  induction trace generalizing p with
  | nil => trivial
  | cons step rest ih => exact ⟨⟨h.1, h'.1⟩, ih h.2 h'.2⟩

theorem along_true (p : P) (trace : List (Step W)) :
    Along (fun _ _ => True) p trace := by
  induction trace generalizing p with
  | nil => trivial
  | cons step rest ih => exact ⟨trivial, ih _⟩

/-- A property of single writes, carried along a trace, bounds how far the
store can move from where it started. -/
theorem Along.reach {F : W → Prop} {R : P → P → Prop} (hrefl : ∀ p, R p p)
    (htrans : ∀ p₁ p₂ p₃, R p₁ p₂ → R p₂ p₃ → R p₁ p₃)
    (hstep : ∀ w p, F w → R p (Durable.apply p w)) {p : P} {trace : List (Step W)}
    (h : Along (fun step _ => F step.write) p trace) :
    Along (fun _ p' => R p p') p trace ∧ R p (replay p trace) := by
  induction trace generalizing p with
  | nil => exact ⟨trivial, hrefl p⟩
  | cons step rest ih =>
      obtain ⟨halong, hlast⟩ := ih h.2
      have hfirst := hstep step.write p h.1
      exact ⟨⟨hfirst, halong.mono fun _ _ => htrans _ _ _ hfirst⟩, htrans _ _ _ hfirst hlast⟩

/-- What a run does, whatever it does. -/
def wp (m : Program P W V α) (Q : α → P → V → Prop) (H : P → V → Prop)
    (C : Step W → P → Prop) (p : P) (v : V) : Prop :=
  Along C p (m p v).trace ∧
    match (m p v).result with
    | some a => Q a (replay p (m p v).trace) (m p v).ram
    | none => H (replay p (m p v).trace) (m p v).ram

section Rules

variable {Q Q' : α → P → V → Prop} {H H' : P → V → Prop} {C C' : Step W → P → Prop}
  {p : P} {v : V}

theorem wp_mono {m : Program P W V α} (h : wp m Q H C p v)
    (hreturn : ∀ a p' v', Q a p' v' → Q' a p' v') (hhang : ∀ p' v', H p' v' → H' p' v')
    (hcut : ∀ step p', C step p' → C' step p') : wp m Q' H' C' p v := by
  refine ⟨h.1.mono hcut, ?_⟩
  have h := h.2
  cases hresult : (m p v).result with
  | none => rw [hresult] at h; exact hhang _ _ h
  | some a => rw [hresult] at h; exact hreturn _ _ _ h

/-- `wp_mono` when only the result is weakened. -/
theorem wp_imp {m : Program P W V α} (h : wp m Q H C p v)
    (hreturn : ∀ a p' v', Q a p' v' → Q' a p' v') : wp m Q' H C p v :=
  wp_mono h hreturn (fun _ _ => id) fun _ _ => id

/-- What holds of every outcome. -/
theorem wp_always (m : Program P W V α) (hreturn : ∀ a p' v', Q a p' v')
    (hhang : ∀ p' v', H p' v') :
    wp m Q H (fun _ _ => True) p v := by
  refine ⟨along_true _ _, ?_⟩
  cases (m p v).result with
  | none => exact hhang _ _
  | some a => exact hreturn _ _ _

theorem wp_and {m : Program P W V α} (h : wp m Q H C p v) (h' : wp m Q' H' C' p v) :
    wp m (fun a p' v' => Q a p' v' ∧ Q' a p' v') (fun p' v' => H p' v' ∧ H' p' v')
      (fun step p' => C step p' ∧ C' step p') p v := by
  refine ⟨h.1.and h'.1, ?_⟩
  have h := h.2
  have h' := h'.2
  cases hresult : (m p v).result with
  | none => rw [hresult] at h h'; exact ⟨h, h'⟩
  | some a => rw [hresult] at h h'; exact ⟨h, h'⟩

@[simp] theorem wp_pure (a : α) : wp (pure a : Program P W V α) Q H C p v ↔ Q a p v := by
  show Along C p [] ∧ Q a p v ↔ _
  simp [Along]

@[simp] theorem wp_bind {Q : β → P → V → Prop} (m : Program P W V α)
    (f : α → Program P W V β) :
    wp (m >>= f) Q H C p v ↔ wp m (fun a p' v' => wp (f a) Q H C p' v') H C p v := by
  show wp (Program.bind m f) Q H C p v ↔ _
  unfold wp Program.bind
  cases hm : m p v with
  | mk trace ram result =>
      cases result with
      | none => simp
      | some a =>
          simp only
          cases hf : f a (replay p trace) ram with
          | mk next last result => cases result <;> simp [and_assoc]

@[simp] theorem wp_write {Q : Unit → P → V → Prop} (w : W) :
    wp (Program.write w : Program P W V Unit) Q H C p v ↔
      C ⟨w, false⟩ (Durable.apply p w) ∧ Q () (Durable.apply p w) v := by
  simp [wp, Program.write, Along]

@[simp] theorem wp_durable {Q : P → P → V → Prop} :
    wp (Program.durable : Program P W V P) Q H C p v ↔ Q p p v := by
  show Along C p [] ∧ Q p p v ↔ _
  simp [Along]

@[simp] theorem wp_ram {Q : V → P → V → Prop} :
    wp (Program.ram : Program P W V V) Q H C p v ↔ Q v p v := by
  show Along C p [] ∧ Q v p v ↔ _
  simp [Along]

@[simp] theorem wp_setRam {Q : Unit → P → V → Prop} (v' : V) :
    wp (Program.setRam v' : Program P W V Unit) Q H C p v ↔ Q () p v' := by
  show Along C p [] ∧ Q () p v' ↔ _
  simp [Along]

@[simp] theorem wp_hang : wp (Program.hang : Program P W V α) Q H C p v ↔ H p v := by
  show Along C p [] ∧ H p v ↔ _
  simp [Along]

@[simp] theorem wp_ite {c : Prop} [Decidable c] (m m' : Program P W V α) :
    wp (if c then m else m') Q H C p v ↔
      (c → wp m Q H C p v) ∧ (¬ c → wp m' Q H C p v) := by
  by_cases hc : c <;> simp [hc]

@[simp] theorem wp_dite {c : Prop} [Decidable c] (m : c → Program P W V α)
    (m' : ¬ c → Program P W V α) :
    wp (if h : c then m h else m' h) Q H C p v ↔
      (∀ h : c, wp (m h) Q H C p v) ∧ (∀ h : ¬ c, wp (m' h) Q H C p v) := by
  by_cases hc : c <;> simp [hc]

/-- A loop keeps its invariant if each turn does. -/
theorem wp_forUp (body : ℕ → Program P W V Unit) (Inv : ℕ → P → V → Prop) (start count : ℕ)
    (hstart : Inv start p v)
    (hbody : ∀ i p' v', start ≤ i → i < start + count → Inv i p' v' →
      wp (body i) (fun _ p'' v'' => Inv (i + 1) p'' v'') H C p' v') :
    wp (Program.forUp start count body) (fun _ p' v' => Inv (start + count) p' v') H C p v := by
  induction count generalizing start p v with
  | zero => exact (wp_pure (P := P) (V := V) ()).mpr hstart
  | succ count ih =>
      rw [Program.forUp, wp_bind]
      refine wp_imp (hbody start p v le_rfl (by omega) hstart) fun _ p' v' hinv => ?_
      have hrest := ih (start + 1) hinv fun i p'' v'' hle hlt =>
        hbody i p'' v'' (by omega) (by omega)
      rwa [Nat.add_right_comm] at hrest

/-- What every write keeps holds between the start and every point after it. -/
theorem wp_reach {m : Program P W V α} {F : W → Prop} {R : P → P → Prop} (hrefl : ∀ p, R p p)
    (htrans : ∀ p₁ p₂ p₃, R p₁ p₂ → R p₂ p₃ → R p₁ p₃)
    (hstep : ∀ w p, F w → R p (Durable.apply p w))
    (h : wp m Q H (fun step _ => F step.write) p v) :
    wp m (fun a p' v' => R p p' ∧ Q a p' v') H (fun step p' => F step.write ∧ R p p') p v := by
  obtain ⟨halong, hlast⟩ := h.1.reach hrefl htrans hstep
  refine ⟨h.1.and halong, ?_⟩
  have h := h.2
  cases hresult : (m p v).result with
  | none => rw [hresult] at h; exact h
  | some a => rw [hresult] at h; exact ⟨hlast, h⟩

/-! ## Groups -/

theorem along_closeGroup {C : W → P → Prop} {trace : List (Step W)} :
    Along (fun step p' => C step.write p') p (Program.closeGroup trace) ↔
      Along (fun step p' => C step.write p') p trace := by
  induction trace using Program.closeGroup.induct generalizing p with
  | case1 => rfl
  | case2 last => rfl
  | case3 step next rest ih => exact and_congr_right fun _ => ih

theorem along_closeGroup_outside {D : P → Prop} {trace : List (Step W)}
    (hlast : D (replay p trace)) :
    Along (fun step p' => step.inner = false → D p') p (Program.closeGroup trace) := by
  induction trace using Program.closeGroup.induct generalizing p with
  | case1 => trivial
  | case2 last => exact ⟨fun _ => hlast, trivial⟩
  | case3 step next rest ih => exact ⟨fun h => absurd h (by simp), ih hlast⟩

/-- What is asked of the writes themselves does not see the grouping. -/
theorem wp_group {D : W → P → Prop} (m : Program P W V α) :
    wp (Program.group m) Q H (fun step p' => D step.write p') p v ↔
      wp m Q H (fun step p' => D step.write p') p v := by
  unfold wp Program.group
  cases m p v with
  | mk trace ram result => simp only [along_closeGroup, Program.replay_closeGroup]

/-- What is asked outside groups only has to hold at the end of the group. -/
theorem wp_group_outside {D : P → Prop} {m : Program P W V α}
    (h : wp m (fun a p' v' => D p' ∧ Q a p' v') (fun p' v' => D p' ∧ H p' v')
      (fun _ _ => True) p v) :
    wp (Program.group m) Q H (fun step p' => step.inner = false → D p') p v := by
  have h := h.2
  unfold wp Program.group
  cases hm : m p v with
  | mk trace ram result =>
      rw [hm] at h
      simp only [Program.replay_closeGroup]
      cases result with
      | none => exact ⟨along_closeGroup_outside h.1, h.2⟩
      | some a => exact ⟨along_closeGroup_outside h.1, h.2⟩

/-- A group with a property of its writes, and one of what it leaves. -/
theorem wp_group_leaves {F : W → Prop} {D : P → Prop} {m : Program P W V α}
    (h : wp m (fun a p' v' => D p' ∧ Q a p' v') (fun p' v' => D p' ∧ H p' v')
      (fun step _ => F step.write) p v) :
    wp (Program.group m) Q H (fun step p' => F step.write ∧ (step.inner = false → D p')) p v := by
  have houtside := wp_group_outside (wp_mono h (fun _ _ _ => id) (fun _ _ => id)
    fun _ _ _ => trivial)
  have hwrites := (wp_group (D := fun w _ => F w) m).mpr h
  exact wp_mono (wp_and hwrites houtside) (fun _ _ _ h => h.2) (fun _ _ h => h.2) fun _ _ h => h

/-! ## From the logic to runs -/

theorem Along.at_write {trace done : List (Step W)} {step : Step W}
    (h : Along C p trace) (hfront : done ++ [step] <+: trace) :
    C step (replay p (done ++ [step])) := by
  obtain ⟨rest, rfl⟩ := hfront
  rw [along_append, along_append] at h
  simpa [Along] using h.1.2.1

theorem wp_cutAfter {m : Program P W V α} {step : Step W} {p' : P} (h : wp m Q H C p v)
    (hcut : CutAfter m p v step p') : C step p' := by
  obtain ⟨done, hfront, rfl⟩ := hcut
  exact h.1.at_write hfront

theorem wp_cut {m : Program P W V α} {D : P → Prop} {p' : P}
    (h : wp m Q H (fun _ => D) p v) (hstart : D p) (hcut : Cut m p v p') : D p' := by
  rcases cut_iff.mp hcut with rfl | ⟨step, hstep⟩
  · exact hstart
  · exact wp_cutAfter h hstep

/-- What every write of a run satisfies. -/
theorem wp_trace {m : Program P W V α} {F : W → Prop}
    (h : wp m Q H (fun step _ => F step.write) p v) : ∀ step ∈ (m p v).trace, F step.write := by
  intro step hmem
  obtain ⟨front, rest, hsplit⟩ := List.append_of_mem hmem
  exact h.1.at_write (show front ++ [step] <+: _ from ⟨rest, by simp [hsplit]⟩)

theorem wp_completes {m : Program P W V α} {a : α} {p' : P} {v' : V} (h : wp m Q H C p v)
    (hrun : Completes m p v a p' v') : Q a p' v' := by
  obtain ⟨hresult, rfl, rfl⟩ := hrun
  have h := h.2
  rwa [hresult] at h

/-- A program that cannot hang completes. -/
theorem exists_completes {m : Program P W V α} (h : wp m Q (fun _ _ => False) C p v) :
    ∃ a p' v', Completes m p v a p' v' ∧ Q a p' v' := by
  have h := h.2
  cases hresult : (m p v).result with
  | none => rw [hresult] at h; exact h.elim
  | some a => rw [hresult] at h; exact ⟨a, _, _, ⟨hresult, rfl, rfl⟩, h⟩

/-- A run can be named: the state a program ends in is the state it completes
in. -/
theorem wp_of_completes {m : Program P W V α} {a : α} {p' : P} {v' : V}
    (hrun : Completes m p v a p' v') (hreturn : Q a p' v') :
    wp m Q H (fun _ _ => True) p v := by
  obtain ⟨hresult, rfl, rfl⟩ := hrun
  refine ⟨along_true _ _, ?_⟩
  rwa [hresult]

end Rules

end PowerLoss
