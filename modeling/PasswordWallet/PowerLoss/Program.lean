import Mathlib.Logic.Basic
import Mathlib.Data.List.Infix
import Mathlib.Logic.Relation
import Mathlib.Tactic.Cases

/-!
# Programs that may lose power

A device keeps a *durable* store, changed by single writes, and a *volatile*
state that a power loss destroys.  A `Program` run from both yields the writes
it makes, in order, the volatile state it leaves and its result; the durable
store it leaves is not stored anywhere, it is the replay of the writes.  A
power loss after any number of writes is then a prefix of the trace, and
nothing about the program has to be said twice to talk about it: `Cut` is
defined from the same run as the result.

A program may also *hang*: its result is `none` and nothing follows it.

Writes may be put in a `group`.  Grouping changes no run; it marks the writes
of a trace after which a power loss falls strictly inside the group, so that a
statement can speak of the power losses that fall between groups.
-/

namespace PowerLoss

/-- A durable store with the single writes that change it. -/
class Durable (P : Type) (W : outParam Type) where
  apply : P → W → P

/-- A write of a trace.  It is `inner` when more writes of its group follow. -/
structure Step (W : Type) where
  write : W
  inner : Bool
  deriving DecidableEq

/-- What one run does: its writes, the volatile state it leaves, and its
result, `none` when it hangs. -/
structure Run (W V α : Type) where
  trace : List (Step W)
  ram : V
  result : Option α

/-- A program over the durable store `P` and the volatile state `V`. -/
def Program (P W V α : Type) : Type := P → V → Run W V α

variable {P W V α β : Type} [Durable P W]

/-- The durable store after the writes of a trace. -/
def replay (p : P) (trace : List (Step W)) : P :=
  trace.foldl (fun current step => Durable.apply current step.write) p

@[simp] theorem replay_nil (p : P) : replay p ([] : List (Step W)) = p := rfl

@[simp] theorem replay_cons (p : P) (step : Step W) (trace : List (Step W)) :
    replay p (step :: trace) = replay (Durable.apply p step.write) trace := rfl

@[simp] theorem replay_append (p : P) (first second : List (Step W)) :
    replay p (first ++ second) = replay (replay p first) second := by
  simp [replay]

namespace Program

/-- Marks every write of a trace but the last as inner. -/
def closeGroup : List (Step W) → List (Step W)
  | [] => []
  | [last] => [⟨last.write, false⟩]
  | step :: next :: rest => ⟨step.write, true⟩ :: closeGroup (next :: rest)

theorem replay_closeGroup (p : P) (trace : List (Step W)) :
    replay p (closeGroup trace) = replay p trace := by
  induction trace using closeGroup.induct generalizing p with
  | case1 => rfl
  | case2 last => rfl
  | case3 step next rest ih => simpa [closeGroup] using ih _

/-- Sequencing: the second program starts on the store the first one's writes
leave, and is not reached if the first one hangs. -/
def bind (m : Program P W V α) (f : α → Program P W V β) : Program P W V β := fun p v =>
  match m p v with
  | ⟨trace, ram, none⟩ => ⟨trace, ram, none⟩
  | ⟨trace, ram, some a⟩ =>
      match f a (replay p trace) ram with
      | ⟨next, last, result⟩ => ⟨trace ++ next, last, result⟩

instance : Monad (Program P W V) where
  pure a := fun _ v => ⟨[], v, some a⟩
  bind := bind

/-- One durable write. -/
def write (w : W) : Program P W V Unit := fun _ v => ⟨[⟨w, false⟩], v, some ()⟩

/-- Reading the durable store. -/
def durable : Program P W V P := fun p v => ⟨[], v, some p⟩

/-- Reading the volatile state. -/
def ram : Program P W V V := fun _ v => ⟨[], v, some v⟩

/-- Replacing the volatile state. -/
def setRam (v : V) : Program P W V Unit := fun _ _ => ⟨[], v, some ()⟩

/-- The program that never ends. -/
def hang : Program P W V α := fun _ v => ⟨[], v, none⟩

/-- The same program, its writes put in one group. -/
def group (m : Program P W V α) : Program P W V α := fun p v =>
  match m p v with
  | ⟨trace, ram, result⟩ => ⟨closeGroup trace, ram, result⟩

/-- `body start`, `body (start + 1)`, … for `count` turns. -/
def forUp : ℕ → ℕ → (ℕ → Program P W V Unit) → Program P W V Unit
  | _, 0, _ => pure ()
  | start, count + 1, body => do
      body start
      forUp (start + 1) count body

end Program

/-! ## Power loss -/

/-- The durable stores a power loss can leave: the replay of a prefix of the
writes. -/
def Cut (m : Program P W V α) (p : P) (v : V) (p' : P) : Prop :=
  ∃ done, done <+: (m p v).trace ∧ p' = replay p done

/-- A power loss right after the write `step`. -/
def CutAfter (m : Program P W V α) (p : P) (v : V) (step : Step W) (p' : P) : Prop :=
  ∃ done, done ++ [step] <+: (m p v).trace ∧ p' = replay p (done ++ [step])

/-- The program runs to its end. -/
def Completes (m : Program P W V α) (p : P) (v : V) (a : α) (p' : P) (v' : V) : Prop :=
  (m p v).result = some a ∧ p' = replay p (m p v).trace ∧ v' = (m p v).ram

theorem cutAfter_take {m : Program P W V α} {p : P} {v : V} {k : ℕ} {step : Step W}
    (h : (m p v).trace[k]? = some step) :
    CutAfter m p v step (replay p ((m p v).trace.take (k + 1))) := by
  refine ⟨(m p v).trace.take k, ?_, ?_⟩
  all_goals rw [show [step] = (m p v).trace[k]?.toList by rw [h]; rfl, ← List.take_add_one]
  exact List.take_prefix _ _

theorem cut_iff {m : Program P W V α} {p : P} {v : V} {p' : P} :
    Cut m p v p' ↔ p' = p ∨ ∃ step, CutAfter m p v step p' := by
  constructor
  · rintro ⟨done, hdone, rfl⟩
    rcases List.eq_nil_or_concat done with rfl | ⟨front, last, rfl⟩
    · exact Or.inl rfl
    · rw [List.concat_eq_append] at hdone ⊢
      exact Or.inr ⟨last, front, hdone, rfl⟩
  · rintro (rfl | ⟨step, done, hdone, rfl⟩)
    · exact ⟨[], List.nil_prefix, rfl⟩
    · exact ⟨_, hdone, rfl⟩

/-- Power losses and ends depend on the run only. -/
theorem cut_congr {m m' : Program P W V α} {p : P} {v : V} {p' : P} (h : m p v = m' p v) :
    Cut m p v p' ↔ Cut m' p v p' := by
  rw [Cut, Cut, h]

theorem completes_congr {m m' : Program P W V α} {p : P} {v : V} {a : α} {p' : P} {v' : V}
    (h : m p v = m' p v) : Completes m p v a p' v' ↔ Completes m' p v a p' v' := by
  rw [Completes, Completes, h]

theorem Completes.cut {m : Program P W V α} {p : P} {v : V} {a : α} {p' : P} {v' : V}
    (h : Completes m p v a p' v') : Cut m p v p' :=
  ⟨_, List.prefix_rfl, h.2.1⟩

theorem Completes.unique {m : Program P W V α} {p : P} {v : V} {a a' : α} {p₁ p₂ : P} {v₁ v₂ : V}
    (h₁ : Completes m p v a p₁ v₁) (h₂ : Completes m p v a' p₂ v₂) :
    a = a' ∧ p₁ = p₂ ∧ v₁ = v₂ := by
  obtain ⟨hresult₁, rfl, rfl⟩ := h₁
  obtain ⟨hresult₂, rfl, rfl⟩ := h₂
  exact ⟨by rwa [hresult₁, Option.some.injEq] at hresult₂, rfl, rfl⟩

/-! ## Sequences -/

section Bind

variable {m : Program P W V α} {f : α → Program P W V β} {p : P} {v : V}

/-- A program that writes nothing only passes its result on. -/
theorem bind_silent {a : α} {v' : V} (h : m p v = ⟨[], v', some a⟩) :
    (m >>= f) p v = f a p v' := by
  show Program.bind m f p v = _
  rw [Program.bind, h]
  rfl

theorem Completes.bind {a : α} {b : β} {p₁ p₂ : P} {v₁ v₂ : V} (h₁ : Completes m p v a p₁ v₁)
    (h₂ : Completes (f a) p₁ v₁ b p₂ v₂) : Completes (m >>= f) p v b p₂ v₂ := by
  obtain ⟨hresult, rfl, rfl⟩ := h₁
  obtain ⟨hresult₂, rfl, rfl⟩ := h₂
  have hrun : (m >>= f) p v = ⟨(m p v).trace ++ (f a (replay p (m p v).trace) (m p v).ram).trace,
      (f a (replay p (m p v).trace) (m p v).ram).ram,
      (f a (replay p (m p v).trace) (m p v).ram).result⟩ := by
    show Program.bind m f p v = _
    unfold Program.bind
    cases hm : m p v with
    | mk trace ram result =>
        rw [hm] at hresult
        simp only at hresult
        rw [hresult]
  rw [Completes, hrun]
  exact ⟨hresult₂, (replay_append ..).symm, rfl⟩

/-- A power loss inside a sequence falls inside the first program, or inside the
second one after the first has ended. -/
theorem cut_bind {p' : P} (h : Cut (m >>= f) p v p') :
    Cut m p v p' ∨ ∃ a p₁ v₁, Completes m p v a p₁ v₁ ∧ Cut (f a) p₁ v₁ p' := by
  obtain ⟨done, hdone, rfl⟩ := h
  replace hdone : done <+: (Program.bind m f p v).trace := hdone
  unfold Program.bind at hdone
  cases hm : m p v with
  | mk trace ram result =>
      rw [hm] at hdone
      cases result with
      | none => exact Or.inl ⟨done, by rwa [hm], rfl⟩
      | some a =>
          simp only at hdone
          rcases List.prefix_or_prefix_of_prefix hdone (List.prefix_append trace _) with
            hle | ⟨rest, rfl⟩
          · exact Or.inl ⟨done, by rwa [hm], rfl⟩
          · refine Or.inr ⟨a, _, _, ⟨by rw [hm], rfl, rfl⟩, rest, ?_, ?_⟩
            · rw [hm]
              exact (List.prefix_append_right_inj trace).mp hdone
            · rw [hm, replay_append]

end Bind

/-! ## Interrupted runs -/

/-- A power loss that does not come right after a write that is not `good`. -/
def CutWhere (good : Step W → P → Prop) (m : Program P W V α) (p : P) (v : V) (p' : P) : Prop :=
  p' = p ∨ ∃ step, good step p' ∧ CutAfter m p v step p'

/-- The stores that any number of interrupted runs leave.  Each run is cut as
`cut` says, under a circumstance of its own and from a volatile state of its
own. -/
def Interrupted {ι : Type} (cut : ι → P → V → P → Prop) : P → P → Prop :=
  Relation.ReflTransGen fun p p' => ∃ i v, cut i p v p'

theorem Interrupted.invariant {ι : Type} {cut : ι → P → V → P → Prop} {D : P → Prop} {p p' : P}
    (hkept : ∀ i p v p', D p → cut i p v p' → D p') (h : Interrupted cut p p') (hstart : D p) :
    D p' := by
  induction h with
  | refl => exact hstart
  | tail _ hstep ih =>
      obtain ⟨i, v, hcut⟩ := hstep
      exact hkept i _ v _ ih hcut

theorem CutAfter.applied {m : Program P W V α} {p : P} {v : V} {step : Step W} {p' : P}
    (h : CutAfter m p v step p') : ∃ before, p' = Durable.apply before step.write := by
  obtain ⟨done, -, rfl⟩ := h
  exact ⟨replay p done, by simp⟩

end PowerLoss
