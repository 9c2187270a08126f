import Mathlib.Data.List.Chain
import Mathlib.Data.Nat.Notation

/-!
# Patching a memory slice by slice

A memory is a list of values, and a slice holds consecutive values for it.  A
patch writes slices one after the other.  Slices that are `Separated` do not
meet, so what a patch leaves at an address is decided by the one slice that has
it, or by the memory if none does.
-/

namespace Patching

variable {α : Type*}

/-- Consecutive values, from the address `first` on. -/
structure Slice (α : Type*) where
  first : ℕ
  second : List α
  deriving DecidableEq

namespace Slice

/-- The first address after the slice. -/
def stop (s : Slice α) : ℕ := s.first + s.second.length

/-- The addresses of the slice. -/
def Has (s : Slice α) (x : ℕ) : Prop := s.first ≤ x ∧ x < s.stop

/-- The slice holds what the memory has there. -/
def Agrees (s : Slice α) (mem : List α) : Prop :=
  ∀ i < s.second.length, s.second[i]? = mem[s.first + i]?

theorem first_le_stop (s : Slice α) : s.first ≤ s.stop := Nat.le_add_right _ _

theorem has_first {s : Slice α} (h : s.second ≠ []) : s.Has s.first :=
  ⟨le_rfl, Nat.lt_add_of_pos_right (List.length_pos_iff.mpr h)⟩

theorem has_last {s : Slice α} (h : s.second ≠ []) : s.Has (s.stop - 1) := by
  have hpos := List.length_pos_iff.mpr h
  unfold Has stop
  omega

theorem agrees_singleton {a : ℕ} {b : α} {mem : List α} :
    Agrees ⟨a, [b]⟩ mem ↔ mem[a]? = some b := by
  constructor
  · intro h
    exact (h 0 (by simp)).symm
  · intro h i hi
    obtain rfl : i = 0 := by simpa using hi
    exact h.symm

theorem agrees_append {a : ℕ} {first second : List α} {mem : List α} :
    Agrees ⟨a, first ++ second⟩ mem ↔
      Agrees ⟨a, first⟩ mem ∧ Agrees ⟨a + first.length, second⟩ mem := by
  unfold Agrees
  simp only [List.length_append]
  constructor
  · intro h
    refine ⟨fun i hi => ?_, fun i hi => ?_⟩
    · rw [← h i (by omega), List.getElem?_append_left hi]
    · rw [Nat.add_assoc, ← h (first.length + i) (by omega), List.getElem?_append_right (by omega),
        Nat.add_sub_cancel_left]
  · rintro ⟨hfirst, hsecond⟩ i hi
    by_cases h : i < first.length
    · rw [List.getElem?_append_left h, hfirst i h]
    · rw [List.getElem?_append_right (by omega), hsecond (i - first.length) (by omega),
        Nat.add_assoc, Nat.add_sub_of_le (by omega)]

/-- Agreement, said of the addresses. -/
theorem agrees_iff {s : Slice α} {mem : List α} :
    s.Agrees mem ↔ ∀ x, s.Has x → s.second[x - s.first]? = mem[x]? := by
  unfold Agrees Has stop
  constructor
  · rintro h x ⟨hfirst, hstop⟩
    rw [h (x - s.first) (by omega), Nat.add_sub_of_le hfirst]
  · intro h i hi
    rw [← h (s.first + i) (by omega), Nat.add_sub_cancel_left]

end Slice

/-! ## Writing -/

/-- Writes values from an address on; what falls outside the memory is lost. -/
def overwrite (mem : List α) (addr : ℕ) : List α → List α
  | [] => mem
  | b :: rest => overwrite (mem.set addr b) (addr + 1) rest

@[simp] theorem length_overwrite (mem : List α) (addr : ℕ) (data : List α) :
    (overwrite mem addr data).length = mem.length := by
  induction data generalizing mem addr with
  | nil => rfl
  | cons b rest ih => rw [overwrite, ih, List.length_set]

theorem overwrite_append (mem : List α) (addr : ℕ) (first second : List α) :
    overwrite mem addr (first ++ second) =
      overwrite (overwrite mem addr first) (addr + first.length) second := by
  induction first generalizing mem addr with
  | nil => rfl
  | cons b rest ih =>
      rw [List.cons_append, overwrite, overwrite, ih, List.length_cons,
        Nat.add_right_comm addr, Nat.add_assoc addr]

theorem getElem?_overwrite_of_not {mem : List α} {addr x : ℕ} {data : List α}
    (h : ¬ (addr ≤ x ∧ x < addr + data.length)) : (overwrite mem addr data)[x]? = mem[x]? := by
  induction data generalizing mem addr with
  | nil => rfl
  | cons b rest ih =>
      rw [List.length_cons] at h
      rw [overwrite, ih (by omega), List.getElem?_set_ne (by omega)]

theorem getElem?_overwrite {mem : List α} {addr x : ℕ} {data : List α} (hmem : x < mem.length)
    (h : addr ≤ x ∧ x < addr + data.length) : (overwrite mem addr data)[x]? = data[x - addr]? := by
  induction data generalizing mem addr with
  | nil => exact absurd h.2 (by simpa using h.1)
  | cons b rest ih =>
      rw [List.length_cons] at h
      rw [overwrite]
      by_cases hx : x = addr
      · subst hx
        rw [getElem?_overwrite_of_not (by omega), List.getElem?_set_self hmem, Nat.sub_self,
          List.getElem?_cons_zero]
      · rw [ih (by simpa using hmem) (by omega), show x - addr = x - (addr + 1) + 1 by omega,
          List.getElem?_cons_succ]

/-- What is written can be read. -/
theorem take_drop_overwrite {mem : List α} {addr : ℕ} {data : List α}
    (h : addr + data.length ≤ mem.length) :
    ((overwrite mem addr data).drop addr).take data.length = data := by
  refine List.ext_getElem? fun i => ?_
  by_cases hi : i < data.length
  · rw [List.getElem?_take_of_lt hi, List.getElem?_drop, getElem?_overwrite (by omega) (by omega),
      Nat.add_sub_cancel_left]
  · rw [List.getElem?_take_eq_none (Nat.not_lt.1 hi), List.getElem?_eq_none (Nat.not_lt.1 hi)]

/-- Writes the slices, one after the other. -/
def patch (slices : List (Slice α)) (mem : List α) : List α :=
  slices.foldl (fun mem s => overwrite mem s.first s.second) mem

@[simp] theorem patch_nil (mem : List α) : patch [] mem = mem := rfl

@[simp] theorem patch_cons (s : Slice α) (slices : List (Slice α)) (mem : List α) :
    patch (s :: slices) mem = patch slices (overwrite mem s.first s.second) := rfl

/-! ## Separated slices -/

/-- Each slice begins after an address that follows the ones before. -/
def Separated (slices : List (Slice α)) : Prop :=
  slices.Pairwise fun s t => s.stop < t.first

/-- Some slice has the address. -/
def Covers (slices : List (Slice α)) (x : ℕ) : Prop := ∃ s ∈ slices, s.Has x

theorem covers_cons {s : Slice α} {slices : List (Slice α)} {x : ℕ} :
    Covers (s :: slices) x ↔ s.Has x ∨ Covers slices x := by
  simp [Covers]

theorem covers_append {first second : List (Slice α)} {x : ℕ} :
    Covers (first ++ second) x ↔ Covers first x ∨ Covers second x := by
  simp only [Covers, List.mem_append, or_and_right, exists_or]

variable {slices : List (Slice α)} {mem : List α} {x : ℕ}

theorem getElem?_patch_of_not (h : ¬ Covers slices x) : (patch slices mem)[x]? = mem[x]? := by
  induction slices generalizing mem with
  | nil => rfl
  | cons s rest ih =>
      rw [covers_cons, not_or] at h
      rw [patch_cons, ih h.2, getElem?_overwrite_of_not h.1]

theorem getElem?_patch (hsep : Separated slices) (hmem : x < mem.length) {s : Slice α}
    (hs : s ∈ slices) (hx : s.Has x) : (patch slices mem)[x]? = s.second[x - s.first]? := by
  induction slices generalizing mem with
  | nil => simp at hs
  | cons t rest ih =>
      obtain ⟨hhead, htail⟩ := List.pairwise_cons.mp hsep
      rw [patch_cons]
      rcases List.mem_cons.mp hs with rfl | hrest
      · have hlater : ¬ Covers rest x := by
          rintro ⟨u, hu, hux⟩
          exact absurd ((hhead u hu).trans_le hux.1) hx.2.not_gt
        rw [getElem?_patch_of_not hlater, getElem?_overwrite hmem hx]
      · exact ih htail (by simpa using hmem) hrest

/-- A patch by separated slices gives the target where it is asked for, exactly
when the slices agree with the target there and the memory does elsewhere. -/
theorem patch_eq_iff (hsep : Separated slices) (hcovers : ∀ x, Covers slices x → x < mem.length)
    {target : List α} {Q : ℕ → Prop} :
    (∀ x, Q x → (patch slices mem)[x]? = target[x]?) ↔
      (∀ s ∈ slices, ∀ x, s.Has x → Q x → s.second[x - s.first]? = target[x]?) ∧
        ∀ x, Q x → ¬ Covers slices x → mem[x]? = target[x]? := by
  constructor
  · intro h
    refine ⟨fun s hs x hx hQ => ?_, fun x hQ hx => ?_⟩
    · rw [← h x hQ, getElem?_patch hsep (hcovers x ⟨s, hs, hx⟩) hs hx]
    · rw [← h x hQ, getElem?_patch_of_not hx]
  · rintro ⟨hslices, hothers⟩ x hQ
    by_cases hx : Covers slices x
    · have hlt := hcovers x hx
      obtain ⟨s, hs, hhas⟩ := hx
      rw [getElem?_patch hsep hlt hs hhas, hslices s hs x hhas hQ]
    · rw [getElem?_patch_of_not hx, hothers x hQ hx]

end Patching
