import Mathlib.Data.List.Nodup
import Mathlib.Data.Nat.Notation

/-!
# Flags in the words of a memory

A flag has a place, the address of a word and a position in it.  Writing a flag leaves
all the others as they are, so flags written one after the other at different places are
all there afterwards.
-/

namespace Packing

variable {w : ℕ}

/-- A position in the word at an address. -/
structure Place where
  addr : ℕ
  pos : ℕ
  deriving DecidableEq

/-- The memory has the place. -/
def Place.Inside (p : Place) (mem : List (BitVec w)) : Prop := p.addr < mem.length ∧ p.pos < w

/-- The flag at a place, false outside the memory. -/
def bitAt (mem : List (BitVec w)) (p : Place) : Bool := (mem.getD p.addr 0).getLsbD p.pos

/-- The word with the flag at a position written. -/
def withBit (word : BitVec w) (pos : ℕ) (value : Bool) : BitVec w :=
  if value then word ||| BitVec.twoPow w pos else word &&& ~~~BitVec.twoPow w pos

/-- Writes a flag; outside the memory it is lost. -/
def putBit (mem : List (BitVec w)) (p : Place) (value : Bool) : List (BitVec w) :=
  mem.modify p.addr fun word => withBit word p.pos value

/-- Writes flags one after the other. -/
def putBits (mem : List (BitVec w)) : List (Place × Bool) → List (BitVec w)
  | [] => mem
  | flag :: rest => putBits (putBit mem flag.1 flag.2) rest

/-- The memories differ at most at the places of a list. -/
def DifferAt (places : List Place) (mem mem' : List (BitVec w)) : Prop :=
  mem'.length = mem.length ∧ ∀ p ∉ places, bitAt mem' p = bitAt mem p

theorem getLsbD_withBit_self {word : BitVec w} {pos : ℕ} (hpos : pos < w) (value : Bool) :
    (withBit word pos value).getLsbD pos = value := by
  cases value <;> simp [withBit, hpos]

theorem getLsbD_withBit_of_ne {word : BitVec w} {pos i : ℕ} (hne : i ≠ pos) (value : Bool) :
    (withBit word pos value).getLsbD i = word.getLsbD i := by
  have hmask : (BitVec.twoPow w pos).getLsbD i = false := by
    rw [BitVec.getLsbD_twoPow, decide_eq_false hne.symm, Bool.and_false]
  cases value
  · by_cases hi : i < w
    · simp only [withBit, Bool.false_eq_true, if_false, BitVec.getLsbD_and, BitVec.getLsbD_not,
        hmask, decide_eq_true hi, Bool.not_false, Bool.and_true]
    · rw [BitVec.getLsbD_of_ge _ _ (Nat.not_lt.mp hi), BitVec.getLsbD_of_ge _ _ (Nat.not_lt.mp hi)]
  · rw [withBit, if_pos rfl, BitVec.getLsbD_or, hmask, Bool.or_false]

@[simp]
theorem length_putBit (mem : List (BitVec w)) (p : Place) (value : Bool) :
    (putBit mem p value).length = mem.length := List.length_modify ..

theorem bitAt_putBit_self {mem : List (BitVec w)} {p : Place} (hp : p.Inside mem) (value : Bool) :
    bitAt (putBit mem p value) p = value := by
  have haddr : p.addr < (putBit mem p value).length := by rw [length_putBit]; exact hp.1
  rw [bitAt, List.getD_eq_getElem?_getD, List.getElem?_eq_getElem haddr, Option.getD_some]
  simp only [putBit, List.getElem_modify_eq]
  exact getLsbD_withBit_self hp.2 value

theorem bitAt_putBit_of_ne {mem : List (BitVec w)} {p q : Place} (hne : q ≠ p) (value : Bool) :
    bitAt (putBit mem p value) q = bitAt mem q := by
  unfold bitAt putBit
  rw [List.getD_eq_getElem?_getD, List.getD_eq_getElem?_getD, List.getElem?_modify]
  by_cases haddr : p.addr = q.addr
  · have hpos : q.pos ≠ p.pos := by
      intro hpos
      exact hne (by cases p; cases q; simp_all)
    simp only [haddr, if_true]
    cases mem[q.addr]? with
    | none => rfl
    | some word => exact getLsbD_withBit_of_ne hpos value
  · simp only [haddr, if_false, id_map']

@[simp]
theorem length_putBits (mem : List (BitVec w)) (flags : List (Place × Bool)) :
    (putBits mem flags).length = mem.length := by
  induction flags generalizing mem with
  | nil => rfl
  | cons flag rest ih => rw [putBits, ih, length_putBit]

theorem bitAt_putBits_of_notMem {mem : List (BitVec w)} {flags : List (Place × Bool)} {p : Place}
    (hp : p ∉ flags.map Prod.fst) : bitAt (putBits mem flags) p = bitAt mem p := by
  induction flags generalizing mem with
  | nil => rfl
  | cons flag rest ih =>
      rw [List.map_cons, List.mem_cons, not_or] at hp
      rw [putBits, ih hp.2, bitAt_putBit_of_ne hp.1]

/-- Each of the flags is there, if no place is written twice. -/
theorem bitAt_putBits_of_mem {mem : List (BitVec w)} {flags : List (Place × Bool)}
    (hnodup : (flags.map Prod.fst).Nodup) (hinside : ∀ flag ∈ flags, flag.1.Inside mem)
    {flag : Place × Bool} (hflag : flag ∈ flags) : bitAt (putBits mem flags) flag.1 = flag.2 := by
  induction flags generalizing mem with
  | nil => cases hflag
  | cons head rest ih =>
      rw [List.map_cons, List.nodup_cons] at hnodup
      rcases List.mem_cons.mp hflag with rfl | hrest
      · rw [putBits, bitAt_putBits_of_notMem hnodup.1]
        exact bitAt_putBit_self (hinside flag List.mem_cons_self) flag.2
      · apply ih hnodup.2 _ hrest
        intro other hother
        have := hinside other (List.mem_cons_of_mem _ hother)
        exact ⟨by rw [length_putBit]; exact this.1, this.2⟩

theorem differAt_putBits (mem : List (BitVec w)) (flags : List (Place × Bool)) :
    DifferAt (flags.map Prod.fst) mem (putBits mem flags) :=
  ⟨length_putBits mem flags, fun _ hp => bitAt_putBits_of_notMem hp⟩

end Packing
