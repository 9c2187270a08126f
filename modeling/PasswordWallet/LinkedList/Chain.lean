import Mathlib.Data.List.Nodup

/-!
# Singly linked lists

`Chain next stop x l` says that the links lead from `x` along the list `l` and then to
`stop`, which is in no list.  From where the list begins it is the only one
(`Chain.unique`), so it never comes back to an element (`Chain.nodup`).
-/

namespace LinkedList

variable {ι : Type} {next next' : ι → ι} {stop x y : ι} {l l' : List ι}

def Chain (next : ι → ι) (stop : ι) : ι → List ι → Prop
  | x, [] => x = stop
  | x, y :: l => x = y ∧ y ≠ stop ∧ Chain next stop (next y) l

@[simp] theorem chain_nil : Chain next stop x [] ↔ x = stop := Iff.rfl

@[simp] theorem chain_cons :
    Chain next stop x (y :: l) ↔ x = y ∧ y ≠ stop ∧ Chain next stop (next y) l := Iff.rfl

instance Chain.decidable [DecidableEq ι] : ∀ x l, Decidable (Chain next stop x l)
  | x, [] => inferInstanceAs (Decidable (x = stop))
  | x, y :: l =>
      have := Chain.decidable (next y) l
      inferInstanceAs (Decidable (x = y ∧ y ≠ stop ∧ Chain next stop (next y) l))

theorem Chain.unique (h : Chain next stop x l) (h' : Chain next stop x l') : l = l' := by
  induction l generalizing x l' with
  | nil =>
      cases l' with
      | nil => rfl
      | cons y l' => exact absurd (h'.1.symm.trans h) h'.2.1
  | cons y l ih =>
      obtain ⟨rfl, hne, hrest⟩ := h
      cases l' with
      | nil => exact absurd h' hne
      | cons z l' =>
          obtain ⟨rfl, -, hrest'⟩ := h'
          rw [ih hrest hrest']

/-- What is behind an element is linked from there. -/
theorem Chain.drop (h : Chain next stop x l) (i : ℕ) (hi : i < l.length) :
    Chain next stop l[i] (l.drop i) := by
  induction l generalizing x i with
  | nil => exact absurd hi (Nat.not_lt_zero i)
  | cons y l ih =>
      cases i with
      | zero => exact ⟨rfl, h.2⟩
      | succ i => exact ih h.2.2 i (Nat.lt_of_succ_lt_succ hi)

theorem Chain.nodup (h : Chain next stop x l) : l.Nodup := by
  refine List.nodup_iff_injective_getElem.mpr fun i j heq => Fin.ext ?_
  have hi := h.drop i.val i.isLt
  have hj := h.drop j.val j.isLt
  rw [show l[i.val] = l[j.val] from heq] at hi
  have hlength := congrArg List.length (hi.unique hj)
  rw [List.length_drop, List.length_drop] at hlength
  omega

theorem Chain.next_getElem (h : Chain next stop x l) (i : ℕ) (hi : i < l.length) :
    next l[i] = l.getD (i + 1) stop := by
  induction l generalizing x i with
  | nil => exact absurd hi (Nat.not_lt_zero i)
  | cons y l ih =>
      cases i with
      | zero =>
          cases l with
          | nil => exact h.2.2
          | cons z l => exact h.2.2.1
      | succ i => exact ih h.2.2 i (Nat.lt_of_succ_lt_succ hi)

end LinkedList
