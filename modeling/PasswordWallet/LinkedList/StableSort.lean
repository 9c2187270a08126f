import Mathlib.Data.List.Sort
import PasswordWallet.LinkedList.Linked

/-!
# Sorting by exchanges of neighbours

The stable sort of a list, `List.insertionSort`, is the same before and after an
exchange of two neighbours that are strictly out of order (`insertionSort_exchange`).  So
a sort that does nothing but such exchanges, and ends with a list in order, ends with the
stable sort of the list it began with.

What such exchanges do to the links of a doubly linked list stays with the links of its
elements (`Links.AgreeOff`).
-/

namespace LinkedList

variable {ι : Type*}

/-! ## Exchanges -/

section Exchange

variable {r : ι → ι → Prop} [DecidableRel r] {a b : ι} {front back : List ι}

theorem orderedInsert_comm (htotal : ∀ a b, r a b ∨ r b a)
    (htrans : ∀ a b c, r a b → r b c → r a c) (hab : ¬ r a b) (l : List ι) :
    (l.orderedInsert r b).orderedInsert r a = (l.orderedInsert r a).orderedInsert r b := by
  have hba : r b a := (htotal a b).resolve_left hab
  induction l with
  | nil => simp [hab, hba]
  | cons c l ih =>
      by_cases hac : r a c
      · have hbc : r b c := htrans _ _ _ hba hac
        simp [hab, hba, hac, hbc]
      · by_cases hbc : r b c
        · simp [hab, hac, hbc]
        · simp [hac, hbc, ih]

variable (htotal : ∀ a b, r a b ∨ r b a) (htrans : ∀ a b c, r a b → r b c → r a c)
include htotal htrans

/-- Two neighbours strictly out of order are exchanged. -/
theorem insertionSort_exchange (hab : ¬ r a b) :
    (front ++ a :: b :: back).insertionSort r = (front ++ b :: a :: back).insertionSort r := by
  induction front with
  | nil => exact orderedInsert_comm htotal htrans hab _
  | cons c front ih => rw [List.cons_append, List.cons_append, List.insertionSort_cons,
      List.insertionSort_cons, ih]

/-- An element is taken in front of those that it comes strictly before. -/
theorem insertionSort_move {passed : List ι} (h : ∀ b ∈ passed, ¬ r b a) :
    (front ++ a :: (passed ++ back)).insertionSort r =
      (front ++ (passed ++ a :: back)).insertionSort r := by
  induction passed generalizing front with
  | nil => rfl
  | cons b passed ih =>
      have hrest := @ih (front ++ [b]) fun c hc => h c (List.mem_cons_of_mem _ hc)
      rw [List.append_assoc, List.append_assoc, List.singleton_append, List.singleton_append]
        at hrest
      rw [List.cons_append, List.cons_append, ← hrest,
        insertionSort_exchange htotal htrans (h b List.mem_cons_self)]

end Exchange

/-! ## The links of other elements -/

/-- The links differ for elements of `S` only. -/
def Links.AgreeOff (S : Set ι) (s s' : Links ι) : Prop :=
  ∀ z ∉ S, s'.next z = s.next z ∧ s'.prev z = s.prev z

variable {S : Set ι} {s s' s'' : Links ι} {x y e : ι} {l₁ l₂ : List ι}

theorem Links.AgreeOff.refl (S : Set ι) (s : Links ι) : s.AgreeOff S s := fun _ _ => ⟨rfl, rfl⟩

theorem Links.AgreeOff.trans (h : s.AgreeOff S s') (h' : s'.AgreeOff S s'') : s.AgreeOff S s'' :=
  fun z hz => ⟨(h' z hz).1.trans (h z hz).1, (h' z hz).2.trans (h z hz).2⟩

section Rewiring

variable [DecidableEq ι]

theorem Links.agreeOff_setNext (hx : x ∈ S) : s.AgreeOff S (s.setNext x y) := fun _ hz =>
  ⟨Links.next_setNext_of_ne (ne_of_mem_of_not_mem hx hz).symm, rfl⟩

theorem Links.agreeOff_setPrev (hx : x ∈ S) : s.AgreeOff S (s.setPrev x y) := fun _ hz =>
  ⟨rfl, Links.prev_setPrev_of_ne (ne_of_mem_of_not_mem hx hz).symm⟩

theorem Links.agreeOff_setNextUnless (hx : x = e ∨ x ∈ S) :
    s.AgreeOff S (s.setNextUnless e x y) := by
  unfold Links.setNextUnless
  split_ifs with hne
  · exact Links.agreeOff_setNext (hx.resolve_left hne)
  · exact Links.AgreeOff.refl S s

theorem Links.agreeOff_setPrevUnless (hx : x = e ∨ x ∈ S) :
    s.AgreeOff S (s.setPrevUnless e x y) := by
  unfold Links.setPrevUnless
  split_ifs with hne
  · exact Links.agreeOff_setPrev (hx.resolve_left hne)
  · exact Links.AgreeOff.refl S s

/-- A swap of two neighbours of a list rewires elements of the list only. -/
theorem Linked.swap_agreeOff (h : Linked s e (l₁ ++ x :: y :: l₂) e)
    (hS : ∀ z ∈ l₁ ++ x :: y :: l₂, z ∈ S) : s.AgreeOff S (s.swap e x y) := by
  obtain ⟨-, hprev, -, -, hnext, -⟩ := linked_append.mp h
  have hx : x ∈ S := hS x (by simp)
  have hy : y ∈ S := hS y (by simp)
  have hbefore : s.prev x = e ∨ s.prev x ∈ S := by
    rw [hprev]
    rcases List.eq_nil_or_concat l₁ with rfl | ⟨front, last, rfl⟩
    · exact .inl rfl
    · rw [List.concat_eq_append, getLastD_append]
      exact .inr (hS last (by simp))
  have hafter : s.next y = e ∨ s.next y ∈ S := by
    rw [hnext]
    cases l₂ with
    | nil => exact .inl rfl
    | cons first rest => exact .inr (hS first (by simp))
  rw [Links.swap]
  refine Links.AgreeOff.trans ?_ (Links.agreeOff_setPrevUnless hafter)
  refine Links.AgreeOff.trans ?_ (Links.agreeOff_setNextUnless hbefore)
  exact (((Links.agreeOff_setPrev hx).trans (Links.agreeOff_setNext hx)).trans
    (Links.agreeOff_setPrev hy)).trans (Links.agreeOff_setNext hy)

end Rewiring

end LinkedList
