import Mathlib.Data.List.Sort
import Mathlib.Logic.Function.Iterate

/-!
# Going round a list

`Round l first next prev` says that `next` leads from each element of the list `l`
to the one behind it and from the last one back to the first, and that `prev` leads
the other way; `prev` may fail to answer elsewhere.

Going round from the first element visits every element once in `l.length` steps
(`Round.iterate_next`, `Round.iterate_length`), and the two directions undo each
other (`Round.prev_next`, `Round.next_prev`).
-/

namespace LinkedList

variable {ι : Type} {l : List ι} {first x : ι} {next : ι → ι} {prev : ι → Option ι}

structure Round (l : List ι) (first : ι) (next : ι → ι) (prev : ι → Option ι) : Prop where
  nodup : l.Nodup
  head : l.head? = some first
  next_getElem : ∀ i (hi : i + 1 < l.length), next l[i] = l[i + 1]
  next_last : ∀ i (hi : i < l.length), i + 1 = l.length → next l[i] = first
  prev_getElem : ∀ i (hi : i + 1 < l.length), prev l[i + 1] = some l[i]
  prev_first : ∀ i (hi : i < l.length), i + 1 = l.length → prev first = some l[i]

theorem Round.getElem_zero (h : Round l first next prev) (hlength : 0 < l.length) :
    l[0] = first := by
  have hhead := h.head
  rw [List.head?_eq_getElem?, List.getElem?_eq_getElem hlength, Option.some.injEq] at hhead
  exact hhead

theorem Round.iterate_next (h : Round l first next prev) (i : ℕ) (hi : i < l.length) :
    next^[i] first = l[i] := by
  induction i with
  | zero => exact (h.getElem_zero hi).symm
  | succ i ih => rw [Function.iterate_succ_apply', ih (by omega), h.next_getElem i hi]

theorem Round.iterate_length (h : Round l first next prev) : next^[l.length] first = first := by
  cases hlength : l.length with
  | zero => rfl
  | succ n =>
      have hn : n < l.length := by omega
      rw [Function.iterate_succ_apply', h.iterate_next n hn, h.next_last n hn hlength.symm]

theorem Round.next_mem (h : Round l first next prev) (hx : x ∈ l) : next x ∈ l := by
  obtain ⟨i, hi, rfl⟩ := List.getElem_of_mem hx
  by_cases hlast : i + 1 = l.length
  · rw [h.next_last i hi hlast, ← h.getElem_zero (by omega)]
    exact List.getElem_mem _
  · rw [h.next_getElem i (by omega)]
    exact List.getElem_mem _

theorem Round.prev_next (h : Round l first next prev) (hx : x ∈ l) : prev (next x) = some x := by
  obtain ⟨i, hi, rfl⟩ := List.getElem_of_mem hx
  by_cases hlast : i + 1 = l.length
  · rw [h.next_last i hi hlast, h.prev_first i hi hlast]
  · rw [h.next_getElem i (by omega), h.prev_getElem i (by omega)]

theorem Round.next_prev (h : Round l first next prev) (hx : x ∈ l) :
    ∃ y ∈ l, prev x = some y ∧ next y = x := by
  obtain ⟨i, hi, rfl⟩ := List.getElem_of_mem hx
  cases i with
  | zero =>
      have hlast : l.length - 1 < l.length := by omega
      have hwrap : l.length - 1 + 1 = l.length := by omega
      refine ⟨l[l.length - 1], List.getElem_mem _, ?_, ?_⟩
      · rw [h.getElem_zero hi, h.prev_first _ hlast hwrap]
      · rw [h.getElem_zero hi, h.next_last _ hlast hwrap]
  | succ i => exact ⟨l[i], List.getElem_mem _, h.prev_getElem i hi, h.next_getElem i hi⟩

/-! ## Ascending lists -/

section Ascending

variable {l : List ℕ} {x : ℕ}

/-- Nothing of an ascending list lies between two neighbours. -/
theorem notMem_between (hsorted : l.SortedLT) {i : ℕ} (hi : i + 1 < l.length) (hlow : l[i] < x)
    (hhigh : x < l[i + 1]) : x ∉ l := by
  intro hx
  obtain ⟨j, hj, rfl⟩ := List.getElem_of_mem hx
  have hmono := hsorted.strictMono_get
  have hlow : i < j := (hmono.lt_iff_lt (a := ⟨i, by omega⟩) (b := ⟨j, hj⟩)).mp hlow
  have hhigh : j < i + 1 := (hmono.lt_iff_lt (a := ⟨j, hj⟩) (b := ⟨i + 1, hi⟩)).mp hhigh
  omega

theorem le_last (hsorted : l.SortedLT) {i : ℕ} (hi : i < l.length) (hlast : i + 1 = l.length)
    (hx : x ∈ l) : x ≤ l[i] := by
  obtain ⟨j, hj, rfl⟩ := List.getElem_of_mem hx
  exact hsorted.strictMono_get.monotone
    (show (⟨j, hj⟩ : Fin l.length) ≤ ⟨i, hi⟩ from show j ≤ i by omega)

theorem first_le (hsorted : l.SortedLT) (hlength : 0 < l.length) (hx : x ∈ l) : l[0] ≤ x := by
  obtain ⟨j, hj, rfl⟩ := List.getElem_of_mem hx
  exact hsorted.strictMono_get.monotone
    (show (⟨0, hlength⟩ : Fin l.length) ≤ ⟨j, hj⟩ from Nat.zero_le j)

end Ascending

end LinkedList
