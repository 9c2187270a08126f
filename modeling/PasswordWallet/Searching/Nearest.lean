import Mathlib.Order.Lattice
import Mathlib.Data.List.Induction

/-!
# The first of the nearest

A list is searched for the element whose key is nearest above a bound; of equal keys
the first one counts (`FirstNearest`).  `nearest` finds it in one pass that keeps the
best element so far.
-/

namespace Searching

variable {α κ : Type} [LinearOrder κ] {key : α → κ} {bound : κ} {l : List α} {a b : α}

/-- The best of those before and one more: a tie changes nothing. -/
def better (key : α → κ) (bound : κ) (best : Option α) (a : α) : Option α :=
  match best with
  | none => if bound < key a then some a else none
  | some b => if bound < key a ∧ key a < key b then some a else some b

def nearest (key : α → κ) (bound : κ) (l : List α) : Option α := l.foldl (better key bound) none

/-- `a` has the least key of those above the bound, and no element before it has the
same. -/
structure FirstNearest (key : α → κ) (bound : κ) (l : List α) (a : α) : Prop where
  above : bound < key a
  split : ∃ before after, l = before ++ a :: after ∧
    (∀ b ∈ before, bound < key b → key a < key b) ∧ ∀ b ∈ after, bound < key b → key a ≤ key b

theorem FirstNearest.le (h : FirstNearest key bound l a) (hb : b ∈ l) (habove : bound < key b) :
    key a ≤ key b := by
  obtain ⟨before, after, rfl, hbefore, hafter⟩ := h.split
  rcases List.mem_append.mp hb with hmem | hmem
  · exact le_of_lt (hbefore b hmem habove)
  · rcases List.mem_cons.mp hmem with rfl | hmem
    · exact le_rfl
    · exact hafter b hmem habove

theorem nearest_append (l : List α) (a : α) :
    nearest key bound (l ++ [a]) = better key bound (nearest key bound l) a := by
  rw [nearest, List.foldl_append]
  rfl

/-- The pass finds the first of the nearest, if there is any above the bound. -/
theorem nearest_spec (l : List α) :
    (nearest key bound l = none ∧ ∀ b ∈ l, ¬ bound < key b) ∨
      ∃ a, nearest key bound l = some a ∧ FirstNearest key bound l a := by
  induction l using List.reverseRecOn with
  | nil => exact Or.inl ⟨rfl, fun _ hb => absurd hb List.not_mem_nil⟩
  | append_singleton l b ih =>
      rw [nearest_append]
      rcases ih with ⟨hnone, hbelow⟩ | ⟨a, hsome, hnearest⟩
      · rw [hnone, better]
        split_ifs with habove
        · refine Or.inr ⟨b, rfl, habove, l, [], rfl, fun c hc hc' => ?_, fun c hc => ?_⟩
          · exact absurd hc' (hbelow c hc)
          · exact absurd hc List.not_mem_nil
        · refine Or.inl ⟨rfl, fun c hc => ?_⟩
          rcases List.mem_append.mp hc with hc | hc
          · exact hbelow c hc
          · exact List.mem_singleton.mp hc ▸ habove
      · rw [hsome, better]
        split_ifs with hless
        · refine Or.inr ⟨b, rfl, hless.1, l, [], rfl, fun c hc hc' => ?_, fun c hc => ?_⟩
          · exact lt_of_lt_of_le hless.2 (hnearest.le hc hc')
          · exact absurd hc List.not_mem_nil
        · obtain ⟨before, after, rfl, hbefore, hafter⟩ := hnearest.split
          refine Or.inr ⟨a, rfl, hnearest.above, before, after ++ [b], ?_, hbefore,
            fun c hc hc' => ?_⟩
          · rw [List.append_assoc, List.cons_append]
          · rcases List.mem_append.mp hc with hc | hc
            · exact hafter c hc hc'
            · obtain rfl := List.mem_singleton.mp hc
              exact not_lt.mp fun hlt => hless ⟨hc', hlt⟩

end Searching
