import Mathlib.Algebra.BigOperators.Group.List.Basic
import Mathlib.Logic.Function.Basic

/-!
# Names that are defined once

A table has the values of the names that are defined.  `Defines entries m m'` says that
the table `m` becomes `m'` by defining the entries one after the other, where a name that
is defined is never defined again.

`laidOut` gives the entries of items that lie one behind the other.
-/

namespace Packing

variable {κ ν : Type*} [DecidableEq κ] {m m' m'' : κ → Option ν} {entries rest : List (κ × ν)}

inductive Defines : List (κ × ν) → (κ → Option ν) → (κ → Option ν) → Prop
  | nil {m : κ → Option ν} : Defines [] m m
  | cons {m m' : κ → Option ν} {k : κ} {v : ν} {rest : List (κ × ν)} (hnew : m k = none)
      (hrest : Defines rest (Function.update m k (some v)) m') : Defines ((k, v) :: rest) m m'

theorem defines_nil : Defines [] m m' ↔ m' = m := by
  constructor
  · rintro ⟨⟩
    rfl
  · rintro rfl
    exact .nil

theorem defines_singleton {k : κ} {v : ν} :
    Defines [(k, v)] m m' ↔ m k = none ∧ m' = Function.update m k (some v) := by
  constructor
  · rintro (_ | ⟨hnew, hrest⟩)
    exact ⟨hnew, defines_nil.mp hrest⟩
  · rintro ⟨hnew, rfl⟩
    exact .cons hnew .nil

theorem defines_append :
    Defines (entries ++ rest) m m'' ↔ ∃ m', Defines entries m m' ∧ Defines rest m' m'' := by
  constructor
  · induction entries generalizing m with
    | nil => exact fun h => ⟨m, .nil, h⟩
    | cons entry entries ih =>
        rintro (_ | ⟨hnew, h⟩)
        obtain ⟨m', hentries, hrest⟩ := ih h
        exact ⟨m', .cons hnew hentries, hrest⟩
  · rintro ⟨m', hentries, hrest⟩
    induction hentries with
    | nil => exact hrest
    | cons hnew _ ih => exact .cons hnew (ih hrest)

/-- What is defined stays. -/
theorem Defines.kept (h : Defines entries m m') {k : κ} {v : ν} (hk : m k = some v) :
    m' k = some v := by
  induction h with
  | nil => exact hk
  | @cons m _ k' _ _ hnew _ ih =>
      have hne : k ≠ k' := by
        rintro rfl
        rw [hnew] at hk
        cases hk
      apply ih
      rw [Function.update_of_ne hne, hk]

/-- Each of the entries is in the table. -/
theorem Defines.of_mem (h : Defines entries m m') {k : κ} {v : ν} (hmem : (k, v) ∈ entries) :
    m' k = some v := by
  induction h with
  | nil => cases hmem
  | @cons m _ k' v' _ _ hrest ih =>
      rcases List.mem_cons.mp hmem with heq | hmem
      · obtain ⟨rfl, rfl⟩ := Prod.mk.inj heq
        exact hrest.kept (Function.update_self ..)
      · exact ih hmem

/-! ## Items one behind the other -/

section Layout

variable {ι σ ε : Type*} [AddMonoid σ] (size : ι → σ) (entriesAt : σ → ι → List ε)

/-- The entries of items, each placed behind the sizes of those in front of it. -/
def laidOut : σ → List ι → List ε
  | _, [] => []
  | start, item :: rest => entriesAt start item ++ laidOut (start + size item) rest

theorem mem_laidOut {start : σ} {front back : List ι} {item : ι} {e : ε}
    (he : e ∈ entriesAt (start + (front.map size).sum) item) :
    e ∈ laidOut size entriesAt start (front ++ item :: back) := by
  induction front generalizing start with
  | nil =>
      rw [List.map_nil, List.sum_nil, add_zero] at he
      exact List.mem_append_left _ he
  | cons first front ih =>
      rw [List.map_cons, List.sum_cons, ← add_assoc] at he
      exact List.mem_append_right _ (ih he)

end Layout

end Packing
