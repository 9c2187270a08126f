import Mathlib.Data.List.Nodup
import Mathlib.Data.List.Basic

/-!
# A stock whose items are given out once

Blocks of `size` items each are put on a stack of cells, item by item, and the
items are given out from the top.  An item is known by its *position*: the number
of its block and its place in the block.  A `Stock` says which position every cell
holds and which positions have been given out, the first one first; no position is
in two of these places.
-/

namespace Supply

/-- The cells of the stack, the top one last, and what has been given out. -/
structure Stock (size : ℕ) where
  blocks : ℕ
  cells : List (ℕ × ℕ)
  given : List (ℕ × ℕ)
  nodup : (cells ++ given).Nodup
  inside : ∀ pos ∈ cells ++ given, pos.1 < blocks ∧ pos.2 < size

variable {size : ℕ}

/-- The positions of a block. -/
def positions (size block : ℕ) : List (ℕ × ℕ) := (List.range size).map fun i => (block, i)

@[simp] theorem length_positions (block : ℕ) : (positions size block).length = size := by
  simp [positions]

@[simp] theorem getElem_positions {block i : ℕ} (hi : i < (positions size block).length) :
    (positions size block)[i] = (block, i) := by
  simp [positions]

theorem mem_positions {block : ℕ} {pos : ℕ × ℕ} :
    pos ∈ positions size block ↔ pos.1 = block ∧ pos.2 < size := by
  simp only [positions, List.mem_map, List.mem_range]
  constructor
  · rintro ⟨i, hi, rfl⟩
    exact ⟨rfl, hi⟩
  · rintro ⟨rfl, hi⟩
    exact ⟨pos.2, hi, rfl⟩

theorem nodup_positions (block : ℕ) : (positions size block).Nodup :=
  List.nodup_range.map fun _ _ h => (Prod.ext_iff.mp h).2

namespace Stock

/-- Nothing has come in yet. -/
def empty (size : ℕ) : Stock size where
  blocks := 0
  cells := []
  given := []
  nodup := .nil
  inside _ h := absurd h List.not_mem_nil

/-- A block comes in on top. -/
def push (stock : Stock size) : Stock size where
  blocks := stock.blocks + 1
  cells := stock.cells ++ positions size stock.blocks
  given := stock.given
  nodup := by
    have hnew : ∀ pos ∈ positions size stock.blocks, pos ∉ stock.cells ++ stock.given := by
      intro pos hpos hmem
      have hblock := (mem_positions.mp hpos).1
      exact absurd (stock.inside pos hmem).1 (by omega)
    have hperm : (stock.cells ++ stock.given ++ positions size stock.blocks).Perm
        (stock.cells ++ positions size stock.blocks ++ stock.given) := by
      rw [List.append_assoc, List.append_assoc]
      exact List.Perm.append_left _ List.perm_append_comm
    refine hperm.nodup_iff.mp (List.nodup_append.mpr ⟨stock.nodup, nodup_positions _, ?_⟩)
    rintro pos hmem _ hpos rfl
    exact hnew pos hpos hmem
  inside pos hpos := by
    simp only [List.mem_append] at hpos
    rcases hpos with (hcell | hnew) | hgiven
    · have := stock.inside pos (List.mem_append_left _ hcell)
      omega
    · have := mem_positions.mp hnew
      omega
    · have := stock.inside pos (List.mem_append_right _ hgiven)
      omega

/-- The item on top is given out. -/
def pop (stock : Stock size) (h : stock.cells ≠ []) : Stock size where
  blocks := stock.blocks
  cells := stock.cells.dropLast
  given := stock.given ++ [stock.cells.getLast h]
  nodup := by
    have hperm : (stock.cells ++ stock.given).Perm
        (stock.cells.dropLast ++ (stock.given ++ [stock.cells.getLast h])) := by
      calc (stock.cells ++ stock.given).Perm
            (stock.cells.dropLast ++ [stock.cells.getLast h] ++ stock.given) := by
              rw [List.dropLast_append_getLast h]
        _ = stock.cells.dropLast ++ ([stock.cells.getLast h] ++ stock.given) :=
              List.append_assoc ..
        List.Perm _ (stock.cells.dropLast ++ (stock.given ++ [stock.cells.getLast h])) :=
              List.Perm.append_left _ List.perm_append_comm
    exact hperm.nodup_iff.mp stock.nodup
  inside pos hpos := by
    simp only [List.mem_append, List.mem_singleton] at hpos
    refine stock.inside pos (List.mem_append.mpr ?_)
    rcases hpos with hcell | hgiven | rfl
    · exact Or.inl ((List.dropLast_sublist _).subset hcell)
    · exact Or.inr hgiven
    · exact Or.inl (List.getLast_mem h)

/-- What has been given out has been given out once. -/
theorem nodup_given (stock : Stock size) : stock.given.Nodup :=
  (List.nodup_append.mp stock.nodup).2.1

theorem given_inside (stock : Stock size) {pos : ℕ × ℕ} (h : pos ∈ stock.given) :
    pos.1 < stock.blocks ∧ pos.2 < size :=
  stock.inside pos (List.mem_append_right _ h)

end Stock

end Supply
