import PasswordWallet.TextEditing.Draft

/-!
# A line in cells

A `Code` puts a line into a row of cells: letters, one sign for both a mark and an
erased letter, and blanks.  What is done to the line is done to single cells: the one
of the cursor, the one behind it, and all up to the end.

Whether a line is full can be seen by its cells, since it has a blank if and only
if it is not; and the letters of a line are what stands in front of the first mark or
blank, if nothing is behind an erased place.
-/

namespace TextEditing

variable {α β : Type}

/-- The signs of a line: letters, the one of marks and erased letters, and blanks. -/
structure Code (α β : Type) where
  letter : α → β
  mark : β
  blank : β
  letter_ne_mark : ∀ a, letter a ≠ mark
  letter_ne_blank : ∀ a, letter a ≠ blank
  mark_ne_blank : mark ≠ blank

namespace Code

variable (k : Code α β)

def cell : Option α → β
  | some a => k.letter a
  | none => k.mark

/-- The places that are taken. -/
def cells (d : Draft α) : List β :=
  d.before.map k.letter ++ k.cell d.cursor ::
    (d.after.map k.letter ++ if d.marked then [k.mark] else [])

/-- A line of `size` places, and what is behind it. -/
def line (size : ℕ) (d : Draft α) (beyond : List β) : List β :=
  k.cells d ++ (List.replicate (size - d.width) k.blank ++ beyond)

/-- A text with blanks behind it. -/
def plain (size : ℕ) (text : List α) (beyond : List β) : List β :=
  text.map k.letter ++ (List.replicate (size - text.length) k.blank ++ beyond)

variable {k} {d : Draft α} {size : ℕ} {beyond : List β}

theorem cell_ne_blank : ∀ c : Option α, k.cell c ≠ k.blank
  | some a => k.letter_ne_blank a
  | none => k.mark_ne_blank

theorem cell_eq_mark_iff : ∀ {c : Option α}, k.cell c = k.mark ↔ c = none
  | some a => ⟨fun h => absurd h (k.letter_ne_mark a), fun h => nomatch h⟩
  | none => ⟨fun _ => rfl, fun _ => rfl⟩

@[simp] theorem length_cells : (k.cells d).length = d.width := by
  unfold cells Draft.width
  cases d.marked <;> simp <;> omega

theorem cells_ne_blank : ∀ c ∈ k.cells d, c ≠ k.blank := by
  intro c hc
  rcases List.mem_append.mp hc with hc | hc
  · obtain ⟨a, -, rfl⟩ := List.mem_map.mp hc
    exact k.letter_ne_blank a
  · rcases List.mem_cons.mp hc with rfl | hc
    · exact cell_ne_blank _
    · rcases List.mem_append.mp hc with hc | hc
      · obtain ⟨a, -, rfl⟩ := List.mem_map.mp hc
        exact k.letter_ne_blank a
      · split_ifs at hc
        · rw [List.mem_singleton.mp hc]
          exact k.mark_ne_blank
        · exact absurd hc List.not_mem_nil

theorem length_line (hwidth : d.width ≤ size) :
    (k.line size d beyond).length = size + beyond.length := by
  unfold line
  rw [List.length_append, length_cells, List.length_append, List.length_replicate]
  omega

theorem line_eq_before : k.line size d beyond = d.before.map k.letter ++ k.cell d.cursor ::
    (d.after.map k.letter ++ ((if d.marked then [k.mark] else []) ++
      (List.replicate (size - d.width) k.blank ++ beyond))) := by
  simp [line, cells]

/-- The cell of the cursor. -/
theorem getD_cursor (x : β) : (k.line size d beyond).getD d.before.length x = k.cell d.cursor := by
  rw [line_eq_before, List.getD_eq_getElem?_getD, List.getElem?_append_right (by simp)]
  simp

theorem set_cursor (c : Option α) : (k.line size d beyond).set d.before.length (k.cell c) =
    k.line size { d with cursor := c } beyond := by
  rw [line_eq_before, line_eq_before, List.set_append_right _ _ (by simp)]
  simp [Draft.width]

/-- The cell behind the cursor is blank if nothing is behind it. -/
theorem getD_next_eq_blank_iff (hroom : d.before.length + 1 < size)
    (x : β) : (k.line size d beyond).getD (d.before.length + 1) x = k.blank ↔
      d.after = [] ∧ d.marked = false := by
  rw [line_eq_before, List.getD_eq_getElem?_getD, List.getElem?_append_right (by simp)]
  simp only [List.length_map, Nat.add_sub_cancel_left, List.getElem?_cons_succ]
  cases hafter : d.after with
  | cons a after => simp [k.letter_ne_blank a]
  | nil =>
      cases hmarked : d.marked with
      | true => simp [k.mark_ne_blank]
      | false =>
          have hfree : size - d.width = size - d.before.length - 2 + 1 := by
            simp only [Draft.width, hafter, hmarked, List.length_nil, Bool.toNat_false]
            omega
          simp [hfree, List.replicate_succ]

theorem cells_ne_mark (hcursor : d.cursor ≠ none) (hmarked : d.marked = false) :
    ∀ c ∈ k.cells d, c ≠ k.mark := by
  intro c hc
  have hletters : ∀ text : List α, c ∈ text.map k.letter → c ≠ k.mark := by
    intro text hmem
    obtain ⟨a, -, rfl⟩ := List.mem_map.mp hmem
    exact k.letter_ne_mark a
  rw [cells, hmarked] at hc
  simp only [Bool.false_eq_true, if_false, List.append_nil, List.mem_append,
    List.mem_cons] at hc
  rcases hc with hc | rfl | hc
  · exact hletters _ hc
  · exact mt cell_eq_mark_iff.mp hcursor
  · exact hletters _ hc

/-- With a letter under the cursor the line is full if there is one at the last place. -/
theorem getD_last_iff (hcursor : d.cursor ≠ none) (hwidth : d.width ≤ size) (x : β) :
    (k.line size d beyond).getD (size - 1) x ≠ k.mark ∧
        (k.line size d beyond).getD (size - 1) x ≠ k.blank ↔ d.Full size := by
  have hpos : 0 < d.width := by
    unfold Draft.width
    omega
  rw [line, List.getD_eq_getElem?_getD]
  rcases hwidth.lt_or_eq with hfree | hall
  · -- a blank is there
    rw [List.getElem?_append_right (by rw [length_cells]; omega), length_cells,
      List.getElem?_append_left (by rw [List.length_replicate]; omega),
      List.getElem?_replicate_of_lt (by omega), Option.getD_some]
    exact ⟨fun h => absurd rfl h.2, fun hfull => absurd hfull.width hfree.ne⟩
  · rw [List.getElem?_append_left (by rw [length_cells]; omega)]
    constructor
    · intro h
      refine ⟨hcursor, hall, ?_⟩
      by_contra hmarked
      rw [Bool.not_eq_false] at hmarked
      -- the mark is the last of the cells
      have hcells : k.cells d = (d.before.map k.letter ++ k.cell d.cursor ::
          d.after.map k.letter) ++ [k.mark] := by
        simp [cells, hmarked]
      have hlength := length_cells (k := k) (d := d)
      rw [hcells, List.length_append, List.length_singleton] at hlength
      refine h.1 ?_
      rw [hcells, List.getElem?_append_right (by omega), show size - 1 - _ = 0 by omega]
      rfl
    · intro hfull
      obtain ⟨c, hc⟩ : ∃ c, (k.cells d)[size - 1]? = some c :=
        ⟨_, List.getElem?_eq_getElem (by rw [length_cells]; omega)⟩
      have hmem := List.mem_of_getElem? hc
      rw [hc]
      exact ⟨cells_ne_mark hcursor hfull.unmarked c hmem, cells_ne_blank c hmem⟩

/-- A text with its end marked. -/
theorem set_plain {text : List α} (hlength : text.length < size) :
    (k.plain size text beyond).set text.length k.mark = k.line size (.start text) beyond := by
  have hfree : size - text.length = size - (text.length + 1) + 1 := by omega
  have hmapped : (text.map k.letter).length = text.length := List.length_map _
  rw [plain, line, Draft.width_start, hfree, List.replicate_succ,
    List.set_append_right _ _ hmapped.le, hmapped, Nat.sub_self]
  cases text with
  | nil => rfl
  | cons a text => simp [cells, Draft.start, cell]

/-! ### The cursor moves -/

/-- Going to the right changes no cell if there is something. -/
theorem line_right {a : α} (hcursor : d.cursor = some a)
    (hmore : ¬ (d.after = [] ∧ d.marked = false)) :
    k.line size (d.right a) beyond = k.line size d beyond := by
  have hcells : k.cells (d.right a) = k.cells d := by
    unfold Draft.right
    cases hafter : d.after with
    | cons b after => simp [cells, cell, hcursor, hafter]
    | nil =>
        have hmarked : d.marked = true := by
          rw [← Bool.not_eq_false]
          exact fun hmarked => hmore ⟨hafter, hmarked⟩
        simp [cells, cell, hcursor, hafter, hmarked]
  rw [line, line, ← length_cells (k := k), hcells, length_cells]

/-- Otherwise the place to the right becomes a mark. -/
theorem line_right_eq_set {a : α} (hcursor : d.cursor = some a) (hafter : d.after = [])
    (hmarked : d.marked = false) (hroom : d.before.length + 1 < size) :
    k.line size (d.right a) beyond =
      (k.line size d beyond).set (d.before.length + 1) k.mark := by
  have hright : d.right a = ⟨d.before ++ [a], none, [], false⟩ := by rw [Draft.right, hafter]
  have hfree : size - (d.before.length + 1) = size - (d.before.length + 2) + 1 := by omega
  rw [line_eq_before, line_eq_before, hright, List.set_append_right _ _ (by simp)]
  simp [Draft.width, hcursor, hafter, hmarked, hfree, cell, List.replicate_succ]

/-- Going to the left changes no cell. -/
theorem line_left (hbefore : d.before ≠ []) (hended : d.Ended) :
    k.line size d.left beyond = k.line size d beyond := by
  have hcells : k.cells d.left = k.cells d := by
    obtain ⟨front, last, hsplit⟩ := List.eq_nil_or_concat d.before |>.resolve_left hbefore
    cases hcursor : d.cursor with
    | some a => simp [cells, Draft.left, hsplit, hcursor, cell]
    | none =>
        have hcut := hended hcursor
        have hafter : d.after = [] := by rw [hcut]; rfl
        have hmarked : d.marked = false := by rw [hcut]; rfl
        simp [cells, Draft.left, hsplit, hcursor, hafter, hmarked, cell]
  rw [line, line, ← length_cells (k := k), hcells, length_cells]

/-! ### All cells up to the end -/

theorem foldl_set_range' (x : β) (front back : List β) : ∀ mid : List β,
    (List.range' front.length mid.length).foldl (fun cells i => cells.set i x)
      (front ++ (mid ++ back)) = front ++ (List.replicate mid.length x ++ back)
  | [] => rfl
  | c :: mid => by
      have hset : (front ++ (c :: mid ++ back)).set front.length x =
          (front ++ [x]) ++ (mid ++ back) := by
        simp [List.set_append_right]
      have hrest := foldl_set_range' x (front ++ [x]) back mid
      rw [List.length_append, List.length_singleton] at hrest
      rw [List.length_cons, List.range'_succ, List.foldl_cons, hset, hrest]
      simp [List.replicate_succ]

/-- Blanks in all cells behind the cursor. -/
theorem foldl_set_line (hwidth : d.width ≤ size) :
    (List.range' (d.before.length + 1) (size - (d.before.length + 1))).foldl
      (fun cells i => cells.set i k.blank) (k.line size d beyond) = k.line size d.cut beyond := by
  have hfront : (d.before.map k.letter ++ [k.cell d.cursor]).length = d.before.length + 1 := by
    simp
  have hmid : (d.after.map k.letter ++ ((if d.marked then [k.mark] else []) ++
      List.replicate (size - d.width) k.blank)).length = size - (d.before.length + 1) := by
    unfold Draft.width at hwidth ⊢
    cases hmarked : d.marked <;> simp [hmarked] at hwidth ⊢ <;> omega
  have hset := foldl_set_range' k.blank (d.before.map k.letter ++ [k.cell d.cursor]) beyond
    (d.after.map k.letter ++ ((if d.marked then [k.mark] else []) ++
      List.replicate (size - d.width) k.blank))
  rw [hfront, hmid] at hset
  rw [line_eq_before, line_eq_before, Draft.width_cut]
  simpa [Draft.cut] using hset

theorem take_line (hwidth : d.width ≤ size) :
    (k.line size d beyond).take size = k.cells d ++ List.replicate (size - d.width) k.blank := by
  have hcells : (k.cells d ++ List.replicate (size - d.width) k.blank).length = size := by
    simp [hwidth]
  rw [line, ← List.append_assoc, List.take_left' hcells]

variable [DecidableEq β]

/-- A mark becomes a blank. -/
def unmark (k : Code α β) (c : β) : β := if c = k.mark then k.blank else c

theorem unmark_letter (a : α) : k.unmark (k.letter a) = k.letter a := if_neg (k.letter_ne_mark a)

theorem unmark_blank : k.unmark k.blank = k.blank := if_neg k.mark_ne_blank.symm

theorem unmark_mark : k.unmark k.mark = k.blank := if_pos rfl

theorem map_unmark_letters (text : List α) :
    (text.map k.letter).map k.unmark = text.map k.letter := by
  rw [List.map_map]
  exact List.map_congr_left fun a _ => unmark_letter a

/-- The next cell is unmarked. -/
theorem unmark_succ {cells : List β} {n : ℕ} {c : β} (hc : cells[n]? = some c) :
    ((cells.take n).map k.unmark ++ cells.drop n).set n (k.unmark c) =
      (cells.take (n + 1)).map k.unmark ++ cells.drop (n + 1) := by
  obtain ⟨hn, rfl⟩ := List.getElem?_eq_some_iff.mp hc
  have hlength : ((cells.take n).map k.unmark).length = n := by
    rw [List.length_map, List.length_take]
    omega
  rw [List.drop_eq_getElem_cons hn, List.set_append_right _ _ hlength.le, hlength, Nat.sub_self,
    List.set_cons_zero, List.take_succ_eq_append_getElem hn, List.map_append, List.append_assoc]
  rfl

/-- The letters that stand in front of the first mark or blank. -/
def front (k : Code α β) (cells : List β) : List β :=
  cells.takeWhile fun c => c ≠ k.mark ∧ c ≠ k.blank

theorem front_append {text : List α} {c : β} {rest : List β} (hc : c = k.mark ∨ c = k.blank) :
    k.front (text.map k.letter ++ c :: rest) = text.map k.letter := by
  have hstop : decide (c ≠ k.mark ∧ c ≠ k.blank) = false := by
    rw [decide_eq_false_iff_not]
    exact fun h => hc.elim h.1 h.2
  rw [front, List.takeWhile_append_of_pos, List.takeWhile_cons_of_neg (by rw [hstop]; decide),
    List.append_nil]
  intro b hb
  obtain ⟨a, -, rfl⟩ := List.mem_map.mp hb
  exact decide_eq_true ⟨k.letter_ne_mark a, k.letter_ne_blank a⟩

theorem front_letters {text : List α} : k.front (text.map k.letter) = text.map k.letter := by
  refine List.takeWhile_eq_self_iff.mpr fun b hb => ?_
  obtain ⟨a, -, rfl⟩ := List.mem_map.mp hb
  exact decide_eq_true ⟨k.letter_ne_mark a, k.letter_ne_blank a⟩

/-- In front of the first mark or blank there are letters; if nothing is behind an
erased place it is all of them. -/
theorem front_line (hwidth : d.width ≤ size) : ∃ text : List α,
    k.front ((k.line size d beyond).take size) = text.map k.letter ∧
      (d.Ended → text = d.text) := by
  rw [take_line hwidth]
  cases hcursor : d.cursor with
  | none =>
      refine ⟨d.before, ?_, fun hended => ?_⟩
      · rw [cells, hcursor, List.append_assoc, List.cons_append]
        exact front_append (Or.inl rfl)
      · rw [hended hcursor]
        simp [Draft.text, Draft.cut, hcursor]
  | some a =>
      refine ⟨d.text, ?_, fun _ => rfl⟩
      have htext : d.text.map k.letter = d.before.map k.letter ++ k.cell d.cursor ::
          d.after.map k.letter := by simp [Draft.text, hcursor, cell]
      have hsplit : k.cells d ++ List.replicate (size - d.width) k.blank = d.text.map k.letter ++
          ((if d.marked then [k.mark] else []) ++ List.replicate (size - d.width) k.blank) := by
        rw [htext, cells]
        simp
      rw [hsplit]
      cases d.marked with
      | true => exact front_append (Or.inl rfl)
      | false =>
          cases size - d.width with
          | zero =>
              simp only [Bool.false_eq_true, if_false, List.replicate_zero, List.append_nil]
              exact front_letters
          | succ free => exact front_append (Or.inr rfl)

/-- What a line is when it is left. -/
theorem map_unmark_line (hwidth : d.width ≤ size) (hended : d.Ended) :
    ((k.line size d beyond).take size).map k.unmark ++ (k.line size d beyond).drop size =
      k.plain size d.text beyond := by
  have hcells : (k.cells d ++ List.replicate (size - d.width) k.blank).length = size := by
    simp [hwidth]
  have hdrop : (k.line size d beyond).drop size = beyond := by
    rw [line, ← List.append_assoc, List.drop_left' hcells]
  rw [take_line hwidth, hdrop, List.map_append, cells, List.map_append, map_unmark_letters,
    List.map_cons, List.map_append, map_unmark_letters, List.map_replicate, unmark_blank, plain]
  cases hcursor : d.cursor with
  | none =>
      have hcut := hended hcursor
      have hafter : d.after = [] := by rw [hcut]; rfl
      have hmarked : d.marked = false := by rw [hcut]; rfl
      have hfree : size - d.before.length = size - d.width + 1 := by
        unfold Draft.width at hwidth ⊢
        simp [hafter, hmarked] at hwidth ⊢
        omega
      simp [Draft.text, hcursor, hafter, hmarked, cell, unmark_mark, hfree, List.replicate_succ]
  | some a =>
      cases hmarked : d.marked with
      | false =>
          have hfree : size - d.text.length = size - d.width := by
            simp only [Draft.text, Draft.width, hcursor, hmarked, List.length_append,
              Option.toList_some, List.length_singleton, Bool.toNat_false]
            omega
          rw [hfree]
          simp [Draft.text, hcursor, cell, unmark_letter]
      | true =>
          have hfree : size - d.text.length = size - d.width + 1 := by
            simp only [Draft.text, Draft.width, hcursor, hmarked, List.length_append,
              Option.toList_some, List.length_singleton, Bool.toNat_true] at hwidth ⊢
            omega
          rw [hfree]
          simp [Draft.text, hcursor, cell, unmark_letter, unmark_mark, List.replicate_succ]

end Code

end TextEditing
