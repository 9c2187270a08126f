import Mathlib.Data.List.TakeWhile
import Mathlib.Tactic.SplitIfs
import Mathlib.Tactic.Push

/-!
# A line of text that is edited in place

A cursor stands at a letter of the line, or at a place where a letter has been
erased or not been chosen yet.  The letter under the cursor can be turned into
another one; the cursor goes to the next place, or back.

A line that is not full may have a mark at its end: the place that the cursor
found empty when it came there, and left as it was.  Going on from an erased place
takes away what is behind it, and leaves the line if there was nothing; so does
going on at the last place, and going back at the first.
-/

namespace TextEditing

variable {α : Type}

/-- A line with a cursor in it, which is at no letter where one has been erased. -/
@[ext] structure Draft (α : Type) where
  before : List α
  cursor : Option α
  after : List α
  marked : Bool

/-- What is done to a line. -/
inductive Key (α : Type)
  | turn (f : Option α → Option α)
  | next
  | back

/-- The key turns the letter under the cursor. -/
def Key.turns : Key α → Bool
  | turn _ => true
  | _ => false

namespace Draft

/-- The cursor is at the first letter, and the end is marked. -/
def start : List α → Draft α
  | [] => ⟨[], none, [], false⟩
  | a :: text => ⟨[], some a, text, true⟩

/-- The letters. -/
def text (d : Draft α) : List α := d.before ++ d.cursor.toList ++ d.after

/-- The places that are taken. -/
def width (d : Draft α) : ℕ := d.before.length + 1 + d.after.length + d.marked.toNat

/-- Nothing is left behind the cursor. -/
def cut (d : Draft α) : Draft α := { d with after := [], marked := false }

/-- The place to the right. -/
def right (a : α) (d : Draft α) : Draft α :=
  match d.after with
  | [] => ⟨d.before ++ [a], none, [], false⟩
  | b :: after => ⟨d.before ++ [a], some b, after, d.marked⟩

/-- Goes on in a line of `size` places, if the result says so. -/
def next (size : ℕ) (d : Draft α) : Draft α × Bool :=
  if d.before.length + 1 = size then (d, false)
  else
    match d.cursor with
    | some a => (d.right a, true)
    | none => (d.cut, d.after ≠ [] ∨ d.marked)

/-- An erased place is the end of the line. -/
def trim (d : Draft α) : Draft α := if d.cursor.isNone then d.cut else d

/-- The place to the left, where there is one; an erased place becomes the mark. -/
def left (d : Draft α) : Draft α :=
  ⟨d.before.dropLast, d.before.getLast?, d.cursor.toList ++ d.after, d.marked || d.cursor.isNone⟩

def back (d : Draft α) : Draft α × Bool :=
  if d.before = [] then (d.trim, false) else (d.trim.left, true)

def press (size : ℕ) : Key α → Draft α → Draft α × Bool
  | .turn f, d => ({ d with cursor := f d.cursor }, true)
  | .next, d => d.next size
  | .back, d => d.back

variable {d : Draft α} {size : ℕ}

@[simp] theorem width_start : ∀ text : List α, (start text).width = text.length + 1
  | [] => rfl
  | a :: text => by simp [start, width]; omega

@[simp] theorem text_start : ∀ text : List α, (start text).text = text
  | [] => rfl
  | _ :: _ => rfl

@[simp] theorem before_start : ∀ text : List α, (start text).before = []
  | [] => rfl
  | _ :: _ => rfl

theorem length_text_le (d : Draft α) : d.text.length ≤ d.width := by
  have hcursor : d.cursor.toList.length ≤ 1 := by cases d.cursor <;> simp
  unfold text width
  simp only [List.length_append]
  omega

theorem width_cut (d : Draft α) : d.cut.width = d.before.length + 1 := rfl

theorem width_right {a : α} : (d.right a).width = max d.width (d.before.length + 2) := by
  unfold right width
  cases hafter : d.after with
  | nil =>
      cases hmarked : d.marked <;> simp
  | cons b after =>
      have hle : d.before.length + 2 ≤ d.before.length + 1 + (after.length + 1) := by omega
      simp only [List.length_append, List.length_cons, List.length_nil]
      omega

theorem width_trim_le (d : Draft α) : d.trim.width ≤ d.width := by
  unfold trim
  split_ifs
  · rw [width_cut, width]
    omega
  · exact le_rfl

theorem before_trim (d : Draft α) : d.trim.before = d.before := by
  unfold trim
  split_ifs <;> rfl

theorem cursor_trim (d : Draft α) : d.trim.cursor = d.cursor := by
  unfold trim
  split_ifs <;> rfl

/-- Going back to the left takes no new place. -/
theorem width_left (hbefore : d.before ≠ []) (hend : d.cursor = none → d = d.cut) :
    d.left.width = d.width := by
  obtain ⟨front, last, hsplit⟩ := List.eq_nil_or_concat d.before |>.resolve_left hbefore
  cases hcursor : d.cursor with
  | none =>
      have hcut := hend hcursor
      have hafter : d.after = [] := by rw [hcut]; rfl
      have hmarked : d.marked = false := by rw [hcut]; rfl
      simp [left, width, hsplit, hcursor, hafter, hmarked]
  | some a =>
      simp [left, width, hsplit, hcursor]
      omega

/-! ## What a key leaves -/

/-- Nothing is behind an erased place. -/
def Ended (d : Draft α) : Prop := d.cursor = none → d = d.cut

theorem ended_start : ∀ text : List α, (start text).Ended
  | [] => fun _ => rfl
  | _ :: _ => fun h => nomatch h

theorem ended_trim (d : Draft α) : d.trim.Ended := by
  intro h
  rw [cursor_trim] at h
  rw [trim, if_pos (by rw [h]; rfl)]
  rfl

theorem Ended.trim (h : d.Ended) : d.trim = d := by
  unfold Draft.trim
  split_ifs with hnone
  · exact (h (Option.isNone_iff_eq_none.mp hnone)).symm
  · rfl

theorem ended_right {a : α} : (d.right a).Ended := by
  unfold right
  cases d.after with
  | nil => exact fun _ => rfl
  | cons b after => exact fun h => nomatch h

theorem ended_left (hbefore : d.before ≠ []) : d.left.Ended := fun h =>
  absurd (List.getLast?_eq_none_iff.mp h) hbefore

/-- The cursor goes to the last place by this key. -/
def Fills (size : ℕ) (d : Draft α) (key : Key α) : Prop :=
  key = .next ∧ d.cursor ≠ none ∧ d.before.length + 2 = size

/-- A line with a free place keeps one, unless the cursor goes to the last place. -/
theorem width_press_lt (hwidth : d.width < size) {key : Key α} (hkey : ¬ d.Fills size key) :
    (d.press size key).1.width < size := by
  cases key with
  | turn f => exact hwidth
  | next =>
      show (d.next size).1.width < size
      unfold next
      split_ifs with hlast
      · exact hwidth
      · cases hcursor : d.cursor with
        | some a =>
            have hne : d.before.length + 2 ≠ size := fun heq =>
              hkey ⟨rfl, by rw [hcursor]; exact Option.some_ne_none a, heq⟩
            rw [width_right]
            unfold width at hwidth
            exact max_lt hwidth (by omega)
        | none =>
            rw [width_cut]
            unfold width at hwidth
            omega
  | back =>
      show d.back.1.width < size
      unfold back
      split_ifs with hfirst
      · exact (width_trim_le d).trans_lt hwidth
      · rw [width_left (by rwa [before_trim]) (ended_trim d)]
        exact (width_trim_le d).trans_lt hwidth

/-- A line is full when the cursor has gone to the last place. -/
theorem width_press_of_fills {key : Key α} (hkey : d.Fills size key) :
    size ≤ (d.press size key).1.width := by
  obtain ⟨rfl, hcursor, hlast⟩ := hkey
  obtain ⟨a, hcursor⟩ := Option.ne_none_iff_exists'.mp hcursor
  show size ≤ (d.next size).1.width
  rw [next, if_neg (by omega), hcursor]
  show size ≤ (d.right a).width
  rw [width_right]
  exact hlast.symm.le.trans (le_max_right _ _)

/-- A line is only left with nothing behind an erased place. -/
theorem ended_of_leave (hwidth : d.width ≤ size) {key : Key α}
    (hleave : (d.press size key).2 = false) : (d.press size key).1.Ended := by
  cases key with
  | turn f => exact nomatch hleave
  | next =>
      change (d.next size).2 = false at hleave
      show (d.next size).1.Ended
      unfold next at hleave ⊢
      split_ifs at hleave ⊢ with hlast
      · intro _
        have hafter : d.after.length = 0 := by unfold width at hwidth; omega
        have hmarked : d.marked.toNat = 0 := by unfold width at hwidth; omega
        rw [cut, ← List.length_eq_zero_iff.mp hafter]
        cases hcase : d.marked with
        | false => rw [← hcase]
        | true => rw [hcase] at hmarked; exact absurd hmarked (by decide)
      · cases hcursor : d.cursor with
        | some a => simp [hcursor] at hleave
        | none => exact fun _ => rfl
  | back =>
      change d.back.2 = false at hleave
      show d.back.1.Ended
      unfold back at hleave ⊢
      split_ifs at hleave ⊢ with hfirst
      exact ended_trim d

/-- Without turning a letter the text stays, with nothing behind an erased place. -/
theorem text_press (hended : d.Ended) {key : Key α} (hkey : key.turns = false) :
    (d.press size key).1.text = d.text ∧ (d.press size key).1.Ended := by
  cases key with
  | turn f => exact nomatch hkey
  | next =>
      show (d.next size).1.text = d.text ∧ (d.next size).1.Ended
      unfold next
      split_ifs with hlast
      · exact ⟨rfl, hended⟩
      · cases hcursor : d.cursor with
        | some a =>
            refine ⟨?_, ended_right⟩
            unfold right text
            cases hafter : d.after <;> simp [hcursor]
        | none =>
            show d.cut.text = d.text ∧ d.cut.Ended
            rw [← hended hcursor]
            exact ⟨rfl, hended⟩
  | back =>
      show d.back.1.text = d.text ∧ d.back.1.Ended
      unfold back
      rw [hended.trim]
      split_ifs with hfirst
      · exact ⟨rfl, hended⟩
      · refine ⟨?_, ended_left hfirst⟩
        obtain ⟨front, last, hsplit⟩ := List.eq_nil_or_concat d.before |>.resolve_left hfirst
        simp [left, text, hsplit]

/-! ## Full lines -/

/-- There is a letter at every place. -/
structure Full (size : ℕ) (d : Draft α) : Prop where
  cursor : d.cursor ≠ none
  width : d.width = size
  unmarked : d.marked = false

theorem length_text_lt_of_erased (hcursor : d.cursor = none) : d.text.length < d.width := by
  unfold text width
  rw [hcursor]
  simp only [Option.toList_none, List.append_nil, List.length_append]
  omega

theorem length_text_lt_iff (hwidth : d.width ≤ size) : d.text.length < size ↔ ¬ d.Full size := by
  cases hcursor : d.cursor with
  | none =>
      have hlt := length_text_lt_of_erased hcursor
      exact ⟨fun _ hfull => hfull.cursor hcursor, fun _ => hlt.trans_le hwidth⟩
  | some a =>
      have hlength : d.width = d.text.length + d.marked.toNat := by
        unfold text width
        simp only [hcursor, Option.toList_some, List.length_append, List.length_singleton]
      constructor
      · intro hlt hfull
        have hall := hfull.width
        rw [hlength, hfull.unmarked] at hall
        exact absurd hall hlt.ne
      · intro hfree
        by_contra hle
        rw [not_lt] at hle
        refine hfree ⟨by rw [hcursor]; exact Option.some_ne_none a, by omega, ?_⟩
        cases hmarked : d.marked with
        | false => rfl
        | true =>
            rw [hlength, hmarked, Bool.toNat_true] at hwidth
            omega

/-- A key that leaves a line lets it be, or takes away what is behind an erased place. -/
theorem press_of_leave {key : Key α} (hleave : (d.press size key).2 = false) :
    (d.press size key).1 = d ∨ d.cursor = none ∧ (d.press size key).1 = d.cut := by
  cases key with
  | turn f => exact nomatch hleave
  | next =>
      change (d.next size).2 = false at hleave
      show (d.next size).1 = d ∨ _ ∧ (d.next size).1 = d.cut
      unfold next at hleave ⊢
      split_ifs at hleave ⊢ with hlast
      · exact Or.inl rfl
      · cases hcursor : d.cursor with
        | some a => simp [hcursor] at hleave
        | none => exact Or.inr ⟨rfl, rfl⟩
  | back =>
      change d.back.2 = false at hleave
      show d.back.1 = d ∨ _ ∧ d.back.1 = d.cut
      unfold back at hleave ⊢
      split_ifs at hleave ⊢ with hfirst
      show d.trim = d ∨ _ ∧ d.trim = d.cut
      unfold trim
      split_ifs with hnone
      · exact Or.inr ⟨Option.isNone_iff_eq_none.mp hnone, rfl⟩
      · exact Or.inl rfl

/-- A line is left with a free place exactly if it had one before. -/
theorem length_text_press_lt_iff (hwidth : d.width ≤ size) {key : Key α}
    (hleave : (d.press size key).2 = false) :
    (d.press size key).1.text.length < size ↔ ¬ d.Full size := by
  rcases press_of_leave hleave with hsame | ⟨hcursor, hcut⟩
  · rw [hsame]
    exact length_text_lt_iff hwidth
  · rw [hcut]
    refine ⟨fun _ hfull => hfull.cursor hcursor, fun _ => ?_⟩
    have hlt := length_text_lt_of_erased (d := d.cut) hcursor
    rw [width_cut] at hlt
    unfold width at hwidth
    omega

end Draft

end TextEditing
