import PasswordWallet.Graphics.TypeString
import PasswordWallet.TextEditing.Code

/-!
# The editor shows a line of text

The buffer of `type_string` is a line of letters from `' '` to `'}'`, and
`INVALID_CHARACTER` is both the mark at its end and the sign for an erased letter
(`letterCode`).  A turn of the loop does to the line what the button says
(`Editor.Shows.step`), and the loop behind the turns leaves the text with zeros
behind it (`Editor.Shows.clean`).
-/

namespace PasswordWallet

open TextEditing

/-! ## Letters -/

/-- A character that can be typed. -/
structure Letter where
  char : Byte
  low : 0x20 ≤ char.toNat
  high : char.toNat ≤ 0x7D
  deriving DecidableEq

theorem Letter.ne_invalidCharacter (c : Letter) : c.char ≠ invalidCharacter := by
  intro h
  have hhigh := c.high
  rw [h] at hhigh
  exact absurd hhigh (by decide)

theorem Letter.ne_zero (c : Letter) : c.char ≠ 0 := by
  intro h
  have hlow := c.low
  rw [h] at hlow
  exact absurd hlow (by decide)

def letterCode : Code Letter Byte where
  letter := Letter.char
  mark := invalidCharacter
  blank := 0
  letter_ne_mark := Letter.ne_invalidCharacter
  letter_ne_blank := Letter.ne_zero
  mark_ne_blank := by decide

theorem toNat_pred {c : Byte} (hlow : 0x20 ≤ c.toNat) (hne : c ≠ 0x20) :
    0x20 ≤ (c - 1).toNat ∧ (c - 1).toNat < c.toNat := by
  have hval : c.toNat ≠ 0x20 := fun heq => hne (BitVec.eq_of_toNat_eq heq)
  have hlt := c.isLt
  have hone : (1 : Byte).toNat = 1 := rfl
  rw [BitVec.toNat_sub, hone]
  omega

theorem toNat_succ {c : Byte} (hhigh : c.toNat ≤ 0x7D) (hne : c ≠ 0x7D) :
    c.toNat < (c + 1).toNat ∧ (c + 1).toNat ≤ 0x7D := by
  have hval : c.toNat ≠ 0x7D := fun heq => hne (BitVec.eq_of_toNat_eq heq)
  have hone : (1 : Byte).toNat = 1 := rfl
  rw [BitVec.toNat_add, hone]
  omega

/-- What `EVENT_BUTTON_1` makes of the place under the cursor. -/
def letterDown : Option Letter → Option Letter
  | none => some ⟨0x7D, by decide, by decide⟩
  | some c =>
      if h : c.char = 0x20 then none
      else some ⟨c.char - 1, (toNat_pred c.low h).1, (toNat_pred c.low h).2.le.trans c.high⟩

/-- What `EVENT_BUTTON_3` makes of the place under the cursor. -/
def letterUp : Option Letter → Option Letter
  | none => some ⟨0x20, by decide, by decide⟩
  | some c =>
      if h : c.char = 0x7D then none
      else some ⟨c.char + 1, c.low.trans (toNat_succ c.high h).1.le, (toNat_succ c.high h).2⟩

theorem cell_letterDown (c : Option Letter) : letterCode.cell (letterDown c) =
    if letterCode.cell c = 0x20 then invalidCharacter else letterCode.cell c - 1 := by
  cases c with
  | none => rfl
  | some c =>
      rw [letterDown]
      show _ = if c.char = 0x20 then invalidCharacter else c.char - 1
      split_ifs <;> rfl

theorem cell_letterUp (c : Option Letter) : letterCode.cell (letterUp c) =
    if letterCode.cell c = invalidCharacter then 0x20 else letterCode.cell c + 1 := by
  cases c with
  | none => rfl
  | some c =>
      rw [letterUp]
      show _ = if c.char = invalidCharacter then 0x20 else c.char + 1
      rw [if_neg c.ne_invalidCharacter]
      split_ifs with htop
      · rw [htop]
        rfl
      · rfl

/-- What a mask of events does to the line. -/
def eventKey (event : Byte) : Option (Key Letter) :=
  if event &&& eventButton1 ≠ 0 then some (.turn letterDown)
  else if event &&& eventButton2 ≠ 0 then some .next
  else if event &&& eventButton3 ≠ 0 then some (.turn letterUp)
  else if event &&& eventButton4 ≠ 0 then some .back
  else none

/-! ## Lengths -/

section Strings

variable {max : ℕ} {cells rest : List Byte}

theorem strlen_append (hcells : ∀ c ∈ cells, c ≠ 0) :
    strlen (cells ++ rest) = cells.length + strlen rest := by
  induction cells with
  | nil => exact (Nat.zero_add _).symm
  | cons c cells ih =>
      obtain ⟨hc, hcells⟩ := List.forall_mem_cons.mp hcells
      rw [List.cons_append, strlen, if_neg hc, ih hcells, List.length_cons]
      omega

theorem strlenBound_append (hcells : ∀ c ∈ cells, c ≠ 0) {len : ℕ}
    (hlen : len + cells.length ≤ max) :
    strlenBound max (cells ++ rest) len = strlenBound max rest (len + cells.length) := by
  induction cells generalizing len with
  | nil => rfl
  | cons c cells ih =>
      obtain ⟨hc, hcells⟩ := List.forall_mem_cons.mp hcells
      rw [List.length_cons] at hlen ⊢
      rw [List.cons_append, strlenBound, if_pos ⟨hc, by omega⟩, ih hcells (by omega)]
      congr 1
      omega

theorem strlenBound_max : ∀ str : List Byte, strlenBound max str max = max
  | [] => rfl
  | c :: str => by rw [strlenBound, if_neg fun h => lt_irrefl _ h.2]

end Strings

variable {d : Draft Letter} {maxLen : ℕ} {beyond : List Byte}

/-- The length of a line is what is taken of it, also if it is full. -/
theorem strlenBound_line (hwidth : d.width ≤ maxLen) :
    strlenBound maxLen (letterCode.line maxLen d beyond) 0 = d.width := by
  have hlen : 0 + (letterCode.cells d).length ≤ maxLen := by rwa [Code.length_cells, Nat.zero_add]
  rw [Code.line, strlenBound_append (fun c hc => Code.cells_ne_blank c hc) hlen, Code.length_cells,
    Nat.zero_add]
  rcases hwidth.lt_or_eq with hlt | heq
  · obtain ⟨free, hfree⟩ := Nat.exists_eq_add_of_lt hlt
    have hblank : maxLen - d.width = free + 1 := by omega
    rw [hblank, List.replicate_succ]
    exact if_neg fun h => h.1 rfl
  · rw [heq]
    exact strlenBound_max _

/-! ## The buttons -/

/-- The buffer of the editor is this line, with its cursor. -/
structure Editor.Shows (maxLen : ℕ) (beyond : List Byte) (d : Draft Letter) (ed : Editor) :
    Prop where
  memory : ed.memory = letterCode.line maxLen d beyond
  pos : ed.pos = d.before.length
  width : d.width ≤ maxLen

/-- The editor does to the line what the key says, and goes nowhere outside it. -/
structure Editor.Presses (maxLen : ℕ) (beyond : List Byte) (d : Draft Letter) (key : Key Letter)
    (ed ed' : Editor) : Prop where
  shows_press : ed'.Shows maxLen beyond (d.press maxLen key).1
  running : ed'.running = (d.press maxLen key).2
  modified : ed'.modified = (ed.modified || key.turns)
  screens : ed'.screens = ed.screens
  accesses : ∃ more, ed'.accesses = ed.accesses ++ more ∧ ∀ i ∈ more, i < maxLen

namespace Editor

theorem foldl_write (places : List ℕ) (ed : Editor) :
    places.foldl (fun ed i => ed.write i 0) ed =
      { ed with
        memory := places.foldl (fun cells i => cells.set i 0) ed.memory
        accesses := ed.accesses ++ places } := by
  induction places generalizing ed with
  | nil => simp
  | cons i places ih =>
      rw [List.foldl_cons, ih, List.foldl_cons]
      simp [write]

namespace Shows

variable {ed : Editor} (h : ed.Shows maxLen beyond d)
include h

theorem pos_lt : ed.pos < maxLen := by
  have hwidth := h.width
  rw [h.pos]
  unfold Draft.width at hwidth
  omega

theorem char_pos : ed.char ed.pos = letterCode.cell d.cursor := by
  rw [char, h.memory, h.pos]
  exact Code.getD_cursor 0

theorem char_next (hroom : ed.pos + 1 ≠ maxLen) :
    ed.char (ed.pos + 1) = 0 ↔ d.after = [] ∧ d.marked = false := by
  have hlt := h.pos_lt
  rw [h.pos] at hroom hlt
  rw [char, h.memory, h.pos]
  exact Code.getD_next_eq_blank_iff (by omega) 0

theorem eraseBehind : (ed.eraseBehind maxLen).Shows maxLen beyond d.cut ∧
    ed.eraseBehind maxLen = { ed with
      memory := (ed.eraseBehind maxLen).memory
      accesses := ed.accesses ++ List.range' (ed.pos + 1) (maxLen - (ed.pos + 1)) } := by
  have hlt := h.pos_lt
  rw [Editor.eraseBehind, foldl_write]
  refine ⟨⟨?_, h.pos, ?_⟩, rfl⟩
  · show List.foldl _ ed.memory _ = _
    rw [h.memory, h.pos]
    exact Code.foldl_set_line (k := letterCode) h.width
  · rw [Draft.width_cut, ← h.pos]
    exact hlt

/-- A new letter under the cursor. -/
theorem turn {f : Option Letter → Option Letter} {c : Byte}
    (hcell : letterCode.cell (f d.cursor) = c) {ed' : Editor}
    (hed' : ed' = { (ed.read ed.pos).write ed.pos c with modified := true })
    (hrunning : ed.running = true) : ed.Presses maxLen beyond d (.turn f) ed' := by
  subst hed' hcell
  refine ⟨⟨?_, h.pos, h.width⟩, hrunning, (Bool.or_true _).symm, rfl, [ed.pos, ed.pos], ?_, ?_⟩
  · show ed.memory.set ed.pos _ = _
    rw [h.memory, h.pos]
    exact Code.set_cursor _
  · simp [write, read]
  · simpa using h.pos_lt

theorem button1 (hrunning : ed.running = true) :
    ed.Presses maxLen beyond d (.turn letterDown) ed.button1 := by
  refine h.turn (cell_letterDown d.cursor) ?_ hrunning
  rw [Editor.button1, h.char_pos]
  split_ifs <;> rfl

theorem button3 (hrunning : ed.running = true) :
    ed.Presses maxLen beyond d (.turn letterUp) ed.button3 := by
  refine h.turn (cell_letterUp d.cursor) ?_ hrunning
  rw [Editor.button3, h.char_pos]
  split_ifs <;> rfl

theorem char_eq_invalidCharacter : ed.char ed.pos = invalidCharacter ↔ d.cursor = none := by
  rw [h.char_pos]
  exact Code.cell_eq_mark_iff

omit h in
theorem presses {key : Key Letter} {d' : Draft Letter} {on : Bool} {ed' : Editor}
    (hpress : d.press maxLen key = (d', on)) (more : List ℕ) (hshows : ed'.Shows maxLen beyond d')
    (hrunning : ed'.running = on) (hmodified : ed'.modified = (ed.modified || key.turns))
    (hscreens : ed'.screens = ed.screens) (haccesses : ed'.accesses = ed.accesses ++ more)
    (hmore : ∀ i ∈ more, i < maxLen) : ed.Presses maxLen beyond d key ed' := by
  refine ⟨?_, ?_, hmodified, hscreens, more, haccesses, hmore⟩
  · rwa [hpress]
  · rwa [hpress]

/-- Going on from an erased place. -/
theorem next_erased (hlast : ed.pos + 1 ≠ maxLen) (hcursor : d.cursor = none)
    (hrunning : ed.running = true) : ed.Presses maxLen beyond d .next
      (let ed := (ed.read ed.pos).read (ed.pos + 1)
       if ed.char (ed.pos + 1) = 0 then ed.quit else ed.eraseBehind maxLen) := by
  have hlt := h.pos_lt
  have hmodified : ed.modified = (ed.modified || false) := (Bool.or_false _).symm
  have hpress : d.press maxLen .next = (d.cut, decide (d.after ≠ [] ∨ d.marked)) := by
    show d.next maxLen = _
    rw [Draft.next, if_neg (h.pos ▸ hlast), hcursor]
  have hreads : ∀ i ∈ [ed.pos, ed.pos + 1], i < maxLen := by
    simp only [List.forall_mem_cons]
    exact ⟨hlt, by omega, by simp⟩
  have hread : ((ed.read ed.pos).read (ed.pos + 1)).Shows maxLen beyond d :=
    ⟨h.memory, h.pos, h.width⟩
  have hchar : ((ed.read ed.pos).read (ed.pos + 1)).char (ed.pos + 1) = 0 ↔
      d.after = [] ∧ d.marked = false := h.char_next hlast
  show ed.Presses maxLen beyond d .next
    (if ((ed.read ed.pos).read (ed.pos + 1)).char (ed.pos + 1) = 0 then _ else _)
  split_ifs with hzero
  · obtain ⟨hafter, hmarked⟩ := hchar.mp hzero
    have hcut : d.cut = d := by rw [Draft.cut, ← hafter, ← hmarked]
    have hleave : decide (d.after ≠ [] ∨ d.marked = true) = false := by simp [hafter, hmarked]
    rw [hcut, hleave] at hpress
    refine presses hpress _ ⟨h.memory, h.pos, h.width⟩ rfl hmodified rfl ?_ hreads
    simp [read, quit]
  · have hgo : decide (d.after ≠ [] ∨ d.marked = true) = true := by
      rw [decide_eq_true_eq]
      by_contra! hnone
      exact hzero (hchar.mpr ⟨hnone.1, by simpa using hnone.2⟩)
    rw [hgo] at hpress
    obtain ⟨hshows, herase⟩ := hread.eraseBehind
    refine presses hpress ([ed.pos, ed.pos + 1] ++
      List.range' (ed.pos + 1) (maxLen - (ed.pos + 1))) hshows ?_ ?_ ?_ ?_ ?_
    · rw [herase]
      exact hrunning
    · rw [herase]
      exact hmodified
    · rw [herase]
      rfl
    · rw [herase]
      simp [read]
    · intro i hi
      rcases List.mem_append.mp hi with hi | hi
      · exact hreads i hi
      · have := List.mem_range'_1.mp hi
        omega

/-- Going on from a letter. -/
theorem next_letter (hlast : ed.pos + 1 ≠ maxLen) {a : Letter} (hcursor : d.cursor = some a)
    (hbyte : maxLen < 256) (hrunning : ed.running = true) : ed.Presses maxLen beyond d .next
      (let ed := ed.read ed.pos
       let ed := { ed with pos := (ed.pos + 1) % 256 }
       if ed.char ed.pos = 0 then (ed.read ed.pos).write ed.pos invalidCharacter
       else ed.read ed.pos) := by
  have hlt := h.pos_lt
  have hmod : (ed.pos + 1) % 256 = ed.pos + 1 := Nat.mod_eq_of_lt (by omega)
  have hmodified : ed.modified = (ed.modified || false) := (Bool.or_false _).symm
  have hpress : d.press maxLen .next = (d.right a, true) := by
    show d.next maxLen = _
    rw [Draft.next, if_neg (h.pos ▸ hlast), hcursor]
  have hbefore : (d.right a).before = d.before ++ [a] := by
    unfold Draft.right
    cases d.after <;> rfl
  have hpos : ed.pos + 1 = (d.right a).before.length := by rw [hbefore, h.pos]; simp
  have hwidth : (d.right a).width ≤ maxLen := by
    rw [Draft.width_right]
    exact max_le h.width (by rw [← h.pos]; omega)
  have hchar := h.char_next hlast
  simp only [read, hmod]
  show ed.Presses maxLen beyond d .next (if ed.char (ed.pos + 1) = 0 then _ else _)
  split_ifs with hzero
  · obtain ⟨hafter, hmarked⟩ := hchar.mp hzero
    refine presses hpress [ed.pos, ed.pos + 1, ed.pos + 1] ⟨?_, hpos, hwidth⟩ hrunning hmodified
      rfl (by simp [write]) ?_
    · rw [Code.line_right_eq_set hcursor hafter hmarked (by rw [← h.pos]; omega)]
      show ed.memory.set (ed.pos + 1) invalidCharacter = _
      rw [h.memory, h.pos]
      rfl
    · simp only [List.forall_mem_cons]
      exact ⟨hlt, by omega, by omega, by simp⟩
  · refine presses hpress [ed.pos, ed.pos + 1] ⟨?_, hpos, hwidth⟩ hrunning hmodified rfl
      (by simp) ?_
    · rw [Code.line_right hcursor (mt hchar.mpr hzero)]
      exact h.memory
    · simp only [List.forall_mem_cons]
      exact ⟨hlt, by omega, by simp⟩

theorem button2 (hbyte : maxLen < 256) (hrunning : ed.running = true) :
    ed.Presses maxLen beyond d .next (ed.button2 maxLen) := by
  unfold Editor.button2
  split_ifs with hlast herased
  · have hpress : d.press maxLen .next = (d, false) := if_pos (h.pos ▸ hlast)
    exact presses hpress [] ⟨h.memory, h.pos, h.width⟩ rfl (Bool.or_false _).symm rfl
      (List.append_nil _).symm (by simp)
  · exact h.next_erased hlast (h.char_eq_invalidCharacter.mp herased) hrunning
  · obtain ⟨a, hcursor⟩ := Option.ne_none_iff_exists'.mp (mt h.char_eq_invalidCharacter.mpr herased)
    exact h.next_letter hlast hcursor hbyte hrunning

/-- What is erased before the cursor goes back. -/
theorem trim : ∃ more, (∀ i ∈ more, i < maxLen) ∧
    (if ed.char ed.pos = invalidCharacter then (ed.read ed.pos).eraseBehind maxLen
      else ed.read ed.pos) = { ed with
        memory := letterCode.line maxLen d.trim beyond
        accesses := ed.accesses ++ more } := by
  have hlt := h.pos_lt
  have hread : (ed.read ed.pos).Shows maxLen beyond d := ⟨h.memory, h.pos, h.width⟩
  simp only [Draft.trim, Option.isNone_iff_eq_none]
  by_cases herased : d.cursor = none
  · rw [if_pos (h.char_eq_invalidCharacter.mpr herased), if_pos herased]
    obtain ⟨hshows, herase⟩ := hread.eraseBehind
    refine ⟨ed.pos :: List.range' (ed.pos + 1) (maxLen - (ed.pos + 1)), ?_, ?_⟩
    · intro i hi
      rcases List.mem_cons.mp hi with rfl | hi
      · exact hlt
      · have := List.mem_range'_1.mp hi
        omega
    · rw [herase, hshows.memory]
      simp [read]
  · rw [if_neg (mt h.char_eq_invalidCharacter.mp herased), if_neg herased]
    refine ⟨[ed.pos], by simpa using hlt, ?_⟩
    rw [← h.memory]
    rfl

theorem button4 (hrunning : ed.running = true) :
    ed.Presses maxLen beyond d .back (ed.button4 maxLen) := by
  obtain ⟨more, hmore, htrim⟩ := h.trim
  have hmodified : ed.modified = (ed.modified || false) := (Bool.or_false _).symm
  have hwidth := (Draft.width_trim_le d).trans h.width
  have hbefore := d.before_trim
  have hpos := h.pos
  show ed.Presses maxLen beyond d .back (if (if ed.char ed.pos = invalidCharacter then
    (ed.read ed.pos).eraseBehind maxLen else ed.read ed.pos).pos > 0 then _ else _)
  simp only [htrim]
  split_ifs with hfirst
  · have hne : d.before ≠ [] := by
      rintro hnil
      rw [hpos, hnil] at hfirst
      exact absurd hfirst (lt_irrefl 0)
    have hpress : d.press maxLen .back = (d.trim.left, true) := if_neg hne
    have hne' : d.trim.before ≠ [] := by rwa [hbefore]
    refine presses hpress more ⟨?_, ?_, ?_⟩ hrunning hmodified rfl rfl hmore
    · exact (Code.line_left hne' d.ended_trim).symm
    · show ed.pos - 1 = d.trim.before.dropLast.length
      rw [hbefore, List.length_dropLast, hpos]
    · rwa [Draft.width_left hne' d.ended_trim]
  · have hnil : d.before = [] := by
      rw [hpos] at hfirst
      exact List.length_eq_zero_iff.mp (by omega)
    have hpress : d.press maxLen .back = (d.trim, false) := if_pos hnil
    refine presses hpress more ⟨rfl, ?_, hwidth⟩ rfl hmodified rfl rfl hmore
    show ed.pos = d.trim.before.length
    rw [hbefore, hpos]

/-! ## Redrawing -/

/-- Only the whole of a full line is not enough to redraw it. -/
theorem drawTypingScreen_inside (hbyte : maxLen < 256) :
    (∀ i ∈ drawTypingScreen ed.memory ed.pos maxLen, i < maxLen) ↔ d.width < maxLen := by
  have hwidth := h.width
  have htaken : d.before.length + 1 ≤ d.width := by
    unfold Draft.width
    omega
  have hlen : strlenBound maxLen ed.memory 0 = d.width := by
    rw [h.memory]
    exact strlenBound_line hwidth
  simp only [drawTypingScreen, hlen, List.mem_append, List.mem_range, List.mem_map,
    List.mem_singleton]
  constructor
  · exact fun hall => hall d.width (Or.inl (Or.inl (Nat.lt_succ_self _)))
  · intro hlt i hi
    rcases hi with (hi | ⟨j, hj, rfl⟩) | rfl
    · omega
    · have hmem := List.mem_range.mp ((List.takeWhile_prefix _).mem hj)
      have hpos := h.pos
      omega
    · exact h.pos_lt

end Shows

end Editor

end PasswordWallet
