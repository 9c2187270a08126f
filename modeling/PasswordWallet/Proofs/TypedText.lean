import PasswordWallet.Graphics.Letters

/-!
# What the editor returns

The buffer stays a line of letters through every turn of the loop, so what
`type_string` returns is what was shown last, with zeros behind it, and the text that
was there if no letter has been turned.

The editor does not stay in its buffer: to redraw a line that takes the whole buffer
`strlen_bound` reads the byte behind it.  So it does stay there exactly if two places
are free at first and the cursor never goes on to the last place.
-/

namespace PasswordWallet

open TextEditing

namespace Editor

/-- The cursor goes on from a letter to the last place. -/
def FillsLast (maxLen : ℕ) (ed : Editor) (event : Byte) : Prop :=
  event &&& eventButton1 = 0 ∧ event &&& eventButton2 ≠ 0 ∧ ed.pos + 2 = maxLen ∧
    ed.char ed.pos ≠ invalidCharacter

/-- In no turn of the loop the cursor goes on to the last place. -/
def KeepsRoom (maxLen : ℕ) : List Byte → Editor → Prop
  | [], _ => True
  | event :: events, ed => ed.running = true →
      ¬ ed.FillsLast maxLen event ∧ KeepsRoom maxLen events (ed.step maxLen event)

/-- All accesses so far are in the buffer. -/
def Inside (maxLen : ℕ) (ed : Editor) : Prop := ∀ i ∈ ed.accesses, i < maxLen

end Editor

/-! ## A turn of the loop -/

variable {maxLen : ℕ} {beyond : List Byte} {d : Draft Letter} {ed : Editor}

/-- What a mask of events does to a line. -/
def eventPress (maxLen : ℕ) (event : Byte) (d : Draft Letter) : Draft Letter × Bool :=
  match eventKey event with
  | some key => d.press maxLen key
  | none => (d, true)

def eventTurns (event : Byte) : Bool := (eventKey event).any Key.turns

/-- What a turn of the loop does to an editor that shows a line. -/
structure Editor.Turned (maxLen : ℕ) (beyond : List Byte) (d : Draft Letter) (event : Byte)
    (ed ed' : Editor) : Prop where
  shows_press : ed'.Shows maxLen beyond (eventPress maxLen event d).1
  running : ed'.running = (eventPress maxLen event d).2
  modified : ed'.modified = (ed.modified || eventTurns event)
  screens : ∀ screen ∈ ed'.screens, screen ∈ ed.screens ∨ screen = ed'.memory
  inside : ed'.Inside maxLen ↔
    ed.Inside maxLen ∧ (event ≠ 0 → (eventPress maxLen event d).1.width < maxLen)

theorem eventKey_zero : eventKey 0 = none := by decide

/-- What a turn does before it redraws. -/
theorem Editor.Shows.redraw {event : Byte} {ed' : Editor} (hbyte : maxLen < 256)
    (hshows : ed'.Shows maxLen beyond (eventPress maxLen event d).1)
    (hrunning : ed'.running = (eventPress maxLen event d).2)
    (hmodified : ed'.modified = (ed.modified || eventTurns event))
    (hscreens : ed'.screens = ed.screens) {more : List ℕ}
    (haccesses : ed'.accesses = ed.accesses ++ more) (hmore : ∀ i ∈ more, i < maxLen) :
    ed.Turned maxLen beyond d event (if event ≠ 0 then ed'.redraw maxLen else ed') := by
  have hinside : ed'.Inside maxLen ↔ ed.Inside maxLen := by
    unfold Editor.Inside
    rw [haccesses]
    simp only [List.mem_append]
    exact ⟨fun h i hi => h i (Or.inl hi), fun h i hi => hi.elim (h i) (hmore i)⟩
  split_ifs with hevent
  · refine ⟨⟨hshows.memory, hshows.pos, hshows.width⟩, hrunning, hmodified, ?_, ?_⟩
    · intro screen hmem
      rcases List.mem_append.mp hmem with hmem | hmem
      · exact Or.inl (hscreens ▸ hmem)
      · exact Or.inr (List.mem_singleton.mp hmem)
    · rw [← hinside, forall_prop_of_true hevent, ← hshows.drawTypingScreen_inside hbyte]
      unfold Editor.Inside Editor.redraw
      simp only [List.mem_append]
      exact ⟨fun h => ⟨fun i hi => h i (Or.inl hi), fun i hi => h i (Or.inr hi)⟩,
        fun h i hi => hi.elim (h.1 i) (h.2 i)⟩
  · refine ⟨hshows, hrunning, hmodified, fun screen hmem => Or.inl (hscreens ▸ hmem), ?_⟩
    rw [hinside]
    exact ⟨fun h => ⟨h, fun hne => absurd hne hevent⟩, fun h => h.1⟩

/-- The button of a mask, and nothing for the others. -/
theorem Editor.Shows.step (h : ed.Shows maxLen beyond d) (hbyte : maxLen < 256)
    (hrunning : ed.running = true) (event : Byte) :
    ed.Turned maxLen beyond d event (ed.step maxLen event) := by
  -- a button, as the key that the mask stands for
  have hpress : ∀ {key ed'}, eventKey event = some key → ed.Presses maxLen beyond d key ed' →
      ed.Turned maxLen beyond d event (if event ≠ 0 then ed'.redraw maxLen else ed') := by
    intro key ed' hkey hed'
    obtain ⟨more, haccesses, hmore⟩ := hed'.accesses
    have heq : eventPress maxLen event d = d.press maxLen key := by rw [eventPress, hkey]
    have hturns : eventTurns event = key.turns := by rw [eventTurns, hkey]; rfl
    exact redraw hbyte (heq ▸ hed'.shows_press) (heq ▸ hed'.running) (hturns ▸ hed'.modified)
      hed'.screens haccesses hmore
  unfold Editor.step
  by_cases h1 : event &&& eventButton1 ≠ 0
  · rw [if_pos h1]
    exact hpress (if_pos h1) (h.button1 hrunning)
  · rw [if_neg h1]
    by_cases h2 : event &&& eventButton2 ≠ 0
    · rw [if_pos h2]
      exact hpress (by rw [eventKey, if_neg h1, if_pos h2]) (h.button2 hbyte hrunning)
    · rw [if_neg h2]
      by_cases h3 : event &&& eventButton3 ≠ 0
      · rw [if_pos h3]
        exact hpress (by rw [eventKey, if_neg h1, if_neg h2, if_pos h3]) (h.button3 hrunning)
      · rw [if_neg h3]
        by_cases h4 : event &&& eventButton4 ≠ 0
        · rw [if_pos h4]
          exact hpress (by rw [eventKey, if_neg h1, if_neg h2, if_neg h3, if_pos h4])
            (h.button4 hrunning)
        · rw [if_neg h4]
          have hnone : eventKey event = none := by
            rw [eventKey, if_neg h1, if_neg h2, if_neg h3, if_neg h4]
          have heq : eventPress maxLen event d = (d, true) := by rw [eventPress, hnone]
          have hturns : eventTurns event = false := by rw [eventTurns, hnone]; rfl
          exact redraw hbyte (heq ▸ h) (heq ▸ hrunning) (by rw [hturns, Bool.or_false]) rfl
            (List.append_nil _).symm (by simp)

/-- The condition of the turn, for the line. -/
theorem Editor.Shows.fillsLast_iff (h : ed.Shows maxLen beyond d) {event : Byte} :
    ed.FillsLast maxLen event ↔ ∃ key, eventKey event = some key ∧ d.Fills maxLen key := by
  have hchar := h.char_eq_invalidCharacter
  have hpos := h.pos
  unfold Editor.FillsLast Draft.Fills eventKey
  constructor
  · intro ⟨h1, h2, hlast, hcursor⟩
    refine ⟨.next, ?_, rfl, mt hchar.mpr hcursor, by omega⟩
    rw [if_neg (not_not.mpr h1), if_pos h2]
  · intro ⟨key, hkey, hnext, hcursor, hlast⟩
    subst hnext
    split_ifs at hkey with h1 h2
    · exact nomatch hkey
    · exact ⟨not_not.mp h1, h2, by omega, mt hchar.mp hcursor⟩
    · exact nomatch hkey
    · exact nomatch hkey

/-- A line with a free place keeps one in a turn exactly if the turn does not take the
last place. -/
theorem width_eventPress_lt_iff (h : ed.Shows maxLen beyond d) (hwidth : d.width < maxLen)
    (event : Byte) : (event ≠ 0 → (eventPress maxLen event d).1.width < maxLen) ↔
      ¬ ed.FillsLast maxLen event := by
  rw [h.fillsLast_iff, eventPress]
  cases hkey : eventKey event with
  | none => exact ⟨fun _ hex => (nomatch hex.choose_spec.1), fun _ _ => hwidth⟩
  | some key =>
      have hevent : event ≠ 0 := by
        rintro rfl
        rw [eventKey_zero] at hkey
        exact nomatch hkey
      rw [forall_prop_of_true hevent]
      constructor
      · intro hlt ⟨key', hkey', hfills⟩
        obtain rfl := Option.some.inj hkey'
        exact absurd (Draft.width_press_of_fills hfills) (not_le.mpr hlt)
      · exact fun hnot => Draft.width_press_lt hwidth fun hfills => hnot ⟨key, rfl, hfills⟩

/-! ## What has been accessed stays accessed -/

namespace Editor

theorem accesses_read (ed : Editor) (i : ℕ) : ed.accesses <+: (ed.read i).accesses :=
  List.prefix_append _ _

theorem accesses_write (ed : Editor) (i : ℕ) (c : Byte) :
    ed.accesses <+: (ed.write i c).accesses :=
  List.prefix_append _ _

theorem accesses_eraseBehind (ed : Editor) : ed.accesses <+: (ed.eraseBehind maxLen).accesses := by
  rw [Editor.eraseBehind, foldl_write]
  exact List.prefix_append _ _

theorem accesses_button1 (ed : Editor) : ed.accesses <+: ed.button1.accesses := by
  unfold button1
  simp only
  split_ifs <;> exact (accesses_read ed _).trans (accesses_write _ _ _)

theorem accesses_button2 (ed : Editor) : ed.accesses <+: (ed.button2 maxLen).accesses := by
  unfold button2
  simp only
  split_ifs
  · exact List.prefix_rfl
  · exact (accesses_read ed _).trans (accesses_read _ _)
  · exact ((accesses_read ed _).trans (accesses_read _ _)).trans (accesses_eraseBehind _)
  · exact ((accesses_read ed _).trans (accesses_read _ _)).trans
      (accesses_write _ _ invalidCharacter)
  · exact (accesses_read ed _).trans (accesses_read _ _)

theorem accesses_button3 (ed : Editor) : ed.accesses <+: ed.button3.accesses := by
  unfold button3
  simp only
  split_ifs <;> exact (accesses_read ed _).trans (accesses_write _ _ _)

theorem accesses_button4 (ed : Editor) : ed.accesses <+: (ed.button4 maxLen).accesses := by
  unfold button4
  simp only
  split_ifs
  · exact (accesses_read ed _).trans (accesses_eraseBehind _)
  · exact (accesses_read ed _).trans (accesses_eraseBehind _)
  · exact accesses_read ed _
  · exact accesses_read ed _

theorem accesses_step (ed : Editor) (event : Byte) :
    ed.accesses <+: (ed.step maxLen event).accesses := by
  have hredraw : ∀ ed' : Editor, ed.accesses <+: ed'.accesses →
      ed.accesses <+: (if event ≠ 0 then ed'.redraw maxLen else ed').accesses := by
    intro ed' h
    split_ifs
    · exact h.trans (List.prefix_append _ _)
    · exact h
  refine hredraw _ ?_
  split_ifs
  · exact accesses_button1 ed
  · exact accesses_button2 ed
  · exact accesses_button3 ed
  · exact accesses_button4 ed
  · exact List.prefix_rfl

theorem accesses_loop (events : List Byte) (ed : Editor) :
    ed.accesses <+: (ed.loop maxLen events).accesses := by
  induction events generalizing ed with
  | nil => exact List.prefix_rfl
  | cons event events ih =>
      rw [loop]
      split_ifs
      · exact (accesses_step ed event).trans (ih _)
      · exact List.prefix_rfl

theorem accesses_clean (ed : Editor) : ed.accesses <+: (ed.clean maxLen).accesses := by
  unfold clean
  generalize List.range maxLen = places
  induction places generalizing ed with
  | nil => exact List.prefix_rfl
  | cons i places ih =>
      rw [List.foldl_cons]
      refine List.IsPrefix.trans ?_ (ih _)
      split_ifs
      · exact (accesses_read ed i).trans (accesses_write _ i 0)
      · exact accesses_read ed i

theorem Inside.of_front {ed ed' : Editor} (h : ed'.Inside maxLen)
    (hfront : ed.accesses <+: ed'.accesses) : ed.Inside maxLen := fun i hi =>
  h i (hfront.mem hi)

end Editor

/-! ## The loop -/

/-- The editor shows a line of letters, and has shown nothing else.  If no letter has
been turned it is the text there was; when the loop has ended nothing is behind an
erased place. -/
structure Editor.Legible (maxLen : ℕ) (beyond : List Byte) (text : List Letter) (ed : Editor) :
    Prop where
  shows_line : ∃ d, ed.Shows maxLen beyond d ∧ (ed.running = false → d.Ended) ∧
    (ed.modified = false → d.text = text ∧ d.Ended)
  screens : ∀ screen ∈ ed.screens, ∃ d, d.width ≤ maxLen ∧ screen = letterCode.line maxLen d beyond

variable {text : List Letter}

theorem Editor.Legible.step (h : ed.Legible maxLen beyond text) (hbyte : maxLen < 256)
    (hrunning : ed.running = true) (event : Byte) :
    (ed.step maxLen event).Legible maxLen beyond text := by
  obtain ⟨d, hshows, -, hkept⟩ := h.shows_line
  have hturned := hshows.step hbyte hrunning event
  refine ⟨⟨_, hturned.shows_press, ?_, ?_⟩, ?_⟩
  · intro hleave
    rw [hturned.running] at hleave
    unfold eventPress at hleave ⊢
    cases hkey : eventKey event with
    | none =>
        rw [hkey] at hleave
        exact nomatch hleave
    | some key =>
        rw [hkey] at hleave
        exact Draft.ended_of_leave hshows.width hleave
  · intro hmodified
    rw [hturned.modified, Bool.or_eq_false_iff] at hmodified
    obtain ⟨htext, hended⟩ := hkept hmodified.1
    have hturns := hmodified.2
    unfold eventTurns at hturns
    unfold eventPress
    cases hkey : eventKey event with
    | none => exact ⟨htext, hended⟩
    | some key =>
        rw [hkey] at hturns
        obtain ⟨hpress, hended'⟩ := Draft.text_press hended hturns
        exact ⟨hpress.trans htext, hended'⟩
  · intro screen hmem
    rcases hturned.screens screen hmem with hmem | rfl
    · exact h.screens screen hmem
    · exact ⟨_, hturned.shows_press.width, hturned.shows_press.memory⟩

theorem Editor.Legible.loop (h : ed.Legible maxLen beyond text) (hbyte : maxLen < 256)
    (events : List Byte) : (ed.loop maxLen events).Legible maxLen beyond text := by
  induction events generalizing ed with
  | nil => exact h
  | cons event events ih =>
      rw [Editor.loop]
      split_ifs with hrunning
      · exact ih (h.step hbyte hrunning event)
      · exact h

/-- A line with a free place stays in the buffer through the turns that keep one. -/
theorem Editor.Shows.loop_inside_iff (h : ed.Shows maxLen beyond d) (hbyte : maxLen < 256)
    (hwidth : d.width < maxLen) (events : List Byte) :
    (ed.loop maxLen events).Inside maxLen ↔ ed.Inside maxLen ∧ ed.KeepsRoom maxLen events := by
  induction events generalizing ed d with
  | nil => exact (and_iff_left trivial).symm
  | cons event events ih =>
      rw [Editor.loop, Editor.KeepsRoom]
      split_ifs with hrunning
      · have hturned := h.step hbyte hrunning event
        have hkeeps := width_eventPress_lt_iff h hwidth event
        rw [forall_prop_of_true hrunning]
        by_cases hfills : ed.FillsLast maxLen event
        · constructor
          · intro hinside
            have hstep := hinside.of_front (Editor.accesses_loop events _)
            exact absurd hfills (hkeeps.mp (hturned.inside.mp hstep).2)
          · exact fun hall => absurd hfills hall.2.1
        · have hroom := hkeeps.mpr hfills
          have hlt : (eventPress maxLen event d).1.width < maxLen := by
            by_cases hevent : event = 0
            · rw [eventPress, hevent, eventKey_zero]
              exact hwidth
            · exact hroom hevent
          rw [ih hturned.shows_press hlt, hturned.inside, and_iff_left hroom, and_iff_right hfills]
      · exact (and_iff_left fun hcontra => absurd hcontra hrunning).symm

/-! ## Typing to the end -/

theorem Editor.loop_append (first second : List Byte) (ed : Editor) :
    ed.loop maxLen (first ++ second) = (ed.loop maxLen first).loop maxLen second := by
  induction first generalizing ed with
  | nil => rfl
  | cons event first ih =>
      rw [List.cons_append, loop, loop]
      split_ifs with hrunning
      · exact ih _
      · cases second with
        | nil => rfl
        | cons event second => rw [loop, if_neg hrunning]

theorem Editor.KeepsRoom.of_append {first second : List Byte} {ed : Editor}
    (h : ed.KeepsRoom maxLen (first ++ second)) :
    (ed.loop maxLen first).KeepsRoom maxLen second := by
  induction first generalizing ed with
  | nil => exact h
  | cons event first ih =>
      rw [loop]
      split_ifs with hrunning
      · exact ih (h hrunning).2
      · cases second with
        | nil => trivial
        | cons event second => exact fun hcontra => absurd hcontra hrunning

/-- `' '`, what `EVENT_BUTTON_3` makes of `INVALID_CHARACTER`. -/
def blankLetter : Letter := ⟨0x20, Nat.le_refl 32, Nat.le_of_ble_eq_true rfl⟩

/-- At the end of a text, with nothing chosen there yet. -/
def atEnd (text : List Letter) : Draft Letter := ⟨text, none, [], false⟩

/-- A blank is chosen. -/
theorem Editor.Shows.chooseBlank (h : ed.Shows maxLen beyond (atEnd text))
    (hbyte : maxLen < 256) (hrunning : ed.running = true) :
    (ed.step maxLen eventButton3).Shows maxLen beyond ⟨text, some blankLetter, [], false⟩ ∧
      (ed.step maxLen eventButton3).running = true := by
  have hpress : eventPress maxLen eventButton3 (atEnd text) =
      (⟨text, some blankLetter, [], false⟩, true) := rfl
  have hturned := h.step hbyte hrunning eventButton3
  have hshows := hturned.shows_press
  rw [hpress] at hshows
  exact ⟨hshows, by rw [hturned.running, hpress]⟩

/-- A blank is chosen, and the cursor goes on. -/
theorem Editor.Shows.typeBlank (h : ed.Shows maxLen beyond (atEnd text)) (hbyte : maxLen < 256)
    (hroom : text.length + 1 < maxLen) (hrunning : ed.running = true) :
    (ed.loop maxLen [eventButton3, eventButton2]).Shows maxLen beyond
        (atEnd (text ++ [blankLetter])) ∧
      (ed.loop maxLen [eventButton3, eventButton2]).running = true := by
  obtain ⟨hshows, hrunning'⟩ := h.chooseBlank hbyte hrunning
  have hpress : eventPress maxLen eventButton2 ⟨text, some blankLetter, [], false⟩ =
      (atEnd (text ++ [blankLetter]), true) := by
    show Draft.next maxLen _ = _
    rw [Draft.next, if_neg (by show text.length + 1 ≠ maxLen; omega)]
    rfl
  have hturned := hshows.step hbyte hrunning' eventButton2
  have hnext := hturned.shows_press
  rw [hpress] at hnext
  rw [Editor.loop, if_pos hrunning, Editor.loop, if_pos hrunning', Editor.loop]
  exact ⟨hnext, by rw [hturned.running, hpress]⟩

/-- A blank at the last place ends the line and leaves it. -/
theorem Editor.Shows.typeLast (h : ed.Shows maxLen beyond (atEnd text)) (hbyte : maxLen < 256)
    (hlast : text.length + 1 = maxLen) (hrunning : ed.running = true) :
    (ed.loop maxLen [eventButton3, eventButton2]).Shows maxLen beyond
        ⟨text, some blankLetter, [], false⟩ ∧
      (ed.loop maxLen [eventButton3, eventButton2]).running = false := by
  obtain ⟨hshows, hrunning'⟩ := h.chooseBlank hbyte hrunning
  have hpress : eventPress maxLen eventButton2 ⟨text, some blankLetter, [], false⟩ =
      (⟨text, some blankLetter, [], false⟩, false) := by
    show Draft.next maxLen _ = _
    rw [Draft.next, if_pos hlast]
  have hturned := hshows.step hbyte hrunning' eventButton2
  have hnext := hturned.shows_press
  rw [hpress] at hnext
  rw [Editor.loop, if_pos hrunning, Editor.loop, if_pos hrunning', Editor.loop]
  exact ⟨hnext, by rw [hturned.running, hpress]⟩

/-- The cursor goes from a blank to the last place. -/
theorem Editor.Shows.not_keepsRoom (h : ed.Shows maxLen beyond (atEnd text))
    (hbyte : maxLen < 256) (hlast : text.length + 2 = maxLen) (hrunning : ed.running = true) :
    ¬ ed.KeepsRoom maxLen [eventButton3, eventButton2] := by
  intro hroom
  obtain ⟨hshows, hrunning'⟩ := h.chooseBlank hbyte hrunning
  have hkeeps := (hroom hrunning).2 hrunning'
  exact hkeeps.1 (hshows.fillsLast_iff.mpr ⟨.next, rfl, rfl, Option.some_ne_none _, hlast⟩)

/-- The events that type as many blanks. -/
def blankEvents (count : ℕ) : List Byte :=
  (List.replicate count [eventButton3, eventButton2]).flatten

theorem blankEvents_succ (count : ℕ) :
    blankEvents (count + 1) = blankEvents count ++ [eventButton3, eventButton2] := by
  rw [blankEvents, List.replicate_succ', List.flatten_append]
  rfl

/-- As many blanks are typed. -/
theorem Editor.Shows.typeBlanks (h : ed.Shows maxLen beyond (atEnd [])) (hbyte : maxLen < 256)
    (hrunning : ed.running = true) {count : ℕ} (hroom : count < maxLen) :
    (ed.loop maxLen (blankEvents count)).Shows maxLen beyond
        (atEnd (List.replicate count blankLetter)) ∧
      (ed.loop maxLen (blankEvents count)).running = true := by
  induction count with
  | zero => exact ⟨h, hrunning⟩
  | succ count ih =>
      obtain ⟨hshows, hrunning'⟩ := ih (Nat.lt_of_succ_lt hroom)
      rw [blankEvents_succ, Editor.loop_append, List.replicate_succ']
      exact hshows.typeBlank hbyte (by rwa [List.length_replicate]) hrunning'

/-- As many blanks as there are places are typed, and the editor is left. -/
theorem Editor.Shows.typeFull (h : ed.Shows maxLen beyond (atEnd [])) (hbyte : maxLen < 256)
    (hrunning : ed.running = true) {count : ℕ} (hlast : count + 1 = maxLen) :
    (ed.loop maxLen (blankEvents (count + 1))).Shows maxLen beyond
        ⟨List.replicate count blankLetter, some blankLetter, [], false⟩ ∧
      (ed.loop maxLen (blankEvents (count + 1))).running = false := by
  obtain ⟨hshows, hrunning'⟩ := h.typeBlanks hbyte hrunning (Nat.lt_of_lt_of_eq
    (Nat.lt_succ_self count) hlast)
  rw [blankEvents_succ, Editor.loop_append]
  exact hshows.typeLast hbyte (by rwa [List.length_replicate]) hrunning'

/-- The button that goes back leaves the editor at the first place. -/
theorem Editor.Shows.leave (h : ed.Shows maxLen beyond (.start text)) (hbyte : maxLen < 256)
    (hrunning : ed.running = true) : (ed.loop maxLen [eventButton4]).running = false := by
  have hpress : eventPress maxLen eventButton4 (.start text) =
      (Draft.start text).back := rfl
  rw [Editor.loop, if_pos hrunning, Editor.loop, (h.step hbyte hrunning eventButton4).running,
    hpress, Draft.back, if_pos (Draft.before_start text)]

/-! ## Before and behind the loop -/

/-- A text shorter than the buffer is shown with its end marked. -/
theorem Editor.legible_start (hbyte : maxLen < 256) (hlength : text.length < maxLen) :
    (Editor.start maxLen (letterCode.plain maxLen text beyond)).Legible maxLen beyond text ∧
      (Editor.start maxLen (letterCode.plain maxLen text beyond)).Shows maxLen beyond
        (.start text) ∧
      ((Editor.start maxLen (letterCode.plain maxLen text beyond)).Inside maxLen ↔
        text.length + 1 < maxLen) := by
  have hlen : strlen (letterCode.plain maxLen text beyond) = text.length := by
    obtain ⟨free, hfree⟩ := Nat.exists_eq_add_of_lt hlength
    have hblank : maxLen - text.length = free + 1 := by omega
    rw [Code.plain, strlen_append fun c hc => ?_, hblank, List.replicate_succ]
    · exact List.length_map _
    · obtain ⟨a, -, rfl⟩ := List.mem_map.mp hc
      exact a.ne_zero
  have hwidth : (Draft.start text).width ≤ maxLen := by
    rw [Draft.width_start]
    exact hlength
  -- the editor before its first redraw
  let ed : Editor := (⟨letterCode.plain maxLen text beyond, 0, true, false,
    List.range (text.length + 1), []⟩ : Editor).write text.length invalidCharacter
  have hstart : Editor.start maxLen (letterCode.plain maxLen text beyond) = ed.redraw maxLen := by
    rw [Editor.start, hlen]
  have hshows : ed.Shows maxLen beyond (.start text) :=
    ⟨Code.set_plain hlength, by rw [Draft.before_start]; rfl, hwidth⟩
  have hdraw := hshows.drawTypingScreen_inside hbyte
  rw [Draft.width_start] at hdraw
  have hredrawn : (ed.redraw maxLen).Shows maxLen beyond (.start text) :=
    ⟨hshows.memory, hshows.pos, hwidth⟩
  rw [hstart]
  refine ⟨⟨⟨_, hredrawn, fun _ => Draft.ended_start text, fun _ => ⟨Draft.text_start text,
    Draft.ended_start text⟩⟩, ?_⟩, hredrawn, ?_⟩
  · intro screen hmem
    exact ⟨_, hwidth, (List.mem_singleton.mp hmem).trans hshows.memory⟩
  · rw [← hdraw]
    unfold Editor.Inside Editor.redraw
    simp only [List.mem_append]
    refine ⟨fun h i hi => h i (Or.inr hi), fun h i hi => hi.elim (fun hi => ?_) (h i)⟩
    rcases List.mem_append.mp hi with hi | hi
    · exact (List.mem_range.mp hi).trans_le hlength
    · rw [List.mem_singleton.mp hi]
      exact hlength

/-- To find the end of a text that takes the whole buffer the editor leaves it. -/
theorem Editor.start_outside (hlength : text.length = maxLen) :
    ¬ (Editor.start maxLen (letterCode.plain maxLen text beyond)).Inside maxLen := by
  have hlen : maxLen ≤ strlen (letterCode.plain maxLen text beyond) := by
    rw [Code.plain, strlen_append fun c hc => ?_, List.length_map, hlength]
    · exact Nat.le_add_right _ _
    · obtain ⟨a, -, rfl⟩ := List.mem_map.mp hc
      exact a.ne_zero
  intro hinside
  refine absurd (hinside _ ?_) (not_lt.mpr hlen)
  unfold Editor.start
  simp [Editor.write, Editor.redraw]

/-- The loop that ends the strings, up to a place. -/
theorem Editor.foldl_clean (ed : Editor) {n : ℕ} (hn : n ≤ ed.memory.length) :
    ∃ more, (∀ i ∈ more, i < n) ∧ (List.range n).foldl (fun ed i =>
      if ed.char i = invalidCharacter then (ed.read i).write i 0 else ed.read i) ed =
        { ed with
          memory := (ed.memory.take n).map letterCode.unmark ++ ed.memory.drop n
          accesses := ed.accesses ++ more } := by
  induction n with
  | zero => exact ⟨[], by simp, by simp⟩
  | succ n ih =>
      obtain ⟨more, hmore, hfold⟩ := ih (Nat.le_of_succ_le hn)
      have hlength : ((ed.memory.take n).map letterCode.unmark).length = n := by simp; omega
      obtain ⟨c, hc⟩ : ∃ c, ed.memory[n]? = some c := ⟨_, List.getElem?_eq_getElem hn⟩
      have hunmark := Code.unmark_succ (k := letterCode) hc
      have hget : ((ed.memory.take n).map letterCode.unmark ++ ed.memory.drop n).getD n 0 = c := by
        rw [List.getD_eq_getElem?_getD, List.getElem?_append_right hlength.le, hlength,
          Nat.sub_self, List.getElem?_drop, Nat.add_zero, hc]
        rfl
      have hbelow : ∀ i ∈ more ++ [n], i < n + 1 := by
        intro i hi
        rcases List.mem_append.mp hi with hi | hi
        · exact (hmore i hi).trans (Nat.lt_succ_self n)
        · rw [List.mem_singleton.mp hi]
          exact Nat.lt_succ_self n
      rw [List.range_succ, List.foldl_append, hfold, List.foldl_cons, List.foldl_nil]
      simp only [Editor.char, hget]
      split_ifs with hmark
      · refine ⟨more ++ [n] ++ [n], ?_, ?_⟩
        · intro i hi
          rcases List.mem_append.mp hi with hi | hi
          · exact hbelow i hi
          · rw [List.mem_singleton.mp hi]
            exact Nat.lt_succ_self n
        · rw [← hunmark, show letterCode.unmark c = 0 from if_pos hmark]
          simp [Editor.read, Editor.write]
      · refine ⟨more ++ [n], hbelow, ?_⟩
        have hkeep : letterCode.unmark c = c := if_neg hmark
        rw [← hunmark, hkeep]
        have hset : ((ed.memory.take n).map letterCode.unmark ++ ed.memory.drop n).set n c =
            (ed.memory.take n).map letterCode.unmark ++ ed.memory.drop n := by
          rw [List.set_append_right _ _ hlength.le, hlength, Nat.sub_self,
            List.drop_eq_getElem_cons hn, List.set_cons_zero]
          rw [List.getElem?_eq_getElem hn, Option.some.injEq] at hc
          rw [hc]
        rw [hset]
        simp [Editor.read]

/-- When the loop has ended the text is left with zeros behind it. -/
theorem Editor.Legible.clean (h : ed.Legible maxLen beyond text) (hstopped : ed.running = false) :
    ∃ (typed : List Letter) (more : List ℕ), typed.length ≤ maxLen ∧ (∀ i ∈ more, i < maxLen) ∧
      (ed.modified = false → typed = text) ∧
      letterCode.front (ed.memory.take maxLen) = typed.map Letter.char ∧
      ed.clean maxLen = { ed with
        memory := letterCode.plain maxLen typed beyond
        accesses := ed.accesses ++ more } := by
  obtain ⟨d, hshows, hended, hkept⟩ := h.shows_line
  have hended := hended hstopped
  have hlength : ed.memory.length = maxLen + beyond.length := by
    rw [hshows.memory]
    exact Code.length_line hshows.width
  obtain ⟨more, hmore, hclean⟩ := ed.foldl_clean (show maxLen ≤ ed.memory.length by omega)
  obtain ⟨typed, hfront, htyped⟩ := @Code.front_line _ _ letterCode d maxLen beyond _ hshows.width
  obtain rfl := htyped hended
  refine ⟨d.text, more, d.length_text_le.trans hshows.width, hmore, fun hmodified =>
    (hkept hmodified).1, by rw [hshows.memory, hfront]; rfl, ?_⟩
  rw [Editor.clean, hclean, hshows.memory, Code.map_unmark_line hshows.width hended]

/-- What the end of a session changes. -/
structure Editor.Returned (maxLen : ℕ) (beyond : List Byte) (text : List Letter) (ed ed' : Editor) :
    Prop where
  screens : ed'.screens = ed.screens
  inside : ed'.Inside maxLen ↔ ed.Inside maxLen
  typed : ed'.running = false → ∃ typed : List Letter, typed.length ≤ maxLen ∧
    (ed'.modified = false → typed = text) ∧
    letterCode.front (ed.memory.take maxLen) = typed.map Letter.char ∧
    ed'.memory = letterCode.plain maxLen typed beyond

theorem Editor.Legible.returned (h : ed.Legible maxLen beyond text) :
    ed.Returned maxLen beyond text (if ed.running then ed else ed.clean maxLen) := by
  split_ifs with hrunning
  · exact ⟨rfl, Iff.rfl, fun hstopped => absurd hrunning (by rw [hstopped]; decide)⟩
  · obtain ⟨typed, more, hlength, hmore, hkept, hfront, hclean⟩ :=
      h.clean (Bool.eq_false_of_not_eq_true hrunning)
    rw [hclean]
    refine ⟨rfl, ?_, fun _ => ⟨typed, hlength, hkept, hfront, rfl⟩⟩
    unfold Editor.Inside
    simp only [List.mem_append]
    exact ⟨fun hall i hi => hall i (Or.inl hi), fun hall i hi => hi.elim (hall i) (hmore i)⟩

theorem Editor.running_clean (ed : Editor) : (ed.clean maxLen).running = ed.running := by
  unfold clean
  generalize List.range maxLen = places
  induction places generalizing ed with
  | nil => rfl
  | cons i places ih =>
      rw [List.foldl_cons, ih]
      split_ifs <;> rfl

theorem running_typeString (events memory : List Byte) :
    (typeString maxLen events memory).running =
      ((Editor.start maxLen memory).loop maxLen events).running := by
  rw [typeString]
  split_ifs
  · rfl
  · exact Editor.running_clean _

/-! ## A session -/

/-- The text of a buffer, up to its first `INVALID_CHARACTER` or zero. -/
def shownText (buffer : List Byte) : List Byte :=
  buffer.takeWhile fun c => c ≠ invalidCharacter ∧ c ≠ 0

/-- Characters that can be typed. -/
def Typable (chars : List Byte) : Prop := ∀ c ∈ chars, 0x20 ≤ c.toNat ∧ c.toNat ≤ 0x7D

/-- Only characters that can be typed are shown, the cursor stays in the buffer, and the
editor returns the text that was shown when the loop ended, with zeros behind it: the
text there was, if it says that nothing has been modified. -/
structure TypesFaithfully (maxLen : ℕ) (events memory : List Byte) : Prop where
  screens : ∀ screen ∈ (typeString maxLen events memory).screens,
    Typable (shownText (screen.take maxLen))
  pos : ∀ turns, turns <+: events →
    ((Editor.start maxLen memory).loop maxLen turns).pos < maxLen
  result : (typeString maxLen events memory).running = false →
    let text := shownText (((Editor.start maxLen memory).loop maxLen events).memory.take maxLen)
    (typeString maxLen events memory).memory =
      text ++ (List.replicate (maxLen - text.length) 0 ++ memory.drop maxLen)
  unchanged : (typeString maxLen events memory).running = false →
    (typeString maxLen events memory).modified = false →
    (typeString maxLen events memory).memory = memory

theorem exists_letters {chars : List Byte} (h : Typable chars) :
    ∃ text : List Letter, text.map Letter.char = chars := by
  induction chars with
  | nil => exact ⟨[], rfl⟩
  | cons c chars ih =>
      obtain ⟨hc, hchars⟩ := List.forall_mem_cons.mp h
      obtain ⟨text, htext⟩ := ih hchars
      exact ⟨⟨c, hc.1, hc.2⟩ :: text, by rw [List.map_cons, htext]⟩

theorem typable_letters (text : List Letter) : Typable (text.map Letter.char) := by
  intro c hc
  obtain ⟨a, -, rfl⟩ := List.mem_map.mp hc
  exact ⟨a.low, a.high⟩

section Session

variable (hbyte : maxLen < 256) (events : List Byte)
include hbyte

theorem typeString_faithful (hlength : text.length < maxLen) :
    TypesFaithfully maxLen events (letterCode.plain maxLen text beyond) := by
  obtain ⟨hlegible, -, -⟩ := @Editor.legible_start maxLen beyond text hbyte hlength
  have hdrop : (letterCode.plain maxLen text beyond).drop maxLen = beyond := by
    rw [Code.plain, ← List.append_assoc, List.drop_left']
    simp only [List.length_append, List.length_map, List.length_replicate]
    omega
  have hreturned := (hlegible.loop hbyte events).returned
  refine ⟨?_, ?_, ?_, ?_⟩
  · intro screen hmem
    rw [typeString, hreturned.screens] at hmem
    obtain ⟨d, hwidth, rfl⟩ := (hlegible.loop hbyte events).screens screen hmem
    obtain ⟨shown, hfront, -⟩ := @Code.front_line _ _ letterCode d maxLen beyond _ hwidth
    have hshown : shownText ((letterCode.line maxLen d beyond).take maxLen) =
        shown.map Letter.char := hfront
    rw [hshown]
    exact typable_letters shown
  · intro turns _
    obtain ⟨d, hshows, -⟩ := (hlegible.loop hbyte turns).shows_line
    exact hshows.pos_lt
  · intro hstopped
    obtain ⟨typed, -, -, hfront, hmemory⟩ := hreturned.typed hstopped
    have htext : shownText (((Editor.start maxLen (letterCode.plain maxLen text beyond)).loop maxLen
        events).memory.take maxLen) = typed.map Letter.char := hfront
    simp only [typeString, hmemory, htext, hdrop, List.length_map]
    rfl
  · intro hstopped hunmodified
    obtain ⟨typed, -, hkept, -, hmemory⟩ := hreturned.typed hstopped
    rw [typeString, hmemory, hkept hunmodified]

/-- The condition also covers a text that takes the whole buffer. -/
theorem typeString_inside_iff (hlength : text.length ≤ maxLen) :
    (typeString maxLen events (letterCode.plain maxLen text beyond)).Inside maxLen ↔
      text.length + 1 < maxLen ∧ (Editor.start maxLen
        (letterCode.plain maxLen text beyond)).KeepsRoom maxLen events := by
  have houtside : ¬ (Editor.start maxLen (letterCode.plain maxLen text beyond)).Inside maxLen →
      ¬ (typeString maxLen events (letterCode.plain maxLen text beyond)).Inside maxLen := by
    intro hstart hinside
    refine hstart (hinside.of_front (List.IsPrefix.trans
      (@Editor.accesses_loop maxLen events _) ?_))
    rw [typeString]
    split_ifs
    · exact List.prefix_rfl
    · exact Editor.accesses_clean _
  rcases hlength.lt_or_eq with hlt | heq
  · obtain ⟨hlegible, hshows, hinside⟩ := @Editor.legible_start maxLen beyond text hbyte hlt
    by_cases hroom : text.length + 1 < maxLen
    · have hwidth : (Draft.start text).width < maxLen := by rwa [Draft.width_start]
      rw [typeString, (hlegible.loop hbyte events).returned.inside,
        hshows.loop_inside_iff hbyte hwidth, hinside]
    · exact iff_of_false (houtside (mt hinside.mp hroom)) fun h => hroom h.1
  · exact iff_of_false (houtside (Editor.start_outside heq)) fun h => by omega

end Session

/-- What `type_string` does to a text that is shorter than its buffer, in every
session, and when it stays in the buffer: exactly if two places are free and the cursor
never goes on to the last place. -/
theorem typeString_iff (hbyte : maxLen < 256) {chars : List Byte} (hchars : Typable chars)
    (hlength : chars.length < maxLen) (beyond events : List Byte) :
    let memory := chars ++ (List.replicate (maxLen - chars.length) 0 ++ beyond)
    TypesFaithfully maxLen events memory ∧
      ((typeString maxLen events memory).Inside maxLen ↔ chars.length + 1 < maxLen ∧
        (Editor.start maxLen memory).KeepsRoom maxLen events) := by
  obtain ⟨text, rfl⟩ := exists_letters hchars
  rw [List.length_map] at hlength ⊢
  exact ⟨typeString_faithful hbyte events hlength, typeString_inside_iff hbyte events hlength.le⟩

/-- A letter is turned into another one, and one is typed behind it. -/
theorem typeString_iff_letters :
    let memory : List Byte := [0x61] ++ (List.replicate (4 - 1) 0 ++ [])
    TypesFaithfully 4 [4, 2, 4, 8, 8] memory ∧
      ((typeString 4 [4, 2, 4, 8, 8] memory).Inside 4 ↔ 1 + 1 < 4 ∧
        (Editor.start 4 memory).KeepsRoom 4 [4, 2, 4, 8, 8]) := by
  have hchars : Typable [0x61] := by
    unfold Typable
    decide
  exact typeString_iff (by decide) hchars (by decide) [] [4, 2, 4, 8, 8]

set_option maxRecDepth 4000 in
/-- A text of 31 characters in a buffer of 32, and the button that leaves it: the mark
takes the last place, and the first redraw reads the byte behind the buffer. -/
theorem full_line_outside :
    let chars : List Byte := List.replicate 31 0x61
    let session := typeString 32 [8] (chars ++ (List.replicate (32 - chars.length) 0 ++ [0]))
    Typable chars ∧ chars.length < 32 ∧ session.running = false ∧ ¬ session.Inside 32 := by
  have hletter : 0x20 ≤ (0x61 : Byte).toNat ∧ (0x61 : Byte).toNat ≤ 0x7D := by decide
  refine ⟨fun c hc => ?_, by decide, by decide, fun hinside => ?_⟩
  · rw [List.eq_of_mem_replicate hc]
    exact hletter
  · have hiff := @typeString_inside_iff 32 [0] (List.replicate 31 ⟨0x61, hletter.1, hletter.2⟩)
      (by decide) [8] (by rw [List.length_replicate]; decide)
    have hroom := (hiff.mp hinside).1
    rw [List.length_replicate] at hroom
    exact absurd hroom (by decide)

end PasswordWallet
