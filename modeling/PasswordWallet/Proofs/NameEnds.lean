import PasswordWallet.Options.MenuOperations

/-!
# The ends of the names

`upper` and `strcmp` find the end of a name by its zero only.  The editor leaves one in
every name but one that it is left with when there is a character at each of the 32
places, and nothing else writes a name.  So the names in the store have their ends, and
the sort by name stays in its arrays, exactly as long as the editor of a name that is
stored has not been left with characters at the cursor and at the last place
(`Editor.EndsFull`).
-/

namespace PasswordWallet

open PowerLoss TextEditing

variable {t : Target} {fuel : ℕ} {p p' p₀ : Image} {v v' v₀ : Ram} {s s' s₀ : Session}
  {action : UserAction}

/-! ## Names -/
/-- The names of the used chunks have their ends in their 32 bytes. -/
def NamesEnd (t : Target) (p : Image) : Prop :=
  ∀ id < maximumNumberOfPwd, p.used id = true → 0 ∈ passwordReadName t id p

/-- The names of the used chunks are texts of at most 31 characters. -/
def ShortNames (t : Target) (p : Image) : Prop :=
  ∀ id < maximumNumberOfPwd, p.used id = true → ∃ text : List Letter, text.length < 32 ∧
    passwordReadName t id p = letterCode.plain 32 text []

theorem zero_mem_plain {size : ℕ} {text : List Letter} (hlength : text.length ≤ size) :
    0 ∈ letterCode.plain size text [] ↔ text.length < size := by
  rw [← zero_mem_plain_take hlength le_rfl, List.take_of_length_le (length_plain hlength).le]

theorem ShortNames.namesEnd (h : ShortNames t p) : NamesEnd t p := by
  intro id hid hused
  obtain ⟨text, hlength, hname⟩ := h id hid hused
  rw [hname]
  exact (zero_mem_plain hlength.le).mpr hlength

/-! ## Leaving the editor -/

namespace Editor

/-- The cursor is at the last place and goes on, or at the first and goes back, with a
character there, and one at the last place. -/
structure EndsFull (maxLen : ℕ) (ed : Editor) (event : Byte) : Prop where
  notButton1 : event &&& eventButton1 = 0
  leaves : if event &&& eventButton2 ≠ 0 then ed.pos + 1 = maxLen
    else event &&& eventButton3 = 0 ∧ event &&& eventButton4 ≠ 0 ∧ ed.pos = 0
  cursor : ed.char ed.pos ≠ invalidCharacter
  last : ed.char (maxLen - 1) ≠ invalidCharacter ∧ ed.char (maxLen - 1) ≠ 0

/-- No turn of the loop ends it like this. -/
def LeavesRoom (maxLen : ℕ) : List Byte → Editor → Prop
  | [], _ => True
  | event :: events, ed => ed.running = true →
      ¬ ed.EndsFull maxLen event ∧ LeavesRoom maxLen events (ed.step maxLen event)

theorem loop_of_stopped {maxLen : ℕ} {ed : Editor} (hstopped : ed.running = false)
    (events : List Byte) : ed.loop maxLen events = ed := by
  cases events with
  | nil => rfl
  | cons event events => rw [loop, if_neg (by rw [hstopped]; decide)]

theorem leavesRoom_of_stopped {maxLen : ℕ} {ed : Editor} (hstopped : ed.running = false)
    (events : List Byte) : ed.LeavesRoom maxLen events := by
  cases events with
  | nil => trivial
  | cons event events => exact fun hrunning => absurd (hstopped.symm.trans hrunning) (by decide)

end Editor

section Leaving

variable {maxLen : ℕ} {beyond : List Byte} {d : Draft Letter} {ed : Editor}

/-- The condition of the turn, for the line. -/
theorem Editor.Shows.endsFull_iff (h : ed.Shows maxLen beyond d) {event : Byte} :
    ed.EndsFull maxLen event ↔ d.Full maxLen ∧ (eventPress maxLen event d).2 = false := by
  have hpos := h.pos
  have hcursor := h.char_eq_invalidCharacter
  have hlast : d.cursor ≠ none → ((ed.char (maxLen - 1) ≠ invalidCharacter ∧
      ed.char (maxLen - 1) ≠ 0) ↔ d.Full maxLen) := fun hletter => by
    rw [Editor.char, h.memory]
    exact Code.getD_last_iff (k := letterCode) hletter h.width 0
  constructor
  · intro hends
    have hletter := mt hcursor.mpr hends.cursor
    refine ⟨(hlast hletter).mp hends.last, ?_⟩
    have hleaves := hends.leaves
    rw [eventPress, eventKey, if_neg (not_not.mpr hends.notButton1)]
    split_ifs at hleaves ⊢ with h2 h3 h4
    · -- on from the last place
      show (d.next maxLen).2 = false
      rw [Draft.next, if_pos (by omega)]
    · exact absurd hleaves.1 h3
    · -- back from the first
      show d.back.2 = false
      rw [Draft.back, if_pos (List.length_eq_zero_iff.mp (by omega))]
    · exact absurd hleaves.2.1 h4
  · rintro ⟨hfull, hleave⟩
    have hends := (hlast hfull.cursor).mpr hfull
    have hchar := mt hcursor.mp hfull.cursor
    rw [eventPress, eventKey] at hleave
    split_ifs at hleave with h1 h2 h3 h4
    · exact absurd hleave (by simp [Draft.press])
    · refine ⟨not_not.mp h1, ?_, hchar, hends⟩
      rw [if_pos h2]
      by_contra hne
      obtain ⟨a, ha⟩ := Option.ne_none_iff_exists'.mp hfull.cursor
      change (d.next maxLen).2 = false at hleave
      rw [Draft.next, if_neg (by omega), ha] at hleave
      exact absurd (show true = false from hleave) (by decide)
    · exact absurd hleave (by simp [Draft.press])
    · refine ⟨not_not.mp h1, ?_, hchar, hends⟩
      rw [if_neg h2]
      refine ⟨not_not.mp h3, h4, ?_⟩
      change d.back.2 = false at hleave
      unfold Draft.back at hleave
      split_ifs at hleave with hfirst
      rw [hpos, hfirst]
      rfl

/-- The editor that is left shows a line with a free place exactly if no turn has ended
it full; one that is not left has not been ended. -/
theorem Editor.Shows.leavesRoom (h : ed.Shows maxLen beyond d) (hbyte : maxLen < 256)
    (hrunning : ed.running = true) (events : List Byte) :
    ((ed.loop maxLen events).running = true → ed.LeavesRoom maxLen events) ∧
      ((ed.loop maxLen events).running = false → ∃ d',
        (ed.loop maxLen events).Shows maxLen beyond d' ∧ d'.Ended ∧
          (ed.LeavesRoom maxLen events ↔ d'.text.length < maxLen)) := by
  induction events generalizing ed d with
  | nil =>
      exact ⟨fun _ => trivial,
        fun hstopped => absurd (hstopped.symm.trans hrunning) (by decide)⟩
  | cons event events ih =>
      have hturned := h.step hbyte hrunning event
      rw [Editor.loop, if_pos hrunning, Editor.LeavesRoom, forall_prop_of_true hrunning,
        h.endsFull_iff]
      cases hleave : (eventPress maxLen event d).2 with
      | true =>
          have hgoes : ¬ (d.Full maxLen ∧ true = false) := fun hfull => absurd hfull.2 (by decide)
          rw [and_iff_right hgoes]
          exact ih hturned.shows_press (hturned.running.trans hleave)
      | false =>
          -- the turn leaves the editor, and nothing comes after it
          have hstopped := hturned.running.trans hleave
          rw [Editor.loop_of_stopped hstopped, and_iff_left rfl,
            and_iff_left (Editor.leavesRoom_of_stopped hstopped events)]
          refine ⟨fun hcontra => absurd (hstopped.symm.trans hcontra) (by decide), fun _ =>
            ⟨_, hturned.shows_press, ?_⟩⟩
          unfold eventPress at hleave ⊢
          cases hkey : eventKey event with
          | none =>
              rw [hkey] at hleave
              exact absurd (show true = false from hleave) (by decide)
          | some key =>
              rw [hkey] at hleave
              exact ⟨Draft.ended_of_leave h.width hleave,
                (Draft.length_text_press_lt_iff h.width hleave).symm⟩

end Leaving

/-! ## What is stored -/

namespace Sitting

/-- No turn ends the line full. -/
def LeavesRoom (size : ℕ) (text : List Byte) (s : Sitting) : Prop :=
  (Editor.start size (text ++ s.beyond)).LeavesRoom size s.events

variable {text : List Letter} {s : Sitting}

/-- What the editor shows when it is left, for the text it was called on. -/
theorem leavesRoom_iff (hlength : text.length < 32)
    (hstopped : (s.editor 32 (letterCode.plain 32 text [])).running = false) :
    s.LeavesRoom 32 (letterCode.plain 32 text []) ↔
      (shownText (((Editor.start 32 (letterCode.plain 32 text [] ++ s.beyond)).loop 32
        s.events).memory.take 32)).length < 32 := by
  have hbyte : 32 < 256 := by decide
  rw [editor, plain_append, running_typeString] at hstopped
  rw [LeavesRoom, plain_append]
  obtain ⟨-, hshows, -⟩ := @Editor.legible_start 32 s.beyond text hbyte hlength
  obtain ⟨d, hend, hended, hroom⟩ := (hshows.leavesRoom hbyte rfl s.events).2 hstopped
  obtain ⟨shown, hfront, hshown⟩ := @Code.front_line _ _ letterCode d 32 s.beyond _ hend.width
  obtain rfl := hshown hended
  rw [← hend.memory] at hfront
  have hlength' := (congrArg List.length hfront).trans (List.length_map _)
  rw [hroom, ← hlength']
  rfl

theorem leavesRoom_of_running (hlength : text.length < 32)
    (hrunning : (s.editor 32 (letterCode.plain 32 text [])).running = true) :
    s.LeavesRoom 32 (letterCode.plain 32 text []) := by
  have hbyte : 32 < 256 := by decide
  rw [editor, plain_append, running_typeString] at hrunning
  rw [LeavesRoom, plain_append]
  obtain ⟨-, hshows, -⟩ := @Editor.legible_start 32 s.beyond text hbyte hlength
  exact (hshows.leavesRoom hbyte rfl s.events).1 hrunning

theorem typed_of_stopped {size : ℕ} {str : List Byte} {s : Sitting}
    (hstopped : (s.editor size str).running = false) : ∃ bytes, s.typed size str = some bytes := by
  unfold typed
  rw [if_neg (by rw [hstopped]; decide)]
  exact ⟨_, rfl⟩

/-- The bytes of a name that has been typed. -/
theorem typed_name (hlength : text.length < 32) {bytes : Vector Byte 32}
    (htyped : s.typed 32 (letterCode.plain 32 text []) = some bytes) :
    ∃ typed : List Letter, typed.length ≤ 32 ∧ bytes.toList = letterCode.plain 32 typed [] ∧
      (s.LeavesRoom 32 (letterCode.plain 32 text []) ↔ typed.length < 32) := by
  obtain ⟨typed, hle, hbytes, hshown⟩ := typed_spec (by decide) hlength htyped
  refine ⟨typed, hle, hbytes, ?_⟩
  rw [leavesRoom_iff hlength (stopped_of_typed htyped), hshown, List.length_map]

/-- A text that has not been modified has its end. -/
theorem leavesRoom_of_unmodified (hlength : text.length < 32)
    (hunmodified : (s.editor 32 (letterCode.plain 32 text [])).modified = false) :
    s.LeavesRoom 32 (letterCode.plain 32 text []) := by
  cases hrunning : (s.editor 32 (letterCode.plain 32 text [])).running with
  | true => exact leavesRoom_of_running hlength hrunning
  | false =>
      rw [leavesRoom_iff hlength hrunning]
      rw [editor, plain_append] at hunmodified hrunning
      rw [plain_append]
      obtain ⟨hlegible, -, -⟩ := @Editor.legible_start 32 s.beyond text (by decide) hlength
      obtain ⟨typed, -, hkept, hfront, -⟩ :=
        (hlegible.loop (by decide) s.events).returned.typed hrunning
      obtain rfl := hkept hunmodified
      have hlength' := (congrArg List.length hfront).trans (List.length_map _)
      exact hlength'.trans_lt hlength

end Sitting

/-- The editor of the name that an action stores, if it stores one, is not ended full. -/
def UserAction.LeavesEnd (t : Target) (p : Image) (v : Ram) : UserAction → Prop
  | addPwd name data usrName => v.numPwd ≠ maximumNumberOfPwd - 1 →
      (data.editor 32 (emptyText 32)).running = false →
      (usrName.editor 64 (emptyText 64)).running = false → name.LeavesRoom 32 (emptyText 32)
  | changeName name => name.LeavesRoom 32 (passwordReadName t v.currentPasswordId p)
  | _ => True

theorem emptyText_eq (size : ℕ) : emptyText size = letterCode.plain size [] [] := by
  simp [Code.plain, emptyText, letterCode]

/-- The new name that an action writes, as a text. -/
structure UserAction.WritesName (t : Target) (p : Image) (v : Ram) (action : UserAction)
    (e : Entry) (typed : List Letter) : Prop where
  length : typed.length ≤ 32
  bytes : e.name = letterCode.plain 32 typed []
  leavesEnd_iff : action.LeavesEnd t p v ↔ typed.length < 32

section Act

variable (h : MenuInvariant t p v) (hshort : ShortNames t p)
  (hpwd : action.OnPwd → v.numPwd ≠ 0)
include h hshort hpwd

/-- An entry that is written has a new name, or one that a used chunk has already. -/
theorem UserAction.name_of_writes {menu : MenuAction} {e : Entry}
    (hmenu : action.menu = some menu) (hwrites : menu.Writes t p v e) :
    (action.LeavesEnd t p v ∧
        ∃ id < maximumNumberOfPwd, p.used id = true ∧ e.name = passwordReadName t id p) ∨
      ∃ typed, action.WritesName t p v e typed := by
  have hcurrent : action.OnPwd → e.name = (currentEntry t v p).name →
      ∃ id < maximumNumberOfPwd, p.used id = true ∧ e.name = passwordReadName t id p :=
    fun hon hname => ⟨_, (h.current_used (hpwd hon)).1, (h.current_used (hpwd hon)).2, hname⟩
  cases action with
  | addPwd name data usrName =>
      right
      simp only [UserAction.menu, Option.bind_eq_bind, Option.bind_eq_some_iff,
        Option.pure_def, Option.some.injEq] at hmenu
      obtain ⟨pwdName, hname, pwdData, hdata, usr, husr, rfl⟩ := hmenu
      obtain ⟨hroom, rfl⟩ := hwrites
      rw [emptyText_eq] at hname
      obtain ⟨typed, hlength, hbytes, hleaves⟩ := Sitting.typed_name (by decide) hname
      refine ⟨typed, hlength, hbytes, ?_⟩
      rw [LeavesEnd, forall_prop_of_true hroom,
        forall_prop_of_true (Sitting.stopped_of_typed hdata),
        forall_prop_of_true (Sitting.stopped_of_typed husr), emptyText_eq]
      exact hleaves
  | changeName name =>
      right
      obtain rfl := Option.some.inj hmenu
      obtain ⟨typed, htyping, rfl⟩ := hwrites
      obtain ⟨hid, hused⟩ := h.current_used (hpwd trivial)
      obtain ⟨text, hlength, htext⟩ := hshort _ hid hused
      have htyped := Sitting.typed_of_typing htyping
      have hname : (currentEntry t v p).name = letterCode.plain 32 text [] := htext
      rw [hname] at htyped
      obtain ⟨typed, hlength', hbytes, hleaves⟩ := Sitting.typed_name hlength htyped
      refine ⟨typed, hlength', hbytes, ?_⟩
      rw [LeavesEnd, htext]
      exact hleaves
  | changePwd pwd =>
      obtain rfl := Option.some.inj hmenu
      obtain ⟨typed, -, rfl⟩ := hwrites
      exact Or.inl ⟨trivial, hcurrent trivial rfl⟩
  | changeUsrName usr =>
      obtain rfl := Option.some.inj hmenu
      obtain ⟨typed, -, rfl⟩ := hwrites
      exact Or.inl ⟨trivial, hcurrent trivial rfl⟩
  | other action untyped =>
      obtain rfl := Option.some.inj hmenu
      refine Or.inl ⟨trivial, ?_⟩
      cases action with
      | addPwd name data usrName => exact absurd trivial untyped
      | changeName typing => exact absurd trivial untyped
      | changePwd typing => exact absurd trivial untyped
      | changeUsrName typing => exact absurd trivial untyped
      | regeneratePwd drawings confirmed =>
          obtain ⟨-, newPwd, -, -, rfl⟩ := hwrites
          exact hcurrent trivial rfl
      | sendPwd =>
          obtain rfl := hwrites
          exact hcurrent trivial rfl
      | sendBoth =>
          obtain rfl := hwrites
          exact hcurrent trivial rfl
      | deletePwd confirmed => exact hwrites.elim
      | sendUsr => exact hwrites.elim
      | noSort => exact hwrites.elim
      | sortUse => exact hwrites.elim
      | sortAlpha => exact hwrites.elim

/-- A name that is left full is written. -/
theorem UserAction.writes_of_full (hfull : ¬ action.LeavesEnd t p v) :
    ∃ menu e, action.menu = some menu ∧ menu.Writes t p v e := by
  cases action with
  | addPwd name data usrName =>
      simp only [LeavesEnd, Classical.not_imp] at hfull
      obtain ⟨hroom, hdata, husr, hfull⟩ := hfull
      have hname : (name.editor 32 (emptyText 32)).running = false := by
        by_contra hrunning
        rw [Bool.not_eq_false] at hrunning
        rw [emptyText_eq] at hrunning hfull
        exact hfull (Sitting.leavesRoom_of_running (by decide) hrunning)
      obtain ⟨pwdName, hname⟩ := Sitting.typed_of_stopped hname
      obtain ⟨pwdData, hdata⟩ := Sitting.typed_of_stopped hdata
      obtain ⟨usr, husr⟩ := Sitting.typed_of_stopped husr
      refine ⟨.addPwd pwdName pwdData usr, _, ?_, hroom, rfl⟩
      simp only [UserAction.menu, hname, hdata, husr]
      rfl
  | changeName name =>
      obtain ⟨hid, hused⟩ := h.current_used (hpwd trivial)
      obtain ⟨text, hlength, htext⟩ := hshort _ hid hused
      have hstopped : (name.editor 32 (passwordReadName t v.currentPasswordId p)).running =
          false := by
        by_contra hrunning
        rw [Bool.not_eq_false] at hrunning
        rw [LeavesEnd, htext] at hfull
        rw [htext] at hrunning
        exact hfull (Sitting.leavesRoom_of_running hlength hrunning)
      have hmodified : (name.editor 32 (passwordReadName t v.currentPasswordId p)).modified =
          true := by
        by_contra hunmodified
        rw [Bool.not_eq_true] at hunmodified
        rw [LeavesEnd, htext] at hfull
        rw [htext] at hunmodified
        exact hfull (Sitting.leavesRoom_of_unmodified hlength hunmodified)
      obtain ⟨bytes, htyped⟩ := Sitting.typed_of_stopped hstopped
      refine ⟨.changeName (name.typing 32), _, rfl, bytes, ?_, rfl⟩
      show name.typing 32 (passwordReadName t v.currentPasswordId p) = some bytes
      rw [Sitting.typing, if_pos hmodified, htyped]
  | changePwd pwd => exact absurd trivial hfull
  | changeUsrName usr => exact absurd trivial hfull
  | other action untyped => exact absurd trivial hfull

/-- What an action does to the names. -/
theorem UserAction.names_act (hfits : action.Fits t v) (hfuel : sortTurns ≤ fuel)
    (hrun : Completes (action.run t fuel) p v () p' v') :
    (action.LeavesEnd t p v → ShortNames t p') ∧ (NamesEnd t p' → action.LeavesEnd t p v) := by
  obtain ⟨-, -, hdone⟩ := UserAction.act hfits hfuel h hpwd hrun
  constructor
  · intro hleaves id hid hused
    rcases hdone with ⟨-, rfl⟩ | ⟨menu, hmenu, hrewrites⟩
    · exact hshort id hid hused
    · have hname : ∀ e, readEntry t v.key id p' = e → passwordReadName t id p' = e.name :=
        fun e he => congrArg Entry.name he
      rcases hrewrites.entries id hid hused with ⟨hused', hsame⟩ | hwrites
      · rw [hname _ hsame]
        exact hshort id hid hused'
      · rw [hname _ rfl]
        rcases action.name_of_writes h hshort hpwd hmenu hwrites with
          ⟨-, other, hother, hused', hsame⟩ | ⟨typed, htyped⟩
        · rw [hsame]
          exact hshort other hother hused'
        · exact ⟨typed, htyped.leavesEnd_iff.mp hleaves, htyped.bytes⟩
  · intro hends
    by_contra hfull
    obtain ⟨menu, e, hmenu, hwrites⟩ := action.writes_of_full h hshort hpwd hfull
    rcases hdone with ⟨hnone, -⟩ | ⟨menu', hmenu', hrewrites⟩
    · exact absurd (hmenu.symm.trans hnone) (by simp)
    · obtain rfl := Option.some.inj (hmenu.symm.trans hmenu')
      obtain ⟨id, hid, hused, hwrites'⟩ := hrewrites.written ⟨e, hwrites⟩
      have hzero : 0 ∈ (readEntry t v.key id p').name := hends id hid hused
      rcases action.name_of_writes h hshort hpwd hmenu hwrites' with
        ⟨hleaves, -⟩ | ⟨typed, htyped⟩
      · exact hfull hleaves
      · rw [htyped.bytes, zero_mem_plain htyped.length] at hzero
        exact hfull (htyped.leavesEnd_iff.mpr hzero)

end Act

/-! ## Operations -/

/-- The other operations store no name. -/
def MenuOperation.LeavesEnd (t : Target) (p : Image) (v : Ram) : MenuOperation → Prop
  | user action => action.LeavesEnd t p v
  | _ => True

theorem MenuOperation.leavesEnd_of_ne {op : MenuOperation}
    (hne : ∀ action, op ≠ .user action) : op.LeavesEnd t p v := by
  cases op with
  | user action => exact absurd rfl (hne action)
  | _ => trivial

theorem ShortNames.of_setting (h : ShortNames t p) (hinvariant : MenuInvariant t p v)
    (hsame : SameSettings p p' v v') : ShortNames t p' := by
  intro id hid hused
  rw [hsame.used hid] at hused
  obtain ⟨use, alpha, hwell, -, -⟩ := hinvariant.store
  have hbound := hwell.threadedUse.bound id (hwell.mem_use_iff.mpr ⟨hid, hused⟩)
  rw [hsame.name hbound]
  exact h id hid hused

theorem Emptied.shortNames (h : Emptied t p v) : ShortNames t p := fun id hid hused =>
  absurd ((h.unused id hid).symm.trans hused) Bool.false_ne_true

/-- What an operation does to the names. -/
theorem MenuOperation.names_run {op : MenuOperation} (hfits : op.Fits t s.ram)
    (hfuel : sortTurns ≤ fuel) (h : MenuInvariant t p s.ram) (hshort : ShortNames t p)
    (hpwd : op.OnPwd → s.ram.numPwd ≠ 0) (hrun : Completes (op.run t fuel) p s () p' s') :
    (op.LeavesEnd t p s.ram → ShortNames t p') ∧
      (NamesEnd t p' → op.LeavesEnd t p s.ram) := by
  rcases cases_run hrun with ⟨action, rfl, haction⟩ | ⟨hne, hother⟩
  · exact UserAction.names_act h hshort hpwd hfits hfuel haction
  · refine ⟨fun _ => ?_, fun _ => leavesEnd_of_ne hne⟩
    rcases hother with hsame | hempty
    · exact hshort.of_setting h hsame
    · exact hempty.shortNames

section Run

variable (hfuel : sortTurns ≤ fuel) (h₀ : Erased p₀ s₀.ram)
  {log : List (Image × Session × MenuOperation)} (hfits : ∀ x ∈ log, x.2.2.Fits t x.2.1.ram)
include hfuel h₀ hfits

theorem OperationRun.shortNames (hrun : OperationRun t fuel p₀ s₀ log p s)
    (hleaves : ∀ x ∈ log, x.2.2.LeavesEnd t x.1 x.2.1.ram) : ShortNames t p := by
  induction hrun with
  | start => exact (h₀.emptied (t := t)).shortNames
  | operate hrun hpwd hop ih =>
      rw [List.forall_mem_append, List.forall_mem_singleton] at hfits hleaves
      have hinvariant := hrun.invariant hfuel h₀ hfits.1
      exact (MenuOperation.names_run hfits.2 hfuel hinvariant (ih hfits.1 hleaves.1) hpwd hop).1
        hleaves.2
  | select _ _ _ ih => exact ih hfits hleaves
  | between _ _ _ _ ih => exact ih hfits hleaves

/-- The names end in all states of a run exactly if each operation leaves the end of the
name it stores. -/
theorem OperationRun.namesEnd_iff (hrun : OperationRun t fuel p₀ s₀ log p s) :
    (∀ x ∈ log, NamesEnd t x.1) ∧ NamesEnd t p ↔
      ∀ x ∈ log, x.2.2.LeavesEnd t x.1 x.2.1.ram := by
  refine ⟨fun hends => ?_, fun hleaves => ?_⟩
  · induction hrun with
    | start => exact fun _ hx => absurd hx List.not_mem_nil
    | operate hrun hpwd hop ih =>
        obtain ⟨hlog, hlast⟩ := hends
        rw [List.forall_mem_append, List.forall_mem_singleton] at hfits hlog ⊢
        have hbefore := ih hfits.1 hlog
        have hinvariant := hrun.invariant hfuel h₀ hfits.1
        have hshort := hrun.shortNames hfuel h₀ hfits.1 hbefore
        exact ⟨hbefore,
          (MenuOperation.names_run hfits.2 hfuel hinvariant hshort hpwd hop).2 hlast⟩
    | select _ _ _ ih => exact ih hfits hends
    | between _ _ _ _ ih => exact ih hfits hends
  · refine ⟨?_, (hrun.shortNames hfuel h₀ hfits hleaves).namesEnd⟩
    induction hrun with
    | start => exact fun _ hx => absurd hx List.not_mem_nil
    | operate hrun hpwd hop ih =>
        rw [List.forall_mem_append, List.forall_mem_singleton] at hfits hleaves ⊢
        exact ⟨ih hfits.1 hleaves.1, (hrun.shortNames hfuel h₀ hfits.1 hleaves.1).namesEnd⟩
    | select _ _ _ ih => exact ih hfits hleaves
    | between _ _ _ _ ih => exact ih hfits hleaves

end Run

/-! ## Sorts -/

/-- The sort by name comes to its end from a state, with all accesses in its arrays. -/
def SortInArrays (t : Target) (fuel : ℕ) (p : Image) (v : Ram) : Prop :=
  ∃ accesses p' v', Completes (pwdListSortAlphaAccesses t fuel) p v accesses p' v' ∧
    InArrays accesses

/-- The names end in every state of a run, and the sort by name stays in its arrays
wherever it is called: by the operations of the run, and by `state_wait_card_end` behind
the sort by use. -/
structure NamesInside (t : Target) (fuel : ℕ) (log : List (Image × Session × MenuOperation))
    (p : Image) (v : Ram) : Prop where
  names : (∀ x ∈ log, NamesEnd t x.1) ∧ NamesEnd t p
  operations : ∀ x ∈ log, ∀ q w, x.2.2.SortsAt t fuel x.1 x.2.1.ram q w → SortInArrays t fuel q w
  waitCardEnd : ∀ q w, Completes (pwdListSortUse t fuel) p v () q w → SortInArrays t fuel q w

section Sorts

variable {use alpha : List ℕ} {link : ℕ}

/-- Rewiring an order changes no name. -/
theorem WellFormed.namesEnd_iff (h : WellFormed t p v use alpha) (hlink : link = 0 ∨ link = 4)
    (hsame : SameOff (orderRegion t link) p p') : NamesEnd t p' ↔ NamesEnd t p := by
  have hlist := hsame.mono (orderRegion_subset hlink)
  have hused : ∀ id < maximumNumberOfPwd, p'.used id = p.used id := fun id hid =>
    hsame.used (fun x hlow hhigh hx => by
      have := orderRegion_bounds hlink hx
      omega) (hid.trans_le (by decide))
  have hname : ∀ id < maximumNumberOfPwd, p.used id = true →
      passwordReadName t id p' = passwordReadName t id p := by
    intro id hid hin
    have hbound := h.threadedUse.bound id (h.mem_use_iff.mpr ⟨hid, hin⟩)
    exact congrArg Entry.name (@SameOff.readEntry_of_list t id v.key p p' hlist hbound)
  constructor
  · intro hends id hid hin
    rw [← hname id hid hin]
    exact hends id hid (by rwa [hused id hid])
  · intro hends id hid hin
    rw [hused id hid] at hin
    rw [hname id hid hin]
    exact hends id hid hin

theorem sortInArrays_of_namesEnd (hfuel : sortTurns ≤ fuel) (h : WellFormed t p v use alpha)
    (hends : NamesEnd t p) : SortInArrays t fuel p v := by
  have hnames : ∀ id ∈ alpha, 0 ∈ passwordReadName t id p := by
    intro id hid
    obtain ⟨hlt, hused⟩ := h.mem_use_iff.mp (h.perm.subset hid)
    exact hends id hlt hused
  obtain ⟨accesses, p', v', hrun, hinside⟩ :=
    exists_completes (wp_sortAlpha_inside hfuel h.threadedAlpha h.alpha_ne_nil hnames)
  exact ⟨accesses, p', v', hrun, hinside⟩

/-- Where an operation calls the sort, for the names that are there after it. -/
theorem MenuOperation.SortsAt.inArrays {op : MenuOperation} {q : Image} {w : Ram}
    (hfits : op.Fits t s.ram) (hfuel : sortTurns ≤ fuel) (h : MenuInvariant t p s.ram)
    (hpwd : op.OnPwd → s.ram.numPwd ≠ 0) (hrun : Completes (op.run t fuel) p s () p' s')
    (hends : NamesEnd t p') (hcall : op.SortsAt t fuel p s.ram q w) : SortInArrays t fuel q w := by
  cases op with
  | user action =>
      obtain ⟨menu, hmenu, hcall⟩ := hcall
      have haction := (completes_liftDev.mp hrun).1
      rw [hmenu] at haction
      have honPwd : menu.OnPwd → s.ram.numPwd ≠ 0 := fun hon =>
        hpwd (UserAction.onPwd_of_menu hmenu hon)
      have hmenuFits : menu.Fits t s.ram := UserAction.fits_of_menu hmenu hfits
      obtain ⟨use, alpha, hwell⟩ := wp_completes (wp_toSort hmenuFits hfuel h honPwd) hcall rfl
      obtain ⟨hsame, -⟩ := wp_completes (wp_sameOff (wp_sortAlpha hwell hfuel))
        (completes_sort hcall haction)
      exact sortInArrays_of_namesEnd hfuel hwell ((hwell.namesEnd_iff (Or.inr rfl) hsame).mp hends)
  | _ => exact hcall.elim

end Sorts

/-- In every run of the menus from an erased store, with passwords in chunks that lie where
their numbers say, and whatever is typed: all names end in their 32 bytes, and the sort by
name stays in its arrays, exactly if no editor of a name that is stored is left with
characters at the cursor and at the last place. -/
theorem names_inside_iff (hfuel : sortTurns ≤ fuel) (h₀ : Erased p₀ s₀.ram)
    {log : List (Image × Session × MenuOperation)} (hrun : OperationRun t fuel p₀ s₀ log p s)
    (hfits : ∀ x ∈ log, x.2.2.Fits t x.2.1.ram) :
    NamesInside t fuel log p s.ram ↔ ∀ x ∈ log, x.2.2.LeavesEnd t x.1 x.2.1.ram := by
  refine ⟨fun h => (hrun.namesEnd_iff hfuel h₀ hfits).mp h.names, fun hleaves => ?_⟩
  have hnames := (hrun.namesEnd_iff hfuel h₀ hfits).mpr hleaves
  refine ⟨hnames, ?_, fun q w hsort => ?_⟩
  · clear hnames
    induction hrun with
    | start => exact fun _ hx => absurd hx List.not_mem_nil
    | operate hrun hpwd hop ih =>
        have hafter := (hrun.operate hpwd hop).shortNames hfuel h₀ hfits hleaves
        rw [List.forall_mem_append, List.forall_mem_singleton] at hfits hleaves ⊢
        have hinvariant := hrun.invariant hfuel h₀ hfits.1
        exact ⟨ih hfits.1 hleaves.1, fun q w hcall =>
          hcall.inArrays hfits.2 hfuel hinvariant hpwd hop hafter.namesEnd⟩
    | select _ _ _ ih => exact ih hfits hleaves
    | between _ _ _ _ ih => exact ih hfits hleaves
  · obtain ⟨⟨use, alpha, hwell, -, -⟩, -⟩ := hrun.invariant hfuel h₀ hfits
    obtain ⟨hsame, -, use', -, hsorted, -⟩ :=
      wp_completes (wp_sameOff (wp_sortUse hwell hfuel)) hsort
    exact sortInArrays_of_namesEnd hfuel hsorted
      ((hwell.namesEnd_iff (Or.inl rfl) hsame).mpr hnames.2)

/-- The first password is added on the AVR. -/
theorem exists_run_addPwd (cipher : BlockCipher) (h₀ : Erased p₀ s₀.ram)
    (name data usrName : Sitting) :
    let op := MenuOperation.user (.addPwd name data usrName)
    ∃ p' s', OperationRun ⟨.avr, cipher⟩ sortTurns p₀ s₀ [(p₀, s₀, op)] p' s' ∧
      ∀ x ∈ [(p₀, s₀, op)], x.2.2.Fits ⟨.avr, cipher⟩ x.2.1.ram := by
  intro op
  have hreach : (⟨.avr, cipher⟩ : Target).Reaches s₀.ram := Or.inr (by
    rw [h₀.numPwd]
    show 0 < Addressing.capacity .avr
    decide)
  obtain ⟨p', v', hdone⟩ := exists_completes_addPwd hreach h₀ name data usrName
  refine ⟨p', { s₀ with ram := v' }, .operate .start (fun h => h.elim)
    (completes_liftDev.mpr ⟨hdone, rfl⟩), fun x hx => ?_⟩
  rw [List.mem_singleton.mp hx]
  exact hreach

/-- A password of one blank each is added to an erased store, and the screen turned. -/
theorem names_inside_iff_blank :
    let t : Target := ⟨.avr, .xorKey⟩
    let s := Session.boot (.reset (fun _ => Vector.replicate 4 7) (Vector.replicate 16 0))
    let add := MenuOperation.user (.addPwd ⟨[4, 2, 2], []⟩ ⟨[4, 2, 2], []⟩ ⟨[4, 2, 2], []⟩)
    ∃ p₁ s₁ p₂ s₂,
      OperationRun t sortTurns .zero s [(.zero, s, add), (p₁, s₁, .inverseScreen)] p₂ s₂ ∧
      (NamesInside t sortTurns [(.zero, s, add), (p₁, s₁, .inverseScreen)] p₂ s₂.ram ↔
        ∀ x ∈ [(Image.zero, s, add), (p₁, s₁, .inverseScreen)],
          x.2.2.LeavesEnd t x.1 x.2.1.ram) := by
  intro t s add
  have herased : Erased .zero s.ram := erased_reset _ _
  obtain ⟨p₁, s₁, hadd, hfits⟩ := exists_run_addPwd .xorKey herased ⟨[4, 2, 2], []⟩
    ⟨[4, 2, 2], []⟩ ⟨[4, 2, 2], []⟩
  obtain ⟨p₂, s₂, hturn⟩ : ∃ p₂ s₂, Completes (MenuOperation.inverseScreen.run t sortTurns) p₁ s₁
      () p₂ s₂ := ⟨_, _, rfl, rfl, rfl⟩
  have hfree : MenuOperation.inverseScreen.OnPwd → s₁.ram.numPwd ≠ 0 := fun h => h.elim
  have hrun := hadd.operate hfree hturn
  have hfits' : ∀ x ∈ [(Image.zero, s, add), (p₁, s₁, .inverseScreen)],
      x.2.2.Fits t x.2.1.ram := List.forall_mem_append.mpr ⟨hfits, by simp [MenuOperation.Fits]⟩
  exact ⟨p₁, s₁, p₂, s₂, hrun, names_inside_iff le_rfl herased hrun hfits'⟩

/-- The user types a blank in each of the 32 places of the name of a new password, and
nothing else: the name that is stored has no end. -/
theorem full_name_stored :
    let t : Target := ⟨.avr, .xorKey⟩
    let s := Session.boot (.reset (fun _ => Vector.replicate 4 7) (Vector.replicate 16 0))
    let events : List Byte := (List.replicate 32 [4, 2]).flatten
    let op := MenuOperation.user (.addPwd ⟨events, []⟩ ⟨[8], []⟩ ⟨[8], []⟩)
    ∃ p' s', OperationRun t sortTurns .zero s [(.zero, s, op)] p' s' ∧ ¬ NamesEnd t p' := by
  intro t s events op
  have herased : Erased .zero s.ram := erased_reset _ _
  obtain ⟨p', s', hrun, hfits⟩ := exists_run_addPwd .xorKey herased ⟨events, []⟩ ⟨[8], []⟩
    ⟨[8], []⟩
  refine ⟨p', s', hrun, fun hends => ?_⟩
  have hstart : NamesEnd t .zero := (herased.emptied (t := t)).shortNames.namesEnd
  have hleaves := (hrun.namesEnd_iff le_rfl herased hfits).mp
    ⟨fun x hx => List.mem_singleton.mp hx ▸ hstart, hends⟩ _ (List.mem_singleton_self _)
  have hbyte : 32 < 256 := by decide
  obtain ⟨-, hshows, -⟩ := @Editor.legible_start 32 [] [] hbyte (by decide)
  obtain ⟨-, hshows', -⟩ := @Editor.legible_start 64 [] [] (by decide) (by decide)
  have hdata : ((⟨[8], []⟩ : Sitting).editor 32 (emptyText 32)).running = false := by
    rw [Sitting.editor, emptyText_eq, plain_append, running_typeString]
    exact hshows.leave hbyte rfl
  have husr : ((⟨[8], []⟩ : Sitting).editor 64 (emptyText 64)).running = false := by
    rw [Sitting.editor, emptyText_eq, plain_append, running_typeString]
    exact hshows'.leave (by decide) rfl
  -- the editor of the name is left with 32 characters, one more than a name may have
  obtain ⟨hfull, hstopped⟩ := @Editor.Shows.typeFull 32 [] _ hshows hbyte rfl 31 rfl
  have hroom := hleaves (by decide) hdata husr
  have hname : ((⟨events, []⟩ : Sitting).editor 32 (letterCode.plain 32 [] [])).running = false := by
    rw [Sitting.editor, plain_append, running_typeString]
    exact hstopped
  rw [emptyText_eq, Sitting.leavesRoom_iff (by decide) hname] at hroom
  obtain ⟨typed, hfront, htyped⟩ := @Code.front_line _ _ letterCode
    ⟨List.replicate 31 blankLetter, some blankLetter, [], false⟩ 32 [] _ hfull.width
  obtain rfl := htyped fun hnone => nomatch hnone
  rw [← hfull.memory] at hfront
  have hlength := (congrArg List.length hfront).trans (List.length_map _)
  rw [plain_append] at hroom
  exact absurd (hlength.symm.trans_lt hroom) (by decide)

end PasswordWallet
