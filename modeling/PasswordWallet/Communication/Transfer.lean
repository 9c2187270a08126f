import PasswordWallet.Communication.Position

/-!
# Commands and the position

Each command that is called when its data is `Due` comes back to a session that is
`Positioned`, and so does every packet, whatever else is processed meanwhile.  Two
things can spoil this and are asked of the surroundings: the user may open the gate
in the middle of a transfer, and a full reset may close it there.
-/

namespace PasswordWallet

open PowerLoss

/-- If the gate opens now, then not in the middle of data that is stored. -/
def Session.MayOpen (s : Session) : Prop :=
  s.enabled = false → s.parser.comState = .data → stores s.parser.id → s.parser.bytesProcessed = 0

/-- The gate is neither opened nor closed by hand in the middle of a transfer. -/
def World.unhurried : World where
  grants env := ∀ p s, env.answer p s = true → s.MayOpen
  firmware _ := True
  mayReset s := s.Storing → s.parser.bytesProcessed = 0

variable {t : Target} {env : Env} {s : Session} {p : Image}

/-- A command that waits as the surroundings allow. -/
structure Waits (env : Env) : Prop where
  poll : ∀ sender, Leads Positioned Traced Positioned (env.poll sender)
  screen : Leads Positioned Traced Positioned env.screen
  answer : ∀ p s, env.answer p s = true → s.MayOpen

/-! ## Commands that store nothing -/

section Replying

variable (hwaits : Waits env)
include hwaits

theorem sendEmpty_positioned (sender : Sender) (id : Byte) :
    Leads Positioned Traced Positioned (sendEmpty env sender id) :=
  sendEmpty_leads (hwaits.poll sender) id fun _ h => h.emit rfl

/-- An abort leaves the gate closed, and the position at the beginning. -/
theorem comAbort_positioned :
    Leads Positioned Traced (fun s => Positioned s ∧ s.enabled = false ∧ s.comPos = 0)
      (comAbort env) :=
  .bind (.modify (K := Positioned) fun _ h => h.emit rfl) fun _ =>
    .bind (sendEmpty_positioned hwaits _ _) fun _ => .modify fun s h =>
      ⟨h.close, by
        change (s.clearEvents eventFlagCom).enabled = false
        simp [Session.enabled_clearEvents, eventFlagCom], rfl⟩

theorem comAbort_positioned' : Leads Positioned Traced Positioned (comAbort env) :=
  fun p s h => wp_imp (comAbort_positioned hwaits p s h) fun _ _ _ h => h.1

omit hwaits in
/-- The user says yes. -/
theorem Positioned.open (h : Positioned s) (hopen : s.MayOpen) :
    Positioned ((s.eventsHappen eventFlagCom).emit .accepted) := by
  refine Positioned.emit ?_ rfl
  by_cases henabled : s.enabled = true
  · exact h.congr rfl rfl rfl (by simp [Session.enabled_eventsHappen, henabled]) rfl
  · rw [Bool.not_eq_true] at henabled
    have hcomPos := h.idle fun hstoring => by simp [hstoring.2.1] at henabled
    exact positioned_of_zero h.parser hcomPos (h.comParameter_eq_zero hcomPos)
      (fun hstoring => hopen henabled hstoring.1 hstoring.2.2) h.starts h.keyInRange h.keyShort

theorem commandInit_positioned : Leads Positioned Traced Positioned (commandInit env) := by
  have habort : Leads Positioned Traced Positioned (abortEnabled env) :=
    .ram fun s hs => .ite (fun _ => (comAbort_positioned' hwaits).imp fun _ h => h ▸ hs)
      fun _ => .modify fun _ h => h ▸ hs.emit rfl
  refine .bind habort fun _ p s hs => ?_
  rw [wp_bind, drawConfirmationScreen, wp_bind, wp_emit, wp_bind]
  refine wp_imp (hwaits.screen p _ (hs.emit rfl)) fun _ p₁ s₁ h₁ => ?_
  rw [wp_bind, wp_durable, wp_bind, wp_ram, wp_pure, wp_ite, wp_bind, wp_modifySession]
  refine ⟨fun hyes => ?_, fun _ => sendEmpty_positioned hwaits _ _ p₁ s₁ h₁⟩
  exact sendEmpty_positioned hwaits _ _ p₁ _ (h₁.open (hwaits.answer p₁ s₁ hyes))

theorem commandEnd_positioned :
    Leads (fun s => Positioned s ∧ s.comPos = 0) Traced Positioned (commandEnd env) := by
  refine .bind (.modify (K := Positioned) fun _ h => ?_) fun _ => sendEmpty_positioned hwaits _ _
  have hstopped := @Positioned.emit _ .stopped h.1.close rfl
  exact hstopped.congr rfl h.2 (h.1.comParameter_eq_zero h.2) rfl rfl

theorem commandGetFram_positioned : Leads Positioned Traced Positioned (commandGetFram env) := by
  have hchunk : ∀ i, Leads Positioned Traced Positioned (framChunk env i) := fun i =>
    .durable fun _ => .bind (.modify (K := Positioned) fun _ h => h.emit rfl) fun _ =>
      sendData_leads (hwaits.poll _) _ fun _ h => h.emit rfl
  exact .bind (sendHeader_leads (hwaits.poll _) _ _ fun _ h => h.emit rfl) fun _ =>
    .forUp hchunk _ _

theorem commandGetKey_positioned : Leads Positioned Traced Positioned (commandGetKey env) :=
  .ram fun _ hs => .ite
    (fun _ => (sendCommand_leads (hwaits.poll _) _ (fun _ h => h.emit rfl)
      fun _ _ h => h.emit rfl).imp fun _ h => h ▸ hs)
    fun _ => (sendEmpty_positioned hwaits _ _).imp fun _ h => h ▸ hs

theorem commandGetParam_positioned : Leads Positioned Traced Positioned (commandGetParam env) :=
  .bind (sendHeader_leads (hwaits.poll _) _ _ fun _ h => h.emit rfl) fun _ =>
    sendData_leads (hwaits.poll _) _ fun _ h => h.emit rfl

theorem commandGetVersion_positioned :
    Leads Positioned Traced Positioned (commandGetVersion env) :=
  sendCommand_leads (hwaits.poll _) _ (fun _ h => h.emit rfl) fun _ _ h => h.emit rfl

theorem commandReset_positioned : Leads Positioned Traced Positioned (commandReset env) :=
  .bind (sendEmpty_positioned hwaits _ _) fun _ =>
    .bind (.modify (K := Positioned) fun _ h => h.emit rfl) fun _ => .hang fun _ h => h.traced

end Replying

/-! ## `COM_SET_FRAM` -/

theorem wp_takeAddress_any (data : List Byte) :
    wp (takeAddress data)
      (fun rest _ s' => ∃ comPos comParameter,
        s' = { s with comPos := comPos, comParameter := comParameter } ∧
        comPos + rest.length = s.comPos + data.length ∧ (comPos ≤ 2 → rest = []) ∧
        (comPos = 0 → comParameter = s.comParameter))
      (fun _ _ => False) (fun _ _ => True) p s := by
  induction data generalizing s with
  | nil => exact (wp_pure _).mpr ⟨s.comPos, s.comParameter, rfl, rfl, fun _ => rfl, fun _ => rfl⟩
  | cons byte rest ih =>
      rw [takeAddress, wp_bind, wp_ram, wp_ite, wp_bind, wp_modifySession, wp_pure]
      refine ⟨fun _ => wp_imp ih fun left p' s' hpost => ?_, fun hgt => ?_⟩
      · obtain ⟨comPos, comParameter, rfl, hlength, hrest, hzero⟩ := hpost
        simp only [List.length_cons] at hlength ⊢
        refine ⟨comPos, comParameter, rfl, by omega, hrest, fun hfirst => ?_⟩
        have hnil := congrArg List.length (hrest (by omega))
        rw [List.length_nil] at hnil
        omega
      · exact ⟨s.comPos, s.comParameter, rfl, rfl, fun hle => absurd hle hgt, fun _ => rfl⟩

/-- What the data of a call leaves before the answer: the position has moved over it. -/
structure Taken (data : List Byte) (s s' : Session) : Prop where
  parser : s'.parser = s.parser
  enabled : s'.enabled = s.enabled
  comPos : s'.comPos = s.comPos + data.length
  comParameter : s'.comPos = 0 → s'.comParameter = s.comParameter
  starts : StartsClean s.log → StartsClean s'.log
  keyInRange : KeyInRange s'.log ↔ KeyInRange s.log
  keyShort : KeyShort s'.log ↔ KeyShort s.log
  replied : replies s'.log = replies s.log

theorem wp_writeFram_any {addr : ℕ} {data : List Byte} (hpos : 0 < s.comPos)
    (hfits : s.comPos + data.length < 2 ^ 24) :
    wp (writeFram addr data) (fun _ _ s' => Taken data s s') (fun _ _ => False)
      (fun _ _ => True) p s := by
  simp only [writeFram, wp_bind, wp_emit, wp_modifySession, wp_liftDev]
  have hcomPos : (s.comPos + data.length) % 2 ^ 32 = s.comPos + data.length :=
    Nat.mod_eq_of_lt (by omega)
  refine wp_framWriteBytes (fun _ _ => trivial) ⟨rfl, rfl, hcomPos, fun hzero => ?_,
    fun h => h.cons rfl, keyInRange_cons rfl, keyShort_cons rfl, rfl⟩
  have := hcomPos.symm.trans hzero
  omega

/-- The address and the payload of a call are taken. -/
theorem wp_setFram_taken (data : List Byte) (hfits : s.comPos + data.length < 2 ^ 24) :
    wp (takeAddress data >>= writeAddressed) (fun _ _ s' => Taken data s s') (fun _ _ => False)
      (fun _ _ => True) p s := by
  rw [wp_bind]
  refine wp_imp (wp_takeAddress_any data) fun rest p₁ s₁ hpost => ?_
  obtain ⟨comPos, comParameter, rfl, hlength, hrest, hzero⟩ := hpost
  rw [writeAddressed, wp_bind, wp_ram, wp_ite, wp_pure]
  refine ⟨fun hlong => ?_, fun hshort => ?_⟩
  · refine wp_imp (wp_writeFram_any (lt_of_le_of_lt (Nat.zero_le _) hlong)
      (by simp only; omega)) fun _ p₂ s₂ h => ?_
    refine ⟨h.parser, h.enabled, h.comPos.trans hlength, fun h₀ => ?_, h.starts, h.keyInRange,
      h.keyShort, h.replied⟩
    have := h.comPos
    simp only at this hlong
    omega
  · rw [hrest (by simpa using hshort), List.length_nil] at hlength
    exact ⟨rfl, rfl, hlength, hzero, id, Iff.rfl, Iff.rfl, rfl⟩

/-- The last byte of a command that stores its data has come. -/
theorem positioned_of_done (hexecuting : s.parser.Executing)
    (hdone : s.parser.bytesProcessed = s.parser.totalSize) (hcomPos : s.comPos = 0)
    (hcomParameter : s.comParameter = 0) (hstarts : StartsClean s.log)
    (hkeyInRange : KeyInRange s.log) (hkeyShort : KeyShort s.log) : Positioned s := by
  refine positioned_of_zero hexecuting.parserFits hcomPos hcomParameter (fun hstoring => ?_)
    hstarts hkeyInRange hkeyShort
  rcases hexecuting.state with ⟨-, hlt⟩ | ⟨hstate, -⟩
  · exact absurd hdone hlt.ne
  · have hdata := hstoring.1
    rw [hstate] at hdata
    cases hdata

/-- More data of a command that stores it is to come. -/
theorem positioned_of_more (hexecuting : s.parser.Executing) (henabled : s.enabled = true)
    (hstores : stores s.parser.id) (hcomPos : s.comPos = s.parser.bytesProcessed)
    (hmore : s.comPos ≠ s.parser.totalSize)
    (hparameter : s.comPos = 0 ∨ s.parser.id = comSetKey → s.comParameter = 0)
    (hkey : s.parser.id = comSetKey → s.parser.bytesProcessed ≤ 16) (hstarts : StartsClean s.log)
    (hkeyInRange : KeyInRange s.log) (hkeyShort : KeyShort s.log) : Positioned s := by
  have hstate : s.parser.comState = .data := by
    rcases hexecuting.state with ⟨hstate, -⟩ | ⟨-, heq⟩
    · exact hstate
    · exact absurd (hcomPos.trans heq) hmore
  exact ⟨hexecuting.parserFits, fun _ => hcomPos,
    fun hidle => absurd ⟨hstate, henabled, hstores⟩ hidle, hparameter, fun _ => hkey, hstarts,
    hkeyInRange, hkeyShort⟩

theorem Parser.Executing.le {parser : Parser} (h : parser.Executing) :
    parser.bytesProcessed ≤ parser.totalSize := by
  rcases h.state with ⟨-, hlt⟩ | ⟨-, heq⟩
  · exact hlt.le
  · exact heq.le

/-- `COM_SET_FRAM`, called when its data is due. -/
theorem commandSetFram_positioned (hwaits : Waits env) {data : List Byte} :
    Leads (fun s => Due data s ∧ s.enabled = true ∧ s.parser.id = comSetFram) Traced Positioned
      (commandSetFram env data) := by
  intro p s h
  obtain ⟨hdue, henabled, hid⟩ := h
  have hposition := hdue.storing henabled (.inl hid)
  have hkey : s.parser.id ≠ comSetKey := by rw [hid]; decide
  have htaken := wp_setFram_taken (p := p) (s := s) data
    (hposition ▸ hdue.parser.le.trans_lt hdue.parser.fits)
  rw [wp_bind] at htaken
  rw [commandSetFram, wp_bind]
  refine wp_mono htaken (fun rest p₁ s₁ hwrite => ?_) (fun _ _ h => h.elim) fun _ _ => id
  rw [wp_bind]
  refine wp_mono hwrite (fun _ p₂ s₂ htaken => ?_) (fun _ _ h => h.elim) fun _ _ => id
  have hexecuting : s₂.parser.Executing := htaken.parser ▸ hdue.parser
  have hcomPos : s₂.comPos = s₂.parser.bytesProcessed := by
    rw [htaken.comPos, htaken.parser, hposition]
  have hstarts := htaken.starts hdue.starts
  have hrange := htaken.keyInRange.mpr hdue.keyInRange
  have hshort := htaken.keyShort.mpr (hdue.keyShort fun _ h => absurd h hkey)
  rw [← htaken.parser] at hkey hid
  rw [setFramDone, wp_bind, wp_ram, wp_ite, wp_pure, wp_bind, wp_modifySession]
  refine ⟨fun hdone => ?_, fun hmore => ?_⟩
  · exact sendEmpty_positioned hwaits _ _ p₂ _
      (positioned_of_done hexecuting (hcomPos.symm.trans hdone) rfl rfl hstarts hrange hshort)
  · refine positioned_of_more hexecuting (htaken.enabled.trans henabled) (.inl hid) hcomPos hmore
      (fun hzero => ?_) (fun h => absurd h hkey) hstarts hrange hshort
    rcases hzero with hzero | h
    · have hcomPos₀ := htaken.comPos
      rw [htaken.comParameter hzero]
      exact hdue.parameter (.inl (by omega))
    · exact absurd h hkey

/-! ## `COM_SET_KEY` -/

/-- What storing in `KEY` does to the rest of the session. -/
structure KeyStored (s s' : Session) : Prop where
  parser : s'.parser = s.parser
  enabled : s'.enabled = s.enabled
  comPos : s'.comPos = s.comPos
  comParameter : s'.comParameter = s.comParameter
  starts : StartsClean s.log → StartsClean s'.log
  keyShort : KeyShort s'.log ↔ KeyShort s.log
  replied : replies s'.log = replies s.log

theorem KeyStored.trans {s₁ s₂ s₃ : Session} (h : KeyStored s₁ s₂) (h' : KeyStored s₂ s₃) :
    KeyStored s₁ s₃ :=
  ⟨h'.parser.trans h.parser, h'.enabled.trans h.enabled, h'.comPos.trans h.comPos,
    h'.comParameter.trans h.comParameter, fun hs => h'.starts (h.starts hs),
    h'.keyShort.trans h.keyShort, h'.replied.trans h.replied⟩

theorem keyStored_emit (index : ℕ) : KeyStored s (s.emit (.keyWrite index)) := by
  refine ⟨rfl, rfl, rfl, rfl, fun h comPos comParameter hmem => ?_,
    ⟨fun h call hmem => h call (List.mem_cons_of_mem _ hmem), fun h call hmem => ?_⟩, rfl⟩
  · rcases List.mem_cons.mp hmem with hmem | hmem
    · cases hmem
    · exact h _ _ hmem
  · rcases List.mem_cons.mp hmem with hmem | hmem
    · cases hmem
    · exact h _ hmem

theorem keyStored_key (key : Block) : KeyStored s { s with ram := { s.ram with key := key } } :=
  ⟨rfl, Session.enabled_ram _ _, rfl, rfl, id, Iff.rfl, rfl⟩

theorem keyInRange_keyWrite {log : List Event} {index : ℕ} (hindex : index < 16)
    (h : KeyInRange log) : KeyInRange (.keyWrite index :: log) := by
  intro index' hmem
  rcases List.mem_cons.mp hmem with hmem | hmem
  · rwa [Event.keyWrite.inj hmem]
  · exact h _ hmem

/-- The bytes of a call are stored, or the first one that does not fit ends the run. -/
theorem wp_storeKey_any {comPos i : ℕ} (data : List Byte) (hcomPos : comPos + i ≤ 16) :
    wp (storeKey comPos i data)
      (fun _ _ s' => KeyStored s s' ∧ comPos + i + data.length ≤ 16 ∧
        (KeyInRange s.log → KeyInRange s'.log))
      (fun _ s' => KeyStored s s' ∧ 16 < comPos + i + data.length ∧ ¬KeyInRange s'.log)
      (fun _ _ => True) p s := by
  induction data generalizing i s with
  | nil =>
      exact (wp_pure _).mpr ⟨⟨rfl, rfl, rfl, rfl, id, Iff.rfl, rfl⟩, hcomPos, id⟩
  | cons byte rest ih =>
      have hemit := keyStored_emit (s := s) (comPos + i)
      rw [storeKey, wp_bind, storeKeyByte, wp_bind, wp_emit, Nat.mod_eq_of_lt (by omega)]
      split_ifs with hindex
      · rw [wp_modifySession]
        have hstored := hemit.trans (keyStored_key (s.ram.key.set (comPos + i) byte hindex))
        refine wp_mono (ih (by omega)) (fun _ p' s' h => ?_) (fun p' s' h => ?_) fun _ _ => id
        · rw [List.length_cons]
          exact ⟨hstored.trans h.1, by omega,
            fun hrange => h.2.2 (keyInRange_keyWrite hindex hrange)⟩
        · rw [List.length_cons]
          exact ⟨hstored.trans h.1, by omega, h.2.2⟩
      · rw [wp_hang, List.length_cons]
        exact ⟨hemit, by omega, fun h => hindex (h _ (List.mem_cons_self ..))⟩

/-- `COM_SET_KEY`, called when its data is due. -/
theorem commandSetKey_positioned (hwaits : Waits env) {data : List Byte} :
    Leads (fun s => Due data s ∧ s.enabled = true ∧ s.parser.id = comSetKey) Traced Positioned
      (commandSetKey t env data) := by
  intro p s h
  obtain ⟨hdue, henabled, hid⟩ := h
  have hposition := hdue.storing henabled (.inr hid)
  rw [commandSetKey, wp_bind, wp_ram, wp_bind]
  refine wp_mono (wp_storeKey_any data (hdue.key henabled hid))
    (fun _ p₁ s₁ hpost => ?_) (fun _ s₁ hpost => ?_) fun _ _ => id
  · obtain ⟨hstored, hle, hrange⟩ := hpost
    have hrange := hrange hdue.keyInRange
    rw [Nat.add_zero, hposition] at hle
    have hexecuting : s₁.parser.Executing := hstored.parser ▸ hdue.parser
    have hcomPos : (s₁.comPos + data.length) % 2 ^ 32 = s₁.parser.bytesProcessed := by
      rw [hstored.comPos, hposition, hstored.parser]
      exact Nat.mod_eq_of_lt (by omega)
    have hstarts := hstored.starts hdue.starts
    have hshort := hstored.keyShort.mpr (hdue.keyShort fun _ _ => hle)
    have hparameter := hstored.comParameter.trans (hdue.parameter (.inr hid))
    rw [wp_bind, wp_modifySession, setKeyDone, wp_bind, wp_ram, wp_ite, wp_pure, wp_bind,
      wp_modifySession]
    refine ⟨fun hdone => ?_, fun hmore => ?_⟩
    · have hreceived : Positioned { s₁ with comPos := 0 } := positioned_of_done hexecuting
        (hcomPos.symm.trans hdone) rfl hparameter hstarts hrange hshort
      rw [keyReceived, wp_bind, wp_durable, wp_bind, wp_ram, wp_ite, wp_bind, wp_modifySession]
      refine ⟨fun _ => ?_, fun _ => sendEmpty_positioned hwaits _ _ p₁ _ hreceived⟩
      refine sendEmpty_positioned hwaits _ _ p₁ _ (hreceived.congr rfl rfl rfl ?_ rfl)
      simp [Session.enabled_eventsHappen, eventKeyEntered]
    · refine positioned_of_more hexecuting (hstored.enabled.trans henabled)
        (.inr (hstored.parser ▸ hid)) hcomPos hmore (fun _ => hparameter) (fun _ => ?_) hstarts
        hrange hshort
      exact hstored.parser ▸ hle
  · obtain ⟨hstored, hlong, hrange⟩ := hpost
    rw [Nat.add_zero, hposition] at hlong
    exact ⟨hstored.starts hdue.starts, iff_of_false hrange
      (mt hstored.keyShort.mp (hdue.keyLong henabled hid hlong))⟩

/-! ## `com_exec` and the packets -/

theorem comExec_positioned (hwaits : Waits env) (data : List Byte) :
    Leads (Due data) Traced Positioned (comExec t env data) := by
  refine .ram fun s hdue => .ite (fun hversion => ?_) fun _ =>
    .ite (fun hgate => ?_) fun hgate => ?_
  · refine (commandGetVersion_positioned hwaits).imp fun _ h =>
      h ▸ hdue.positioned fun hstores => ?_
    rw [stores, hversion] at hstores
    exact absurd hstores.2 (by decide)
  · refine (sendEmpty_positioned hwaits _ _).imp fun _ h => h ▸ hdue.positioned fun hstores => ?_
    rw [hgate.1] at hstores
    exact absurd hstores.1 Bool.false_ne_true
  · by_cases hstores : s.enabled = true ∧ stores s.parser.id
    · rcases hstores with ⟨henabled, hid | hid⟩
      · rw [hid]
        exact (commandSetFram_positioned hwaits).imp fun _ h => h ▸ ⟨hdue, henabled, hid⟩
      · rw [hid]
        exact (commandSetKey_positioned hwaits).imp fun _ h => h ▸ ⟨hdue, henabled, hid⟩
    · have hpositioned := hdue.positioned hstores
      have hnot : s.parser.id ≠ comInit → ¬stores s.parser.id := fun hinit hid =>
        hstores ⟨by_contra fun hdisabled => hgate ⟨by simpa using hdisabled, hinit⟩, hid⟩
      rw [gatedCommand]
      refine .ite (fun _ => (commandInit_positioned hwaits).imp fun _ h => h ▸ hpositioned)
        fun hinit => .ite (fun _ => (commandEnd_positioned hwaits).imp fun _ h => h ▸
          ⟨hpositioned, hdue.idle hstores⟩)
        fun _ => .ite (fun _ => (commandGetFram_positioned hwaits).imp fun _ h => h ▸ hpositioned)
        fun _ => .ite (fun _ => (commandGetKey_positioned hwaits).imp fun _ h => h ▸ hpositioned)
        fun _ => .ite (fun _ => (commandGetParam_positioned hwaits).imp fun _ h => h ▸ hpositioned)
        fun _ => .ite (fun hid => absurd (.inl hid) (hnot hinit))
        fun _ => .ite (fun hid => absurd (.inr hid) (hnot hinit))
        fun _ => .ite (fun _ => (commandReset_positioned hwaits).imp fun _ h => h ▸ hpositioned)
        fun _ => (comAbort_positioned' hwaits).imp fun _ h => h ▸ hpositioned

theorem Positioned.noted (h : Positioned s) : Positioned s.noted := by
  unfold Session.noted
  split_ifs with hid
  · have hcomPos := h.idle fun hstoring => by
      have hdata := hstoring.1
      rw [hid] at hdata
      cases hdata
    refine ⟨h.parser, h.storing, h.idle, h.parameter, h.key, fun comPos comParameter hmem => ?_,
      fun index hmem => h.keyInRange index ?_, fun call hmem => h.keyShort call ?_⟩
    · rcases List.mem_cons.mp hmem with hmem | hmem
      · obtain ⟨rfl, rfl⟩ := Event.start.inj hmem
        exact ⟨hcomPos, h.comParameter_eq_zero hcomPos⟩
      · exact h.starts _ _ hmem
    · simpa [Session.emit] using hmem
    · simpa [Session.emit] using hmem
  · exact h

/-- A pass that makes no call stays at the beginning. -/
theorem Positioned.header {pass : Pass} (h : Positioned s) (hpass : PassFrom s.parser pass)
    (hcall : pass.call = none) : Positioned { s with parser := pass.parser } := by
  obtain ⟨hold, hnew, hfits⟩ := hpass.header hcall
  have hcomPos := h.idle fun hstoring => hold hstoring.1
  exact positioned_of_zero hfits hcomPos (h.comParameter_eq_zero hcomPos)
    (fun hstoring => absurd hstoring.1 hnew) h.starts h.keyInRange h.keyShort

/-- A pass that makes a call finds its data due. -/
theorem Positioned.due {pass : Pass} {call : Call} (h : Positioned s)
    (hpass : PassFrom s.parser pass) (hcall : pass.call = some call) :
    Due call.data (({ s with parser := pass.parser } : Session).emit
      (.exec call ({ s with parser := pass.parser } : Session).enabled)) := by
  obtain ⟨hexecuting, hid, hreceived, hdata⟩ := hpass.call call hcall
  have hsame : s.parser.comState = .data → s.parser.id = pass.parser.id := fun hstate => by
    rw [if_pos hstate] at hdata
    exact hdata.1
  have hstoring : s.parser.comState = .data → s.enabled = true → stores pass.parser.id →
      s.Storing := fun hstate henabled hstores => ⟨hstate, henabled, hsame hstate ▸ hstores⟩
  have hcomPos : s.enabled = true → stores pass.parser.id →
      s.comPos + call.data.length = pass.parser.bytesProcessed := by
    intro henabled hstores
    by_cases hstate : s.parser.comState = .data
    · rw [if_pos hstate] at hdata
      rw [h.storing (hstoring hstate henabled hstores), hdata.2, hreceived]
    · rw [if_neg hstate] at hdata
      rw [h.idle fun hstoring => hstate hstoring.1, Nat.zero_add, hdata, hreceived]
  have hidle : ¬(s.enabled = true ∧ stores pass.parser.id) → s.comPos = 0 := fun hnot =>
    h.idle fun hstoring => hnot ⟨hstoring.2.1, hsame hstoring.1 ▸ hstoring.2.2⟩
  refine ⟨hexecuting, hcomPos, hidle, fun hzero => ?_, fun henabled hkey => ?_, ?_, ?_, ?_, ?_⟩
  · by_cases hstate : s.parser.comState = .data
    · refine h.parameter (hzero.imp id fun hkey => ?_)
      rw [hsame hstate]
      exact hkey
    · exact h.comParameter_eq_zero (h.idle fun hstoring => hstate hstoring.1)
  · by_cases hstate : s.parser.comState = .data
    · have hstores := hstoring hstate henabled (.inr hkey)
      have hle := h.key hstores ((hsame hstate).trans hkey)
      rw [← h.storing hstores] at hle
      exact hle
    · exact (h.idle fun hstoring => hstate hstoring.1).le.trans (Nat.zero_le _)
  · exact fun comPos comParameter hmem => h.starts comPos comParameter (by
      simpa [Session.emit] using hmem)
  · exact fun index hmem => h.keyInRange index (by simpa [Session.emit] using hmem)
  · intro hshort call' hmem hkey
    rcases List.mem_cons.mp hmem with hmem | hmem
    · obtain ⟨rfl, henabled⟩ := Event.exec.inj hmem
      rw [hreceived]
      exact hshort henabled.symm (hid.symm.trans hkey)
    · exact h.keyShort call' hmem hkey
  · intro henabled hkey hlong hshort
    have henabled' : s.enabled = true := henabled
    have hle := hshort call (by
      rw [← henabled']
      exact List.mem_cons_self ..) (hid.trans hkey)
    rw [hreceived] at hle
    exact absurd hlong (Nat.not_lt.mpr hle)

theorem processPass_positioned (hwaits : Waits env) {c : Cursor} (hbyte : c.lenght < 256)
    (hmemory : (c.lenght + 255) % 256 < c.data.length) (h : Positioned s) :
    wp (processPass (comExec t env) c)
      (fun c' _ s' => Positioned s' ∧ c'.lenght ≤ c'.data.length ∧ c'.lenght < 256)
      (fun _ s' => Traced s') (fun _ _ => True) p s := by
  have hpass := pass_from (c := c) h.noted.parser hbyte hmemory
  simp only [processPass, wp_bind, wp_noteStart, wp_ram, wp_modifySession, wp_pure]
  cases hcall : (s.noted.parser.pass c).call with
  | none =>
      exact (wp_pure _).mpr ⟨h.noted.header hpass hcall, hpass.memory, hpass.byte⟩
  | some call =>
      rw [callExec, wp_bind, wp_modifySession]
      have hdue := h.noted.due hpass hcall
      exact wp_imp (comExec_positioned hwaits call.data p _ hdue)
        fun _ _ _ h => ⟨h, hpass.memory, hpass.byte⟩

theorem processLoop_positioned (hwaits : Waits env) {fuel : ℕ} {c : Cursor}
    (hbyte : c.lenght < 256) (hmemory : (c.lenght + 255) % 256 < c.data.length) :
    Leads Positioned Traced Positioned (processLoop (comExec t env) fuel c) := by
  induction fuel generalizing c with
  | zero => exact .hang fun _ h => h.traced
  | succ fuel ih =>
      intro p s h
      rw [processLoop, wp_bind]
      refine wp_imp (processPass_positioned hwaits hbyte hmemory h) fun c' p₁ s₁ hpost => ?_
      obtain ⟨h₁, hle, hbyte'⟩ := hpost
      rw [wp_ite, wp_pure]
      exact ⟨fun _ => h₁, fun hmore => ih hbyte' (by omega) p₁ s₁ h₁⟩

theorem comProcessData_positioned (hwaits : Waits env) {data : List Byte} {lenght : ℕ}
    (hbyte : lenght < 256) (hmemory : (lenght + 255) % 256 < data.length) :
    Leads Positioned Traced Positioned (comProcessData t env data lenght) := by
  have habort : Leads Positioned Traced Positioned (abortLate (comAbort env)) := by
    refine .ram fun s hs => .ite (fun _ => .bind
      ((comAbort_positioned hwaits).imp fun _ h => h ▸ hs) fun _ => .modify fun s h => ?_)
      fun _ => (Leads.pure ()).imp fun _ h => h ▸ hs
    exact positioned_of_zero trivial h.2.2 (h.1.comParameter_eq_zero h.2.2) (fun hstoring => by
      cases hstoring.1) h.1.starts h.1.keyInRange h.1.keyShort
  exact .bind habort fun _ => .bind (.modify fun _ h => h.congr rfl rfl rfl rfl rfl) fun _ =>
    processLoop_positioned hwaits hbyte hmemory

/-! ## Runs -/

theorem background_positioned {m : Com Unit} (hm : Background t .unhurried m) :
    Leads Positioned Traced Positioned m := by
  refine Background.leads (fun env data lenght hgranted _ hpoll hscreen hbyte hmemory =>
    comProcessData_positioned ⟨hpoll, hscreen, hgranted⟩ hbyte hmemory)
    (fun _ _ h => h.congr rfl rfl rfl rfl rfl) (fun _ event hcom _ h => h.congr rfl rfl rfl ?_ rfl)
    (fun _ event hcom _ h => h.congr rfl rfl rfl ?_ rfl) (fun m _ p s h => ?_) hm
  · rw [Session.enabled_eventsHappen, hcom, Bool.or_false]
  · rw [Session.enabled_clearEvents, hcom, Bool.not_false, Bool.and_true]
  · rw [wp_liftDev]
    exact wp_always m (fun _ _ _ => h.congr rfl rfl rfl (Session.enabled_ram _ _) rfl)
      fun _ _ => ⟨h.starts, h.traced.key⟩

theorem positioned_boot (ram : Ram) : Positioned (.boot ram) :=
  positioned_of_zero trivial rfl rfl (fun _ => rfl) (fun _ _ h => by cases h)
    (fun _ h => by cases h) fun _ h => by cases h

theorem Positioned.clearVariables (h : Positioned s)
    (hreset : s.Storing → s.parser.bytesProcessed = 0) : Positioned s.clearVariables := by
  have hcomPos : s.comPos = 0 := by
    by_cases hstoring : s.Storing
    · rw [h.storing hstoring, hreset hstoring]
    · exact h.idle hstoring
  have hdisabled : s.clearVariables.enabled = false := by
    simp [Session.enabled, Session.globalsEvents, Session.clearVariables]
  refine positioned_of_zero h.parser hcomPos (h.comParameter_eq_zero hcomPos) (fun hstoring => ?_)
    (h.starts.cons rfl) ((keyInRange_cons rfl).mpr h.keyInRange)
    ((keyShort_cons rfl).mpr h.keyShort)
  rw [Session.Storing, hdisabled] at hstoring
  exact absurd hstoring.2.1 Bool.false_ne_true

theorem Reachable.positioned (h : Reachable t .unhurried p s) : Positioned s :=
  h.invariant (J := Traced) positioned_boot (fun _ => background_positioned)
    fun _ hreset h => h.clearVariables hreset

theorem Seen.traced (h : Seen t .unhurried s) : Traced s :=
  h.invariant positioned_boot (fun _ => background_positioned)
    (fun _ hreset h => h.clearVariables hreset) fun _ h => h.traced

end PasswordWallet
