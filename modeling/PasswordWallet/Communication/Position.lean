import PasswordWallet.Communication.Background

/-!
# The position in a transfer

`COM_POS` counts the bytes of data that `COM_SET_FRAM` and `COM_SET_KEY` have been
given, and the parser counts the bytes of data that have come of a command.  Where
the firmware waits the two agree while such a command is in its data and the gate
is open, and elsewhere the position is at the beginning (`Positioned`).  When
`com_exec` is called the parser is ahead by the data of the call (`Due`).
-/

namespace PasswordWallet

open PowerLoss

/-! ## The parser -/

/-- The parser between two passes. -/
def Parser.Fits (parser : Parser) : Prop :=
  match parser.comState with
  | .id | .size1 => True
  | .size2 => parser.totalSize < 2 ^ 8
  | .size3 => parser.totalSize < 2 ^ 16
  | .data => parser.bytesProcessed < parser.totalSize ∧ parser.totalSize < 2 ^ 24

/-- The parser once what there is of a header has been read: the data may be empty. -/
def Parser.HeaderFits (parser : Parser) : Prop :=
  match parser.comState with
  | .id | .size1 => True
  | .size2 => parser.totalSize < 2 ^ 8
  | .size3 => parser.totalSize < 2 ^ 16
  | .data => parser.bytesProcessed ≤ parser.totalSize ∧ parser.totalSize < 2 ^ 24

/-- The parser while `com_exec` is called. -/
structure Parser.Executing (parser : Parser) : Prop where
  state : parser.comState = .data ∧ parser.bytesProcessed < parser.totalSize ∨
    parser.comState = .id ∧ parser.bytesProcessed = parser.totalSize
  fits : parser.totalSize < 2 ^ 24

theorem Parser.Executing.parserFits {parser : Parser} (h : parser.Executing) : parser.Fits := by
  unfold Parser.Fits
  rcases h.state with ⟨hstate, hlt⟩ | ⟨hstate, -⟩
  · rw [hstate]
    exact ⟨hlt, h.fits⟩
  · rw [hstate]
    trivial

/-- Behind a header that is read from `parser` on. -/
structure HeaderFrom (parser : Parser) (x : Parser × Cursor) : Prop where
  fits : x.1.HeaderFits
  same : parser.comState = .data → x.1 = parser
  fresh : parser.comState ≠ .data → x.1.comState = .data → x.1.bytesProcessed = 0
  memory : x.2.lenght ≤ x.2.data.length
  byte : x.2.lenght < 256

theorem Cursor.next_memory {c : Cursor} (hmemory : (c.lenght + 255) % 256 < c.data.length) :
    c.next.lenght ≤ c.next.data.length ∧ c.next.lenght < 256 := by
  refine ⟨?_, Nat.mod_lt _ (by decide)⟩
  simp only [Cursor.next, List.length_tail]
  omega

theorem or_shiftLeft_lt {low : ℕ} {b : Byte} {i : ℕ} (hlow : low < 2 ^ i) :
    low ||| b.toNat <<< i < 2 ^ (i + 8) := by
  refine Nat.or_lt_two_pow (hlow.trans (Nat.pow_lt_pow_right (by decide) (by omega))) ?_
  rw [Nat.shiftLeft_eq, Nat.pow_add, Nat.mul_comm]
  exact Nat.mul_lt_mul_of_pos_left b.isLt (Nat.pow_pos (by decide))

section ReadHeader

variable {parser : Parser} {c : Cursor} {x : Parser × Cursor}

theorem readId_from (hfits : parser.Fits) (hbyte : c.lenght < 256)
    (hmemory : (c.lenght + 255) % 256 < c.data.length) :
    HeaderFrom parser (readId (parser, c)) := by
  have hnext := Cursor.next_memory hmemory
  simp only [readId]
  split_ifs with hid
  · refine ⟨trivial, fun h => ?_, fun _ h => ?_, hnext.1, hnext.2⟩
    · rw [hid] at h
      cases h
    · cases h
  · refine ⟨?_, fun _ => rfl, fun hne h => absurd h hne, ?_, hbyte⟩
    · unfold Parser.Fits at hfits
      unfold Parser.HeaderFits
      cases hstate : parser.comState with
      | id => trivial
      | size1 => trivial
      | size2 => rwa [hstate] at hfits
      | size3 => rwa [hstate] at hfits
      | data =>
          rw [hstate] at hfits
          exact ⟨hfits.1.le, hfits.2⟩
    · simp only
      omega

/-- One more byte of the size is read, or nothing is. -/
theorem HeaderFrom.next {parser' : Parser} (h : HeaderFrom parser x) (hlenght : x.2.lenght ≠ 0)
    (hstate : x.1.comState ≠ .data) (hfits : parser'.HeaderFits)
    (hfresh : parser'.comState = .data → parser'.bytesProcessed = 0) :
    HeaderFrom parser (parser', x.2.next) := by
  have hmemory := h.memory
  have hbyte := h.byte
  have hnext := Cursor.next_memory (c := x.2) (by omega)
  refine ⟨hfits, fun hdata => absurd hdata fun hdata => hstate ?_, fun _ => hfresh, hnext.1,
    hnext.2⟩
  rw [h.same hdata]
  exact hdata

theorem HeaderFrom.readSize1 (h : HeaderFrom parser x) : HeaderFrom parser (readSize1 x) := by
  obtain ⟨parser', c⟩ := x
  simp only [PasswordWallet.readSize1]
  split_ifs with hread
  · refine h.next (x := (parser', c)) hread.2 (fun hdata => ?_) c.byte.isLt fun hdata => ?_
    · rw [hread.1] at hdata
      cases hdata
    · cases hdata
  · exact h

theorem HeaderFrom.readSize2 (h : HeaderFrom parser x) : HeaderFrom parser (readSize2 x) := by
  obtain ⟨parser', c⟩ := x
  simp only [PasswordWallet.readSize2]
  split_ifs with hread
  · have hfits : parser'.totalSize < 2 ^ 8 := by
      have := h.fits
      simp only [Parser.HeaderFits, hread.1] at this
      exact this
    refine h.next (x := (parser', c)) hread.2 (fun hdata => ?_) (or_shiftLeft_lt hfits)
      fun hdata => ?_
    · rw [hread.1] at hdata
      cases hdata
    · cases hdata
  · exact h

theorem HeaderFrom.readSize3 (h : HeaderFrom parser x) : HeaderFrom parser (readSize3 x) := by
  obtain ⟨parser', c⟩ := x
  simp only [PasswordWallet.readSize3]
  split_ifs with hread
  · have hfits : parser'.totalSize < 2 ^ 16 := by
      have := h.fits
      simp only [Parser.HeaderFits, hread.1] at this
      exact this
    refine h.next (x := (parser', c)) hread.2 (fun hdata => ?_)
      ⟨Nat.zero_le _, or_shiftLeft_lt hfits⟩ fun _ => rfl
    rw [hread.1] at hdata
    cases hdata
  · exact h

theorem readHeader_from (hfits : parser.Fits) (hbyte : c.lenght < 256)
    (hmemory : (c.lenght + 255) % 256 < c.data.length) :
    HeaderFrom parser (readHeader parser c) :=
  (readId_from hfits hbyte hmemory).readSize1.readSize2.readSize3

end ReadHeader

/-- A pass from `parser` on: it makes no call and stays in the header, or it calls
`com_exec` with the data that has come. -/
structure PassFrom (parser : Parser) (pass : Pass) : Prop where
  memory : pass.cursor.lenght ≤ pass.cursor.data.length
  byte : pass.cursor.lenght < 256
  header : pass.call = none → parser.comState ≠ .data ∧ pass.parser.comState ≠ .data ∧
    pass.parser.Fits
  call : ∀ call, pass.call = some call → pass.parser.Executing ∧ call.id = pass.parser.id ∧
    call.received = pass.parser.bytesProcessed ∧
    (if parser.comState = .data then
      parser.id = pass.parser.id ∧ parser.bytesProcessed + call.data.length = call.received
    else call.data.length = call.received)

theorem takeData_from {parser : Parser} {first : Bool} {x : Parser × Cursor}
    (h : HeaderFrom parser x) : PassFrom parser (takeData first x.1 x.2) := by
  obtain ⟨parser', c⟩ := x
  have hfits : parser'.HeaderFits := h.fits
  have hmemory := h.memory
  have hbyte := h.byte
  simp only at hmemory hbyte ⊢
  unfold takeData
  by_cases hdata : parser'.comState = .data
  swap
  · rw [if_neg hdata]
    refine ⟨hmemory, hbyte, fun _ => ⟨fun hold => hdata ?_, hdata, ?_⟩, nofun⟩
    · have hsame : parser' = parser := h.same hold
      rw [hsame]
      exact hold
    · unfold Parser.HeaderFits at hfits
      unfold Parser.Fits
      cases hstate : parser'.comState with
      | id => trivial
      | size1 => trivial
      | size2 => rwa [hstate] at hfits
      | size3 => rwa [hstate] at hfits
      | data => exact absurd hstate hdata
  rw [if_pos hdata]
  dsimp only
  split_ifs with hshort
  · simp only [Parser.HeaderFits, hdata] at hfits
    refine ⟨Nat.zero_le _, Nat.zero_lt_succ _, nofun, fun call hcall => ?_⟩
    obtain rfl := Option.some.inj hcall
    refine ⟨⟨.inl ⟨hdata, ?_⟩, hfits.2⟩, rfl, rfl, ?_⟩
    · simp only
      omega
    · simp only [List.length_take, min_eq_left hmemory]
      split_ifs with hold
      · have hsame : parser' = parser := h.same hold
        subst hsame
        exact ⟨rfl, rfl⟩
      · have hzero : parser'.bytesProcessed = 0 := h.fresh hold hdata
        rw [hzero, Nat.zero_add]
  · simp only [Parser.HeaderFits, hdata] at hfits
    refine ⟨by simp only; omega, by simp only; omega, nofun,
      fun call hcall => ?_⟩
    obtain rfl := Option.some.inj hcall
    refine ⟨⟨.inr ⟨rfl, rfl⟩, hfits.2⟩, rfl, rfl, ?_⟩
    rw [List.length_take, min_eq_left (by omega)]
    split_ifs with hold
    · have hsame : parser' = parser := h.same hold
      subst hsame
      exact ⟨rfl, Nat.add_sub_cancel' hfits.1⟩
    · have hzero : parser'.bytesProcessed = 0 := h.fresh hold hdata
      rw [hzero, Nat.sub_zero]

theorem pass_from {parser : Parser} {c : Cursor} (hfits : parser.Fits) (hbyte : c.lenght < 256)
    (hmemory : (c.lenght + 255) % 256 < c.data.length) : PassFrom parser (parser.pass c) :=
  takeData_from (readHeader_from hfits hbyte hmemory)

/-! ## Sessions -/

/-- The data of these commands is stored at the position. -/
def stores (id : Byte) : Prop := id = comSetFram ∨ id = comSetKey

/-- The next packet brings data that is stored. -/
def Session.Storing (s : Session) : Prop :=
  s.parser.comState = .data ∧ s.enabled = true ∧ stores s.parser.id

/-- Every command was started from the beginning. -/
def StartsClean (log : List Event) : Prop :=
  ∀ comPos comParameter, .start comPos comParameter ∈ log → comPos = 0 ∧ comParameter = 0

/-- Every byte was stored inside `KEY`. -/
def KeyInRange (log : List Event) : Prop := ∀ index, .keyWrite index ∈ log → index < 16

/-- No `COM_SET_KEY` was given more data than `KEY` holds. -/
def KeyShort (log : List Event) : Prop :=
  ∀ call, .exec call true ∈ log → call.id = comSetKey → call.received ≤ 16

/-- A session where the firmware waits. -/
structure Positioned (s : Session) : Prop where
  parser : s.parser.Fits
  storing : s.Storing → s.comPos = s.parser.bytesProcessed
  idle : ¬s.Storing → s.comPos = 0
  parameter : s.comPos = 0 ∨ s.parser.id = comSetKey → s.comParameter = 0
  key : s.Storing → s.parser.id = comSetKey → s.parser.bytesProcessed ≤ 16
  starts : StartsClean s.log
  keyInRange : KeyInRange s.log
  keyShort : KeyShort s.log

/-- A session when `com_exec` is called, with this data. -/
structure Due (data : List Byte) (s : Session) : Prop where
  parser : s.parser.Executing
  storing : s.enabled = true → stores s.parser.id →
    s.comPos + data.length = s.parser.bytesProcessed
  idle : ¬(s.enabled = true ∧ stores s.parser.id) → s.comPos = 0
  parameter : s.comPos = 0 ∨ s.parser.id = comSetKey → s.comParameter = 0
  key : s.enabled = true → s.parser.id = comSetKey → s.comPos ≤ 16
  starts : StartsClean s.log
  keyInRange : KeyInRange s.log
  keyShort : (s.enabled = true → s.parser.id = comSetKey → s.parser.bytesProcessed ≤ 16) →
    KeyShort s.log
  keyLong : s.enabled = true → s.parser.id = comSetKey → 16 < s.parser.bytesProcessed →
    ¬KeyShort s.log

/-- What holds of every session that is seen. -/
structure Traced (s : Session) : Prop where
  starts : StartsClean s.log
  key : KeyInRange s.log ↔ KeyShort s.log

theorem Positioned.traced {s : Session} (h : Positioned s) : Traced s :=
  ⟨h.starts, iff_of_true h.keyInRange h.keyShort⟩

/-! ### Changes that keep the position -/

/-- The events that say nothing about the position. -/
def Event.isPlain : Event → Bool
  | .start _ _ | .exec _ _ | .keyWrite _ => false
  | _ => true

section Events

variable {event : Event} {log : List Event}

theorem StartsClean.cons (h : StartsClean log) (hevent : event.isPlain = true) :
    StartsClean (event :: log) := by
  intro comPos comParameter hmem
  rcases List.mem_cons.mp hmem with rfl | hmem
  · cases hevent
  · exact h _ _ hmem

theorem keyInRange_cons (hevent : event.isPlain = true) :
    KeyInRange (event :: log) ↔ KeyInRange log := by
  refine ⟨fun h index hmem => h index (List.mem_cons_of_mem _ hmem), fun h index hmem => ?_⟩
  rcases List.mem_cons.mp hmem with rfl | hmem
  · cases hevent
  · exact h _ hmem

theorem keyShort_cons (hevent : event.isPlain = true) :
    KeyShort (event :: log) ↔ KeyShort log := by
  refine ⟨fun h call hmem => h call (List.mem_cons_of_mem _ hmem), fun h call hmem => ?_⟩
  rcases List.mem_cons.mp hmem with rfl | hmem
  · cases hevent
  · exact h _ hmem

end Events

section Positioned

variable {s s' : Session}

theorem Positioned.congr (h : Positioned s) (hparser : s'.parser = s.parser)
    (hcomPos : s'.comPos = s.comPos) (hcomParameter : s'.comParameter = s.comParameter)
    (henabled : s'.enabled = s.enabled) (hlog : s'.log = s.log) : Positioned s' := by
  have hstoring : s'.Storing ↔ s.Storing := by
    unfold Session.Storing
    rw [hparser, henabled]
  refine ⟨hparser ▸ h.parser, ?_, ?_, ?_, ?_, hlog ▸ h.starts, hlog ▸ h.keyInRange,
    hlog ▸ h.keyShort⟩
  · rw [hstoring, hcomPos, hparser]
    exact h.storing
  · rw [hstoring, hcomPos]
    exact h.idle
  · rw [hcomPos, hparser, hcomParameter]
    exact h.parameter
  · rw [hstoring, hparser]
    exact h.key

theorem Positioned.emit {event : Event} (h : Positioned s) (hevent : event.isPlain = true) :
    Positioned (s.emit event) :=
  ⟨h.parser, h.storing, h.idle, h.parameter, h.key, h.starts.cons hevent,
    (keyInRange_cons hevent).mpr h.keyInRange, (keyShort_cons hevent).mpr h.keyShort⟩

/-- At the beginning of everything. -/
theorem positioned_of_zero (hparser : s.parser.Fits) (hcomPos : s.comPos = 0)
    (hcomParameter : s.comParameter = 0) (hfresh : s.Storing → s.parser.bytesProcessed = 0)
    (hstarts : StartsClean s.log) (hkeyInRange : KeyInRange s.log) (hkeyShort : KeyShort s.log) :
    Positioned s :=
  ⟨hparser, fun h => hcomPos.trans (hfresh h).symm, fun _ => hcomPos, fun _ => hcomParameter,
    fun h _ => (hfresh h).le.trans (Nat.zero_le _), hstarts, hkeyInRange, hkeyShort⟩

theorem Positioned.comParameter_eq_zero (h : Positioned s) (hcomPos : s.comPos = 0) :
    s.comParameter = 0 := h.parameter (.inl hcomPos)

/-- The gate is closed, and the position goes back. -/
theorem Positioned.close (h : Positioned s) :
    Positioned { s.clearEvents eventFlagCom with comPos := 0, comParameter := 0 } :=
  positioned_of_zero h.parser rfl rfl
    (fun hstoring => by
      have henabled := hstoring.2.1
      rw [show Session.enabled { s.clearEvents eventFlagCom with comPos := 0, comParameter := 0 } =
        (s.clearEvents eventFlagCom).enabled from rfl, Session.enabled_clearEvents] at henabled
      simp [eventFlagCom] at henabled)
    h.starts h.keyInRange h.keyShort

/-- Outside a transfer, a call finds the position at the beginning. -/
theorem Due.positioned {data : List Byte} (h : Due data s)
    (hidle : ¬(s.enabled = true ∧ stores s.parser.id)) : Positioned s := by
  have hcomPos := h.idle hidle
  refine positioned_of_zero h.parser.parserFits hcomPos (h.parameter (.inl hcomPos))
    (fun hstoring => absurd hstoring.2 hidle) h.starts h.keyInRange (h.keyShort ?_)
  exact fun henabled hid => absurd ⟨henabled, .inr hid⟩ hidle

end Positioned

end PasswordWallet
