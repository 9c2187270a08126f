import PasswordWallet.Desktop.SerialCommand

/-!
# Commands that come in chunks

A command read from several bytes is read as from one byte after the other
(`readFrom_cons`), so the chunks do not matter (`receive_eq`).  Byte for byte, the size of
a command whose two bytes are below 128 is the length of its data; a byte from 128 on is
extended by its sign, and the size is then larger than any data that a command can have
(`size_large`).
-/

namespace PasswordWallet.Desktop

variable {c : Byte} {rest bytes : List Byte} {s s' : Incoming} {commands : List Command}

/-! ## The steps of `readFrom` -/

/-- `readFrom` behind the first byte, and so on. -/
def fromSize3 (deviceData : List Byte) (s : Incoming) : Bool × List Byte × Incoming :=
  readData (readSize3 deviceData s).1 (readSize3 deviceData s).2

def fromSize2 (deviceData : List Byte) (s : Incoming) : Bool × List Byte × Incoming :=
  fromSize3 (readSize2 deviceData s).1 (readSize2 deviceData s).2

def fromSize1 (deviceData : List Byte) (s : Incoming) : Bool × List Byte × Incoming :=
  fromSize2 (readSize1 deviceData s).1 (readSize1 deviceData s).2

theorem readData_of_ne (bytes : List Byte) (h : s.state ≠ .waitData) :
    readData bytes s = (false, bytes, { s with valid := false }) := by
  rw [readData, if_neg h]

/-- Whether the command was valid is not read. -/
theorem readData_valid (bytes : List Byte) (s : Incoming) (valid : Bool) :
    readData bytes { s with valid := valid } = readData bytes s := by
  by_cases hs : s.state = .waitData
  · by_cases hn : s.tempSize.toNat ≤ bytes.length <;> simp [readData, hs, hn]
  · rw [readData_of_ne bytes hs]
    exact readData_of_ne bytes hs

theorem fromSize3_valid (bytes : List Byte) (s : Incoming) (valid : Bool) :
    fromSize3 bytes { s with valid := valid } = fromSize3 bytes s := by
  rcases s with ⟨command, state, valid', tempSize⟩
  cases bytes <;> cases state <;> exact readData_valid _ ⟨_, _, valid', _⟩ valid

theorem fromSize2_valid (bytes : List Byte) (s : Incoming) (valid : Bool) :
    fromSize2 bytes { s with valid := valid } = fromSize2 bytes s := by
  rcases s with ⟨command, state, valid', tempSize⟩
  cases bytes <;> cases state <;> exact fromSize3_valid _ ⟨_, _, valid', _⟩ valid

theorem fromSize1_valid (bytes : List Byte) (s : Incoming) (valid : Bool) :
    fromSize1 bytes { s with valid := valid } = fromSize1 bytes s := by
  rcases s with ⟨command, state, valid', tempSize⟩
  cases bytes <;> cases state <;> exact fromSize2_valid _ ⟨_, _, valid', _⟩ valid

/-- Steps that are not the state's own do nothing. -/
theorem readFrom_of_size1 (bytes : List Byte) (h : s.state = .waitSize1) :
    readFrom bytes s = .ok (fromSize1 bytes s) := by
  rcases s with ⟨command, state, valid, tempSize⟩
  obtain rfl : state = .waitSize1 := h
  cases bytes <;> rfl

theorem readFrom_of_size2 (bytes : List Byte) (h : s.state = .waitSize2) :
    readFrom bytes s = .ok (fromSize2 bytes s) := by
  rcases s with ⟨command, state, valid, tempSize⟩
  obtain rfl : state = .waitSize2 := h
  cases bytes <;> rfl

theorem readFrom_of_size3 (bytes : List Byte) (h : s.state = .waitSize3) :
    readFrom bytes s = .ok (fromSize3 bytes s) := by
  rcases s with ⟨command, state, valid, tempSize⟩
  obtain rfl : state = .waitSize3 := h
  cases bytes <;> rfl

theorem readFrom_of_data (bytes : List Byte) (h : s.state = .waitData) :
    readFrom bytes s = .ok (readData bytes s) := by
  rcases s with ⟨command, state, valid, tempSize⟩
  obtain rfl : state = .waitData := h
  cases bytes <;> rfl

/-! ## One byte after the other -/

/-- The command is complete when no more data is to come. -/
def complete (s : Incoming) : Bool × Incoming :=
  if s.tempSize = 0 then (true, { s with state := .waitId, valid := true })
  else (false, { s with state := .waitData, valid := false })

/-- What a byte does: whether the command is complete with it, and the state. -/
def feed (c : Byte) (s : Incoming) : Except Failure (Bool × Incoming) :=
  match s.state with
  | .waitId =>
      if typeNone ≤ c.toNat then
        .error (.thrown ("Command id out of range : " ++ toString c.toNat))
      else .ok (false,
        { s with command := { s.command with type := c }, state := .waitSize1, valid := false })
  | .waitSize1 =>
      .ok (false, { s with tempSize := c.signExtend 32, state := .waitSize2, valid := false })
  | .waitSize2 => .ok (false, { s with
      tempSize := s.tempSize ||| (c.signExtend 32 <<< 8), state := .waitSize3, valid := false })
  | .waitSize3 => .ok (complete { s with
      tempSize := s.tempSize ||| (c.signExtend 32 <<< 16)
      command := { s.command with data := [] } })
  | .waitData => .ok (complete { s with
      command := { s.command with data := s.command.data ++ [c] }
      tempSize := s.tempSize - 1 })

/-- While data is awaited some is still to come, and the command is then not valid. -/
structure Incoming.Sound (s : Incoming) : Prop where
  tempSize_ne : s.state = .waitData → s.tempSize ≠ 0

theorem Incoming.Sound.of_waitId (h : s.state = .waitId) : s.Sound := by
  refine ⟨fun hdata => ?_⟩
  rw [h] at hdata
  cases hdata

theorem complete_sound (s : Incoming) :
    (complete s).2.Sound ∧ (complete s).2.valid = (complete s).1 := by
  rw [complete]
  split
  · exact ⟨⟨nofun⟩, rfl⟩
  · next h => exact ⟨⟨fun _ => h⟩, rfl⟩

theorem feed_sound {r : Bool × Incoming} (h : feed c s = .ok r) :
    r.2.Sound ∧ r.2.valid = r.1 := by
  rcases s with ⟨command, state, valid, tempSize⟩
  cases state with
  | waitId =>
      simp only [feed] at h
      split at h
      · cases h
      · cases h
        exact ⟨⟨nofun⟩, rfl⟩
  | waitSize1 =>
      cases h
      exact ⟨⟨nofun⟩, rfl⟩
  | waitSize2 =>
      cases h
      exact ⟨⟨nofun⟩, rfl⟩
  | waitSize3 =>
      cases h
      exact complete_sound _
  | waitData =>
      cases h
      exact complete_sound _

/-! ## The data -/

/-- The data is complete. -/
theorem readData_of_le (hs : s.state = .waitData) (hn : s.tempSize.toNat ≤ bytes.length) :
    readData bytes s = (true, bytes.drop s.tempSize.toNat, { s with
      command := { s.command with data := s.command.data ++ bytes.take s.tempSize.toNat }
      tempSize := 0, state := .waitId, valid := true }) := by
  rw [readData, if_pos hs]
  simp only [if_pos hn, if_true]

/-- More data is to come. -/
theorem readData_of_lt (hs : s.state = .waitData) (hn : bytes.length < s.tempSize.toNat) :
    readData bytes s = (false, [], { s with
      command := { s.command with data := s.command.data ++ bytes }
      tempSize := s.tempSize - BitVec.ofNat 32 bytes.length, valid := false }) := by
  have hne : s.tempSize - BitVec.ofNat 32 bytes.length ≠ 0 := by bv_omega
  rw [readData, if_pos hs]
  simp only [if_neg (Nat.not_le.2 hn), if_neg hne]

theorem toNat_pos {w : ℕ} {n : BitVec w} (h : n ≠ 0) : 0 < n.toNat := by
  refine Nat.pos_of_ne_zero fun h0 => h ?_
  exact BitVec.eq_of_toNat_eq h0

/-- Nothing is read from no bytes. -/
theorem readFrom_nil (hs : s.Sound) (hv : s.valid = false) :
    readFrom [] s = .ok (false, [], s) := by
  rcases s with ⟨command, state, valid, tempSize⟩
  obtain rfl : valid = false := hv
  cases state with
  | waitData =>
      -- some data is lacking in this state, so nothing is complete
      have hpos : ([] : List Byte).length < tempSize.toNat := toNat_pos (hs.tempSize_ne rfl)
      have hdata := readData_of_lt (s := ⟨command, .waitData, false, tempSize⟩) rfl hpos
      rw [readFrom_of_data [] rfl, hdata]
      simp
  | _ => rfl

/-- Data is read as one byte and then the others. -/
theorem readData_cons (ht : s.tempSize ≠ 0) (hs : s.state = .waitData) :
    readData (c :: rest) s = readData rest { s with
      command := { s.command with data := s.command.data ++ [c] }
      tempSize := s.tempSize - 1 } := by
  have hpos := toNat_pos ht
  have hpred : (s.tempSize - 1).toNat = s.tempSize.toNat - 1 := by bv_omega
  have hs' : ∀ command tempSize,
      ({ s with command := command, tempSize := tempSize } : Incoming).state = .waitData :=
    fun _ _ => hs
  by_cases hn : s.tempSize.toNat ≤ (c :: rest).length
  · obtain ⟨n, hsize⟩ := Nat.exists_eq_add_of_lt hpos
    rw [readData_of_le hs hn, readData_of_le (hs' _ _)] <;> simp only [hpred, hsize]
    · simp
    · simp only [hsize, List.length_cons] at hn
      omega
  · rw [readData_of_lt hs (Nat.not_le.1 hn), readData_of_lt (hs' _ _)]
    · have hsub : s.tempSize - BitVec.ofNat 32 (c :: rest).length =
          s.tempSize - 1 - BitVec.ofNat 32 rest.length := by
        simp only [List.length_cons] at hn ⊢
        bv_omega
      rw [hsub]
      simp
    · simp only [hpred, List.length_cons] at hn ⊢
      omega

/-- A command that is complete is not touched by what follows. -/
theorem readFrom_complete (rest : List Byte) (hs : s.state = .waitData) :
    (if (complete s).1 then .ok (true, rest, (complete s).2) else readFrom rest (complete s).2) =
      .ok (readData rest s) := by
  rw [complete]
  by_cases ht : s.tempSize = 0
  · simp [readData, hs, ht]
  · rw [if_neg ht, if_neg Bool.false_ne_true, readFrom_of_data rest rfl,
      ← readData_valid rest s false]
    simp [hs]

/-! ## Chunks -/

/-- A chunk is read as its first byte and then the others. -/
theorem readFrom_cons (hs : s.Sound) (c : Byte) (rest : List Byte) :
    readFrom (c :: rest) s = (feed c s).bind fun r =>
      if r.1 then .ok (true, rest, r.2) else readFrom rest r.2 := by
  rcases s with ⟨command, state, valid, tempSize⟩
  cases state with
  | waitId =>
      by_cases hc : typeNone ≤ c.toNat
      · simp only [readFrom, readId, feed, if_pos hc]
        rfl
      · simp only [readFrom, readId, feed, if_neg hc]
        refine Eq.trans ?_ (readFrom_of_size1 rest rfl).symm
        exact congrArg Except.ok
          (fromSize1_valid rest ⟨⟨c, command.data⟩, .waitSize1, valid, tempSize⟩ false).symm
  | waitSize1 =>
      refine Eq.trans ?_ (readFrom_of_size2 rest rfl).symm
      exact congrArg Except.ok (fromSize2_valid rest _ false).symm
  | waitSize2 =>
      refine Eq.trans ?_ (readFrom_of_size3 rest rfl).symm
      exact congrArg Except.ok (fromSize3_valid rest _ false).symm
  | waitSize3 => exact (readFrom_complete rest rfl).symm
  | waitData =>
      rw [readFrom_of_data (c :: rest) rfl, readData_cons (hs.tempSize_ne rfl) rfl]
      exact (readFrom_complete rest rfl).symm

/-- The bytes one after the other: the commands, and the state. -/
def feedAll : List Byte → Incoming → Except Failure (List Command × Incoming)
  | [], s => .ok ([], s)
  | c :: rest, s => do
      let r ← feed c s
      let r' ← feedAll rest r.2
      .ok (if r.1 then (r.2.command :: r'.1, r'.2) else r')

/-- A turn of the loop, also when nothing is left. -/
theorem onDataReceived_succ (fuel : ℕ) (bytes : List Byte) (hs : s.Sound)
    (hv : s.valid = false) :
    onDataReceived (fuel + 1) bytes s = (readFrom bytes s).bind fun r =>
      (onDataReceived fuel r.2.1 r.2.2).bind fun r' =>
        .ok (if r.1 then (r.2.2.command :: r'.1, r'.2) else r') := by
  cases bytes with
  | nil =>
      rw [readFrom_nil hs hv]
      cases fuel <;> rfl
  | cons c rest => rfl

/-- The slot takes the bytes one after the other, within as many turns as there are
bytes. -/
theorem onDataReceived_eq (bytes : List Byte) (fuel : ℕ) (hfuel : bytes.length ≤ fuel)
    (hs : s.Sound) : onDataReceived fuel bytes s = feedAll bytes s := by
  induction bytes generalizing fuel s with
  | nil => cases fuel <;> rfl
  | cons c rest ih =>
      cases fuel with
      | zero => cases hfuel
      | succ fuel =>
          have hrest : rest.length ≤ fuel := Nat.le_of_succ_le_succ hfuel
          rw [onDataReceived, feedAll, readFrom_cons hs]
          cases hc : feed c s with
          | error failure => rfl
          | ok r =>
              rcases r with ⟨completed, s'⟩
              have hfeed := feed_sound hc
              cases completed with
              | true =>
                  -- the command is complete: another turn takes what is left
                  show (onDataReceived fuel rest s').bind _ = _
                  rw [ih fuel hrest hfeed.1]
                  rfl
              | false =>
                  -- the same turn goes on, and a turn with what is left does the same
                  have hturn := onDataReceived_succ fuel rest hfeed.1 hfeed.2
                  rw [ih (fuel + 1) (Nat.le_succ_of_le hrest) hfeed.1] at hturn
                  refine hturn.symm.trans ?_
                  show feedAll rest s' = (feedAll rest s').bind fun r' => .ok r'
                  cases feedAll rest s' <;> rfl

theorem feedAll_append (bytes rest : List Byte) (s : Incoming) :
    feedAll (bytes ++ rest) s = (feedAll bytes s).bind fun r =>
      (feedAll rest r.2).bind fun r' => .ok (r.1 ++ r'.1, r'.2) := by
  induction bytes generalizing s with
  | nil =>
      simp only [feedAll, List.nil_append, Except.bind]
      cases feedAll rest s <;> rfl
  | cons c bytes ih =>
      rw [List.cons_append, feedAll, feedAll]
      cases feed c s with
      | error failure => rfl
      | ok r =>
          rcases r with ⟨completed, s'⟩
          show (feedAll (bytes ++ rest) s').bind _ = ((feedAll bytes s').bind _).bind _
          rw [ih]
          cases feedAll bytes s' with
          | error failure => rfl
          | ok r =>
              cases hrest : feedAll rest r.2 <;> cases completed <;> simp [Except.bind, hrest]

theorem feedAll_sound {r : List Command × Incoming} (hs : s.Sound)
    (h : feedAll bytes s = .ok r) : r.2.Sound := by
  induction bytes generalizing s r with
  | nil =>
      cases h
      exact hs
  | cons c bytes ih =>
      rw [feedAll] at h
      cases hc : feed c s with
      | error failure =>
          rw [hc] at h
          cases h
      | ok r' =>
          rw [hc] at h
          change (feedAll bytes r'.2).bind _ = _ at h
          cases hb : feedAll bytes r'.2 with
          | error failure =>
              rw [hb] at h
              cases h
          | ok r'' =>
              have hsound := ih (feed_sound hc).1 hb
              rw [hb] at h
              cases h
              split <;> exact hsound

/-- How the bytes are cut into chunks does not matter. -/
theorem receive_eq (chunks : List (List Byte)) (hs : s.Sound) :
    receive chunks s = (feedAll chunks.flatten s).bind fun r => .ok r.1 := by
  induction chunks generalizing s with
  | nil => rfl
  | cons chunk chunks ih =>
      rw [receive, List.flatten_cons, feedAll_append, onDataReceived_eq chunk _ le_rfl hs]
      cases hc : feedAll chunk s with
      | error failure => rfl
      | ok r =>
          show (receive chunks r.2).bind _ = _
          rw [ih (feedAll_sound hs hc)]
          cases hr : feedAll chunks.flatten r.2 <;> simp [Except.bind, hr]

/-! ## The size -/

/-- The size that is read from the three bytes that `toByteArray` gives for `size`. -/
def announced (size : ℕ) : BitVec 32 :=
  (BitVec.ofNat 8 (size &&& 0xFF)).signExtend 32 |||
    ((BitVec.ofNat 8 ((size >>> 8) &&& 0xFF)).signExtend 32 <<< 8) |||
    ((BitVec.ofNat 8 ((size >>> 16) &&& 0xFF)).signExtend 32 <<< 16)

/-- The two bytes of the size have no sign. -/
def SmallSize (size : ℕ) : Prop := size % 256 < 128 ∧ size / 256 < 128

theorem announced_eq {size : ℕ} (hsize : size ≤ 65535) :
    announced size = (BitVec.ofNat 8 (size % 256)).signExtend 32 |||
      ((BitVec.ofNat 8 (size / 256)).signExtend 32 <<< 8) := by
  have hand : ∀ n, n &&& 0xFF = n % 256 := fun n => Nat.and_two_pow_sub_one_eq_mod n 8
  -- the third byte of the size is zero
  have hhigh : size >>> 16 = 0 := by
    rw [Nat.shiftRight_eq_div_pow]
    omega
  have hmid : size >>> 8 % 256 = size / 256 := by
    rw [Nat.shiftRight_eq_div_pow]
    omega
  rw [announced, hand, hand, hmid, hhigh]
  simp

/-- Without signs, the bytes give the size. -/
theorem announced_small {size : ℕ} (hsmall : SmallSize size) : (announced size).toNat = size := by
  obtain ⟨hlow, hmid⟩ := hsmall
  rw [announced_eq (by omega)]
  have hext : ∀ n < 128, (BitVec.ofNat 8 n).signExtend 32 = BitVec.ofNat 32 n := by decide
  rw [hext _ hlow, hext _ hmid]
  have hlow' : BitVec.toNat (BitVec.ofNat 32 (size % 256)) = size % 256 :=
    Nat.mod_eq_of_lt (by omega)
  have hmid' : BitVec.toNat (BitVec.ofNat 32 (size / 256) <<< 8) = (size / 256) <<< 8 := by
    rw [BitVec.toNat_shiftLeft, BitVec.toNat_ofNat, Nat.shiftLeft_eq, Nat.shiftLeft_eq]
    omega
  calc
    _ = size % 256 ||| (size / 256) <<< 8 := by rw [BitVec.toNat_or, hlow', hmid']
    _ = (size / 256) <<< 8 ||| size % 256 := Nat.or_comm _ _
    _ = (size / 256) <<< 8 + size % 256 :=
        (Nat.shiftLeft_add_eq_or_of_lt (by omega : size % 256 < 2 ^ 8) _).symm
    _ = size := by
        rw [Nat.shiftLeft_eq]
        omega

/-- A sign fills the size up. -/
theorem announced_large {size : ℕ} (hsize : size ≤ 65535) (hlarge : ¬SmallSize size) :
    65535 < (announced size).toNat := by
  -- a byte with a sign sets every bit above it
  have hsign : ∀ n < 256, 128 ≤ n →
      65535 < ((BitVec.ofNat 8 n).signExtend 32).toNat ∧
      65535 < ((BitVec.ofNat 8 n).signExtend 32 <<< 8).toNat := by decide +kernel
  rw [announced_eq hsize, BitVec.toNat_or]
  by_cases hlow : size % 256 < 128
  · have hmid : 128 ≤ size / 256 := by
      by_contra h
      exact hlarge ⟨hlow, Nat.not_le.1 h⟩
    exact lt_of_lt_of_le (hsign _ (by omega) hmid).2 Nat.right_le_or
  · exact lt_of_lt_of_le (hsign _ (by omega) (Nat.not_lt.1 hlow)).1 Nat.left_le_or

/-! ## One command -/

/-- What `toByteArray` gives for a command that is not too long. -/
def encoded (command : Command) : List Byte :=
  let size := command.data.length
  command.type :: BitVec.ofNat 8 (size &&& 0xFF) ::
    BitVec.ofNat 8 ((size >>> 8) &&& 0xFF) :: BitVec.ofNat 8 ((size >>> 16) &&& 0xFF) ::
    command.data

/-- A command with a type, and with at most 65535 bytes. -/
structure Command.Valid (command : Command) : Prop where
  type_lt : command.type.toNat < typeNone
  length_le : command.data.length ≤ 65535

theorem toByteArray_of_valid {command : Command} (h : command.Valid) :
    toByteArray command = .ok (encoded command) := by
  rw [toByteArray]
  simp only [if_neg (Nat.not_lt.2 h.length_le)]
  rfl

theorem mapM_toByteArray (h : ∀ command ∈ commands, command.Valid) :
    commands.mapM toByteArray = .ok (commands.map encoded) := by
  induction commands with
  | nil => rfl
  | cons command commands ih =>
      have hrest := ih fun other hother => h other (List.mem_cons_of_mem _ hother)
      rw [List.mapM_cons, toByteArray_of_valid (h command List.mem_cons_self), hrest]
      rfl

/-- The four bytes of the header are read at once. -/
theorem readFrom_encoded {command : Command} (h : command.Valid) (rest : List Byte)
    (hs : s.state = .waitId) :
    readFrom (encoded command ++ rest) s = .ok (readData (command.data ++ rest)
      ⟨⟨command.type, []⟩, .waitData, s.valid, announced command.data.length⟩) := by
  rcases s with ⟨old, state, valid, tempSize⟩
  obtain rfl : state = .waitId := hs
  simp only [readFrom, encoded, List.cons_append, readId, if_neg (Nat.not_le.2 h.type_lt)]
  rfl

/-- What is received of a command: as many bytes as the size says, once they are there. -/
theorem feedAll_encoded {command : Command} (h : command.Valid) (rest : List Byte)
    (hs : s.state = .waitId) :
    let size := (announced command.data.length).toNat
    let data := command.data ++ rest
    feedAll (encoded command ++ rest) s =
      if size ≤ data.length then
        (feedAll (data.drop size) ⟨⟨command.type, data.take size⟩, .waitId, true, 0⟩).bind fun r =>
          .ok (⟨command.type, data.take size⟩ :: r.1, r.2)
      else .ok ([], ⟨⟨command.type, data⟩, .waitData, false,
        announced command.data.length - BitVec.ofNat 32 data.length⟩) := by
  intro size data
  have hfuel : (encoded command ++ rest).length ≤ data.length + 3 + 1 := by
    simp [encoded, data]
  have hturn : onDataReceived (data.length + 3 + 1) (encoded command ++ rest) s =
      (readFrom (encoded command ++ rest) s).bind fun r =>
        (onDataReceived (data.length + 3) r.2.1 r.2.2).bind fun r' =>
          .ok (if r.1 then (r.2.2.command :: r'.1, r'.2) else r') := rfl
  rw [← onDataReceived_eq _ _ hfuel (.of_waitId hs), hturn, readFrom_encoded h rest hs]
  by_cases hsize : size ≤ data.length
  · rw [if_pos hsize, readData_of_le rfl hsize]
    show (onDataReceived _ (data.drop size) _).bind _ = _
    rw [onDataReceived_eq _ _ (by simp; omega) (.of_waitId rfl)]
    rfl
  · rw [if_neg hsize, readData_of_lt rfl (Nat.not_le.1 hsize)]
    rfl

/-- A command whose size has no sign is received. -/
theorem feedAll_small {command : Command} (h : command.Valid)
    (hsmall : SmallSize command.data.length) (rest : List Byte) (hs : s.state = .waitId) :
    feedAll (encoded command ++ rest) s =
      (feedAll rest ⟨command, .waitId, true, 0⟩).bind fun r => .ok (command :: r.1, r.2) := by
  have hsize := announced_small hsmall
  rw [feedAll_encoded h rest hs, if_pos (by rw [hsize, List.length_append]; omega), hsize,
    List.drop_left, List.take_left]

/-- A command whose size has a sign is not: what comes first, if anything does, is longer. -/
theorem feedAll_large {command : Command} (h : command.Valid)
    (hlarge : ¬SmallSize command.data.length) (rest : List Byte) (hs : s.state = .waitId)
    {r : List Command × Incoming} (hr : feedAll (encoded command ++ rest) s = .ok r) :
    r.1.head? ≠ some command := by
  have hsize := announced_large h.length_le hlarge
  rw [feedAll_encoded h rest hs] at hr
  split at hr
  · next hle =>
      intro hhead
      cases hrest : feedAll ((command.data ++ rest).drop (announced command.data.length).toNat)
          ⟨⟨command.type, (command.data ++ rest).take (announced command.data.length).toNat⟩,
            .waitId, true, 0⟩ with
      | error failure =>
          rw [hrest] at hr
          cases hr
      | ok r' =>
          rw [hrest] at hr
          cases hr
          -- what comes first has more data than a command may have
          have hdata := congrArg (fun c : Command => c.data.length) (Option.some.inj hhead)
          simp only [List.length_take, min_eq_left hle] at hdata
          have hlength := h.length_le
          omega
  · cases hr
    nofun

/-! ## All commands -/

theorem feedAll_commands (h : ∀ command ∈ commands, command.Valid) (hs : s.state = .waitId) :
    (feedAll (commands.map encoded).flatten s).bind (fun r => .ok r.1) = .ok commands ↔
      ∀ command ∈ commands, SmallSize command.data.length := by
  induction commands generalizing s with
  | nil => simp [feedAll, Except.bind]
  | cons command commands ih =>
      have hcommand := h command List.mem_cons_self
      have hrest := fun other hother => h other (List.mem_cons_of_mem _ hother)
      rw [List.map_cons, List.flatten_cons, List.forall_mem_cons]
      by_cases hsmall : SmallSize command.data.length
      · rw [feedAll_small hcommand hsmall _ hs, ← ih (s := ⟨command, .waitId, true, 0⟩) hrest rfl]
        cases feedAll (commands.map encoded).flatten ⟨command, .waitId, true, 0⟩ with
        | error failure => simp [Except.bind]
        | ok r => simp [Except.bind, hsmall]
      · refine iff_of_false (fun hreceived => ?_) (fun hall => hsmall hall.1)
        cases hr : feedAll (encoded command ++ (commands.map encoded).flatten) s with
        | error failure =>
            rw [hr] at hreceived
            cases hreceived
        | ok r =>
            rw [hr] at hreceived
            -- this command would have to come first
            refine feedAll_large hcommand hsmall _ hs hr ?_
            rw [Except.ok.inj hreceived]
            rfl

/-- The commands that are received are the commands that were sent, however their bytes
are cut, exactly if the two low bytes of every size are below 128: a byte is read as a
`char`, and its sign fills the size up. -/
theorem commands_received_iff (h : ∀ command ∈ commands, command.Valid) :
    ∃ sent, commands.mapM toByteArray = .ok sent ∧
      ∀ chunks : List (List Byte), (∀ chunk ∈ chunks, chunk ≠ []) →
        chunks.flatten = sent.flatten →
        (receive chunks .init = .ok commands ↔
          ∀ command ∈ commands,
            command.data.length % 256 < 128 ∧ command.data.length / 256 < 128) := by
  refine ⟨commands.map encoded, mapM_toByteArray h, fun chunks _ hchunks => ?_⟩
  rw [receive_eq chunks (.of_waitId rfl), hchunks]
  exact feedAll_commands h rfl

theorem commands_received_iff_key :
    ∃ sent, [⟨0x21, [1, 2, 3]⟩, ⟨0x34, []⟩].mapM toByteArray = .ok sent ∧
      ∀ chunks : List (List Byte), (∀ chunk ∈ chunks, chunk ≠ []) →
        chunks.flatten = sent.flatten →
        (receive chunks .init = .ok [⟨0x21, [1, 2, 3]⟩, ⟨0x34, []⟩] ↔
          ∀ command ∈ ([⟨0x21, [1, 2, 3]⟩, ⟨0x34, []⟩] : List Command),
            command.data.length % 256 < 128 ∧ command.data.length / 256 < 128) := by
  refine commands_received_iff fun command hcommand => ?_
  rcases List.mem_cons.1 hcommand with rfl | hcommand
  · exact ⟨by decide, by decide⟩
  · obtain rfl := List.mem_singleton.1 hcommand
    exact ⟨by decide, by decide⟩

/-- A command with 128 bytes, all in one chunk, is never received. -/
theorem long_command_lost :
    ¬∀ commands : List Command, (∀ command ∈ commands, command.Valid) →
      ∀ sent, commands.mapM toByteArray = .ok sent →
      ∀ chunks : List (List Byte), (∀ chunk ∈ chunks, chunk ≠ []) →
        chunks.flatten = sent.flatten → receive chunks .init = .ok commands := by
  intro h
  have hvalid : ∀ command ∈ [(⟨0x20, List.replicate 128 0⟩ : Command)], command.Valid :=
    List.forall_mem_singleton.2 ⟨by decide, by rw [List.length_replicate]; decide⟩
  have hreceived := h _ hvalid _ (mapM_toByteArray hvalid)
    [encoded ⟨0x20, List.replicate 128 0⟩] (List.forall_mem_singleton.2 nofun) rfl
  rw [receive_eq _ (.of_waitId rfl)] at hreceived
  have hsmall := (feedAll_commands hvalid rfl).1 hreceived _ List.mem_cons_self
  rw [List.length_replicate] at hsmall
  exact absurd hsmall.1 (by decide)

end PasswordWallet.Desktop
