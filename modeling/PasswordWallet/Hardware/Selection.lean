import PasswordWallet.Hardware.Rfid

/-!
# The selection of a card

`rfid_PICC_select` of `Rfid.c`, with what it calls.  The reader and the cards in its field
are a parameter: what they answer to a frame may depend on all that was sent.

A function that returns early throws its status, so that what it has written until then
stays.  `outOfBounds` stands for an access behind the end of an array, and `endless` for a
loop that has not come to its end.
-/

namespace PasswordWallet.Rfid

/-! ## The reader -/

/-- What the registers read as while a CRC is calculated. -/
structure CrcRun where
  divIrq : ℕ → Byte
  result : Byte × Byte

/-- What they read as while a frame is sent and the reply is fetched. -/
structure Exchange where
  comIrq : ℕ → Byte
  error : Byte
  fifoLevel : Byte
  fifo : ℕ → Byte
  control : Byte
  coll : Byte

/-- What is in the FIFO and in `BitFramingReg` when the transmission starts. -/
structure Frame where
  data : List Byte
  bitFraming : Byte
  deriving DecidableEq

structure Reader (σ : Type) where
  calculateCrc : σ → List Byte → CrcRun × σ
  transceive : σ → Frame → Exchange × σ

structure Uid where
  size : Byte
  uidByte : List Byte
  sak : Byte
  deriving DecidableEq

/-- What goes between the program and the reader. -/
inductive Event
  | crc (data : List Byte) (run : CrcRun)
  | frame (frame : Frame) (x : Exchange)

/-- How a function ends other than at its end. -/
inductive Exit
  | returned (status : StatusCode)
  | outOfBounds
  | endless
  deriving DecidableEq

/-- The arrays of `rfid_PICC_select`, and what was sent and answered. -/
structure Selection (σ : Type) where
  field : σ
  transcript : List Event
  uid : Uid
  buffer : List Byte

abbrev Selecting (σ : Type) := EStateM Exit (Selection σ)

/-- `rfid_pcd_communicate_with_PICC` as it ends: its status, `*backLen` and `*validBits`,
and the register that says where a collision was. -/
structure Reply where
  status : StatusCode
  backLen : ℕ
  validBits : ℕ
  coll : Byte

def piccCmdCt : Byte := 0x88

variable {σ : Type}

def readBuffer (i : ℕ) : Selecting σ Byte := do
  match (← get).buffer[i]? with
  | some value => return value
  | none => throw .outOfBounds

def writeBuffer (i : ℕ) (value : Byte) : Selecting σ Unit := do
  let s ← get
  if i < s.buffer.length then set { s with buffer := s.buffer.set i value }
  else throw .outOfBounds

/-- The bits `rxAlign` to 7. -/
def alignMask (rxAlign : ℕ) : Byte :=
  (List.range' rxAlign (8 - rxAlign)).foldl (fun mask i => mask ||| (1 <<< i)) 0

/-- The loop of `rfid_pcd_read_register_multiple`, with the turns that are left. -/
def readLoop (fifo : ℕ → Byte) (values rxAlign : ℕ) : ℕ → ℕ → Selecting σ Unit
  | 0, index => writeBuffer (values + index) (fifo index)
  | left + 1, index => do
      if index = 0 ∧ rxAlign ≠ 0 then
        let mask := alignMask rxAlign
        let value ← readBuffer (values + index)
        writeBuffer values ((value &&& ~~~mask) ||| (fifo index &&& mask))
      else writeBuffer (values + index) (fifo index)
      readLoop fifo values rxAlign left (index + 1)

/-- `rfid_pcd_read_register_multiple` on the FIFO. -/
def rfidPcdReadRegisterMultiple (fifo : ℕ → Byte) (count values rxAlign : ℕ) :
    Selecting σ Unit :=
  if count = 0 then return () else readLoop fifo values rxAlign (count - 1) 0

variable (reader : Reader σ)

/-- `rfid_pcd_calculate_crc` of `length` bytes from `data` on. -/
def rfidPcdCalculateCrc (data length result : ℕ) : Selecting σ Unit := do
  let s ← get
  if data + length ≤ s.buffer.length then
    let bytes := (s.buffer.drop data).take length
    let run := reader.calculateCrc s.field bytes
    set { s with field := run.2, transcript := s.transcript ++ [Event.crc bytes run.1] }
    match PasswordWallet.rfidPcdCalculateCrc run.1.divIrq with
    | .ok =>
        writeBuffer result run.1.result.1
        writeBuffer (result + 1) run.1.result.2
    | status => throw (.returned status)
  else throw .outOfBounds

/-- `rfid_pcd_communicate_with_PICC` up to the start of the transmission. -/
def transmit (sendLen rxAlign txLastBits : ℕ) : Selecting σ Exchange := do
  let s ← get
  if sendLen ≤ s.buffer.length then
    let frame : Frame :=
      ⟨s.buffer.take sendLen, BitVec.ofNat 8 (rxAlign <<< 4) + BitVec.ofNat 8 txLastBits⟩
    let x := reader.transceive s.field frame
    set { s with field := x.2, transcript := s.transcript ++ [Event.frame frame x.1] }
    return x.1
  else throw .outOfBounds

/-- `rfid_pcd_communicate_with_PICC` as `rfid_pcd_transceive_data` calls it, for a reply
that goes to `backData` and without a check of its CRC. -/
def rfidPcdTransceiveData (sendLen backData backLen validBits rxAlign : ℕ) :
    Selecting σ Reply := do
  let x ← transmit reader sendLen rxAlign validBits
  match communicateLoop x.comIrq 4000 0 with
  | .ok =>
      if x.error &&& 0x13 ≠ 0 then return ⟨.error, backLen, validBits, x.coll⟩
      else if x.fifoLevel.toNat > backLen then return ⟨.noRoom, backLen, validBits, x.coll⟩
      else
        rfidPcdReadRegisterMultiple x.fifo x.fifoLevel.toNat backData rxAlign
        let status : StatusCode := if x.error &&& 0x08 ≠ 0 then .collision else .ok
        return ⟨status, x.fifoLevel.toNat, (x.control &&& 0x07).toNat, x.coll⟩
  | status => return ⟨status, backLen, validBits, x.coll⟩

/-! ## The anticollision loop -/

/-- What one turn sends, and where the reply goes. -/
structure Turn where
  bufferUsed : ℕ
  txLastBits : ℕ
  responseBuffer : ℕ
  responseLength : ℕ

/-- The frame of a turn.  With 32 bits it is a SELECT, else an ANTICOLLISION. -/
def prepare (currentLevelKnownBits : ℕ) : Selecting σ Turn := do
  if 32 ≤ currentLevelKnownBits then
    writeBuffer 1 0x70
    writeBuffer 6
      ((← readBuffer 2) ^^^ (← readBuffer 3) ^^^ (← readBuffer 4) ^^^ (← readBuffer 5))
    rfidPcdCalculateCrc reader 0 7 7
    return ⟨9, 0, 6, 3⟩
  else
    let txLastBits := currentLevelKnownBits % 8
    let index := 2 + currentLevelKnownBits / 8
    writeBuffer 1 (BitVec.ofNat 8 (index <<< 4) + BitVec.ofNat 8 txLastBits)
    return ⟨index + if txLastBits ≠ 0 then 1 else 0, txLastBits, index, 9 - index⟩

/-- The bits that are known after a collision, of which the last is chosen to be set. -/
def choose (valueOfCollReg : Byte) (currentLevelKnownBits : ℕ) : Selecting σ ℕ := do
  if valueOfCollReg &&& 0x20 ≠ 0 then throw (.returned .collision)
  let collisionPos :=
    if (valueOfCollReg &&& 0x1F).toNat = 0 then 32 else (valueOfCollReg &&& 0x1F).toNat
  if collisionPos ≤ currentLevelKnownBits then throw (.returned .internalError)
  let count := (collisionPos - 1) % 8
  let index := 1 + collisionPos / 8 + if count ≠ 0 then 1 else 0
  writeBuffer index ((← readBuffer index) ||| (1 <<< count))
  return collisionPos

/-- The loop while `!selectDone`; what is returned is the reply to the SELECT. -/
def anticollisionLoop : ℕ → ℕ → Selecting σ Reply
  | 0, _ => throw .endless
  | fuel + 1, currentLevelKnownBits => do
      let turn ← prepare reader currentLevelKnownBits
      let reply ← rfidPcdTransceiveData reader turn.bufferUsed turn.responseBuffer
        turn.responseLength turn.txLastBits turn.txLastBits
      match reply.status with
      | .collision => anticollisionLoop fuel (← choose reply.coll currentLevelKnownBits)
      | .ok =>
          if 32 ≤ currentLevelKnownBits then return reply
          else anticollisionLoop fuel 32
      | status => throw (.returned status)

/-! ## The cascade levels -/

/-- The bytes of the buffer from `index` on, into the UID from `uidIndex` on. -/
def copyUid (index uidIndex : ℕ) : ℕ → Selecting σ Unit
  | 0 => return ()
  | left + 1 => do
      let value ← readBuffer index
      let s ← get
      if uidIndex < s.uid.uidByte.length then
        set { s with uid := { s.uid with uidByte := s.uid.uidByte.set uidIndex value } }
      else throw .outOfBounds
      copyUid (index + 1) (uidIndex + 1) left

/-- The bytes of a level, but for a cascade tag. -/
def copyPart (uidIndex : ℕ) : Selecting σ Unit := do
  if (← readBuffer 2) = piccCmdCt then copyUid 3 uidIndex 3 else copyUid 2 uidIndex 4

/-- What a level does after its SELECT: the SAK. -/
def acknowledge (reply : Reply) (uidIndex : ℕ) : Selecting σ Byte := do
  copyPart uidIndex
  if reply.backLen ≠ 3 ∨ reply.validBits ≠ 0 then throw (.returned .error)
  rfidPcdCalculateCrc reader 6 1 2
  if (← readBuffer 2) ≠ (← readBuffer 7) ∨ (← readBuffer 3) ≠ (← readBuffer 8) then
    throw (.returned .crcWrong)
  readBuffer 6

/-- `PICC_CMD_SEL_CL1` and the next, and the index in the UID. -/
def levelOf : ℕ → Option (Byte × ℕ)
  | 1 => some (0x93, 0)
  | 2 => some (0x95, 3)
  | 3 => some (0x97, 6)
  | _ => none

/-- The loop while `!uidComplete`; what is returned is `cascadeLevel`. -/
def cascadeLoop : ℕ → ℕ → Selecting σ ℕ
  | 0, _ => throw .endless
  | fuel + 1, cascadeLevel => do
      match levelOf cascadeLevel with
      | none => throw (.returned .internalError)
      | some (command, uidIndex) =>
          writeBuffer 0 command
          let reply ← anticollisionLoop reader 34 0
          let sak ← acknowledge reader reply uidIndex
          if sak &&& 0x04 ≠ 0 then cascadeLoop fuel (cascadeLevel + 1)
          else
            modify fun s => { s with uid := { s.uid with sak := sak } }
            return cascadeLevel

/-- `rfid_PICC_select`. -/
def rfidPiccSelect : Selecting σ StatusCode := do
  let cascadeLevel ← cascadeLoop reader 4 1
  modify fun s => { s with uid := { s.uid with size := BitVec.ofNat 8 (3 * cascadeLevel + 1) } }
  return .ok

end PasswordWallet.Rfid
