import PasswordWallet.Memory.Image

/-!
# Commands on the host

`SerialCommand` and `SerialInterface::on_dataReceived` of the desktop application.  The
bytes that arrive go through one command, which keeps its state from one call to the
next, and through `tempSize`, the part of the data that is still to come.

`QByteArray::at` gives a `char`, which has a sign on the desktop.
-/

namespace PasswordWallet.Desktop

/-- `SerialCommand::None`, one past the last type. -/
def typeNone : ℕ := 0x35

/-- What a command says. -/
structure Command where
  type : Byte
  data : List Byte
  deriving DecidableEq

/-- `SerialCommand::toByteArray`, or what is thrown. -/
def toByteArray (command : Command) : Except String (List Byte) :=
  let size := command.data.length
  if 65535 < size then .error "Too much data in the command."
  else .ok (command.type :: BitVec.ofNat 8 (size &&& 0xFF) ::
    BitVec.ofNat 8 ((size >>> 8) &&& 0xFF) :: BitVec.ofNat 8 ((size >>> 16) &&& 0xFF) ::
    command.data)

/-! ## Receiving -/

inductive ReadState
  | waitId
  | waitSize1
  | waitSize2
  | waitSize3
  | waitData
  deriving DecidableEq

/-- The command that is received, with its state and whether it is valid, and `tempSize`. -/
structure Incoming where
  command : Command
  state : ReadState
  valid : Bool
  tempSize : BitVec 32

/-- Before the first byte. -/
def Incoming.init : Incoming := ⟨⟨0x35, []⟩, .waitId, false, 0⟩

/-- How the slot ends other than by its return. -/
inductive Failure
  | thrown (what : String)
  | endless

/-- The first byte. -/
def readId (deviceData : List Byte) (s : Incoming) : Except Failure (List Byte × Incoming) :=
  match deviceData, s.state with
  | rawId :: rest, .waitId =>
      if typeNone ≤ rawId.toNat then
        .error (.thrown ("Command id out of range : " ++ toString rawId.toNat))
      else .ok (rest, { s with command := { s.command with type := rawId }, state := .waitSize1 })
  | _, _ => .ok (deviceData, s)

def readSize1 (deviceData : List Byte) (s : Incoming) : List Byte × Incoming :=
  match deviceData, s.state with
  | c :: rest, .waitSize1 => (rest, { s with tempSize := c.signExtend 32, state := .waitSize2 })
  | _, _ => (deviceData, s)

def readSize2 (deviceData : List Byte) (s : Incoming) : List Byte × Incoming :=
  match deviceData, s.state with
  | c :: rest, .waitSize2 =>
      (rest, { s with tempSize := s.tempSize ||| (c.signExtend 32 <<< 8), state := .waitSize3 })
  | _, _ => (deviceData, s)

def readSize3 (deviceData : List Byte) (s : Incoming) : List Byte × Incoming :=
  match deviceData, s.state with
  | c :: rest, .waitSize3 =>
      (rest, { s with
        tempSize := s.tempSize ||| (c.signExtend 32 <<< 16)
        command := { s.command with data := [] }
        state := .waitData })
  | _, _ => (deviceData, s)

/-- The data, and whether it is complete. -/
def readData (deviceData : List Byte) (s : Incoming) : Bool × List Byte × Incoming :=
  if s.state = .waitData then
    let n := s.tempSize.toNat
    let r : List Byte × Incoming :=
      if n ≤ deviceData.length then
        (deviceData.drop n, { s with
          command := { s.command with data := s.command.data ++ deviceData.take n }
          tempSize := 0 })
      else
        ([], { s with
          command := { s.command with data := s.command.data ++ deviceData }
          tempSize := s.tempSize - BitVec.ofNat 32 deviceData.length })
    if r.2.tempSize = 0 then (true, r.1, { r.2 with state := .waitId, valid := true })
    else (false, r.1, { r.2 with valid := false })
  else (false, deviceData, { s with valid := false })

/-- `SerialCommand::readFrom`: whether the command is complete, what is left of the bytes,
and the state. -/
def readFrom (deviceData : List Byte) (s : Incoming) :
    Except Failure (Bool × List Byte × Incoming) := do
  let r ← readId deviceData s
  let r := readSize1 r.1 r.2
  let r := readSize2 r.1 r.2
  let r := readSize3 r.1 r.2
  .ok (readData r.1 r.2)

/-- `SerialInterface::on_dataReceived`: the commands of `commandReceived`, and the state.
`fuel` bounds the turns of the loop. -/
def onDataReceived : ℕ → List Byte → Incoming → Except Failure (List Command × Incoming)
  | _, [], s => .ok ([], s)
  | 0, _ :: _, _ => .error .endless
  | fuel + 1, c :: rest, s => do
      let r ← readFrom (c :: rest) s
      let r' ← onDataReceived fuel r.2.1 r.2.2
      .ok (if r.1 then (r.2.2.command :: r'.1, r'.2) else r')

/-- The commands that are received from chunks of bytes, one call of the slot for each. -/
def receive : List (List Byte) → Incoming → Except Failure (List Command)
  | [], _ => .ok []
  | chunk :: chunks, s => do
      let r ← onDataReceived chunk.length chunk s
      let commands ← receive chunks r.2
      .ok (r.1 ++ commands)

end PasswordWallet.Desktop
