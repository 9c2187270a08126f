import Mathlib.Algebra.Group.Nat.Defs
import PasswordWallet.Communication.Session
import PasswordWallet.Security.Encryption

/-!
# The commands of the host

`Commands.c`.  A reply goes out through `serial_send`, which runs the USB task
until the endpoint has taken it; a packet that arrives meanwhile is processed
there and then, inside the command that is replying.  The confirmation screen
runs the USB task as well.  What happens in these waits is a parameter, the
`Env`; `Env.quiet` is the one in which nothing does.

A store outside `KEY` has no meaning in C, and ends the run.
-/

namespace PasswordWallet

open PowerLoss

/-- Whose reply is being sent: that of an abort, the refusal of a command, or the
reply of a command that is carried out. -/
inductive Sender
  | abort
  | refusal
  | command (id : Byte)
  deriving DecidableEq

/-- What goes on while the communication waits for the endpoint and while the
confirmation screen is shown, what the user then answers, and the four bytes by
which the FRAM identifies itself. -/
structure Env where
  poll : Sender → Com Unit
  screen : Com Unit
  answer : Image → Session → Bool
  framId : Vector Byte 4

/-- Nothing arrives while a command is carried out. -/
def Env.quiet (answer : Image → Session → Bool) (framId : Vector Byte 4) : Env where
  poll _ := pure ()
  screen := pure ()
  answer := answer
  framId := framId

/-- Nothing arrives meanwhile, and the user says yes: for concrete runs. -/
def Env.willing : Env := .quiet (fun _ _ => true) (Vector.replicate 4 0)

/-- The user allows the communication between two commands, and nothing arrives
meanwhile. -/
def Env.patient : Env := .quiet (fun _ s => s.parser.comState = .id) (Vector.replicate 4 0)

/-- A device that has just been switched on, for concrete runs. -/
def Session.fresh : Session := .boot (.reset (fun _ => Vector.replicate 4 0) zeroIv)

def softwareVersion : Byte := 0x01

variable (t : Target) (env : Env)

/-! ## Replies -/

def sendHeader (sender : Sender) (id : Byte) (size : ℕ) : Com Unit := do
  emit (.header id size)
  env.poll sender
  env.poll sender

/-- The data of a reply is read when it is sent, after its header. -/
def sendData (sender : Sender) (id : Byte) (data : Session → List Byte) : Com Unit := do
  let s ← Program.ram
  emit (.payload id (data s) s.ram.keyEntered)
  env.poll sender

/-- `send_command`.  The data of the commands below fits in one chunk. -/
def sendCommand (sender : Sender) (id : Byte) (size : ℕ) (data : Session → List Byte) :
    Com Unit := do
  sendHeader env sender id size
  if size ≠ 0 then sendData env sender id data else pure ()

/-- A reply without data. -/
def sendEmpty (sender : Sender) (id : Byte) : Com Unit :=
  sendCommand env sender id 0 fun _ => []

/-! ## Opening and closing -/

def comAbort : Com Unit := do
  emit .stopped
  sendEmpty env .abort comEnd
  modifySession fun s => { s.clearEvents eventFlagCom with comPos := 0, comParameter := 0 }

/-- `draw_confirmation_screen`. -/
def drawConfirmationScreen : Com Bool := do
  emit .screen
  env.screen
  let p ← Program.durable
  let s ← Program.ram
  pure (env.answer p s)

/-- A device that is already initialized takes the command as a violation of the
protocol. -/
def abortEnabled : Com Unit := do
  let s ← Program.ram
  if s.enabled then comAbort env else emit .stopped

def commandInit : Com Unit := do
  abortEnabled env
  let yes ← drawConfirmationScreen env
  if yes then do
    modifySession fun s => (s.eventsHappen eventFlagCom).emit .accepted
    sendEmpty env (.command comInit) comOk
  else sendEmpty env (.command comInit) comEnd

def commandEnd : Com Unit := do
  modifySession fun s => (s.emit .stopped).clearEvents eventFlagCom
  sendEmpty env (.command comEnd) comEnd

/-! ## Reading -/

def framChunk (i : ℕ) : Com Unit := do
  let p ← Program.durable
  emit (.framRead (i * 16))
  sendData env (.command comGetFram) comFram fun _ => p.bytes (i * 16) 16

def commandGetFram : Com Unit := do
  sendHeader env (.command comGetFram) comFram framByteSize
  Program.forUp 0 (framByteSize / 16) (framChunk env)

def commandGetKey : Com Unit := do
  let s ← Program.ram
  if s.globalsEvents &&& eventKeyEntered ≠ 0 then
    sendCommand env (.command comGetKey) comKey 16 fun s => s.ram.key.toList
  else sendEmpty env .refusal comErrUnavailable

def commandGetParam : Com Unit := do
  sendHeader env (.command comGetParam) comParam 6
  sendData env (.command comGetParam) comParam fun _ => env.framId.toList ++ [0, softwareVersion]

def commandGetVersion : Com Unit :=
  sendCommand env (.command comGetVersion) comVersion 1 fun _ => [softwareVersion]

/-! ## Writing -/

/-- The first loop of `command_set_fram`: the bytes of the address, as far as they
are there.  The data behind them is left. -/
def takeAddress : List Byte → Com (List Byte)
  | [] => pure []
  | byte :: rest => do
      let s ← Program.ram
      if s.comPos ≤ 2 then do
        modifySession fun s => { s with
          comParameter := s.comParameter ||| byte.toNat <<< (8 * s.comPos)
          comPos := s.comPos + 1 }
        takeAddress rest
      else pure (byte :: rest)

def writeFram (addr : ℕ) (data : List Byte) : Com Unit := do
  emit (.framWrite addr data)
  liftDev (framWriteBytes addr data)
  modifySession fun s => { s with comPos := (s.comPos + data.length) % 2 ^ 32 }

/-- The second part of `command_set_fram`, once the address is there. -/
def writeAddressed (data : List Byte) : Com Unit := do
  let s ← Program.ram
  if s.comPos > 2 then writeFram (s.comParameter + s.comPos - 3) data else pure ()

/-- The third part, once everything is there. -/
def setFramDone : Com Unit := do
  let s ← Program.ram
  if s.comPos = s.parser.totalSize then do
    modifySession fun s => { s with comParameter := 0, comPos := 0 }
    sendEmpty env (.command comSetFram) comOk
  else pure ()

def commandSetFram (data : List Byte) : Com Unit := do
  let data ← takeAddress data
  writeAddressed data
  setFramDone env

/-- `KEY[index] = byte`. -/
def storeKeyByte (index : ℕ) (byte : Byte) : Com Unit := do
  emit (.keyWrite index)
  if h : index < 16 then
    modifySession fun s => { s with ram := { s.ram with key := s.ram.key.set index byte h } }
  else Program.hang

/-- The loop of `command_set_key`, from the `i`-th byte of the packet on. -/
def storeKey (comPos : ℕ) : ℕ → List Byte → Com Unit
  | _, [] => pure ()
  | i, byte :: rest => do
      storeKeyByte ((comPos + i) % 2 ^ 32) byte
      storeKey comPos (i + 1) rest

def keyReceived : Com Unit := do
  let p ← Program.durable
  let s ← Program.ram
  if encryptionCheckKey t s.ram.key p then do
    modifySession fun s => s.eventsHappen eventKeyEntered
    sendEmpty env (.command comSetKey) comOk
  else sendEmpty env (.command comSetKey) comBadKey

def setKeyDone : Com Unit := do
  let s ← Program.ram
  if s.comPos = s.parser.totalSize then do
    modifySession fun s => { s with comPos := 0 }
    keyReceived t env
  else pure ()

def commandSetKey (data : List Byte) : Com Unit := do
  let s ← Program.ram
  storeKey s.comPos 0 data
  modifySession fun s => { s with comPos := (s.comPos + data.length) % 2 ^ 32 }
  setKeyDone t env

def commandReset : Com Unit := do
  sendEmpty env (.command comReset) comOk
  emit .reset
  Program.hang

/-! ## Execution -/

/-- The commands behind the gate. -/
def gatedCommand (id : Byte) (data : List Byte) : Com Unit :=
  if id = comInit then commandInit env
  else if id = comEnd then commandEnd env
  else if id = comGetFram then commandGetFram env
  else if id = comGetKey then commandGetKey env
  else if id = comGetParam then commandGetParam env
  else if id = comSetFram then commandSetFram env data
  else if id = comSetKey then commandSetKey t env data
  else if id = comReset then commandReset env
  else comAbort env

/-- `com_exec`, on the data of `CURRENT_COMMAND`. -/
def comExec (data : List Byte) : Com Unit := do
  let s ← Program.ram
  let id := s.parser.id
  if id = comGetVersion then commandGetVersion env
  else if s.enabled = false ∧ id ≠ comInit then sendEmpty env .refusal comErrNotInit
  else gatedCommand t env id data

end PasswordWallet
