import PasswordWallet.Desktop.SerialCommand

/-!
# Sending on the host

`SerialInterface` and `SerialDevice` of the desktop application, as far as they send.  A
command that is pushed while another is on its way has to wait on a `QStack`, of which
`first` is the bottom and `pop` takes the top.

The port itself is Qt's.  It is a parameter, and what is asked of it is in
`SerialPort.Buffered`.
-/

namespace PasswordWallet.Desktop

/-! ## The port -/

/-- `QSerialPort`: what `write` returns on a port that is open or not, and how often in a
row `waitForBytesWritten` succeeds, after what has been written, before it fails. -/
structure SerialPort where
  write : Bool → List Byte → ℤ
  waits : List (List Byte) → ℕ

/-- An open port keeps in its buffer all that is written to it, and a closed one takes
nothing. -/
structure SerialPort.Buffered (port : SerialPort) : Prop where
  write_open : ∀ data, port.write true data = data.length
  write_closed : ∀ data, port.write false data = -1

/-- `SerialDevice`, and what its port has taken, write by write. -/
structure SerialDevice where
  isOpen : Bool
  outData : List Byte
  taken : List (List Byte)

namespace SerialDevice

/-- The loop at the front of `send`: whether it comes to its end before a wait fails. -/
def waitWritten (d : SerialDevice) : ℕ → Bool
  | 0 => d.outData = []
  | waits + 1 =>
      -- `on_bytesWritten` sends what is left again, and that waits as well
      d.outData = [] || d.waitWritten waits

/-- `SerialDevice::send`. -/
def send (port : SerialPort) (d : SerialDevice) (data : List Byte) : SerialDevice :=
  if !d.waitWritten (port.waits d.taken) then d
  else
    let written := port.write d.isOpen data
    { d with
      outData := data.drop written.toNat
      taken := if written ≤ 0 then d.taken else d.taken ++ [data.take written.toNat] }

end SerialDevice

/-! ## The interface -/

/-- `SerialInterface`; `timing` while `m_timeoutTimer` runs. -/
structure SerialInterface where
  device : SerialDevice
  commandStack : List Command
  sending : Bool
  timing : Bool

/-- How a slot ends other than by its return. -/
inductive Fault
  | thrown (what : String)
  /-- `first` or `pop` on an empty stack. -/
  | emptyStack
  deriving DecidableEq

namespace SerialInterface

variable (port : SerialPort)

def sendFirstCommand (s : SerialInterface) : Except Fault SerialInterface :=
  match s.commandStack with
  | [] => .error .emptyStack
  | command :: _ =>
      match toByteArray command with
      | .error what => .error (.thrown what)
      | .ok data =>
          .ok { s with device := s.device.send port data, sending := true, timing := true }

def pushCommand (s : SerialInterface) (command : Command) : Except Fault SerialInterface :=
  let s := { s with commandStack := s.commandStack ++ [command] }
  if s.sending then .ok s else sendFirstCommand port s

def onDataSent (s : SerialInterface) : Except Fault SerialInterface :=
  if s.commandStack = [] then .error .emptyStack
  else
    let s := { s with commandStack := s.commandStack.dropLast }
    if s.commandStack ≠ [] then sendFirstCommand port s else .ok { s with sending := false }

/-- `SerialDevice::on_bytesWritten`. -/
def onBytesWritten (s : SerialInterface) : Except Fault SerialInterface :=
  if s.device.outData ≠ [] then .ok { s with device := s.device.send port s.device.outData }
  else onDataSent port s

def onSerialDisconnected (s : SerialInterface) : SerialInterface where
  device := { s.device with isOpen := false }
  commandStack := []
  sending := false
  timing := false

def onTimeout (s : SerialInterface) : SerialInterface :=
  onSerialDisconnected { s with sending := false }

/-- `SerialCommand(SerialCommand::InitCommunication)`. -/
def initCommunication : Command := ⟨0x02, []⟩

def endCommunication : Command := ⟨0x03, []⟩

/-- `connectSerial`, where the port `opens` or not. -/
def connectSerial (s : SerialInterface) (opens : Bool) : Except Fault SerialInterface :=
  let s := { s with device := { s.device with isOpen := opens } }
  if opens then pushCommand port s initCommunication else .ok s

def disconnectSerial (s : SerialInterface) : Except Fault SerialInterface :=
  if s.device.isOpen then pushCommand port s endCommunication else .ok s

end SerialInterface

/-! ## Runs -/

/-- What happens to the interface. -/
inductive Signal
  | push (command : Command)
  | connectSerial (opens : Bool)
  | disconnectSerial
  | bytesWritten
  /-- An answer is complete. -/
  | commandReceived
  | timeout
  /-- `QSerialPort::ResourceError`. -/
  | resourceError
  deriving DecidableEq

/-- A port that is closed and a timer that is stopped send no signals. -/
def SerialInterface.step (port : SerialPort) (s : SerialInterface) :
    Signal → Except Fault SerialInterface
  | .push command => s.pushCommand port command
  | .connectSerial opens => s.connectSerial port opens
  | .disconnectSerial => s.disconnectSerial port
  | .bytesWritten => if s.device.isOpen then s.onBytesWritten port else .ok s
  | .commandReceived => .ok { s with timing := false }
  | .timeout => .ok (if s.timing then s.onTimeout else s)
  | .resourceError => .ok (if s.device.isOpen then s.onSerialDisconnected else s)

def SerialInterface.run (port : SerialPort) :
    List Signal → SerialInterface → Except Fault SerialInterface
  | [], s => .ok s
  | signal :: signals, s => do
      let s ← s.step port signal
      run port signals s

end PasswordWallet.Desktop
