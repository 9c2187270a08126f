import PasswordWallet.Memory.Image

/-!
# The state of the serial communication

What `Process.c` and `Commands.c` keep between two packets, next to the RAM that
the rest of the firmware works on.  `GLOBALS_EVENTS` is one register that the
buttons, the sleep timer, the key and the communication share; its key bit is
`Ram.keyEntered`, so that the rest of the firmware sees it.

A session also has a `log`: what the communication did that can be seen from
outside it, the last event first.  Nothing of the firmware reads it.
-/

namespace PasswordWallet

open PowerLoss

/-! ## Events of the register -/

def eventAllButtons : Byte := 0x0F
def eventKeyEntered : Byte := 0x10
def eventSleepShutdown : Byte := 0x20
def eventNoSleep : Byte := 0x40
def eventFlagCom : Byte := 0x80

/-! ## Commands -/

def comOk : Byte := 0x00
def comErrNotInit : Byte := 0x01
def comInit : Byte := 0x02
def comEnd : Byte := 0x03
def comErrUnavailable : Byte := 0x04
def comBadKey : Byte := 0x05
def comGetFram : Byte := 0x10
def comGetKey : Byte := 0x11
def comGetParam : Byte := 0x12
def comGetVersion : Byte := 0x13
def comSetFram : Byte := 0x20
def comSetKey : Byte := 0x21
def comFram : Byte := 0x30
def comKey : Byte := 0x31
def comParam : Byte := 0x32
def comVersion : Byte := 0x33
def comReset : Byte := 0x34

/-! ## The parser -/

/-- `com_state`: the field of the command that the next byte belongs to. -/
inductive ComState
  | id
  | size1
  | size2
  | size3
  | data
  deriving DecidableEq

/-- What `com_process_data` keeps between packets: `com_state`,
`com_bytes_processed` and the header of `CURRENT_COMMAND`. -/
structure Parser where
  comState : ComState
  id : Byte
  totalSize : ℕ
  bytesProcessed : ℕ
  deriving DecidableEq

/-- One call of `com_exec`: whether it is the first of its command, the header of
the command, how many bytes of its data have come with this call, and the data of
`CURRENT_COMMAND`, `availableSize` bytes long. -/
structure Call where
  first : Bool
  id : Byte
  totalSize : ℕ
  received : ℕ
  data : List Byte
  deriving DecidableEq

/-! ## The session -/

/-- What can be observed of the communication. -/
inductive Event
  /-- An id byte is read, with these values of `COM_POS` and `COM_PARAMETER`. -/
  | start (comPos comParameter : ℕ)
  /-- `com_exec` is called, with the communication enabled or not. -/
  | exec (call : Call) (enabled : Bool)
  /-- The header of a reply goes out. -/
  | header (id : Byte) (size : ℕ)
  /-- Data of a reply goes out, while `EVENT_KEY_ENTERED` is set or not. -/
  | payload (id : Byte) (bytes : List Byte) (keyEntered : Bool)
  | framRead (addr : ℕ)
  | framWrite (addr : ℕ) (bytes : List Byte)
  /-- A byte is stored at this index of `KEY`. -/
  | keyWrite (index : ℕ)
  /-- The confirmation screen is drawn. -/
  | screen
  /-- The user says yes to it. -/
  | accepted
  /-- A `COM_END`, an abort, a `COM_INIT` or a full reset begins. -/
  | stopped
  | reset
  deriving DecidableEq

/-- The volatile state, with the communication. -/
structure Session where
  ram : Ram
  /-- `GLOBALS_EVENTS` but for its key bit. -/
  flags : Byte
  /-- `SERIAL_TIMEOUT_TIMER` has come to `SERIAL_TIMEOUT`. -/
  timedOut : Bool
  parser : Parser
  comPos : ℕ
  comParameter : ℕ
  log : List Event

/-- The communication after a reset. -/
def Session.boot (ram : Ram) : Session where
  ram := { ram with keyEntered := false }
  flags := 0
  timedOut := false
  parser := ⟨.id, 0, 0, 0⟩
  comPos := 0
  comParameter := 0
  log := []

/-- The firmware with its communication. -/
abbrev Com := Program Image Write Session

/-- `GLOBALS_EVENTS`. -/
def Session.globalsEvents (s : Session) : Byte :=
  (s.flags &&& ~~~eventKeyEntered) ||| if s.ram.keyEntered then eventKeyEntered else 0

/-- An assignment to `GLOBALS_EVENTS`. -/
def Session.setGlobalsEvents (s : Session) (events : Byte) : Session :=
  { s with flags := events, ram := { s.ram with keyEntered := events &&& eventKeyEntered ≠ 0 } }

/-- The communication is enabled. -/
def Session.enabled (s : Session) : Bool := s.globalsEvents &&& eventFlagCom ≠ 0

/-- `events_happen`. -/
def Session.eventsHappen (s : Session) (event : Byte) : Session :=
  s.setGlobalsEvents (s.globalsEvents ||| event)

/-- `GLOBALS_EVENTS &= ~event`. -/
def Session.clearEvents (s : Session) (event : Byte) : Session :=
  s.setGlobalsEvents (s.globalsEvents &&& ~~~event)

/-! ### The bits of the register -/

theorem bit_key (events : Byte) :
    decide (events &&& eventKeyEntered ≠ 0) = events.getLsbD 4 := by
  revert events
  decide +kernel

theorem bit_flagCom (events : Byte) :
    decide (events &&& eventFlagCom ≠ 0) = events.getLsbD 7 := by
  revert events
  decide +kernel

@[simp] theorem Session.globalsEvents_set (s : Session) (events : Byte) :
    (s.setGlobalsEvents events).globalsEvents = events := by
  have hkey : ∀ events : Byte, ((events &&& ~~~eventKeyEntered) |||
      if events.getLsbD 4 then eventKeyEntered else 0) = events := by decide +kernel
  simpa only [globalsEvents, setGlobalsEvents, bit_key] using hkey events

theorem Session.enabled_eq (s : Session) : s.enabled = s.globalsEvents.getLsbD 7 := bit_flagCom _

@[simp] theorem Session.enabled_ram (s : Session) (ram : Ram) :
    ({ s with ram := ram } : Session).enabled = s.enabled := by
  have hbit : ∀ (flags : Byte) (entered entered' : Bool),
      ((flags &&& ~~~eventKeyEntered) ||| if entered then eventKeyEntered else 0).getLsbD 7 =
        ((flags &&& ~~~eventKeyEntered) ||| if entered' then eventKeyEntered else 0).getLsbD 7 := by
    decide +kernel
  rw [enabled_eq, enabled_eq]
  exact hbit _ _ _

theorem Session.enabled_eventsHappen (s : Session) (event : Byte) :
    (s.eventsHappen event).enabled = (s.enabled || event.getLsbD 7) := by
  simp [enabled_eq, eventsHappen]

theorem Session.enabled_clearEvents (s : Session) (event : Byte) :
    (s.clearEvents event).enabled = (s.enabled && !event.getLsbD 7) := by
  simp [enabled_eq, clearEvents]

theorem Session.getLsbD_globalsEvents (s : Session) :
    s.globalsEvents.getLsbD 4 = s.ram.keyEntered := by
  have hkey : ∀ (flags : Byte) (entered : Bool), ((flags &&& ~~~eventKeyEntered) |||
      if entered then eventKeyEntered else 0).getLsbD 4 = entered := by decide +kernel
  exact hkey _ _

theorem Session.keyEntered_set (s : Session) (events : Byte) :
    (s.setGlobalsEvents events).ram.keyEntered = events.getLsbD 4 := bit_key _

theorem Session.keyEntered_eventsHappen (s : Session) (event : Byte) :
    (s.eventsHappen event).ram.keyEntered = (s.ram.keyEntered || event.getLsbD 4) := by
  rw [eventsHappen, keyEntered_set, BitVec.getLsbD_or, getLsbD_globalsEvents]

theorem Session.keyEntered_clearEvents (s : Session) (event : Byte) :
    (s.clearEvents event).ram.keyEntered = (s.ram.keyEntered && !event.getLsbD 4) := by
  rw [clearEvents, keyEntered_set, BitVec.getLsbD_and, BitVec.getLsbD_not, getLsbD_globalsEvents]
  simp

/-- The replies of a log, the last one first: their ids and sizes. -/
def replies : List Event → List (Byte × ℕ)
  | [] => []
  | .header id size :: earlier => (id, size) :: replies earlier
  | _ :: earlier => replies earlier

/-! ## Programs over a session -/

def Session.emit (s : Session) (event : Event) : Session := { s with log := event :: s.log }

def modifySession (f : Session → Session) : Com Unit := do
  let s ← Program.ram
  Program.setRam (f s)

def emit (event : Event) : Com Unit := modifySession fun s => s.emit event

/-- A part of the firmware that knows nothing of the communication. -/
def liftDev {α : Type} (m : Dev α) : Com α := fun p s =>
  match m p s.ram with
  | ⟨trace, ram, result⟩ => ⟨trace, { s with ram := ram }, result⟩

section Rules

variable {α : Type} {H : Image → Session → Prop} {C : Step Write → Image → Prop} {p : Image}
  {s : Session}

@[simp] theorem wp_modifySession {Q : Unit → Image → Session → Prop} (f : Session → Session) :
    wp (modifySession f) Q H C p s ↔ Q () p (f s) := by
  simp [modifySession]

@[simp] theorem wp_emit {Q : Unit → Image → Session → Prop} (event : Event) :
    wp (emit event) Q H C p s ↔ Q () p (s.emit event) := by
  simp [emit]

theorem wp_liftDev {Q : α → Image → Session → Prop} (m : Dev α) :
    wp (liftDev m) Q H C p s ↔
      wp m (fun a p' v' => Q a p' { s with ram := v' }) (fun p' v' => H p' { s with ram := v' })
        C p s.ram := by
  unfold wp liftDev
  cases m p s.ram with
  | mk trace ram result => rfl

theorem completes_liftDev {m : Dev α} {a : α} {p' : Image} {s' : Session} :
    Completes (liftDev m) p s a p' s' ↔
      Completes m p s.ram a p' s'.ram ∧ s' = { s with ram := s'.ram } := by
  unfold Completes liftDev
  cases m p s.ram with
  | mk trace ram result =>
      constructor
      · rintro ⟨hresult, hp, rfl⟩
        exact ⟨⟨hresult, hp, rfl⟩, rfl⟩
      · rintro ⟨⟨hresult, hp, hram⟩, hs⟩
        refine ⟨hresult, hp, ?_⟩
        rw [hs, hram]

end Rules

end PasswordWallet
