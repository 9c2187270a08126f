import PasswordWallet.Memory.Image
import PasswordWallet.Reporting.Endpoint

/-!
# The keyboard

`Keyboard.c`, and `Ascii2Keycode.c` with the two maps of `eeprom.c`.  A string is
typed key by key: a key code is queued, and `HID_Task` makes a report of it and
clears the flag, whether the endpoint then takes the report or not.
-/

namespace PasswordWallet

open Reporting

/-! ## Key codes -/

def keycodeModifierShift : Byte := 1 <<< 7
def keycodeModifierAltgr : Byte := 1 <<< 6
def hidKeyboardModifierLeftshift : Byte := 1 <<< 1
def hidKeyboardModifierRightalt : Byte := 1 <<< 6
def hidKeyboardScTab : Byte := 0x2B

/-- From the space to the tilde, and behind it the code that lets go. -/
def qwertyToKeycodeMap : List Byte := [
  0x2C, 0x9E, 0xB4, 0xA0, 0xA1, 0xA2, 0xA4, 0x34, 0xA6, 0xA7, 0xA5, 0xAE,
  0x36, 0x2D, 0x37, 0x38, 0x27, 0x1E, 0x1F, 0x20, 0x21, 0x22, 0x23, 0x24,
  0x25, 0x26, 0xB3, 0x33, 0xB6, 0x2E, 0xB7, 0xB8, 0x9F, 0x84, 0x85, 0x86,
  0x87, 0x88, 0x89, 0x8A, 0x8B, 0x8C, 0x8D, 0x8E, 0x8F, 0x90, 0x91, 0x92,
  0x93, 0x94, 0x95, 0x96, 0x97, 0x98, 0x99, 0x9A, 0x9B, 0x9C, 0x9D, 0x2F,
  0x31, 0x30, 0xA3, 0xAD, 0x32, 0x04, 0x05, 0x06, 0x07, 0x08, 0x09, 0x0A,
  0x0B, 0x0C, 0x0D, 0x0E, 0x0F, 0x10, 0x11, 0x12, 0x13, 0x14, 0x15, 0x16,
  0x17, 0x18, 0x19, 0x1A, 0x1B, 0x1C, 0x1D, 0xAF, 0xB1, 0xB0, 0xB2, 0x00]

def azertyToKeycodeMap : List Byte := [
  0x2C, 0x38, 0x20, 0x60, 0x30, 0xB4, 0x1E, 0x21, 0x22, 0x2D, 0x31, 0xAE,
  0x10, 0x23, 0xB6, 0xB7, 0xA7, 0x9E, 0x9F, 0xA0, 0xA1, 0xA2, 0xA3, 0xA4,
  0xA5, 0xA6, 0x37, 0x36, 0x3C, 0x2E, 0xBC, 0x90, 0x67, 0x94, 0x85, 0x86,
  0x87, 0x88, 0x89, 0x8A, 0x8B, 0x8C, 0x8D, 0x8E, 0x8F, 0xB3, 0x91, 0x92,
  0x93, 0x84, 0x95, 0x96, 0x97, 0x98, 0x99, 0x9D, 0x9B, 0x9C, 0x9A, 0x62,
  0x65, 0x6D, 0x2F, 0x25, 0x64, 0x14, 0x05, 0x06, 0x07, 0x08, 0x09, 0x0A,
  0x0B, 0x0C, 0x0D, 0x0E, 0x0F, 0x33, 0x11, 0x12, 0x13, 0x04, 0x15, 0x16,
  0x17, 0x18, 0x19, 0x1D, 0x1B, 0x1C, 0x1A, 0x61, 0x63, 0x6E, 0x5F, 0x00]

/-- The layout that the options flag chooses, and what the EEPROM holds where the
map does not reach: an index outside it, for a character outside its range. -/
structure KeyMap where
  qwerty : Bool
  outside : Byte → Byte

/-- `ascii_to_keycode`. -/
def asciiToKeycode (m : KeyMap) (c : Byte) : Byte :=
  let map := if m.qwerty then qwertyToKeycodeMap else azertyToKeycodeMap
  if 0x20 ≤ c.toNat ∧ c.toNat < 0x80 then map.getD (c.toNat - 0x20) 0 else m.outside c

/-! ## Reports -/

/-- `USB_KeyboardReport_Data_t`: its modifier and its first key code; the other
bytes are zero. -/
structure Report where
  modifier : Byte
  keyCode : Byte
  deriving DecidableEq

/-- No key is down. -/
def Report.released : Report := ⟨0, 0⟩

/-- What `HID_Task` finds: whether `Endpoint_IsReadWriteAllowed`, and whether
`IdleCount && !IdleMSRemaining`. -/
structure Conditions where
  ready : Bool
  idle : Bool

/-- The variables of `Keyboard.c`, with `PrevKeyboardReportData`, how often
`HID_Task` has been called, and the reports that it has written to the endpoint. -/
structure Keyboard where
  keycodeToSend : Byte
  needToSend : Bool
  capsEnabled : Bool
  prevReport : Report
  tasks : ℕ
  written : List Report

/-- `keyboard_init`, after a reset. -/
def Keyboard.init : Keyboard := ⟨0, false, false, .released, 0, []⟩

/-- The report of a key code. -/
def reportOf (capsEnabled : Bool) (keycode : Byte) : Report :=
  let modifier := keycode &&& (keycodeModifierShift ||| keycodeModifierAltgr)
  let shift := (!capsEnabled && modifier &&& keycodeModifierShift ≠ 0) ||
    (capsEnabled && !(modifier &&& keycodeModifierShift ≠ 0))
  { modifier := (if shift then hidKeyboardModifierLeftshift else 0) |||
      if modifier &&& keycodeModifierAltgr ≠ 0 then hidKeyboardModifierRightalt else 0
    keyCode := keycode &&& ~~~(keycodeModifierShift ||| keycodeModifierAltgr) }

/-- `CreateKeyboardReport`. -/
def createKeyboardReport (k : Keyboard) : Report × Keyboard :=
  if k.needToSend then
    let report := reportOf k.capsEnabled k.keycodeToSend
    (report, { k with keycodeToSend := report.keyCode, needToSend := false })
  else (.released, k)

/-- `SendNextReport`. -/
def sendNextReport (c : Conditions) (k : Keyboard) : Keyboard :=
  let (report, k) := createKeyboardReport k
  let sendReport := if c.idle then true else decide (k.prevReport ≠ report)
  if c.ready && sendReport then
    { k with prevReport := report, written := k.written ++ [report] }
  else k

section Task

variable (pattern : ℕ → Conditions)

/-- `HID_Task`, while the device is configured. -/
def hidTask (k : Keyboard) : Keyboard :=
  { sendNextReport (pattern k.tasks) k with tasks := k.tasks + 1 }

/-- `do … while(needToSend)`, for at most so many turns. -/
def waitLoop : ℕ → Keyboard → Keyboard
  | 0, k => k
  | fuel + 1, k =>
      let k := hidTask pattern k
      if k.needToSend then waitLoop fuel k else k

/-- `wait_for_sent`.  It takes one turn (`waitLoop_succ`). -/
def waitForSent (k : Keyboard) : Keyboard := waitLoop pattern 2 { k with needToSend := true }

/-! ## Typing -/

/-- `keyboard_send` between two iterations of its loop: the string, as far as it is
overwritten, and its variables. -/
structure Sending where
  data : List Byte
  i : ℕ
  sendSpace : Bool

def Sending.start (data : List Byte) : Sending := ⟨data, 0, false⟩

/-- An iteration: the character whose key code is queued, and what is left.  `i`
has 8 bits. -/
def Sending.iterate (x : Sending) : Byte × Sending :=
  if x.i % 2 = 0 then
    let c := x.data.getD (x.i / 2) 0
    -- a dead key: the space comes behind it
    if c = 0x5E ∨ c = 0x60 then
      (c, ⟨x.data.set (x.i / 2) 0x20, (x.i + 1) % 256, true⟩)
    else (c, { x with i := (x.i + 1) % 256 })
  else if x.sendSpace then (0x7F, { x with i := (x.i + 254 + 1) % 256, sendSpace := false })
  else (0x7F, { x with i := (x.i + 1) % 256 })

/-- The loop of `keyboard_send`, for so many iterations at most. -/
def sendLoop (m : KeyMap) : ℕ → Sending → Keyboard → Keyboard
  | 0, _, k => k
  | n + 1, x, k =>
      if x.i < x.data.length * 2 then
        let (c, x') := x.iterate
        sendLoop m n x' (waitForSent pattern { k with keycodeToSend := asciiToKeycode m c })
      else k

/-- `keyboard_send`, for so many iterations at most. -/
def keyboardSend (m : KeyMap) (n : ℕ) (data : List Byte) (k : Keyboard) : Keyboard :=
  sendLoop pattern m n (.start data) k

/-- `keyboard_send_key_next`. -/
def keyboardSendKeyNext (k : Keyboard) : Keyboard :=
  waitForSent pattern { k with keycodeToSend := hidKeyboardScTab }

end Task

end PasswordWallet
