import PasswordWallet.Memory.Image

/-!
# The buttons

`buttons_debounce` of `Buttons.c`, with its static variables for a state.  A call is
given the four buttons as the pins read, the time of `MILLISECOND_TIMER` and
`OPTION_FLAGS`; it gives the masks that `events_happen` is called with.
-/

namespace PasswordWallet

def releaseTimeMs : ℕ := 100
def pressTimeMs : ℕ := 50
def longPressTimeMs : ℕ := 500

structure Buttons where
  lastChange : Fin 4 → BitVec 32
  debounceState : Byte
  eventCalled : Byte

/-- The static variables at the start. -/
def Buttons.init : Buttons := ⟨fun _ => 0, 0, 0⟩

structure ButtonsCall where
  raws : Fin 4 → Bool
  time : ℕ
  optionsFlag : Byte

/-- The time, in the 32 bits of `MILLISECOND_TIMER`. -/
def ButtonsCall.timer (call : ButtonsCall) : BitVec 32 := BitVec.ofNat 32 call.time

def buttonBit (i : Fin 4) : Byte := 1 <<< i.val

/-- `button_to_event`: with the screen inversed the buttons are, too. -/
def buttonToEvent (optionsFlag raw : Byte) : Byte :=
  if optionsFlag &&& (1 <<< optionsFlagOffsetOrientation) ≠ 0 then
    let raw := raw <<< 2
    (raw &&& 0x0F) ||| (raw >>> 4)
  else raw

/-- The state and the time of the last change, when the button has changed. -/
def readButton (call : ButtonsCall) (i : Fin 4) (s : Buttons) : Buttons :=
  if call.raws i ^^ s.debounceState.getLsbD i then
    { s with
      lastChange := Function.update s.lastChange i call.timer
      debounceState :=
        if call.raws i then s.debounceState ||| buttonBit i
        else s.debounceState &&& ~~~ buttonBit i }
  else s

/-- What is done when the button has reached its delay. -/
def stableButton (call : ButtonsCall) (i : Fin 4) (s : Buttons) : Buttons × List Byte :=
  if call.raws i then
    let event := buttonToEvent call.optionsFlag (buttonBit i)
    let longPress :=
      if longPressTimeMs ≤ (call.timer - s.lastChange i).toNat then [event] else []
    -- the short press is signalled once, a long one in each call
    if s.eventCalled &&& buttonBit i = 0 then
      ({ s with eventCalled := s.eventCalled ||| buttonBit i }, event :: longPress)
    else (s, longPress)
  else ({ s with eventCalled := s.eventCalled &&& ~~~ buttonBit i }, [])

/-- A turn of the loop. -/
def debounceButton (call : ButtonsCall) (i : Fin 4) (s : Buttons) : Buttons × List Byte :=
  let s := readButton call i s
  let delay := if call.raws i then pressTimeMs else releaseTimeMs
  if delay ≤ (call.timer - s.lastChange i).toNat then stableButton call i s else (s, [])

/-- The loop, over the buttons that are left. -/
def debounceFrom (call : ButtonsCall) : List (Fin 4) → Buttons → Buttons × List Byte
  | [], s => (s, [])
  | i :: rest, s =>
      let r := debounceButton call i s
      let r' := debounceFrom call rest r.1
      (r'.1, r.2 ++ r'.2)

/-- `buttons_debounce`. -/
def buttonsDebounce (call : ButtonsCall) (s : Buttons) : Buttons × List Byte :=
  debounceFrom call [0, 1, 2, 3] s

/-- The static variables after some calls. -/
def Buttons.run (calls : List ButtonsCall) : Buttons :=
  calls.foldl (fun s call => (buttonsDebounce call s).1) Buttons.init

/-- How often a call raises the event of a button. -/
def raisesOf (i : Fin 4) (calls : List ButtonsCall) (k : ℕ) : ℕ :=
  match calls[k]? with
  | none => 0
  | some call =>
      (buttonsDebounce call (Buttons.run (calls.take k))).2.count
        (buttonToEvent call.optionsFlag (buttonBit i))

end PasswordWallet
