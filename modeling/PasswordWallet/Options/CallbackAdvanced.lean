import PasswordWallet.Communication.Background
import PasswordWallet.Options.CallbackPassword
import PasswordWallet.Security.Recover

/-!
# The advanced menu

`Options_Callback_Advanced.c`, and the decoder of `Ascii85.c` that it takes a typed
key with.  What the user types or confirms and the card he presents are parameters.

The full reset clears the whole register of events, so it is a program over a
session; the other actions know nothing of the communication.
-/

namespace PasswordWallet

open PowerLoss

variable (t : Target)

/-! ## A key that is typed -/

def powers : List (BitVec 32) := [52200625, 614125, 7225, 85, 1]

/-- The number that five characters stand for, in the 32 bits of `sum`. -/
def decodeSum (input : List Byte) : BitVec 32 :=
  (List.zipWith (fun c power => (c.setWidth 32 - 33) * power) input powers).foldl (· + ·) 0

/-- `decode_16B`: four bytes for every five characters, the highest first. -/
def decode16B (input : Vector Byte 20) : Block :=
  Vector.ofFn fun i : Fin 16 =>
    (decodeSum ((input.toList.drop (5 * (i.val / 4))).take 5) >>>
      (24 - 8 * (i.val % 4))).setWidth 8

/-- `opt_callback_enter_key`, with the 20 characters that `type_string` leaves. -/
def optCallbackEnterKey (usrKey : Vector Byte 20) : Dev Unit :=
  modifyRam fun v => { v with key := decode16B usrKey }

/-! ## The key without a check -/

/-- The key in memory becomes the right one. -/
def forceKey : Dev Unit := do
  userUpdateValidation t
  backupFree

/-- `opt_callback_force_card`, behind the test of the key that was read. -/
def forceCardKey : Option Block → Dev Unit
  | none => pure ()
  | some key => do
      modifyRam fun v => { v with key := key }
      forceKey t

def optCallbackForceCard (card : CardSession) : Dev Unit :=
  if userAuthenticateCard card then do
    let key ← readImage (userReadKeyFromCard card mifareBlockKey)
    forceCardKey t key
  else pure ()

def optCallbackForceEnter (usrKey : Vector Byte 20) : Dev Unit := do
  optCallbackEnterKey usrKey
  forceKey t

/-- `opt_callback_change_key`, that is `user_change_key` from its confirmation on. -/
def optCallbackChangeKey (confirmed : Bool) (card : CardSession) : Dev Unit :=
  if confirmed then userChangeKey t card else pure ()

/-! ## Options -/

def toggleOption (offset : ℕ) : Dev Unit := do
  let v ← Program.ram
  updateOptFlags (v.optionsFlag ^^^ 1 <<< offset)

def optCallbackInverseScreen : Dev Unit := toggleOption optionsFlagOffsetOrientation

def optCallbackChangeKeyboard : Dev Unit := toggleOption optionsFlagOffsetQwerty

/-! ## The full reset -/

/-- `i*FRAM_SIZE_DIVIDER+j*128`: as integer arithmetic, or in the `int` of the AVR,
which is made a 32-bit address afterwards. -/
def eraseAddr : Addressing → ℕ → ℕ → ℕ
  | .exact, i, j => i * framSizeDivider + j * 128
  | .avr, i, j =>
      ((BitVec.ofNat 16 i * BitVec.ofNat 16 framSizeDivider +
        BitVec.ofNat 16 j * 128).signExtend 32).toNat

/-- The loop that erases the FRAM, `i` turns of it. -/
def eraseFram : ℕ → Dev Unit
  | 0 => pure ()
  | i + 1 => do
      Program.forUp 0 (framSizeDivider / 128) fun j =>
        framSet (eraseAddr t.addressing i j) 0 128
      eraseFram i

/-- `random_reset`. -/
def randomReset : Dev Unit := modifyRam fun v => { v with pool := ⟨0, Nat.zero_le _⟩ }

/-- What `opt_callback_full_reset` does with the memories once the variables are
cleared: the pool, a new master key, and the mark that the device is initialized. -/
def initializeDevice (changeConfirmed : Bool) (card : CardSession) : Dev Unit := do
  randomReset
  optCallbackChangeKey t changeConfirmed card
  updateOptFlags (1 <<< optionsFlagOffsetInitialized)

def optCallbackFullReset (confirmed changeConfirmed : Bool) (card : CardSession) : Com Unit :=
  if confirmed then do
    liftDev (eraseFram t (framByteSize / framSizeDivider))
    modifySession Session.clearVariables
    liftDev (initializeDevice t changeConfirmed card)
  else pure ()

end PasswordWallet
