import PasswordWallet.Options.CallbackAdvanced
import PasswordWallet.States.WaitCard

/-!
# The reset and the recovery sequence

What `main` does before its loop, and the branch of `state_wait_card_transition` that
the four buttons open: a menu of two actions, after each of which the key is checked.
-/

namespace PasswordWallet

open PowerLoss

variable (t : Target)

/-- A device that is not marked as initialized is reset. -/
def initializeFirst (confirmed changeConfirmed : Bool) (card : CardSession) : Com Unit := do
  let optFlag ← liftDev (framReadByte offsetOptionsFlag)
  if optFlag &&& (1 <<< optionsFlagOffsetInitialized) = 0 then
    optCallbackFullReset t confirmed changeConfirmed card
  else pure ()

/-- `main` up to its loop. -/
def powerOn (ram : Ram) (confirmed changeConfirmed : Bool) (firstCard card : CardSession) :
    Com Unit := do
  Program.setRam (.boot ram)
  liftDev programInit
  initializeFirst t confirmed changeConfirmed firstCard
  liftDev (backupRecover t card)

/-- What is chosen in the list `OPTIONS_LIST_RECOVERY`. -/
inductive RecoveryChoice
  | fullReset (confirmed changeConfirmed : Bool) (card : CardSession)
  | enterKey (usrKey : Vector Byte 20)
  | back

def RecoveryChoice.run : RecoveryChoice → Com Unit
  | .fullReset confirmed changeConfirmed card =>
      optCallbackFullReset t confirmed changeConfirmed card
  | .enterKey usrKey => liftDev (optCallbackEnterKey usrKey)
  | .back => pure ()

/-- The condition of the loop, and what follows it. -/
def leaveRecovery : Com Unit := do
  let p ← Program.durable
  let s ← Program.ram
  if encryptionCheckKey t s.ram.key p then
    modifySession fun s => s.eventsHappen eventKeyEntered
  else pure ()

/-- One turn of the loop of the recovery sequence. -/
def recoveryTurn (choice : RecoveryChoice) : Com Unit := do
  choice.run t
  leaveRecovery t

end PasswordWallet
