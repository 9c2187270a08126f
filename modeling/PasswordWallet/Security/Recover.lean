import PasswordWallet.Rekey.UpdateKey
import PasswordWallet.Security.Authentification

/-!
# Recovery

`backup_recover` of `Backup.c`, the first thing the device does with the backup
section after a reset.  An interrupted edit is undone.  An interrupted change of
key is finished, which takes both keys from the card; whatever goes wrong on the
way leads to the label `EXIT`, where the section is left as it is.

The stages of the function are definitions of their own, in the order of the
source.
-/

namespace PasswordWallet

open PowerLoss

variable (t : Target) (card : CardSession)

/-- One of the four statuses of a change of key. -/
def ChangeKeyStatus (status : Byte) : Prop :=
  status = backupStatusChangeKey ∨ status = backupStatusChangeKeyChunkOk ∨
    status = backupStatusChangeKeyValidation ∨ status = backupStatusChangeKeyUpdateCard

instance (status : Byte) : Decidable (ChangeKeyStatus status) :=
  inferInstanceAs (Decidable (_ ∨ _ ∨ _ ∨ _))

/-- The new key and the last one, in the order they are read, or nothing where
the code goes to `EXIT`. -/
def recoverReadKeys (p : Image) : Option (Block × Block) :=
  if userAuthenticateCard card then
    match userReadKeyFromCard card mifareBlockTempKey p with
    | none => none
    | some newKey =>
        match userReadKeyFromCard card mifareBlockKey p with
        | none => none
        | some lastKey => some (newKey, lastKey)
  else none

/-- The check of the last key, before the validation has been renewed. -/
def recoverCheckKey (backupStatus : Byte) (lastKey : Block) (p : Image) : Bool :=
  if backupStatus ≥ backupStatusChangeKey ∧ backupStatus < backupStatusChangeKeyValidation then
    encryptionCheckKey t lastKey p
  else true

def recoverValidation : Dev Unit := do
  encryptionUpdateValidation t
  backupFree

def recoverCardWritten (written : Bool) : Dev Unit :=
  if written then do
    backupSetStatus backupStatusChangeKeyValidation
    recoverValidation t
  else pure ()

def recoverCard : Dev Unit := do
  let v ← Program.ram
  let written ← userWriteKeyToCard card v.key mifareBlockKey
  recoverCardWritten t written

/-- The chunk under way is restored and re-keyed again; if it was complete, the
next one is taken up. -/
def recoverChunks (newKey : Block) (backupStatus : Byte) (pwdId : ℕ) : Dev Unit :=
  if backupStatus = backupStatusChangeKey then do
    backupPartialRestore t
    encryptionUpdateKey t newKey pwdId
  else encryptionUpdateKey t newKey ((pwdId + 1) % 65536)

def recoverPasswords (newKey : Block) (backupStatus : Byte) : Dev Unit := do
  let pwdId ← readImage (passwordReadId offsetBackupId)
  recoverChunks t newKey backupStatus pwdId
  backupSetStatus backupStatusChangeKeyUpdateCard

/-- What follows the card: the passwords, the card and the validation, from the
stage on that the status says. -/
def recoverUpdate (newKey : Block) (backupStatus : Byte) : Dev Unit :=
  if backupStatus = backupStatusChangeKey ∨ backupStatus = backupStatusChangeKeyChunkOk then do
    recoverPasswords t newKey backupStatus
    recoverCard t card
  else do
    modifyRam fun v => { v with key := newKey }
    if backupStatus = backupStatusChangeKeyUpdateCard then recoverCard t card
    else if backupStatus = backupStatusChangeKeyValidation then recoverValidation t
    else pure ()

def recoverWithKeys (backupStatus : Byte) (newKey lastKey : Block) : Dev Unit := do
  modifyRam fun v => { v with key := lastKey }
  let known ← readImage (recoverCheckKey t backupStatus lastKey)
  if known then recoverUpdate t card newKey backupStatus else pure ()

def recoverChangeKey (backupStatus : Byte) : Dev Unit := do
  let keys ← readImage (recoverReadKeys card)
  match keys with
  | none => pure ()
  | some (newKey, lastKey) => recoverWithKeys t card backupStatus newKey lastKey

/-- `backup_recover`.  With a status it does not know, it goes on with a new key
it never read. -/
def backupRecover : Dev Unit := do
  let backupStatus ← framReadByte offsetBackupStatus
  if backupStatus = backupStatusOk then pure ()
  else if backupStatus = backupStatusUpdate then backupRestore t
  else if ChangeKeyStatus backupStatus then recoverChangeKey t card backupStatus
  else do
    let v ← Program.ram
    recoverUpdate t card v.stack backupStatus

/-- With nothing to recover, nothing is done. -/
theorem wp_backupRecover_ok {Q : Unit → Image → Ram → Prop} {H : Image → Ram → Prop}
    {C : Step Write → Image → Prop} {p : Image} {v : Ram}
    (hok : p.backupStatus = backupStatusOk) (hQ : Q () p v) :
    wp (backupRecover t card) Q H C p v := by
  have hread : p.byte offsetBackupStatus = backupStatusOk := hok
  rw [backupRecover, wp_bind, wp_framReadByte, if_pos hread, wp_pure]
  exact hQ

end PasswordWallet
