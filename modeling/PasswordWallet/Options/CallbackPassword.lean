import PasswordWallet.Security.Backup
import PasswordWallet.Security.PasswordList

/-!
# The menu actions on passwords

`Options_Callback_Password.c` and the sort modes of `Options_Callback_Sort.c`.
What the user does is a parameter: whether he confirms, and what he types, which
may depend on the text he is shown.  Typing that changes nothing is `none`.

The three actions that rewrite a secret are one, `protectedEdit`: they save the
chunk, rewrite it and free the backup section.
-/

namespace PasswordWallet

open PowerLoss

variable (t : Target)

/-- What the user makes of a text with `type_string`. -/
abbrev Typing (size : ℕ) := List Byte → Option (Vector Byte size)

/-- `strlen_bound`, and the string it measures. -/
def boundedString (str : List Byte) : List Byte := str.takeWhile (· ≠ 0)

def optCallbackAddPwd (fuel : ℕ) (pwdName pwdData : Vector Byte 32) (usrName : Vector Byte 64) :
    Dev Unit := do
  let v ← Program.ram
  if v.numPwd = maximumNumberOfPwd - 1 then pure ()
  else do
    let _ ← pwdListAddPwd t fuel pwdName pwdData.toList usrName.toList
    pure ()

/-- Rewrites a secret of the current password under the protection of the backup
section. -/
def protectedEdit (edit : ℕ → Dev Unit) : Dev Unit := do
  let v ← Program.ram
  backupSave t v.currentPasswordId backupStatusUpdate
  edit v.currentPasswordId
  backupFree

def optCallbackRegeneratePwd (fuel : ℕ) (confirmed : Bool) : Dev Unit :=
  if confirmed then protectedEdit t (passwordRegenerate t fuel) else pure ()

/-- Goes on with what the user typed over a text, unless typing was given up. -/
def whenTyped {size : ℕ} (typing : Typing size) (text : List Byte)
    (edit : Vector Byte size → Dev Unit) : Dev Unit :=
  match typing text with
  | none => pure ()
  | some typed => edit typed

/-- A setter that encrypts under the key in memory. -/
def underKey (set : List Byte → Block → Dev Unit) (text : List Byte) : Dev Unit := do
  let v ← Program.ram
  set text v.key

def optCallbackChangePwd (typing : Typing 32) : Dev Unit := do
  let v ← Program.ram
  let tempPwd ← readImage (passwordReadData t v.currentPasswordId v.key)
  whenTyped typing tempPwd fun pwd =>
    protectedEdit t fun pwdId => underKey (passwordSetData t pwdId) pwd.toList

def optCallbackChangeUsrName (typing : Typing 64) : Dev Unit := do
  let v ← Program.ram
  let tempStr ← readImage (passwordReadUsrName t v.currentPasswordId v.key)
  whenTyped typing tempStr fun usr =>
    protectedEdit t fun pwdId => underKey (passwordSetUsrName t pwdId) usr.toList

def optCallbackChangeName (fuel : ℕ) (typing : Typing 32) : Dev Unit := do
  let v ← Program.ram
  let name ← readImage (passwordReadName t v.currentPasswordId)
  whenTyped typing name fun name => do
    passwordSetName t v.currentPasswordId name
    pwdListSortAlpha t fuel

/-- The password that becomes the current one when the current one is deleted. -/
def prevOfDeleted (fuel : ℕ) : Dev ℕ := do
  let v ← Program.ram
  if v.numPwd > 1 then do
    let prevPwd ← readImage (pwdListGetPrevPwdId t v.optionsFlag fuel v.currentPasswordId)
    orHang prevPwd
  else pure 0

def deleteCurrent (fuel : ℕ) : Dev Unit := do
  let prevPwd ← prevOfDeleted t fuel
  let v ← Program.ram
  pwdListDeletePwd t v.currentPasswordId
  modifyRam fun v => { v with currentPasswordId := prevPwd }

def optCallbackDeletePwd (fuel : ℕ) (confirmed : Bool) : Dev Unit :=
  if confirmed then deleteCurrent t fuel else pure ()

/-- The result is what goes out on the keyboard. -/
def optCallbackSendPwd (fuel : ℕ) : Dev (List Byte) := do
  let v ← Program.ram
  let pwdData ← readImage (passwordReadData t v.currentPasswordId v.key)
  passwordIncrementCounter t v.currentPasswordId
  pwdListSortUse t fuel
  pure (boundedString pwdData)

def optCallbackSendUsr : Dev (List Byte) := do
  let v ← Program.ram
  let pwdData ← readImage (passwordReadUsrName t v.currentPasswordId v.key)
  pure (boundedString pwdData)

/-- The user name, then the password, each as one string. -/
def optCallbackSendBoth (fuel : ℕ) : Dev (List Byte × List Byte) := do
  let usr ← optCallbackSendUsr t
  let pwd ← optCallbackSendPwd t fuel
  pure (usr, pwd)

/-- `update_opt_flags`. -/
def updateOptFlags (optFlag : Byte) : Dev Unit := do
  modifyRam fun v => { v with optionsFlag := optFlag }
  framWriteByte offsetOptionsFlag optFlag

/-- `opt_callback_no_sort`, `opt_callback_sort_use` and `opt_callback_sort_alpha`
write the method into the two low bits. -/
def optCallbackSort (method : Byte) : Dev Unit := do
  let v ← Program.ram
  updateOptFlags ((v.optionsFlag &&& ~~~(3 : Byte)) ||| method)

def optCallbackNoSort : Dev Unit := optCallbackSort (BitVec.ofNat 8 pwdSortingNone)

def optCallbackSortUse : Dev Unit := optCallbackSort (BitVec.ofNat 8 pwdSortingUse)

def optCallbackSortAlpha : Dev Unit := optCallbackSort (BitVec.ofNat 8 pwdSortingAlpha)

end PasswordWallet
