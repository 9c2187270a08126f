import PasswordWallet.Options.CallbackAdvanced
import PasswordWallet.PowerLoss.Frame
import PasswordWallet.Proofs.SortedLists

/-!
# What leaves the key alone

Most of the firmware writes the FRAM only, and neither `KEY` nor `EVENT_KEY_ENTERED`
(`LeavesKey`).  The instances below say so of one function after the other; each is
inferred from those before it.
-/

namespace PasswordWallet

open PowerLoss

def Write.InFram : Write → Prop
  | .fram _ _ => True
  | _ => False

/-- The key and the flag that it is the right one are the same. -/
def SameKey (v v' : Ram) : Prop := v'.key = v.key ∧ v'.keyEntered = v.keyEntered

instance : IsPreorder Ram SameKey where
  refl _ := ⟨rfl, rfl⟩
  trans _ _ _ h₁ h₂ := ⟨h₂.1.trans h₁.1, h₂.2.trans h₁.2⟩

abbrev LeavesKey {α : Type} (m : Dev α) : Prop := Frames Write.InFram SameKey m

variable {α : Type} {t : Target}

section Access

variable {F : Write → Prop} {R : Ram → Ram → Prop}

theorem frames_modifyRam {f : Ram → Ram} (hf : ∀ v, R v (f v)) : Frames F R (modifyRam f) :=
  ⟨fun _ v => (wp_modifyRam f).mpr (hf v)⟩

instance [Std.Refl R] (f : Image → α) : Frames F R (readImage f) :=
  ⟨fun _ v => (wp_readImage f).mpr (refl_of R v)⟩

instance [Std.Refl R] (addr : ℕ) : Frames F R (framReadByte addr) :=
  inferInstanceAs (Frames F R (readImage _))

instance [Std.Refl R] (a : Option α) : Frames F R (orHang a) := by
  cases a with
  | none => exact .hang
  | some a => exact .pure a

theorem Write.Within.inFram {S : Set ℕ} {w : Write} (h : w.Within S) : w.InFram := by
  cases w with
  | fram addr byte => trivial
  | eeprom addr byte => exact h
  | card block data => exact h

/-- With writes to the FRAM only, the EEPROM is the same. -/
theorem wp_eeprom {V : Type} {R : V → V → Prop} (m : Program Image Write V α)
    [h : Frames Write.InFram R m] {p : Image} {v : V} :
    wp m (fun _ p' v' => p'.eeprom = p.eeprom ∧ R v v') (fun _ v' => R v v')
      (fun _ _ => True) p v := by
  refine wp_mono (wp_reach (R := fun p p' => p'.eeprom = p.eeprom) (fun _ => rfl)
    (fun p₁ p₂ p₃ (h₁ : p₂.eeprom = p₁.eeprom) (h₂ : p₃.eeprom = p₂.eeprom) => h₂.trans h₁)
    (fun w p hw => ?_) (h.wp_frame p v)) (fun _ _ _ => id)
    (fun _ _ => id) fun _ _ _ => trivial
  cases w with
  | fram addr byte => rfl
  | eeprom addr byte => exact hw.elim
  | card block data => exact hw.elim

theorem Drawn.sameKey {v v' : Ram} (h : Drawn v v') : SameKey v v' := ⟨h.key, h.keyEntered⟩

end Access

/-! ## Passwords -/

instance (addr : ℕ) (byte : Byte) : LeavesKey (framWriteByte addr byte) := .write trivial

instance leavesKey_framWriteBytes (addr : ℕ) (bytes : List Byte) :
    LeavesKey (framWriteBytes addr bytes) := by
  induction bytes generalizing addr with
  | nil => exact .pure ()
  | cons byte rest ih =>
      rw [framWriteBytes]
      infer_instance

instance (addr : ℕ) (val : Byte) (num : ℕ) : LeavesKey (framSet addr val num) :=
  leavesKey_framWriteBytes _ _

instance : LeavesKey randomRequestByte := ⟨fun _ _ =>
  wp_mono wp_randomRequestByte (fun _ _ _ h => h.sameKey) (fun _ _ => False.elim)
    fun _ _ h => h.inFram⟩

instance : LeavesKey randomSaveEntropy := ⟨fun _ _ =>
  wp_mono wp_randomSaveEntropy (fun _ _ _ h => h.1.sameKey) (fun _ _ => False.elim)
    fun _ _ h => h.inFram⟩

instance (fuel : ℕ) : LeavesKey (randomRequestPrintable fuel) := by
  induction fuel with
  | zero => exact .hang
  | succ fuel ih =>
      rw [randomRequestPrintable]
      infer_instance

instance {draw : Dev Byte} [LeavesKey draw] (count : ℕ) : LeavesKey (randomFill draw count) := by
  induction count with
  | zero => exact .pure []
  | succ count ih =>
      rw [randomFill]
      infer_instance

instance (framAddr id : ℕ) : LeavesKey (passwordWriteId framAddr id) :=
  leavesKey_framWriteBytes _ _

instance (input : List Byte) (addrIv addrAes lenghtAes : ℕ) (key : Block) :
    LeavesKey (encryptAndWrite t input addrIv addrAes lenghtAes key) := by
  unfold encryptAndWrite
  infer_instance

instance (pwdId : ℕ) (pwd : List Byte) (key : Block) :
    LeavesKey (passwordSetData t pwdId pwd key) := by
  unfold passwordSetData
  infer_instance

instance (pwdId : ℕ) (usr : List Byte) (key : Block) :
    LeavesKey (passwordSetUsrName t pwdId usr key) := by
  unfold passwordSetUsrName
  infer_instance

instance (pwdId : ℕ) (name : Vector Byte 32) : LeavesKey (passwordSetName t pwdId name) :=
  leavesKey_framWriteBytes _ _

instance (pwdId val : ℕ) : LeavesKey (passwordSetCounter t pwdId val) :=
  leavesKey_framWriteBytes _ _

instance (fuel pwdId : ℕ) : LeavesKey (passwordRegenerate t fuel pwdId) := by
  unfold passwordRegenerate
  infer_instance

instance (pwdId : ℕ) : LeavesKey (passwordIncrementCounter t pwdId) := by
  unfold passwordIncrementCounter
  infer_instance

/-! ## Lists -/

section Lists

variable {K : Type} {o : PwdOrder K}

/-- The links of the order are written with the key left alone. -/
class OrderLeavesKey (o : PwdOrder K) : Prop where
  setPrev : ∀ pwdId val, LeavesKey (o.setPrev pwdId val)
  setNext : ∀ pwdId val, LeavesKey (o.setNext pwdId val)

attribute [instance] OrderLeavesKey.setPrev OrderLeavesKey.setNext

instance : OrderLeavesKey (orderUse t) :=
  ⟨fun _ _ => leavesKey_framWriteBytes _ _, fun _ _ => leavesKey_framWriteBytes _ _⟩

instance : OrderLeavesKey (orderAlpha t) :=
  ⟨fun _ _ => leavesKey_framWriteBytes _ _, fun _ _ => leavesKey_framWriteBytes _ _⟩

instance (id : ℕ) {m : Dev Unit} [LeavesKey m] : LeavesKey (unlessEnd id m) := by
  unfold unlessEnd
  infer_instance

variable [OrderLeavesKey o]

set_option synthInstance.maxSize 400 in
instance (lower upper : ℕ) : LeavesKey (swapNeighbours o lower upper) := by
  unfold swapNeighbours
  infer_instance

instance (first prev current : ℕ) : LeavesKey (swapWithPrev o first prev current) := by
  unfold swapWithPrev updateFirst
  infer_instance

instance (current : ℕ) (currentKey : K) (fuel first prev sortingPosition : ℕ) :
    LeavesKey (sortInner o current currentKey fuel first prev sortingPosition) := by
  induction fuel generalizing first prev sortingPosition with
  | zero => exact .hang
  | succ fuel ih =>
      rw [sortInner]
      infer_instance

instance (turns fuel first current : ℕ) : LeavesKey (sortOuter o turns fuel first current) := by
  induction fuel generalizing first current with
  | zero => exact .hang
  | succ fuel ih =>
      rw [sortOuter]
      infer_instance

instance (fuel : ℕ) : LeavesKey (pwdListSort o fuel) := by
  unfold pwdListSort
  infer_instance

instance (fuel : ℕ) : LeavesKey (pwdListSortUse t fuel) := by
  unfold pwdListSortUse
  infer_instance

instance (fuel : ℕ) : LeavesKey (pwdListSortAlpha t fuel) := by
  unfold pwdListSortAlpha
  infer_instance

instance (prev next : ℕ) : LeavesKey (unlink o prev next) := by
  unfold unlink unlinkFirst
  infer_instance

instance (f : ℕ → ℕ) : LeavesKey (writeNumPwd f) := by
  unfold writeNumPwd
  have : LeavesKey (modifyRam fun v => { v with numPwd := f v.numPwd % 65536 }) :=
    frames_modifyRam fun _ => ⟨rfl, rfl⟩
  infer_instance

instance (pwdId : ℕ) : LeavesKey (clearMapBit pwdId) := by
  unfold clearMapBit
  infer_instance

set_option synthInstance.maxSize 400 in
instance (pwdId : ℕ) : LeavesKey (pwdListDeletePwd t pwdId) := by
  unfold pwdListDeletePwd
  infer_instance

set_option synthInstance.maxSize 400 in
instance (fuel pwdId : ℕ) : LeavesKey (linkLast t fuel pwdId) := by
  unfold linkLast passwordSetNextPwdUse passwordSetNextPwdAlpha
  infer_instance

instance (fuel pwdId : ℕ) : LeavesKey (linkNew t fuel pwdId) := by
  unfold linkNew passwordSetPrevPwdUse passwordSetNextPwdUse passwordSetPrevPwdAlpha
    passwordSetNextPwdAlpha
  infer_instance

instance (pwdId : ℕ) : LeavesKey (setMapBit pwdId) := by
  unfold setMapBit
  infer_instance

instance (fuel pwdId : ℕ) (name : Vector Byte 32) (data usrName : List Byte) :
    LeavesKey (addInChunk t fuel pwdId name data usrName) := by
  have hfill : LeavesKey (do
      let v ← Program.ram
      passwordSetData t pwdId data v.key
      passwordSetUsrName t pwdId usrName v.key
      writeNumPwd fun n => n + 1
      pwdListSortUse t fuel
      pwdListSortAlpha t fuel : Dev Unit) := inferInstance
  unfold addInChunk
  infer_instance

instance (fuel : ℕ) (name : Vector Byte 32) (data usrName : List Byte) :
    LeavesKey (pwdListAddPwd t fuel name data usrName) := by
  have hfound : ∀ chunkFree : Option ℕ, LeavesKey (match chunkFree with
      | none => pure false
      | some pwdId => do
          addInChunk t fuel pwdId name data usrName
          pure true) := by
    intro chunkFree
    cases chunkFree with
    | none => exact .pure false
    | some pwdId => exact .bind
  unfold pwdListAddPwd
  infer_instance

end Lists

/-! ## The backup section -/

instance (src dst : ℕ → ℕ) : LeavesKey (chunkCopy src dst) := by
  unfold chunkCopy
  infer_instance

instance (pwdId : ℕ) (status : Byte) : LeavesKey (backupSave t pwdId status) := by
  unfold backupSave
  infer_instance

instance (status : Byte) : LeavesKey (backupSetStatus status) := by
  unfold backupSetStatus
  infer_instance

instance : LeavesKey backupFree := by
  unfold backupFree
  infer_instance

instance : LeavesKey (backupPartialRestore t) := by
  unfold backupPartialRestore
  infer_instance

instance : LeavesKey (backupRestore t) := by
  unfold backupRestore
  infer_instance

set_option synthInstance.maxSize 400 in
instance (newKey : Block) (pwdId : ℕ) : LeavesKey (updateChunk t newKey pwdId) := by
  unfold updateChunk
  infer_instance

instance (newKey : Block) (count i j : ℕ) : LeavesKey (updateKeyRows t newKey count i j) := by
  induction count generalizing i j with
  | zero => exact .pure ()
  | succ count ih =>
      rw [updateKeyRows]
      unfold updateKeyBit
      infer_instance

/-! ## Menus -/

instance (optFlag : Byte) : LeavesKey (updateOptFlags optFlag) := by
  unfold updateOptFlags
  have : LeavesKey (modifyRam fun v => { v with optionsFlag := optFlag }) :=
    frames_modifyRam fun _ => ⟨rfl, rfl⟩
  infer_instance

instance (offset : ℕ) : LeavesKey (toggleOption offset) := by
  unfold toggleOption
  infer_instance

instance {edit : ℕ → Dev Unit} [∀ pwdId, LeavesKey (edit pwdId)] :
    LeavesKey (protectedEdit t edit) := by
  unfold protectedEdit
  infer_instance

instance {size : ℕ} (typing : Typing size) (text : List Byte) {edit : Vector Byte size → Dev Unit}
    [hedit : ∀ typed, LeavesKey (edit typed)] : LeavesKey (whenTyped typing text edit) := by
  unfold whenTyped
  cases typing text with
  | none => exact .pure ()
  | some typed => exact hedit typed

instance (pwdId : ℕ) : LeavesKey (modifyRam fun v => { v with currentPasswordId := pwdId }) :=
  frames_modifyRam fun _ => ⟨rfl, rfl⟩

instance (fuel : ℕ) (action : MenuAction) : LeavesKey (action.run t fuel) := by
  cases action with
  | addPwd name data usrName =>
      unfold MenuAction.run optCallbackAddPwd
      infer_instance
  | deletePwd confirmed =>
      unfold MenuAction.run optCallbackDeletePwd deleteCurrent prevOfDeleted
      infer_instance
  | changeName typing =>
      unfold MenuAction.run optCallbackChangeName
      infer_instance
  | changePwd typing =>
      unfold MenuAction.run optCallbackChangePwd underKey
      infer_instance
  | changeUsrName typing =>
      unfold MenuAction.run optCallbackChangeUsrName underKey
      infer_instance
  | regeneratePwd drawings confirmed =>
      unfold MenuAction.run optCallbackRegeneratePwd
      infer_instance
  | sendPwd =>
      unfold MenuAction.run optCallbackSendPwd
      infer_instance
  | sendUsr =>
      unfold MenuAction.run optCallbackSendUsr
      infer_instance
  | sendBoth =>
      unfold MenuAction.run optCallbackSendBoth optCallbackSendUsr optCallbackSendPwd
      infer_instance
  | noSort =>
      unfold MenuAction.run optCallbackNoSort optCallbackSort
      infer_instance
  | sortUse =>
      unfold MenuAction.run optCallbackSortUse optCallbackSort
      infer_instance
  | sortAlpha =>
      unfold MenuAction.run optCallbackSortAlpha optCallbackSort
      infer_instance

instance (i : ℕ) : LeavesKey (eraseFram t i) := by
  induction i with
  | zero => exact .pure ()
  | succ i ih =>
      rw [eraseFram]
      infer_instance

/-! ## The lock

The rest of the firmware may change the key, but sets or clears `EVENT_KEY_ENTERED` in
two places only: when a card is read, and in the full reset.
-/

def SameLock (v v' : Ram) : Prop := v'.keyEntered = v.keyEntered

instance : IsPreorder Ram SameLock where
  refl _ := rfl
  trans _ _ _ h₁ h₂ := Eq.trans h₂ h₁

/-- A program that neither locks nor unlocks the device. -/
abbrev LeavesLock {α : Type} (m : Dev α) : Prop := Frames (fun _ : Write => True) SameLock m

instance {m : Dev α} [h : LeavesKey m] : LeavesLock m :=
  h.mono (fun _ _ => trivial) fun _ _ h => h.2

instance (addr : ℕ) (byte : Byte) : LeavesLock (eepromUpdateByte addr byte) := .write trivial

instance (key : Block) : LeavesLock (modifyRam fun v => { v with key := key }) :=
  frames_modifyRam fun _ => rfl

instance (i count : ℕ) : LeavesLock (updateRandomSequence i count) := by
  induction count generalizing i with
  | zero => exact .pure []
  | succ count ih =>
      rw [updateRandomSequence]
      infer_instance

instance (addr : ℕ) (bytes : List Byte) : LeavesLock (eepromUpdateBytes addr bytes) := by
  induction bytes generalizing addr with
  | nil => exact .pure ()
  | cons byte rest ih =>
      rw [eepromUpdateBytes]
      infer_instance

instance : LeavesLock (encryptionUpdateValidation t) := by
  unfold encryptionUpdateValidation
  infer_instance

instance (newKey : Block) (startFrom : ℕ) :
    LeavesLock (encryptionUpdateKey t newKey startFrom) := by
  unfold encryptionUpdateKey
  infer_instance

instance (card : CardSession) (keyIn : Block) (keyBlock : ℕ) :
    LeavesLock (userWriteKeyToCard card keyIn keyBlock) := by
  have hwrite : LeavesLock (Program.write (.card keyBlock keyIn)) := .write trivial
  unfold userWriteKeyToCard rfidMifareWrite
  infer_instance

instance : LeavesLock (userUpdateValidation t) := by
  unfold userUpdateValidation
  infer_instance

instance (written : Bool) : LeavesLock (userChangeKeyValidation t written) := by
  unfold userChangeKeyValidation
  infer_instance

set_option synthInstance.maxSize 400 in
instance (card : CardSession) (newKey : Block) :
    LeavesLock (userChangeKeyUpdate t card newKey) := by
  unfold userChangeKeyUpdate
  infer_instance

instance (card : CardSession) : LeavesLock (userChangeKey t card) := by
  unfold userChangeKey userChangeKeyCard
  infer_instance

instance : LeavesLock (recoverValidation t) := by
  unfold recoverValidation
  infer_instance

instance (card : CardSession) : LeavesLock (recoverCard t card) := by
  unfold recoverCard recoverCardWritten
  infer_instance

instance (newKey : Block) (backupStatus : Byte) :
    LeavesLock (recoverPasswords t newKey backupStatus) := by
  unfold recoverPasswords recoverChunks
  infer_instance

instance (card : CardSession) (newKey : Block) (backupStatus : Byte) :
    LeavesLock (recoverUpdate t card newKey backupStatus) := by
  unfold recoverUpdate
  infer_instance

instance (card : CardSession) (backupStatus : Byte) :
    LeavesLock (recoverChangeKey t card backupStatus) := by
  have hkeys : ∀ keys : Option (Block × Block), LeavesLock (match keys with
      | none => pure ()
      | some (newKey, lastKey) => recoverWithKeys t card backupStatus newKey lastKey) := by
    intro keys
    unfold recoverWithKeys
    cases keys with
    | none => exact .pure ()
    | some keys => infer_instance
  unfold recoverChangeKey
  infer_instance

instance (card : CardSession) : LeavesLock (backupRecover t card) := by
  unfold backupRecover
  infer_instance

instance (confirmed : Bool) (card : CardSession) :
    LeavesLock (optCallbackChangeKey t confirmed card) := by
  unfold optCallbackChangeKey
  infer_instance

instance : LeavesKey randomReset := frames_modifyRam fun _ => ⟨rfl, rfl⟩

instance (changeConfirmed : Bool) (card : CardSession) :
    LeavesLock (initializeDevice t changeConfirmed card) := by
  unfold initializeDevice
  infer_instance

end PasswordWallet
