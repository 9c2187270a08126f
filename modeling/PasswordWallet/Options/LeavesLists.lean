import PasswordWallet.Options.LeavesKey
import PasswordWallet.Rekey.Progress

/-!
# What leaves the lists alone

The menu operations that are not about one password write the key, the options, the
pool and the backup section, and a change of the key the secrets of the chunks that it
visits (`settingRegion`).  Neither a list nor a name lies there.  So they keep the
invariant of the menus, and all names (`MenuInvariant.of_setting`).

The full reset is the one operation that empties the lists.
-/

namespace PasswordWallet

open PowerLoss

/-- The options, the pool, the backup section, and the secrets of the chunks that a
change of the key can visit. -/
def settingRegion : Set ℕ := {x | x = 0 ∨ ∃ id < 8, x ∈ secretsRegion id ∪ backupRegion}

def Write.Setting : Write → Prop
  | .fram addr _ => addr ∈ settingRegion
  | _ => True

/-- The variables that the lists come with are the same, but for the sorting mode. -/
structure SameLists (v v' : Ram) : Prop where
  numPwd : v'.numPwd = v.numPwd
  currentPasswordId : v'.currentPasswordId = v.currentPasswordId
  sortingMethod : pwdListGetSortingMethod v.optionsFlag ≤ pwdSortingAlpha →
    pwdListGetSortingMethod v'.optionsFlag ≤ pwdSortingAlpha

instance : IsPreorder Ram SameLists where
  refl _ := ⟨rfl, rfl, id⟩
  trans _ _ _ h₁ h₂ := ⟨h₂.1.trans h₁.1, h₂.2.trans h₁.2, fun h => h₂.3 (h₁.3 h)⟩

theorem Drawn.sameLists {v v' : Ram} (h : Drawn v v') : SameLists v v' :=
  ⟨h.numPwd, h.currentPasswordId, fun hmethod => by rwa [h.optionsFlag]⟩

/-- A program that leaves the lists and the names alone. -/
abbrev LeavesLists {α : Type} (m : Dev α) : Prop := Frames Write.Setting SameLists m

variable {α : Type} {t : Target} {p p' : Image} {v v' : Ram} {use alpha : List ℕ}

/-! ## Where the settings lie -/

theorem quiet_setting : Quiet t settingRegion := by
  rintro x (hx | ⟨id, hid, hx⟩)
  · exact quiet_header (R := {0}) (fun _ h => Or.inl h) x hx
  · exact quiet_edit (by omega) x hx

theorem keys_setting : ∀ x ∈ settingRegion, x ∉ keyRegion t := by
  rintro x (rfl | ⟨id, hid, hx⟩)
  · rintro ⟨id, hid, hmem⟩
    have := lt_of_lt_capacity hid
    rw [mem_burst (by simp only [framByteSize]; omega)] at hmem
    omega
  · exact keys_edit (by omega) x hx

theorem pool_subset_setting : poolRegion ⊆ settingRegion := fun _ hx =>
  Or.inr ⟨0, by decide, Or.inl (Or.inl hx)⟩

theorem backup_subset_setting : backupRegion ⊆ settingRegion := fun _ hx =>
  Or.inr ⟨0, by decide, Or.inr hx⟩

theorem update_subset_setting {pwdId : ℕ} (hid : pwdId < 8) :
    updateRegion pwdId ⊆ settingRegion := by
  rintro x (hx | hx | hx)
  · exact pool_subset_setting hx
  · exact Or.inr ⟨pwdId, hid, Or.inl (Or.inr hx)⟩
  · exact backup_subset_setting hx

theorem Write.Within.setting {S : Set ℕ} {w : Write} (h : w.Within S) (hsub : S ⊆ settingRegion) :
    w.Setting := by
  cases w with
  | fram addr byte => exact hsub h
  | eeprom addr byte => exact h.elim
  | card block data => exact h.elim

/-! ## Programs -/

instance : LeavesLists randomRequestByte := ⟨fun _ _ =>
  wp_mono wp_randomRequestByte (fun _ _ _ h => h.sameLists) (fun _ _ => False.elim)
    fun _ _ h => h.setting pool_subset_setting⟩

instance leavesLists_randomFill {draw : Dev Byte} [LeavesLists draw] (count : ℕ) :
    LeavesLists (randomFill draw count) := by
  induction count with
  | zero => exact .pure []
  | succ count ih =>
      rw [randomFill]
      infer_instance

instance : LeavesLists randomReset := frames_modifyRam fun _ => ⟨rfl, rfl, id⟩

instance leavesLists_setKey (key : Block) :
    LeavesLists (modifyRam fun v => { v with key := key }) :=
  frames_modifyRam fun _ => ⟨rfl, rfl, id⟩

instance (status : Byte) : LeavesLists (backupSetStatus status) :=
  .write (backup_subset_setting (show 362 ≤ 362 ∧ 362 < 535 by decide))

instance : LeavesLists backupFree := ⟨fun _ _ =>
  wp_mono wp_backupFree (fun _ _ _ h => h.1 ▸ refl_of SameLists _) (fun _ _ => False.elim)
    fun _ _ h => h.1.setting backup_subset_setting⟩

instance leavesLists_eepromUpdateByte (addr : ℕ) (byte : Byte) :
    LeavesLists (eepromUpdateByte addr byte) := .write trivial

instance leavesLists_updateRandomSequence (i count : ℕ) :
    LeavesLists (updateRandomSequence i count) := by
  induction count generalizing i with
  | zero => exact .pure []
  | succ count ih =>
      rw [updateRandomSequence]
      infer_instance

instance leavesLists_eepromUpdateBytes (addr : ℕ) (bytes : List Byte) :
    LeavesLists (eepromUpdateBytes addr bytes) := by
  induction bytes generalizing addr with
  | nil => exact .pure ()
  | cons byte rest ih =>
      rw [eepromUpdateBytes]
      infer_instance

instance : LeavesLists (encryptionUpdateValidation t) := by
  unfold encryptionUpdateValidation
  infer_instance

/-- Only chunks of the first byte of the map are visited. -/
instance (newKey : Block) : LeavesLists (encryptionUpdateKey t newKey 0) := by
  constructor
  intro p v
  refine wp_encryptionUpdateKey (fun _ _ v' => Drawn v v') (by decide) (Drawn.refl v) ?_
    (fun _ _ _ _ _ _ => id) fun p' v' hdrawn => ?_
  · intro id p' v' _ hrow hid _ hdrawn
    have hlt : id < 8 := by omega
    exact wp_mono (wp_updateChunk (plain_of_lt_eight hlt) hid)
      (fun _ _ _ h => hdrawn.trans h.1) (fun _ _ => False.elim)
      fun _ _ h => h.1.setting (update_subset_setting hlt)
  · obtain ⟨hnum, hcurrent, hmethod⟩ := hdrawn.sameLists
    exact ⟨hnum, hcurrent, hmethod⟩

instance (card : CardSession) (keyIn : Block) (keyBlock : ℕ) :
    LeavesLists (userWriteKeyToCard card keyIn keyBlock) := by
  have hwrite : LeavesLists (Program.write (.card keyBlock keyIn)) := .write trivial
  unfold userWriteKeyToCard rfidMifareWrite
  infer_instance

instance : LeavesLists (userUpdateValidation t) := by
  unfold userUpdateValidation
  infer_instance

instance (written : Bool) : LeavesLists (userChangeKeyValidation t written) := by
  unfold userChangeKeyValidation
  infer_instance

instance (card : CardSession) (newKey : Block) :
    LeavesLists (userChangeKeyUpdate t card newKey) := by
  unfold userChangeKeyUpdate
  infer_instance

instance (confirmed : Bool) (card : CardSession) :
    LeavesLists (optCallbackChangeKey t confirmed card) := by
  unfold optCallbackChangeKey userChangeKey userChangeKeyCard
  infer_instance

instance : LeavesLists (forceKey t) := by
  unfold forceKey
  infer_instance

instance (card : CardSession) : LeavesLists (optCallbackForceCard t card) := by
  have hkey : ∀ key : Option Block, LeavesLists (forceCardKey t key) := by
    intro key
    cases key with
    | none => exact .pure ()
    | some key =>
        unfold forceCardKey
        infer_instance
  unfold optCallbackForceCard
  infer_instance

instance (usrKey : Vector Byte 20) : LeavesLists (optCallbackEnterKey usrKey) := by
  unfold optCallbackEnterKey
  infer_instance

instance (usrKey : Vector Byte 20) : LeavesLists (optCallbackForceEnter t usrKey) := by
  unfold optCallbackForceEnter
  infer_instance

/-! ## Options -/

theorem wp_updateOptFlags_setting {optFlag : Byte}
    (hmethod : pwdListGetSortingMethod v.optionsFlag ≤ pwdSortingAlpha →
      pwdListGetSortingMethod optFlag ≤ pwdSortingAlpha) :
    wp (updateOptFlags optFlag) (fun _ _ v' => SameLists v v') (fun _ v' => SameLists v v')
      (fun step _ => step.write.Setting) p v := by
  rw [updateOptFlags, wp_bind, wp_modifyRam, wp_framWriteByte]
  exact ⟨Or.inl rfl, rfl, rfl, hmethod⟩

/-- The option that is toggled is not part of the sorting mode. -/
theorem leavesLists_toggleOption {offset : ℕ} (hoffset : 2 ≤ offset) :
    LeavesLists (toggleOption offset) := by
  constructor
  intro p v
  rw [toggleOption, wp_bind, wp_ram]
  -- the bit of the option is none of the two low ones
  have hlow : ((1 <<< offset : ℕ) : Byte).toNat % 2 ^ 2 = 0 := by
    obtain ⟨k, rfl⟩ := Nat.exists_eq_add_of_le hoffset
    rw [BitVec.natCast_eq_ofNat, BitVec.toNat_ofNat, Nat.shiftLeft_eq, Nat.pow_add]
    omega
  have hmode : pwdListGetSortingMethod (v.optionsFlag ^^^ 1 <<< offset) =
      pwdListGetSortingMethod v.optionsFlag := by
    unfold pwdListGetSortingMethod
    rw [BitVec.toNat_xor, show (4 : ℕ) = 2 ^ 2 from rfl, Nat.xor_mod_two_pow, hlow, Nat.xor_zero]
  exact wp_updateOptFlags_setting fun h => hmode ▸ h

instance : LeavesLists optCallbackInverseScreen := leavesLists_toggleOption (by decide)

instance : LeavesLists optCallbackChangeKeyboard := leavesLists_toggleOption (by decide)

instance (changeConfirmed : Bool) (card : CardSession) :
    LeavesLists (initializeDevice t changeConfirmed card) := by
  have hflag : LeavesLists (updateOptFlags (1 <<< optionsFlagOffsetInitialized)) :=
    ⟨fun _ _ => wp_updateOptFlags_setting fun _ => by decide⟩
  unfold initializeDevice
  infer_instance

/-! ## What is kept -/

theorem WellFormed.of_fram (h : WellFormed t p v use alpha) (hfram : p'.fram = p.fram) :
    WellFormed t p' v use alpha := by
  obtain ⟨fram, eeprom, card⟩ := p
  obtain ⟨fram', eeprom', card'⟩ := p'
  obtain rfl : fram' = fram := hfram
  have hthreadedUse := h.threadedUse
  have hthreadedAlpha := h.threadedAlpha
  exact ⟨⟨hthreadedUse.linked, hthreadedUse.first, hthreadedUse.nodup, hthreadedUse.bound⟩,
    ⟨hthreadedAlpha.linked, hthreadedAlpha.first, hthreadedAlpha.nodup, hthreadedAlpha.bound⟩,
    h.mem_use, h.perm, h.numPwd, h.stored⟩

theorem MenuInvariant.of_fram (h : MenuInvariant t p v) (hfram : p'.fram = p.fram) :
    MenuInvariant t p' v := by
  obtain ⟨⟨use, alpha, hwell, hsorted, hcurrent⟩, hmethod⟩ := h
  refine ⟨⟨use, alpha, hwell.of_fram hfram, ?_, hcurrent⟩, hmethod⟩
  obtain ⟨fram, eeprom, card⟩ := p
  obtain ⟨fram', eeprom', card'⟩ := p'
  obtain rfl : fram' = fram := hfram
  exact ⟨hsorted.use, hsorted.alpha⟩

/-- Nothing but settings differs, in whichever memory. -/
structure SameSettings (p p' : Image) (v v' : Ram) : Prop where
  fram : ∀ x ∉ settingRegion, p'.fram x = p.fram x
  ram : SameLists v v'

section Kept

variable (hsame : SameSettings p p' v v')
include hsame

/-- With the EEPROM and the card as they were. -/
theorem SameSettings.sameOff : SameOff settingRegion p { p with fram := p'.fram } :=
  ⟨hsame.fram, rfl, rfl⟩

theorem MenuInvariant.of_setting (h : MenuInvariant t p v) : MenuInvariant t p' v' := by
  have hoff := hsame.sameOff
  obtain ⟨hnum, hcurrent, hmethod⟩ := hsame.ram
  obtain ⟨⟨use, alpha, hwell, hsorted, hmem⟩, hsorting⟩ := h
  have hkept : Rearranged t use alpha p { p with fram := p'.fram } v' :=
    hwell.rearranged hoff quiet_setting keys_setting hnum
  exact (hkept.menuInvariant hsorted (by rwa [CurrentIn, hcurrent]) (hmethod hsorting)).of_fram rfl

theorem SameSettings.used {id : ℕ} (hid : id < maximumNumberOfPwd) : p'.used id = p.used id :=
  hsame.sameOff.used (fun _ hlow hhigh hx => quiet_setting (t := ⟨.exact, .xorKey⟩) _ hx
    (Or.inr (Or.inl ⟨hlow, hhigh⟩))) (hid.trans_le (by decide))

theorem SameSettings.name {id : ℕ} (hid : id < t.addressing.capacity) :
    passwordReadName t id p' = passwordReadName t id p := by
  have hname : passwordReadName t id { p with fram := p'.fram } = passwordReadName t id p :=
    passwordReadName_congr (Addressing.plain_of_lt hid) fun _ hi hi' =>
      hsame.sameOff.chunkByte_of_disjoint keys_setting hid (by omega) hi'
  exact hname

end Kept

theorem wp_setting (m : Dev α) [h : LeavesLists m] :
    wp m (fun _ p' v' => SameSettings p p' v v') (fun _ _ => True) (fun _ _ => True) p v := by
  refine wp_mono (wp_reach (R := fun p p' => ∀ x ∉ settingRegion, p'.fram x = p.fram x)
    (fun _ _ _ => rfl) (fun p₁ p₂ p₃ (h₁ : ∀ x ∉ settingRegion, p₂.fram x = p₁.fram x)
      (h₂ : ∀ x ∉ settingRegion, p₃.fram x = p₂.fram x) x hx => (h₂ x hx).trans (h₁ x hx))
    (fun w p₁ hw x hx => ?_) (h.wp_frame p v)) (fun _ p' v' h => ⟨h.1, h.2⟩)
    (fun _ _ _ => trivial) fun _ _ _ => trivial
  cases w with
  | fram addr byte =>
      refine Function.update_of_ne ?_ _ _
      rintro rfl
      exact hx hw
  | eeprom addr byte => rfl
  | card block data => rfl

end PasswordWallet
