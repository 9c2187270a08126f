import PasswordWallet.Security.Password

/-!
# The backup section

The core of `Backup.c`.  The backup section holds one chunk, its id, and a
status byte that says what the copy is for.  `backup_save` writes the status
last and `backup_free` writes it first, so that the status never speaks of a
copy that is not complete.

The three loops that copy a chunk byte by byte are `chunkCopy`.
-/

namespace PasswordWallet

open PowerLoss

variable (t : Target)

@[simp] def backupStatusOk : Byte := 0
@[simp] def backupStatusUpdate : Byte := 1
@[simp] def backupStatusChangeKey : Byte := 2
@[simp] def backupStatusChangeKeyChunkOk : Byte := 3
@[simp] def backupStatusChangeKeyUpdateCard : Byte := 4
@[simp] def backupStatusChangeKeyValidation : Byte := 5

/-- Copies the bytes of a chunk, one at a time. -/
def chunkCopy (src dst : ℕ → ℕ) : Dev Unit :=
  Program.forUp 0 sizeOfPwdBlock fun i => do
    let byte ← framReadByte (src i)
    framWriteByte (dst i) byte

def backupSave (pwdId : ℕ) (status : Byte) : Dev Unit := do
  chunkCopy (fun i => pwdAddr t.addressing pwdId i) (fun i => offsetBackupData + i)
  passwordWriteId offsetBackupId pwdId
  -- at the very last the status byte
  framWriteByte offsetBackupStatus status

def backupPartialRestore : Dev Unit := do
  let pwdId ← readImage (passwordReadId offsetBackupId)
  chunkCopy (fun i => offsetBackupData + i) (fun i => pwdAddr t.addressing pwdId i)

def backupFree : Dev Unit := do
  framWriteByte offsetBackupStatus backupStatusOk
  framSet offsetBackupData 0 sizeOfPwdBlock
  passwordWriteId offsetBackupId 0

def backupRestore : Dev Unit := do
  let backupStatus ← framReadByte offsetBackupStatus
  if backupStatus = backupStatusOk then pure ()
  else do
    backupPartialRestore t
    backupFree

def backupSetStatus (status : Byte) : Dev Unit := framWriteByte offsetBackupStatus status

/-! ## The section as data -/

def Image.backupStatus (p : Image) : Byte := p.byte 362

def Image.backupId (p : Image) : ℕ := p.word 363

def Image.backupByte (p : Image) (i : ℕ) : Byte := p.byte (365 + i)

def backupIdRegion : Set ℕ := {x | 363 ≤ x ∧ x < 365}

def backupDataRegion : Set ℕ := {x | 365 ≤ x ∧ x < 535}

def backupRegion : Set ℕ := {x | 362 ≤ x ∧ x < 535}

theorem backupIdRegion_subset : backupIdRegion ⊆ backupRegion := fun _ h =>
  ⟨le_trans (by decide) h.1, h.2.trans (by decide)⟩

theorem backupDataRegion_subset : backupDataRegion ⊆ backupRegion := fun _ h =>
  ⟨le_trans (by decide) h.1, h.2⟩

/-- The section holds a copy of a chunk, under its id. -/
structure Saved (chunk : ℕ → Byte) (pwdId : ℕ) (p : Image) : Prop where
  id : p.backupId = pwdId
  byte : ∀ i < 170, p.backupByte i = chunk i

section Frames

variable {R : Set ℕ} {p p' : Image}

theorem SameOff.backupStatus (h : SameOff R p p') (hR : 362 ∉ R) :
    p'.backupStatus = p.backupStatus := h.byte hR

theorem SameOff.backupId (h : SameOff R p p') (hlow : 363 ∉ R) (hhigh : 364 ∉ R) :
    p'.backupId = p.backupId := by
  refine h.word fun x hx => ?_
  rw [mem_burst (by simp)] at hx
  obtain rfl | rfl : x = 363 ∨ x = 364 := by omega
  · exact hlow
  · exact hhigh

theorem SameOff.backupByte (h : SameOff R p p') (hR : ∀ x, 365 ≤ x → x < 535 → x ∉ R) {i : ℕ}
    (hi : i < 170) : p'.backupByte i = p.backupByte i := by
  refine h.byte ?_
  rw [Nat.mod_eq_of_lt (by simp; omega)]
  exact hR _ (by omega) (by omega)

end Frames

/-! ## What the operations do -/

variable {t} {p : Image} {v : Ram}

/-- Copying, where no source is a target and no target is met twice.  On the way
each byte is the old or the new one. -/
theorem wp_chunkCopy (src dst : ℕ → ℕ) (R : Set ℕ)
    (hdst : ∀ i < 170, dst i % framByteSize ∈ R)
    (hsrc : ∀ i < 170, src i % framByteSize ∉ R)
    (hinjective : ∀ i < 170, ∀ j < 170, dst i % framByteSize = dst j % framByteSize → i = j) :
    wp (chunkCopy src dst)
      (fun _ p' v' => v' = v ∧ SameOff R p p' ∧ ∀ i < 170, p'.byte (dst i) = p.byte (src i))
      (fun _ _ => False)
      (fun step p' => step.write.Within R ∧ SameOff R p p' ∧
        ∀ i < 170, p'.byte (dst i) = p.byte (dst i) ∨ p'.byte (dst i) = p.byte (src i)) p v := by
  have hloop := wp_forUp (H := fun _ _ => False)
    (C := fun step p' => step.write.Within R ∧ SameOff R p p' ∧
      ∀ i < 170, p'.byte (dst i) = p.byte (dst i) ∨ p'.byte (dst i) = p.byte (src i))
    (fun i => do
      let byte ← framReadByte (src i)
      framWriteByte (dst i) byte)
    (fun k p' v' => v' = v ∧ SameOff R p p' ∧ (∀ i < k, p'.byte (dst i) = p.byte (src i)) ∧
      ∀ i, k ≤ i → i < 170 → p'.byte (dst i) = p.byte (dst i))
    0 170 ⟨rfl, SameOff.refl R p, fun i hi => absurd hi (by omega), fun _ _ _ => rfl⟩
    fun k p' v' _ hk ⟨hv, hsame, hdone, hrest⟩ => by
      simp only [wp_bind, wp_framReadByte, wp_framWriteByte]
      have hwithin : (Write.fram (dst k % framByteSize) (p'.byte (src k))).Within R :=
        hdst k (by omega)
      have hcopied : ∀ i < k + 1,
          (p'.store (dst k) [p'.byte (src k)]).byte (dst i) = p.byte (src i) := fun i hi => by
        rcases Nat.lt_succ_iff_lt_or_eq.mp hi with hlt | rfl
        · rw [← hdone i hlt]
          refine Function.update_of_ne (fun heq => ?_) _ _
          exact absurd (hinjective i (by omega) k (by omega) heq) (by omega)
        · rw [← hsame.byte (hsrc i (by omega))]
          exact Function.update_self _ _ _
      have hkept : ∀ i, k + 1 ≤ i → i < 170 →
          (p'.store (dst k) [p'.byte (src k)]).byte (dst i) = p.byte (dst i) :=
        fun i hi hlt => by
          rw [← hrest i (by omega) hlt]
          refine Function.update_of_ne (fun heq => ?_) _ _
          exact absurd (hinjective i hlt k (by omega) heq) (by omega)
      have hsame := hsame.trans (hwithin.sameOff p')
      refine ⟨⟨hwithin, hsame, fun i hi => ?_⟩, hv, hsame, hcopied, hkept⟩
      rcases Nat.lt_or_ge i (k + 1) with hlt | hge
      · exact Or.inr (hcopied i hlt)
      · exact Or.inl (hkept i hge hi)
  exact wp_imp hloop fun _ p' v' h => ⟨h.1, h.2.1, fun i hi => h.2.2.1 i (by omega)⟩

theorem chunk_address_injective {pwdId i j : ℕ} (hi : i < 170) (hj : j < 170)
    (h : (535 + 170 * pwdId + i) % framByteSize = (535 + 170 * pwdId + j) % framByteSize) :
    i = j := by
  simp only [framByteSize] at h
  omega

/-- The number that is read when only the low byte of the new one has been
written. -/
def tornId (old new : ℕ) : ℕ := new % 256 + 256 * (old / 256)

/-- The power losses while an id or a count is written. -/
theorem wp_passwordWriteId {addr n : ℕ} (hfit : addr + 2 ≤ framByteSize) (hn : n < 65536) :
    wp (passwordWriteId addr n)
      (fun _ p' v' => v' = v ∧ SameOff (burst addr 2) p p' ∧ p'.word addr = n)
      (fun _ _ => False)
      (fun step p' => step.write.Within (burst addr 2) ∧ SameOff (burst addr 2) p p' ∧
        (p'.word addr = tornId (p.word addr) n ∨ p'.word addr = n)) p v := by
  have hwhole : (p.store addr (wordBytes n)).word addr = n := Image.word_store_self hfit hn
  have htorn : (p.store addr ((wordBytes n).take 1)).word addr = tornId (p.word addr) n := by
    have hfit' : addr + [BitVec.ofNat 8 n].length ≤ framByteSize := by
      simp only [List.length_singleton]
      omega
    have hlow := Image.byte_store_getElem (p := p) (i := 0) hfit' (by simp)
    have hhigh : (p.store addr [BitVec.ofNat 8 n]).byte (addr + 1) = p.byte (addr + 1) :=
      Image.byte_store_of_disjoint hfit' (by omega) (Or.inr (by simp))
    have := (p.byte addr).isLt
    rw [Nat.add_zero, List.getElem_cons_zero] at hlow
    show (p.store addr [BitVec.ofNat 8 n]).word addr = _
    rw [Image.word, Image.word, hlow, hhigh, tornId, BitVec.toNat_ofNat]
    omega
  have hcut : wp (passwordWriteId addr n)
      (fun _ p' v' => v' = v ∧ p'.word addr = n) (fun _ _ => False)
      (fun step p' => step.write.Within (burst addr 2) ∧
        (p'.word addr = tornId (p.word addr) n ∨ p'.word addr = n)) p v := by
    refine wp_framWriteBytes (fun k hk => ⟨within_burst _ hk, ?_⟩) ⟨rfl, hwhole⟩
    obtain rfl | rfl : k = 0 ∨ k = 1 := by
      rw [length_wordBytes] at hk
      omega
    · exact Or.inl htorn
    · exact Or.inr hwhole
  have hwithin := wp_mono hcut (fun _ _ _ => id) (fun _ _ => id) fun _ _ h => h.1
  exact wp_mono (wp_and hcut (wp_sameOff hwithin)) (fun _ _ _ h => ⟨h.1.1, h.2.1, h.1.2⟩)
    (fun _ _ h => h.1) fun _ _ h => ⟨h.1.1, h.2.2, h.1.2⟩

theorem wp_writeBackupId {pwdId : ℕ} (hid : pwdId < 65536) :
    wp (passwordWriteId offsetBackupId pwdId)
      (fun _ p' v' => v' = v ∧ SameOff backupIdRegion p p' ∧ p'.backupId = pwdId)
      (fun _ _ => False)
      (fun step p' => step.write.Within backupIdRegion ∧ SameOff backupIdRegion p p' ∧
        (p'.backupId = tornId p.backupId pwdId ∨ p'.backupId = pwdId)) p v := by
  have hregion : burst offsetBackupId 2 ⊆ backupIdRegion := fun x hx =>
    (mem_burst (by simp)).mp hx
  exact wp_mono (wp_passwordWriteId (by simp) hid)
    (fun _ _ _ h => ⟨h.1, h.2.1.mono hregion, h.2.2⟩) (fun _ _ => id)
    fun _ _ h => ⟨h.1.mono hregion, h.2.1.mono hregion, h.2.2⟩

/-- The power losses inside `backup_save`.  Before the status is written the
section may hold anything, except that a copy of the same chunk stays one; and
its id is the old one, or is being written. -/
def SaveCut (p : Image) (pwdId : ℕ) (status : Byte) (step : Step Write) (p' : Image) : Prop :=
  step.write.Within backupRegion ∧ SameOff backupRegion p p' ∧
    ((p'.backupStatus = p.backupStatus ∧
        (Saved (p.chunkByte pwdId) pwdId p → Saved (p.chunkByte pwdId) pwdId p') ∧
        (p'.backupId = p.backupId ∨ step.write.Within backupIdRegion ∧
          (p'.backupId = tornId p.backupId pwdId ∨ p'.backupId = pwdId))) ∨
      (p'.backupStatus = status ∧ Saved (p.chunkByte pwdId) pwdId p'))

/-- Copying the chunk into the section. -/
private theorem wp_saveData {pwdId : ℕ} (hplain : t.addressing.Plain pwdId) (hid : pwdId < 768) :
    wp (chunkCopy (fun i => pwdAddr t.addressing pwdId i) (fun i => offsetBackupData + i))
      (fun _ p' v' => v' = v ∧ SameOff backupDataRegion p p' ∧
        ∀ i < 170, p'.backupByte i = p.chunkByte pwdId i)
      (fun _ _ => False)
      (fun step p' => step.write.Within backupDataRegion ∧ SameOff backupDataRegion p p' ∧
        ∀ i < 170, p'.backupByte i = p.backupByte i ∨ p'.backupByte i = p.chunkByte pwdId i)
      p v := by
  have hsrc : ∀ i < 170, p.byte (pwdAddr t.addressing pwdId i) = p.chunkByte pwdId i :=
    fun i hi => by rw [hplain i hi, Image.chunkByte]
  refine wp_mono (wp_chunkCopy _ _ backupDataRegion ?_ ?_ ?_) ?_ (fun _ _ => id) ?_
  · intro i hi
    simp [backupDataRegion]
    omega
  · intro i hi hmem
    rw [hplain i hi] at hmem
    exact notMem_chunkRegion hid (le_trans (by decide) hmem.1) hmem.2 ⟨i, hi, rfl⟩
  · intro i hi j hj h
    simp at h
    omega
  · rintro _ p' v' ⟨hv, hsame, hcopy⟩
    exact ⟨hv, hsame, fun i hi => (hcopy i hi).trans (hsrc i hi)⟩
  · rintro step p' ⟨hwithin, hsame, hcopy⟩
    exact ⟨hwithin, hsame, fun i hi => (hcopy i hi).imp_right fun h => h.trans (hsrc i hi)⟩

theorem wp_backupSave {pwdId : ℕ} {status : Byte} (hplain : t.addressing.Plain pwdId)
    (hid : pwdId < 768) :
    wp (backupSave t pwdId status)
      (fun _ p' v' => v' = v ∧ SameOff backupRegion p p' ∧ p'.backupStatus = status ∧
        Saved (p.chunkByte pwdId) pwdId p')
      (fun _ _ => False) (SaveCut p pwdId status) p v := by
  have hidstatus : 362 ∉ backupIdRegion := fun h => absurd h.1 (by decide)
  have hdatastatus : 362 ∉ backupDataRegion := fun h => absurd h.1 (by decide)
  have hdataid : ∀ {p₁ p₂}, SameOff backupDataRegion p₁ p₂ → p₂.backupId = p₁.backupId :=
    fun hsame => hsame.backupId (fun h => absurd h.1 (by decide)) fun h => absurd h.1 (by decide)
  have hiddata : ∀ {p₁ p₂}, SameOff backupIdRegion p₁ p₂ →
      ∀ i < 170, p₂.backupByte i = p₁.backupByte i := fun hsame i hi =>
    hsame.backupByte (fun x hx _ hmem => absurd hmem.2 (by omega)) hi
  rw [backupSave, wp_bind]
  refine wp_mono (wp_saveData hplain hid) ?_ (fun _ _ => False.elim) ?_
  · rintro _ p₁ v₁ ⟨hv₁, hsame₁, hcopied⟩
    subst hv₁
    have hdata₁ := hsame₁.mono backupDataRegion_subset
    rw [wp_bind]
    refine wp_mono (wp_writeBackupId (by omega)) ?_ (fun _ _ => False.elim) ?_
    · rintro _ p₂ v₂ ⟨hv₂, hsame₂, hid₂⟩
      subst hv₂
      have hsaved : Saved (p.chunkByte pwdId) pwdId (p₂.store offsetBackupStatus [status]) := by
        refine ⟨?_, fun i hi => ?_⟩
        · rw [← hid₂]
          exact Image.word_store_of_disjoint (by simp) (by simp) (Or.inr (by simp))
        · rw [← hcopied i hi, ← hiddata hsame₂ i hi]
          exact Image.byte_store_of_disjoint (by simp) (by simp; omega) (Or.inr (by simp; omega))
      have hstatus : (p₂.store offsetBackupStatus [status]).backupStatus = status :=
        Image.byte_store_getElem (i := 0) (by simp) (by simp)
      have hlast : (Write.fram (offsetBackupStatus % framByteSize) status).Within backupRegion := by
        simp [Write.Within, backupRegion]
      have hsame := (hdata₁.trans (hsame₂.mono backupIdRegion_subset)).trans (hlast.sameOff p₂)
      rw [wp_framWriteByte]
      exact ⟨⟨hlast, hsame, Or.inr ⟨hstatus, hsaved⟩⟩, rfl, hsame, hstatus, hsaved⟩
    · rintro step p' ⟨hwithin, hsame, htorn⟩
      refine ⟨hwithin.mono backupIdRegion_subset,
        hdata₁.trans (hsame.mono backupIdRegion_subset), Or.inl ⟨?_, fun hsaved => ?_, ?_⟩⟩
      · rw [hsame.backupStatus hidstatus, hsame₁.backupStatus hdatastatus]
      · refine ⟨?_, fun i hi => (hiddata hsame i hi).trans (hcopied i hi)⟩
        have hold := (hdataid hsame₁).trans hsaved.id
        rcases htorn with htorn | htorn
        · rw [htorn, hold, tornId, Nat.mod_add_div]
        · exact htorn
      · rw [hdataid hsame₁] at htorn
        exact Or.inr ⟨hwithin, htorn⟩
  · rintro step p' ⟨hwithin, hsame, hcopy⟩
    refine ⟨hwithin.mono backupDataRegion_subset, hsame.mono backupDataRegion_subset,
      Or.inl ⟨hsame.backupStatus hdatastatus, fun hsaved => ?_, Or.inl (hdataid hsame)⟩⟩
    refine ⟨(hdataid hsame).trans hsaved.id, fun i hi => ?_⟩
    rcases hcopy i hi with h | h
    · rw [h, hsaved.byte i hi]
    · exact h

/-- Restoring only touches the chunk, and gives it the bytes of the copy. -/
theorem wp_backupPartialRestore (hplain : t.addressing.Plain p.backupId)
    (hid : p.backupId < 768) :
    wp (backupPartialRestore t)
      (fun _ p' v' => v' = v ∧ SameOff (chunkRegion p.backupId) p p' ∧
        ∀ i < 170, p'.chunkByte p.backupId i = p.backupByte i)
      (fun _ _ => False)
      (fun step p' => step.write.Within (chunkRegion p.backupId) ∧
        SameOff (chunkRegion p.backupId) p p') p v := by
  have hread : passwordReadId offsetBackupId p = p.backupId := rfl
  simp only [backupPartialRestore, wp_bind, wp_readImage, hread]
  refine wp_mono (wp_chunkCopy _ _ (chunkRegion p.backupId) ?_ ?_ ?_) ?_ (fun _ _ => id)
    fun _ _ h => ⟨h.1, h.2.1⟩
  · intro i hi
    rw [hplain i hi]
    exact ⟨i, hi, rfl⟩
  · intro i hi
    refine notMem_chunkRegion hid ?_ ?_
    all_goals
      rw [Nat.mod_eq_of_lt (by simp; omega)]
      simp
      omega
  · intro i hi j hj h
    rw [hplain i hi, hplain j hj] at h
    exact chunk_address_injective hi hj h
  · rintro _ p' v' ⟨hv, hsame, hcopy⟩
    refine ⟨hv, hsame, fun i hi => ?_⟩
    have := hcopy i hi
    rw [hplain i hi] at this
    simpa [Image.chunkByte, Image.backupByte] using this

theorem wp_backupSetStatus {status : Byte} {H : Image → Ram → Prop}
    {C : Step Write → Image → Prop} {Q : Unit → Image → Ram → Prop} :
    wp (backupSetStatus status) Q H C p v ↔
      C ⟨.fram 362 status, false⟩ (p.store 362 [status]) ∧ Q () (p.store 362 [status]) v := by
  rw [backupSetStatus, wp_framWriteByte]
  rfl

theorem Image.backupStatus_store (p : Image) (status : Byte) :
    (p.store 362 [status]).backupStatus = status :=
  Image.byte_store_getElem (i := 0) (by simp) (by simp)

private theorem wp_backupFree_status :
    wp backupFree (fun _ p' v' => v' = v ∧ p'.backupStatus = backupStatusOk)
      (fun _ _ => False)
      (fun step p' => step.write.Within backupRegion ∧ p'.backupStatus = backupStatusOk) p v := by
  -- behind the status byte
  let R : Set ℕ := {x | 363 ≤ x ∧ x < 535}
  have hR : R ⊆ backupRegion := fun x hx => ⟨le_trans (by decide) hx.1, hx.2⟩
  have hkept : ∀ {addr : ℕ} {bytes : List Byte} {p₁ : Image} {v₁ : Ram}, 363 ≤ addr →
      addr + bytes.length ≤ 535 → p₁.backupStatus = backupStatusOk →
      wp (framWriteBytes addr bytes)
        (fun _ p' v' => v' = v₁ ∧ p'.backupStatus = backupStatusOk) (fun _ _ => False)
        (fun step p' => step.write.Within backupRegion ∧ p'.backupStatus = backupStatusOk)
        p₁ v₁ := by
    intro addr bytes p₁ v₁ hlow hhigh hok
    have hsub : burst addr bytes.length ⊆ R := fun x hx => by
      rw [mem_burst (by simp only [framByteSize]; omega)] at hx
      exact ⟨hlow.trans hx.1, hx.2.trans_le hhigh⟩
    have h362 : 362 ∉ R := fun h => absurd h.1 (by decide)
    refine wp_mono (wp_sameOff (wp_framWriteBytes_within hsub)) ?_ (fun _ _ => False.elim) ?_
    · rintro _ p' v' ⟨hsame, -, hv⟩
      exact ⟨hv, (hsame.backupStatus h362).trans hok⟩
    · rintro step p' ⟨hwithin, hsame⟩
      exact ⟨hwithin.mono hR, (hsame.backupStatus h362).trans hok⟩
  simp only [backupFree, wp_bind, framSet, passwordWriteId]
  rw [wp_framWriteByte]
  refine ⟨⟨by simp [Write.Within, backupRegion], p.backupStatus_store _⟩, ?_⟩
  refine wp_imp (hkept (by simp) ?_ (p.backupStatus_store _)) ?_
  · rw [List.length_replicate]
    simp
  · rintro _ p₂ v₂ ⟨rfl, hok₂⟩
    exact hkept (by simp) (by simp) hok₂

/-- Freeing writes the status first; from there on it is `BACKUP_STATUS_OK`. -/
theorem wp_backupFree :
    wp backupFree
      (fun _ p' v' => v' = v ∧ SameOff backupRegion p p' ∧ p'.backupStatus = backupStatusOk)
      (fun _ _ => False)
      (fun step p' => step.write.Within backupRegion ∧ SameOff backupRegion p p' ∧
        p'.backupStatus = backupStatusOk) p v := by
  have hwithin := wp_mono (wp_backupFree_status (p := p) (v := v)) (fun _ _ _ => id)
    (fun _ _ => id) fun _ _ h => h.1
  exact wp_mono (wp_and wp_backupFree_status (wp_sameOff hwithin))
    (fun _ _ _ h => ⟨h.1.1, h.2.1, h.1.2⟩) (fun _ _ h => h.1)
    fun _ _ h => ⟨h.1.1, h.2.2, h.1.2⟩

/-- The power losses inside `backup_restore`: while the chunk is copied back,
or once it has been. -/
def RestoreCut (p : Image) (step : Step Write) (p' : Image) : Prop :=
  step.write.Within (chunkRegion p.backupId ∪ backupRegion) ∧
    (SameOff (chunkRegion p.backupId) p p' ∨
      (p'.backupStatus = backupStatusOk ∧
        ∀ i < 170, p'.chunkByte p.backupId i = p.backupByte i))

theorem wp_backupRestore (hplain : t.addressing.Plain p.backupId) (hid : p.backupId < 768) :
    wp (backupRestore t)
      (fun _ p' v' => v' = v ∧ p'.backupStatus = backupStatusOk ∧
        (p.backupStatus ≠ backupStatusOk →
          ∀ i < 170, p'.chunkByte p.backupId i = p.backupByte i))
      (fun _ _ => False) (RestoreCut p) p v := by
  simp only [backupRestore, wp_bind, wp_framReadByte, wp_ite, wp_pure]
  refine ⟨fun hok => ⟨trivial, hok, fun hne => absurd hok hne⟩, fun _ => ?_⟩
  refine wp_mono (wp_backupPartialRestore hplain hid) ?_ (fun _ _ => False.elim) ?_
  · rintro _ p₁ v₁ ⟨hv₁, -, hcopy⟩
    subst hv₁
    have hkept : ∀ {p' : Image}, SameOff backupRegion p₁ p' →
        ∀ i < 170, p'.chunkByte p.backupId i = p.backupByte i := fun hsame i hi =>
      (hsame.chunkByte hi fun x hx hmem =>
        notMem_chunkRegion hid (le_trans (by decide) hmem.1) hmem.2 hx).trans (hcopy i hi)
    refine wp_mono wp_backupFree ?_ (fun _ _ => id) ?_
    · rintro _ p' v' ⟨hv', hsame, hok⟩
      exact ⟨hv', hok, fun _ => hkept hsame⟩
    · rintro step p' ⟨hwithin, hsame, hok⟩
      exact ⟨hwithin.mono Set.subset_union_right, Or.inr ⟨hok, hkept hsame⟩⟩
  · rintro step p' ⟨hwithin, hsame⟩
    exact ⟨hwithin.mono Set.subset_union_left, Or.inl hsame⟩

end PasswordWallet
