import PasswordWallet.Security.Encryption
import PasswordWallet.Security.PasswordList

/-!
# What `encryption_update_key` does

One chunk first: `updateChunk` leaves the chunk readable under the new key with
the secrets it had under the old one, and every power loss inside it is one of
those of `backup_save`, or falls under a complete copy, or comes after the
chunk is done (`ChunkCut`).

Then the loops: `wp_encryptionUpdateKey` is an induction rule over the chunk ids
that the call visits.  These are the used ids of one byte of the memory map,
from the starting id on; the rest of the map is read and nothing else.
-/

namespace PasswordWallet

open PowerLoss

variable {t : Target} {p p' : Image} {v : Ram}

/-! ## Secrets -/

/-- The password and the user name of a chunk, as read under a key. -/
def secrets (t : Target) (pwdId : ℕ) (key : Block) (p : Image) : List Byte × List Byte :=
  (passwordReadData t pwdId key p, passwordReadUsrName t pwdId key p)

/-- The secrets depend on the bytes of the chunk only. -/
theorem secrets_congr {pwdId : ℕ} {key : Block} (hplain : t.addressing.Plain pwdId)
    (h : ∀ i, 42 ≤ i → i < 170 → p'.chunkByte pwdId i = p.chunkByte pwdId i) :
    secrets t pwdId key p' = secrets t pwdId key p := by
  rw [secrets, secrets, passwordReadData_congr hplain fun i hi hi' => h i hi (by omega),
    passwordReadUsrName_congr hplain fun i hi hi' => h i (by omega) hi']

theorem length_passwordReadData (pwdId : ℕ) (key : Block) :
    (passwordReadData t pwdId key p).length = 32 := by
  rw [passwordReadData, readAndDecrypt, length_removePadding,
    length_cbcDecrypt _ _ _ _ (Image.length_bytes ..)]

theorem length_passwordReadUsrName (pwdId : ℕ) (key : Block) :
    (passwordReadUsrName t pwdId key p).length = 64 := by
  rw [passwordReadUsrName, readAndDecrypt, length_removePadding,
    length_cbcDecrypt _ _ _ _ (Image.length_bytes ..)]

theorem removePadding_passwordReadData (pwdId : ℕ) (key : Block) :
    removePadding false (passwordReadData t pwdId key p) = passwordReadData t pwdId key p :=
  removePadding_removePadding _

theorem removePadding_passwordReadUsrName (pwdId : ℕ) (key : Block) :
    removePadding false (passwordReadUsrName t pwdId key p) = passwordReadUsrName t pwdId key p :=
  removePadding_removePadding _

/-! ## One chunk -/

/-- The bytes that re-keying a chunk writes outside the backup section. -/
def secretRegion (pwdId : ℕ) : Set ℕ := burst (535 + 170 * pwdId + 42) 128

theorem secretRegion_subset {pwdId : ℕ} : secretRegion pwdId ⊆ chunkRegion pwdId :=
  burst_subset_chunkRegion (by decide)

def updateRegion (pwdId : ℕ) : Set ℕ := drawing (secretRegion pwdId ∪ backupRegion)

/-- The power losses inside the update of a chunk: in `backup_save`, under the
complete copy, or with the chunk done. -/
def ChunkCut (t : Target) (newKey key : Block) (p : Image) (pwdId : ℕ) (step : Step Write)
    (p' : Image) : Prop :=
  SaveCut p pwdId backupStatusChangeKey step p' ∨
    (p'.backupStatus = backupStatusChangeKey ∧ Saved (p.chunkByte pwdId) pwdId p' ∧
      step.write.Within (drawing (secretRegion pwdId))) ∨
    (p'.backupStatus = backupStatusChangeKeyChunkOk ∧ p'.backupId = pwdId ∧
      step.write = .fram 362 backupStatusChangeKeyChunkOk ∧
      (pwdId < 767 → secrets t pwdId newKey p' = secrets t pwdId key p))

theorem Saved.of_sameOff {chunk : ℕ → Byte} {pwdId : ℕ} {R : Set ℕ} (h : Saved chunk pwdId p)
    (hsame : SameOff R p p') (hR : ∀ x, 363 ≤ x → x < 535 → x ∉ R) : Saved chunk pwdId p' :=
  ⟨(hsame.backupId (hR _ (by decide) (by decide)) (hR _ (by decide) (by decide))).trans h.id,
    fun i hi => (hsame.backupByte (fun x hx => hR x (by omega)) hi).trans (h.byte i hi)⟩

theorem chunkByte_notMem_pool {pwdId i : ℕ} (hid : pwdId < 767) (hi : i < 170) {R : Set ℕ}
    (hR : 535 + 170 * pwdId + i ∉ R) :
    (535 + 170 * pwdId + i) % framByteSize ∉ drawing R := by
  rw [Nat.mod_eq_of_lt (by simp only [framByteSize]; omega)]
  exact notMem_drawing (by omega) hR

/-- Re-keying one chunk. -/
theorem wp_updateChunk {newKey : Block} {pwdId : ℕ} (hplain : t.addressing.Plain pwdId)
    (hid : pwdId < 768) :
    wp (updateChunk t newKey pwdId)
      (fun _ p' v' => Drawn v v' ∧ p'.backupStatus = backupStatusChangeKeyChunkOk ∧
        p'.backupId = pwdId ∧
        (pwdId < 767 → secrets t pwdId newKey p' = secrets t pwdId v.key p))
      (fun _ _ => False)
      (fun step p' => step.write.Within (updateRegion pwdId) ∧
        ChunkCut t newKey v.key p pwdId step p') p v := by
  have hbackup : backupRegion ⊆ updateRegion pwdId :=
    Set.subset_union_right.trans Set.subset_union_right
  have hsecret : drawing (secretRegion pwdId) ⊆ updateRegion pwdId :=
    Set.union_subset_union_right _ Set.subset_union_left
  -- the backup section is out of reach of the writes to the chunk
  have hclear : ∀ x, 362 ≤ x → x < 535 → x ∉ drawing (secretRegion pwdId) := fun x hx hx' =>
    notMem_drawing (by omega) fun h =>
      notMem_chunkRegion hid (by omega) hx' (secretRegion_subset h)
  have hdata : drawing (burst (535 + 170 * pwdId + 42) 48) ⊆ drawing (secretRegion pwdId) :=
    Set.union_subset_union_right _ (burst_subset (k := 0) (by decide))
  have husr : drawing (burst (535 + 170 * pwdId + 90) 80) ⊆ drawing (secretRegion pwdId) :=
    Set.union_subset_union_right _ (burst_subset (k := 48) (by decide))
  rw [updateChunk, wp_bind]
  refine wp_mono (wp_backupSave hplain hid) ?_ (fun _ _ => False.elim)
    fun step p' hcut => ⟨hcut.1.mono hbackup, Or.inl hcut⟩
  rintro _ p₁ v₁ ⟨hv₁, hsame₁, hstatus₁, hsaved₁⟩
  subst hv₁
  have hread₁ : secrets t pwdId v₁.key p₁ = secrets t pwdId v₁.key p :=
    secrets_congr hplain fun i _ hi => hsame₁.chunkByte hi fun x hx hmem =>
      notMem_chunkRegion hid (le_trans (by decide) hmem.1) hmem.2 hx
  rw [wp_bind, wp_ram, wp_bind, wp_readImage, wp_bind]
  refine wp_mono (wp_sameOff (wp_passwordSetData hplain)) ?_ (fun _ _ => False.elim) ?_
  · rintro _ p₂ v₂ ⟨hsame₂, hdrawn₂, hdata₂⟩
    rw [wp_bind, wp_readImage, wp_bind]
    refine wp_mono (wp_sameOff (wp_passwordSetUsrName hplain)) ?_ (fun _ _ => False.elim) ?_
    · rintro _ p₃ v₃ ⟨hsame₃, hdrawn₃, husr₃⟩
      rw [wp_backupSetStatus]
      have hsame := (hsame₂.mono hdata).trans (hsame₃.mono husr)
      have hid₃ : p₃.backupId = pwdId :=
        (hsaved₁.of_sameOff hsame fun x hx hx' => hclear x (by omega) hx').id
      have hid₄ : (p₃.store 362 [backupStatusChangeKeyChunkOk]).backupId = pwdId := by
        rw [← hid₃]
        exact Image.word_store_of_disjoint (by simp) (by simp) (Or.inr (by simp))
      have hdone : pwdId < 767 →
          secrets t pwdId newKey (p₃.store 362 [backupStatusChangeKeyChunkOk]) =
            secrets t pwdId v₁.key p := by
        intro hlt
        have hkept : secrets t pwdId newKey (p₃.store 362 [backupStatusChangeKeyChunkOk]) =
            secrets t pwdId newKey p₃ := secrets_congr hplain fun i _ hi =>
          Image.byte_store_of_disjoint (by simp) (by simp; omega) (Or.inr (by simp; omega))
        -- writing the user name leaves the password alone, and the other way round
        have hpwd₃ : passwordReadData t pwdId newKey p₃ = passwordReadData t pwdId newKey p₂ :=
          passwordReadData_congr hplain fun i hi hi' => hsame₃.byte
            (chunkByte_notMem_pool hlt (by omega) (by rw [mem_burst (by simp; omega)]; omega))
        have husr₂ : passwordReadUsrName t pwdId v₁.key p₂ =
            passwordReadUsrName t pwdId v₁.key p₁ :=
          passwordReadUsrName_congr hplain fun i hi hi' => hsame₂.byte
            (chunkByte_notMem_pool hlt hi' (by rw [mem_burst (by simp; omega)]; omega))
        rw [hkept, ← hread₁, secrets, secrets, hpwd₃, hdata₂ hlt (length_passwordReadData ..),
          husr₃ hlt (length_passwordReadUsrName ..), removePadding_passwordReadData,
          removePadding_passwordReadUsrName, husr₂]
      refine ⟨⟨?_, Or.inr (Or.inr ⟨Image.backupStatus_store .., hid₄, rfl, hdone⟩)⟩,
        hdrawn₂.trans hdrawn₃, Image.backupStatus_store .., hid₄, hdone⟩
      exact hbackup (show 362 ≤ 362 ∧ 362 < 535 by decide)
    · rintro step p' ⟨hwithin, hsame⟩
      have hsame := (hsame₂.mono hdata).trans (hsame.mono husr)
      refine ⟨(hwithin.mono husr).mono hsecret, Or.inr (Or.inl ⟨?_, ?_, hwithin.mono husr⟩)⟩
      · exact (hsame.backupStatus (hclear _ (by decide) (by decide))).trans hstatus₁
      · exact hsaved₁.of_sameOff hsame fun x hx hx' => hclear x (by omega) hx'
  · rintro step p' ⟨hwithin, hsame⟩
    have hsame := hsame.mono hdata
    refine ⟨(hwithin.mono hdata).mono hsecret, Or.inr (Or.inl ⟨?_, ?_, hwithin.mono hdata⟩)⟩
    · exact (hsame.backupStatus (hclear _ (by decide) (by decide))).trans hstatus₁
    · exact hsaved₁.of_sameOff hsame fun x hx hx' => hclear x (by omega) hx'

/-! ## The loops -/

/-- Once `j` has reached 8 the outer loop only reads the map. -/
theorem wp_updateKeyRows_spent {newKey : Block} {count i j : ℕ} {Q : Unit → Image → Ram → Prop}
    {H : Image → Ram → Prop} {C : Step Write → Image → Prop} (hj : 8 ≤ j) (hQ : Q () p v) :
    wp (updateKeyRows t newKey count i j) Q H C p v := by
  induction count generalizing i j with
  | zero => exact (wp_pure _).mpr hQ
  | succ count ih =>
      rw [updateKeyRows, wp_bind, wp_framReadByte, wp_bind, Nat.sub_eq_zero_of_le hj,
        Program.forUp, wp_pure]
      exact ih (by omega)

/-- The induction rule of `encryption_update_key`: an invariant of the ids that
it visits, which are those of one byte of the map, from the starting id on. -/
theorem wp_encryptionUpdateKey {newKey : Block} {startFrom : ℕ}
    {Q : Unit → Image → Ram → Prop} {H : Image → Ram → Prop} {C : Step Write → Image → Prop}
    (Inv : ℕ → Image → Ram → Prop) (hrow : startFrom < 792) (hstart : Inv startFrom p v)
    (hvisit : ∀ pwdId p' v', startFrom ≤ pwdId → pwdId / 8 = startFrom / 8 → pwdId < 768 →
      p.used pwdId = true → Inv pwdId p' v' →
      wp (updateChunk t newKey pwdId) (fun _ p'' v'' => Inv (pwdId + 1) p'' v'') H C p' v')
    (hskip : ∀ pwdId p' v', startFrom ≤ pwdId → pwdId / 8 = startFrom / 8 →
      ¬ (pwdId < 768 ∧ p.used pwdId = true) → Inv pwdId p' v' → Inv (pwdId + 1) p' v')
    (hend : ∀ p' v', Inv (8 * (startFrom / 8) + 8) p' v' → Q () p' { v' with key := newKey }) :
    wp (encryptionUpdateKey t newKey startFrom) Q H C p v := by
  have hsplit := Nat.div_add_mod startFrom 8
  have hmod := Nat.mod_lt startFrom (show 0 < 8 by decide)
  have hbyte : startFrom / 8 % 256 = startFrom / 8 := Nat.mod_eq_of_lt (by omega)
  have hcount : sizeMemoryMap - startFrom / 8 = 98 - startFrom / 8 + 1 := by
    simp only [sizeMemoryMap]
    omega
  simp only [encryptionUpdateKey, hbyte, hcount, updateKeyRows, wp_bind, wp_framReadByte,
    wp_modifyRam]
  have hloop := wp_forUp (H := H) (C := C) (p := p) (v := v)
    (updateKeyBit t newKey (p.byte (offsetMemoryMap + startFrom / 8)) (startFrom / 8))
    (fun j p' v' => Inv (8 * (startFrom / 8) + j) p' v') (startFrom % 8) (8 - startFrom % 8)
    (by rwa [hsplit]) ?_
  · refine wp_imp hloop fun _ p' v' hinv => ?_
    rw [Nat.add_sub_cancel' hmod.le] at hinv
    exact wp_updateKeyRows_spent (by omega) (hend _ _ hinv)
  · intro j p' v' hle hlt hinv
    have hindex : startFrom / 8 * 8 + j = 8 * (startFrom / 8) + j := by omega
    have hdiv : (8 * (startFrom / 8) + j) / 8 = startFrom / 8 := by omega
    have hused : (p.byte (offsetMemoryMap + startFrom / 8)).getLsbD j =
        p.used (8 * (startFrom / 8) + j) := by
      rw [Image.used, hdiv, show (8 * (startFrom / 8) + j) % 8 = j by omega]
    rw [updateKeyBit, hindex, hused, wp_ite, wp_ite, wp_pure]
    have hskip' := hskip (8 * (startFrom / 8) + j) p' v' (by omega) hdiv
    refine ⟨fun hid => ⟨fun hbit => ?_, fun hbit => ?_⟩, fun hid => ?_⟩
    · exact hvisit _ p' v' (by omega) hdiv hid hbit hinv
    · exact hskip' (fun h => hbit h.2) hinv
    · exact hskip' (fun h => hid h.1) hinv

end PasswordWallet
