import PasswordWallet.Security.Encryption

/-!
# Where the accesses to a chunk go on the AVR

The target computes `PWD_ADDR` in 16 bits.  Up to id 381 every field of a chunk
still has the address its number says, so an operation on the chunk stays in
the chunk; from id 382 on some field wraps round to the low end of the memory,
and there is a store on which an operation on that chunk changes a byte that is
not the chunk's.  `chunkOperation_confined_iff` says so for every id that the
add menu can allocate.

Apart from their chunk, operations that encrypt draw from the entropy pool, and
a restore frees the backup section; this is their purpose and
`ChunkOperation.region` allows for it.
-/

namespace PasswordWallet

open PowerLoss

/-- The operations that reach a chunk through `PWD_ADDR`. -/
inductive ChunkOperation
  | setPrevPwdUse (val : ℕ)
  | setNextPwdUse (val : ℕ)
  | setPrevPwdAlpha (val : ℕ)
  | setNextPwdAlpha (val : ℕ)
  | setCounter (val : ℕ)
  | setName (name : Vector Byte 32)
  | setData (pwd : List Byte) (key : Block)
  | setUsrName (usr : List Byte) (key : Block)
  | clear
  | restore

namespace ChunkOperation

def run (t : Target) (pwdId : ℕ) : ChunkOperation → Dev Unit
  | setPrevPwdUse val => passwordSetPrevPwdUse t pwdId val
  | setNextPwdUse val => passwordSetNextPwdUse t pwdId val
  | setPrevPwdAlpha val => passwordSetPrevPwdAlpha t pwdId val
  | setNextPwdAlpha val => passwordSetNextPwdAlpha t pwdId val
  | setCounter val => passwordSetCounter t pwdId val
  | setName name => passwordSetName t pwdId name
  | setData pwd key => passwordSetData t pwdId pwd key
  | setUsrName usr key => passwordSetUsrName t pwdId usr key
  | clear => framSet (pwdAddr t.addressing pwdId 0) 0 sizeOfPwdBlock
  | restore => backupRestore t

/-- The stores on which the operation is one on the chunk: a restore restores
the chunk whose id is in the backup section. -/
def On (pwdId : ℕ) (p : Image) : ChunkOperation → Prop
  | restore => p.backupId = pwdId
  | _ => True

/-- The bytes that are the operation's to change. -/
def region (pwdId : ℕ) : ChunkOperation → Set ℕ
  | setData _ _ => drawing (chunkRegion pwdId)
  | setUsrName _ _ => drawing (chunkRegion pwdId)
  | restore => chunkRegion pwdId ∪ backupRegion
  | _ => chunkRegion pwdId

end ChunkOperation

variable {t : Target} {pwdId : ℕ} {p : Image} {v : Ram}

/-- On a plain chunk every operation stays where it belongs. -/
theorem wp_chunkOperation (hplain : t.addressing.Plain pwdId) (hid : pwdId < 768)
    (op : ChunkOperation) (hon : op.On pwdId p) :
    wp (op.run t pwdId) (fun _ _ _ => True) (fun _ _ => False)
      (fun step _ => step.write.Within (op.region pwdId)) p v := by
  have hfield : ∀ {field : ℕ} {bytes : List Byte}, field < 170 → field + bytes.length ≤ 170 →
      wp (framWriteBytes (pwdAddr t.addressing pwdId field) bytes) (fun _ _ _ => True)
        (fun _ _ => False) (fun step _ => step.write.Within (chunkRegion pwdId)) p v :=
    fun hlt hsize => wp_imp (wp_chunkField hplain hlt hsize) fun _ _ _ _ => trivial
  have hsecret : ∀ {field size : ℕ}, field + size ≤ 170 →
      drawing (burst (535 + 170 * pwdId + field) size) ⊆ drawing (chunkRegion pwdId) :=
    fun hsize => Set.union_subset_union_right _ (burst_subset_chunkRegion hsize)
  cases op with
  | setPrevPwdUse val => exact hfield (by decide) (by simp)
  | setNextPwdUse val => exact hfield (by decide) (by simp)
  | setPrevPwdAlpha val => exact hfield (by decide) (by simp)
  | setNextPwdAlpha val => exact hfield (by decide) (by simp)
  | setCounter val => exact hfield (by decide) (by simp)
  | setName name => exact hfield (by decide) (by simp)
  | setData pwd key =>
      exact wp_mono (wp_passwordSetData hplain) (fun _ _ _ _ => trivial) (fun _ _ => id)
        fun _ _ h => h.mono (hsecret (by decide))
  | setUsrName usr key =>
      exact wp_mono (wp_passwordSetUsrName hplain) (fun _ _ _ _ => trivial) (fun _ _ => id)
        fun _ _ h => h.mono (hsecret (by decide))
  | clear => exact hfield (by decide) (by rw [List.length_replicate]; simp)
  | restore =>
      have hon : p.backupId = pwdId := hon
      subst hon
      exact wp_mono (wp_backupRestore hplain hid) (fun _ _ _ _ => trivial) (fun _ _ => id)
        fun _ _ h => h.1

/-! ## The ids that wrap -/

/-- On the empty store, the first link of chunk 383 or later goes to another
chunk or to the front of the memory. -/
private theorem wp_setPrevPwdUse_wrapped (cipher : BlockCipher) (hlow : 383 ≤ pwdId)
    (hhigh : pwdId < 767) :
    wp (passwordSetPrevPwdUse ⟨.avr, cipher⟩ pwdId 1)
      (fun _ p' _ => p'.fram (170 * pwdId - 65001) = 1) (fun _ _ => False) (fun _ _ => True)
      Image.zero v := by
  have haddr : pwdAddr .avr pwdId pwdOffsetPrevPwdUse = 170 * pwdId - 65001 := by
    simp [pwdAddr]
    omega
  rw [passwordSetPrevPwdUse, passwordWriteId, haddr]
  refine wp_framWriteBytes (fun _ _ => trivial) ?_
  have hfirst := @Image.store_fram_getElem Image.zero (170 * pwdId - 65001) 0 (wordBytes 1)
    (by decide) (by decide)
  rw [Nat.add_zero, Nat.mod_eq_of_lt (by rw [framByteSize]; omega)] at hfirst
  rw [hfirst]
  rfl

/-- A backup of chunk 382 whose byte 61 is not zero. -/
private def backupOf382 : Image :=
  { Image.zero with
    fram := fun x => if x = 362 then 1 else if x = 363 then 126 else if x = 364 then 1
      else if x = 426 then 1 else 0 }

/-- Restoring it puts that byte over the option flag. -/
private theorem wp_backupRestore_wrapped (cipher : BlockCipher) :
    wp (backupRestore ⟨.avr, cipher⟩) (fun _ p' _ => p'.fram 0 = 1) (fun _ _ => False)
      (fun _ _ => True) backupOf382 v := by
  have hid : passwordReadId offsetBackupId backupOf382 = 382 := by decide
  simp only [backupRestore, backupPartialRestore, wp_bind, wp_framReadByte, wp_ite,
    wp_readImage, hid]
  refine ⟨fun hok => absurd hok (by decide), fun _ => ?_⟩
  have haddr : ∀ i < 170, pwdAddr .avr 382 i = if i < 61 then 65475 + i else i - 61 := by
    intro i hi
    simp only [pwdAddr, offsetFirstPwd, offsetBackupData, offsetBackupId, offsetBackupStatus,
      offsetMemoryMap, sizeMemoryMap, offsetEntropyPool, sizeEntropyPool, offsetNumPwd,
      offsetFirstPwdAlpha, offsetFirstPwdUse, offsetOptionsFlag, sizeOptionFlag, pAddrSz,
      sizeOfPwdBlock, pwdOffsetUsrName, pwdOffsetUsrIv, pwdOffsetPwdData, pwdOffsetPwdIv,
      pwdOffsetPwdName, pwdOffsetPwdCount, pwdOffsetNextPwdAlpha, pwdOffsetPrevPwdAlpha,
      pwdOffsetNextPwdUse, pwdOffsetPrevPwdUse, pwdSizePwdName, pwdSizePwdIv, pwdSizePwdData,
      pwdSizeUsrIv, pwdSizeUsrName]
    split <;> omega
  refine wp_mono (wp_chunkCopy _ _ {x | x < 109 ∨ 65475 ≤ x} ?_ ?_ ?_) ?_
    (fun _ _ => False.elim) fun _ _ _ => trivial
  · intro i hi
    simp only [haddr i hi, framByteSize, Set.mem_ofPred_eq]
    split <;> omega
  · intro i hi
    rw [show offsetBackupData = 365 from rfl]
    simp only [framByteSize, Set.mem_ofPred_eq]
    omega
  · intro i hi j hj h
    simp only [haddr i hi, haddr j hj, framByteSize] at h
    split at h <;> split at h <;> omega
  · rintro _ p₁ v₁ ⟨-, -, hcopy⟩
    refine wp_mono wp_backupFree ?_ (fun _ _ => id) fun _ _ _ => trivial
    rintro _ p' v' ⟨-, hsame, -⟩
    rw [hsame.fram 0 (by simp [backupRegion])]
    have := hcopy 61 (by decide)
    rw [haddr 61 (by decide)] at this
    exact this.trans (by decide)

/-- The chunk operations stay in their chunk exactly up to id 381. -/
theorem chunkOperation_confined_iff (cipher : BlockCipher)
    (hid : pwdId < maximumNumberOfPwd - 1) :
    ((∀ x ∈ chunkRegion pwdId, 535 + 170 * pwdId ≤ x ∧ x < 535 + 170 * (pwdId + 1)) ∧
      ∀ (op : ChunkOperation) (p : Image) (v : Ram) (p' : Image), op.On pwdId p →
        Cut (op.run ⟨.avr, cipher⟩ pwdId) p v p' → SameOff (op.region pwdId) p p') ↔
      pwdId ≤ 381 := by
  have hid : pwdId < 767 := by simpa using hid
  constructor
  · rintro ⟨-, hconfined⟩
    by_contra hlarge
    rcases Nat.lt_or_ge pwdId 383 with hlt | hge
    · obtain rfl : pwdId = 382 := by omega
      obtain ⟨_, p', _, hrun, hchanged⟩ := exists_completes
        (wp_backupRestore_wrapped cipher (v := Ram.reset (fun _ => 0) zeroIv))
      have hsame := hconfined .restore _ _ p' (show backupOf382.backupId = 382 by decide) hrun.cut
      have hout : 0 ∉ ChunkOperation.restore.region 382 := by
        rintro (h | h)
        · exact absurd ((mem_chunkRegion (by decide)).mp h).1 (by decide)
        · exact absurd h.1 (by decide)
      rw [hsame.fram 0 hout] at hchanged
      exact absurd hchanged (by decide)
    · obtain ⟨_, p', _, hrun, hchanged⟩ := exists_completes
        (wp_setPrevPwdUse_wrapped (v := Ram.reset (fun _ => Vector.replicate 4 0) zeroIv) cipher hge
          hid)
      have hsame := hconfined (.setPrevPwdUse 1) _ _ p' trivial hrun.cut
      have hout : 170 * pwdId - 65001 ∉ (ChunkOperation.setPrevPwdUse 1).region pwdId := by
        intro h
        have := ((mem_chunkRegion hid).mp h).1
        omega
      rw [hsame.fram _ hout] at hchanged
      exact absurd (show (0 : Byte) = 1 from hchanged) (by decide)
  · intro hle
    have hplain : Addressing.avr.Plain pwdId :=
      Addressing.plain_of_lt (by simp only [Addressing.capacity]; omega)
    refine ⟨fun x hx => ?_, fun op p v p' hon hcut => ?_⟩
    · rw [mem_chunkRegion hid] at hx
      omega
    · exact wp_cut (D := SameOff (op.region pwdId) p)
        (wp_mono (wp_sameOff (wp_chunkOperation (t := ⟨.avr, cipher⟩) hplain (by omega) op hon))
          (fun _ _ _ => id) (fun _ _ => id) fun _ _ h => h.2)
        (SameOff.refl _ _) hcut

/-- The last id below the limit, and the first above. -/
theorem chunkOperation_confined_381 :
    381 < maximumNumberOfPwd - 1 ∧
      ∀ (op : ChunkOperation) (p : Image) (v : Ram) (p' : Image), op.On 381 p →
        Cut (op.run ⟨.avr, .xorKey⟩ 381) p v p' → SameOff (op.region 381) p p' :=
  ⟨by decide, ((chunkOperation_confined_iff .xorKey (by decide)).mpr (by decide)).2⟩

/-- Linking chunk 386 changes a byte of the user name of chunk 0. -/
theorem chunkOperation_386_not_confined :
    ¬ ∀ (cipher : BlockCipher) (pwdId : ℕ), pwdId < maximumNumberOfPwd - 1 →
      ∀ (op : ChunkOperation) (p : Image) (v : Ram) (p' : Image), op.On pwdId p →
        Cut (op.run ⟨.avr, cipher⟩ pwdId) p v p' → SameOff (op.region pwdId) p p' := by
  intro hclaim
  obtain ⟨_, p', _, hrun, hchanged⟩ := exists_completes
    (wp_setPrevPwdUse_wrapped (v := Ram.reset (fun _ => Vector.replicate 4 0) zeroIv) .xorKey
      (show 383 ≤ 386 by decide) (by decide))
  have hsame := hclaim .xorKey 386 (by decide) (.setPrevPwdUse 1) _ _ p' trivial hrun.cut
  have hout : 619 ∉ (ChunkOperation.setPrevPwdUse 1).region 386 := fun h =>
    absurd ((mem_chunkRegion (by decide)).mp h).1 (by decide)
  rw [show 170 * 386 - 65001 = 619 from rfl, hsame.fram _ hout] at hchanged
  exact absurd hchanged (by decide)

end PasswordWallet
