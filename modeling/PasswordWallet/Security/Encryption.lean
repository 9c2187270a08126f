import PasswordWallet.Security.Backup

/-!
# Re-keying and the validation of a key

`Encryption.c`.  The EEPROM holds a random sequence and its encryption under
the master key, by which `encryption_check_key` recognises the key.
`encryption_update_key` goes through the memory map and re-encrypts each used
chunk, under the protection of the backup section.

The two loop counters of `encryption_update_key` are kept as the code keeps
them: `j` is not set back to zero when `i` moves on, so after the first byte of
the map its loop does not run any more (`updateKeyRows`).
-/

namespace PasswordWallet

open PowerLoss

variable (t : Target)

/-! ## The validation of the key -/

@[simp] def eepromRandSeq : ℕ := 0
@[simp] def eepromEncValidation : ℕ := 16

def Image.eepromBytes (p : Image) (addr size : ℕ) : List Byte :=
  (List.range size).map fun i => p.eeprom (addr + i)

def zeroIv : Block := Vector.replicate 16 0

def encryptionCheckKey (key : Block) (p : Image) : Bool :=
  cbcEncrypt (t.cipher.encrypt key) 1 (p.eepromBytes eepromRandSeq 16) zeroIv ==
    p.eepromBytes eepromEncValidation 16

theorem encryptionCheckKey_congr {t : Target} {k : Block} {p p' : Image}
    (h : p'.eeprom = p.eeprom) : encryptionCheckKey t k p' = encryptionCheckKey t k p := by
  rw [encryptionCheckKey, encryptionCheckKey, Image.eepromBytes, Image.eepromBytes,
    Image.eepromBytes, Image.eepromBytes, h]

/-- `eeprom_update_byte`, which writes the byte where it differs. -/
def eepromUpdateByte (addr : ℕ) (byte : Byte) : Dev Unit := Program.write (.eeprom addr byte)

/-- The loop that draws the random sequence and stores it on the way. -/
def updateRandomSequence : ℕ → ℕ → Dev (List Byte)
  | _, 0 => pure []
  | i, count + 1 => do
      let byte ← randomRequestByte
      eepromUpdateByte (eepromRandSeq + i) byte
      let rest ← updateRandomSequence (i + 1) count
      pure (byte :: rest)

def eepromUpdateBytes : ℕ → List Byte → Dev Unit
  | _, [] => pure ()
  | addr, byte :: rest => do
      eepromUpdateByte addr byte
      eepromUpdateBytes (addr + 1) rest

def encryptionUpdateValidation : Dev Unit := do
  let randomSequence ← updateRandomSequence 0 16
  let v ← Program.ram
  eepromUpdateBytes eepromEncValidation
    (cbcEncrypt (t.cipher.encrypt v.key) 1 randomSequence zeroIv)

/-! ## Re-keying -/

/-- The body of the loops of `encryption_update_key`: one used chunk. -/
def updateChunk (newKey : Block) (pwdId : ℕ) : Dev Unit := do
  backupSave t pwdId backupStatusChangeKey
  let v ← Program.ram
  let buffer ← readImage (passwordReadData t pwdId v.key)
  passwordSetData t pwdId buffer newKey
  let buffer ← readImage (passwordReadUsrName t pwdId v.key)
  passwordSetUsrName t pwdId buffer newKey
  backupSetStatus backupStatusChangeKeyChunkOk

def updateKeyBit (newKey : Block) (memoryByte : Byte) (i j : ℕ) : Dev Unit :=
  if i * 8 + j < maximumNumberOfPwd then
    if memoryByte.getLsbD j then updateChunk t newKey (i * 8 + j) else pure ()
  else pure ()

/-- The outer loop: `count` turns from `i` on.  The inner one runs from `j` to
8 and leaves `j` there. -/
def updateKeyRows (newKey : Block) : ℕ → ℕ → ℕ → Dev Unit
  | 0, _, _ => pure ()
  | count + 1, i, j => do
      let memoryByte ← framReadByte (offsetMemoryMap + i)
      Program.forUp j (8 - j) (updateKeyBit t newKey memoryByte i)
      updateKeyRows newKey count (i + 1) (max j 8)

/-- `encryption_update_key`; its counters have 8 bits. -/
def encryptionUpdateKey (newKey : Block) (startFrom : ℕ) : Dev Unit := do
  let i := startFrom / 8 % 256
  updateKeyRows t newKey (sizeMemoryMap - i) i (startFrom % 8)
  modifyRam fun v => { v with key := newKey }

/-! ## What the validation does -/

variable {t} {p : Image} {v : Ram}

/-- The writes of `encryption_update_validation`: the pool and the EEPROM. -/
def Write.Validating : Write → Prop
  | .fram addr _ => addr ∈ poolRegion
  | .eeprom _ _ => True
  | .card _ _ => False

/-- Images that only differ in the pool and the EEPROM. -/
structure Validated (p p' : Image) : Prop where
  fram : ∀ x ∉ poolRegion, p'.fram x = p.fram x
  card : p'.card = p.card

theorem Validated.refl (p : Image) : Validated p p := ⟨fun _ _ => rfl, rfl⟩

theorem Validated.trans {p₁ p₂ p₃ : Image} (h₁ : Validated p₁ p₂) (h₂ : Validated p₂ p₃) :
    Validated p₁ p₃ :=
  ⟨fun x hx => (h₂.fram x hx).trans (h₁.fram x hx), h₂.card.trans h₁.card⟩

theorem Write.Validating.validated {w : Write} (h : w.Validating) (p : Image) :
    Validated p (Durable.apply p w) := by
  cases w with
  | fram addr byte =>
      refine ⟨fun x hx => Function.update_of_ne ?_ _ _, rfl⟩
      rintro rfl
      exact hx h
  | eeprom addr byte => exact ⟨fun _ _ => rfl, rfl⟩
  | card block data => exact h.elim

/-- Drawing a byte leaves the EEPROM alone. -/
theorem wp_randomRequestByte_eeprom :
    wp randomRequestByte (fun _ p' v' => Drawn v v' ∧ p'.eeprom = p.eeprom) (fun _ _ => False)
      (fun step _ => step.write.Validating) p v := by
  refine wp_mono (wp_sameOff wp_randomRequestByte) (fun _ p' v' h => ⟨h.2, h.1.eeprom⟩)
    (fun _ _ => False.elim) fun step p' h => ?_
  have hwithin := h.1
  cases hw : step.write with
  | fram addr byte => rw [hw] at hwithin; exact hwithin
  | eeprom addr byte => trivial
  | card block data => rw [hw] at hwithin; exact hwithin.elim

theorem eepromBytes_congr {p' : Image} {addr size : ℕ}
    (h : ∀ x, addr ≤ x → x < addr + size → p'.eeprom x = p.eeprom x) :
    p'.eepromBytes addr size = p.eepromBytes addr size :=
  List.map_congr_left fun i hi => by
    rw [List.mem_range] at hi
    exact h _ (by omega) (by omega)

theorem eepromBytes_succ (addr size : ℕ) :
    p.eepromBytes addr (size + 1) = p.eeprom addr :: p.eepromBytes (addr + 1) size := by
  rw [Image.eepromBytes, Image.eepromBytes, List.range_succ_eq_map, List.map_cons, List.map_map]
  congr 1
  refine List.map_congr_left fun i _ => ?_
  rw [Function.comp_apply, Nat.succ_eq_add_one, Nat.add_right_comm, Nat.add_assoc]

theorem wp_updateRandomSequence {i count : ℕ} :
    wp (updateRandomSequence i count)
      (fun bytes p' v' => Drawn v v' ∧ bytes.length = count ∧ p'.eepromBytes i count = bytes ∧
        ∀ x < i, p'.eeprom x = p.eeprom x)
      (fun _ _ => False) (fun step _ => step.write.Validating) p v := by
  induction count generalizing i p v with
  | zero => exact (wp_pure _).mpr ⟨Drawn.refl v, rfl, rfl, fun _ _ => rfl⟩
  | succ count ih =>
      rw [updateRandomSequence, wp_bind]
      refine wp_imp wp_randomRequestByte_eeprom fun byte p₁ v₁ ⟨hdrawn, heeprom⟩ => ?_
      rw [wp_bind, eepromUpdateByte, wp_write, wp_bind]
      refine ⟨trivial, wp_imp ih fun rest p' v' ⟨hdrawn', hlength, hbytes, hbelow⟩ => ?_⟩
      have hfirst : p'.eeprom i = byte := by
        rw [hbelow i (by omega)]
        simp [Durable.apply]
      refine (wp_pure _).mpr ⟨hdrawn.trans hdrawn', by simp [hlength], ?_, fun x hx => ?_⟩
      · rw [eepromBytes_succ, hfirst, hbytes]
      · rw [hbelow x (by omega), ← heeprom]
        exact Function.update_of_ne (by simp; omega) _ _

theorem wp_eepromUpdateBytes {addr : ℕ} {bytes : List Byte} :
    wp (eepromUpdateBytes addr bytes)
      (fun _ p' v' => v' = v ∧ p'.eepromBytes addr bytes.length = bytes ∧
        ∀ x < addr, p'.eeprom x = p.eeprom x)
      (fun _ _ => False) (fun step _ => step.write.Validating) p v := by
  induction bytes generalizing addr p with
  | nil => exact (wp_pure _).mpr ⟨rfl, rfl, fun _ _ => rfl⟩
  | cons byte rest ih =>
      rw [eepromUpdateBytes, wp_bind, eepromUpdateByte, wp_write]
      refine ⟨trivial, wp_imp ih fun _ p' v' ⟨hv, hbytes, hbelow⟩ => ⟨hv, ?_, fun x hx => ?_⟩⟩
      · have hfirst : p'.eeprom addr = byte := by
          rw [hbelow addr (by omega)]
          simp [Durable.apply]
        rw [List.length_cons, eepromBytes_succ, hfirst, hbytes]
      · rw [hbelow x (by omega)]
        exact Function.update_of_ne (by omega) _ _

/-- After `encryption_update_validation` the key in memory is recognised. -/
theorem wp_encryptionUpdateValidation :
    wp (encryptionUpdateValidation t)
      (fun _ p' v' => Validated p p' ∧ Drawn v v' ∧ encryptionCheckKey t v.key p' = true)
      (fun _ _ => False) (fun step p' => step.write.Validating ∧ Validated p p') p v := by
  refine wp_reach Validated.refl (fun _ _ _ => Validated.trans) (fun _ p' hw => hw.validated p') ?_
  rw [encryptionUpdateValidation, wp_bind]
  refine wp_imp wp_updateRandomSequence fun bytes p₁ v₁ ⟨hdrawn, _, hbytes, _⟩ => ?_
  rw [wp_bind, wp_ram]
  refine wp_imp wp_eepromUpdateBytes fun _ p₂ v₂ ⟨hv₂, hwritten, hbelow⟩ => ?_
  subst hv₂
  refine ⟨hdrawn, ?_⟩
  rw [length_cbcEncrypt, hdrawn.key] at hwritten
  have hseq : p₂.eepromBytes eepromRandSeq 16 = bytes := by
    rw [← hbytes]
    exact eepromBytes_congr fun x _ hx => hbelow x (by simpa using hx)
  rw [encryptionCheckKey, hseq, beq_iff_eq]
  exact hwritten.symm

end PasswordWallet
