import PasswordWallet.Security.Cipher
import PasswordWallet.Security.Random

/-!
# Password chunks

The accessors of `Password.c`.  Reading a field is a function of the image;
setting one is a program, since its bytes go out one at a time.  The secrets of
a chunk are read by `readAndDecrypt` and written by `encryptAndWrite`, which
draws a fresh initial vector first.

A chunk is *plain* when `PWD_ADDR` gives all its fields the addresses their
number says (`Addressing.Plain`): always in integer arithmetic, below the
capacity on the AVR.
-/

namespace PasswordWallet

open PowerLoss

variable (t : Target)

/-! ## The accessors -/

def passwordWriteId (framAddr id : ℕ) : Dev Unit := framWriteBytes framAddr (wordBytes id)

def passwordReadId (framAddr : ℕ) (p : Image) : ℕ := p.word framAddr

def readAndDecrypt (addrIv addrAes lenghtAes : ℕ) (key : Block) (p : Image) : List Byte :=
  removePadding false (cbcDecrypt (t.cipher.decrypt key) (lenghtAes / 16)
    (p.bytes addrAes lenghtAes) (blockAt (p.bytes addrIv 16)))

def encryptAndWrite (input : List Byte) (addrIv addrAes lenghtAes : ℕ) (key : Block) :
    Dev Unit := do
  let iv ← randomFill randomRequestByte 16
  framWriteBytes addrIv iv
  framWriteBytes addrAes (cbcEncrypt (t.cipher.encrypt key) (lenghtAes / 16) input (blockAt iv))

def passwordReadData (pwdId : ℕ) (key : Block) : Image → List Byte :=
  readAndDecrypt t (pwdAddr t.addressing pwdId pwdOffsetPwdIv)
    (pwdAddr t.addressing pwdId pwdOffsetPwdData) 32 key

def passwordReadUsrName (pwdId : ℕ) (key : Block) : Image → List Byte :=
  readAndDecrypt t (pwdAddr t.addressing pwdId pwdOffsetUsrIv)
    (pwdAddr t.addressing pwdId pwdOffsetUsrName) 64 key

def passwordReadName (pwdId : ℕ) (p : Image) : List Byte :=
  p.bytes (pwdAddr t.addressing pwdId pwdOffsetPwdName) 32

def passwordReadPrevPwdUse (pwdId : ℕ) : Image → ℕ :=
  passwordReadId (pwdAddr t.addressing pwdId pwdOffsetPrevPwdUse)

def passwordReadNextPwdUse (pwdId : ℕ) : Image → ℕ :=
  passwordReadId (pwdAddr t.addressing pwdId pwdOffsetNextPwdUse)

def passwordReadPrevPwdAlpha (pwdId : ℕ) : Image → ℕ :=
  passwordReadId (pwdAddr t.addressing pwdId pwdOffsetPrevPwdAlpha)

def passwordReadNextPwdAlpha (pwdId : ℕ) : Image → ℕ :=
  passwordReadId (pwdAddr t.addressing pwdId pwdOffsetNextPwdAlpha)

def passwordReadCounter (pwdId : ℕ) (p : Image) : ℕ :=
  p.word (pwdAddr t.addressing pwdId pwdOffsetPwdCount)

def passwordSetData (pwdId : ℕ) (pwd : List Byte) (key : Block) : Dev Unit :=
  encryptAndWrite t pwd (pwdAddr t.addressing pwdId pwdOffsetPwdIv)
    (pwdAddr t.addressing pwdId pwdOffsetPwdData) 32 key

def passwordSetUsrName (pwdId : ℕ) (usr : List Byte) (key : Block) : Dev Unit :=
  encryptAndWrite t usr (pwdAddr t.addressing pwdId pwdOffsetUsrIv)
    (pwdAddr t.addressing pwdId pwdOffsetUsrName) 64 key

def passwordSetName (pwdId : ℕ) (name : Vector Byte 32) : Dev Unit :=
  framWriteBytes (pwdAddr t.addressing pwdId pwdOffsetPwdName) name.toList

def passwordSetPrevPwdUse (pwdId val : ℕ) : Dev Unit :=
  passwordWriteId (pwdAddr t.addressing pwdId pwdOffsetPrevPwdUse) val

def passwordSetNextPwdUse (pwdId val : ℕ) : Dev Unit :=
  passwordWriteId (pwdAddr t.addressing pwdId pwdOffsetNextPwdUse) val

def passwordSetPrevPwdAlpha (pwdId val : ℕ) : Dev Unit :=
  passwordWriteId (pwdAddr t.addressing pwdId pwdOffsetPrevPwdAlpha) val

def passwordSetNextPwdAlpha (pwdId val : ℕ) : Dev Unit :=
  passwordWriteId (pwdAddr t.addressing pwdId pwdOffsetNextPwdAlpha) val

def passwordSetCounter (pwdId val : ℕ) : Dev Unit :=
  framWriteBytes (pwdAddr t.addressing pwdId pwdOffsetPwdCount) (wordBytes val)

def passwordIncrementCounter (pwdId : ℕ) : Dev Unit := do
  let counter ← readImage (passwordReadCounter t pwdId)
  passwordSetCounter t pwdId ((counter + 1) % 65536)

/-- `password_regenerate`; each printable character is drawn at most `fuel`
times. -/
def passwordRegenerate (fuel pwdId : ℕ) : Dev Unit := do
  let newPwd ← randomFill (randomRequestPrintable fuel) 32
  let v ← Program.ram
  passwordSetData t pwdId newPwd v.key

/-! ## Where a chunk lies -/

/-- All the fields of the chunk have the addresses their number says. -/
def Addressing.Plain (a : Addressing) (pwdId : ℕ) : Prop :=
  ∀ field < 170, pwdAddr a pwdId field = 535 + 170 * pwdId + field

theorem Addressing.plain_exact (pwdId : ℕ) : Addressing.exact.Plain pwdId :=
  fun _ _ => by simp [pwdAddr]

theorem Addressing.plain_of_lt {a : Addressing} {pwdId : ℕ} (h : pwdId < a.capacity) :
    a.Plain pwdId := fun _ hfield => pwdAddr_eq h hfield

/-- The bytes of a chunk.  Those of the last one go round the end of the
memory. -/
def chunkRegion (pwdId : ℕ) : Set ℕ := burst (535 + 170 * pwdId) 170

theorem mem_chunkRegion {pwdId x : ℕ} (hid : pwdId < 767) :
    x ∈ chunkRegion pwdId ↔ 535 + 170 * pwdId ≤ x ∧ x < 535 + 170 * pwdId + 170 :=
  mem_burst (by simp only [framByteSize]; omega)

/-- Even the last chunk leaves the memory map and the backup section alone. -/
theorem notMem_chunkRegion {pwdId x : ℕ} (hid : pwdId < 768) (hlow : 23 ≤ x) (hhigh : x < 535) :
    x ∉ chunkRegion pwdId := by
  rintro ⟨i, hi, rfl⟩
  simp only [framByteSize] at hlow hhigh
  rcases Nat.lt_or_ge (535 + 170 * pwdId + i) 131072 with hlt | hge
  · rw [Nat.mod_eq_of_lt hlt] at hlow hhigh
    omega
  · omega

theorem burst_subset_chunkRegion {pwdId field size : ℕ} (h : field + size ≤ 170) :
    burst (535 + 170 * pwdId + field) size ⊆ chunkRegion pwdId := burst_subset h

/-- Writing the byte at an address puts `w` within a region that has it. -/
theorem within_burst {addr size i : ℕ} (byte : Byte) (hi : i < size) :
    (Write.fram ((addr + i) % framByteSize) byte).Within (burst addr size) := ⟨i, hi, rfl⟩

/-! ## The bytes of a chunk -/

def Image.chunkByte (p : Image) (pwdId i : ℕ) : Byte := p.byte (535 + 170 * pwdId + i)

section Bytes

variable {t : Target} {pwdId : ℕ} {key : Block} {p p' : Image} {R : Set ℕ}

theorem SameOff.chunkByte (h : SameOff R p p') {i : ℕ} (hi : i < 170)
    (hR : ∀ x ∈ chunkRegion pwdId, x ∉ R) : p'.chunkByte pwdId i = p.chunkByte pwdId i :=
  h.byte (hR _ ⟨i, hi, rfl⟩)

theorem bytes_chunk_congr {field size : ℕ}
    (h : ∀ i, field ≤ i → i < field + size → p'.chunkByte pwdId i = p.chunkByte pwdId i) :
    p'.bytes (535 + 170 * pwdId + field) size = p.bytes (535 + 170 * pwdId + field) size := by
  refine List.map_congr_left fun i hi => ?_
  rw [List.mem_range] at hi
  have := h (field + i) (by omega) (by omega)
  rwa [Image.chunkByte, Image.chunkByte, ← Nat.add_assoc] at this

/-- An encrypted field of a chunk, with its initial vector in front. -/
theorem readAndDecrypt_congr {field size : ℕ}
    (h : ∀ i, field ≤ i → i < field + 16 + size → p'.chunkByte pwdId i = p.chunkByte pwdId i) :
    readAndDecrypt t (535 + 170 * pwdId + field) (535 + 170 * pwdId + (field + 16)) size key p' =
      readAndDecrypt t (535 + 170 * pwdId + field) (535 + 170 * pwdId + (field + 16)) size key
        p := by
  have hiv := @bytes_chunk_congr pwdId p p' field 16 fun i hi hi' => h i hi (by omega)
  have haes := @bytes_chunk_congr pwdId p p' (field + 16) size fun i hi hi' =>
    h i (by omega) hi'
  rw [readAndDecrypt, readAndDecrypt, hiv, haes]

theorem passwordReadData_congr (hplain : t.addressing.Plain pwdId)
    (h : ∀ i, 42 ≤ i → i < 90 → p'.chunkByte pwdId i = p.chunkByte pwdId i) :
    passwordReadData t pwdId key p' = passwordReadData t pwdId key p := by
  rw [passwordReadData, hplain _ (by decide), hplain _ (by decide)]
  exact readAndDecrypt_congr h

theorem passwordReadUsrName_congr (hplain : t.addressing.Plain pwdId)
    (h : ∀ i, 90 ≤ i → i < 170 → p'.chunkByte pwdId i = p.chunkByte pwdId i) :
    passwordReadUsrName t pwdId key p' = passwordReadUsrName t pwdId key p := by
  rw [passwordReadUsrName, hplain _ (by decide), hplain _ (by decide)]
  exact readAndDecrypt_congr h

theorem passwordReadName_congr (hplain : t.addressing.Plain pwdId)
    (h : ∀ i, 10 ≤ i → i < 42 → p'.chunkByte pwdId i = p.chunkByte pwdId i) :
    passwordReadName t pwdId p' = passwordReadName t pwdId p := by
  rw [passwordReadName, passwordReadName, hplain _ (by decide)]
  exact bytes_chunk_congr fun i hi hi' => h i (by simpa using hi) (by simpa using hi')

theorem passwordReadCounter_congr (hplain : t.addressing.Plain pwdId)
    (h : ∀ i, 8 ≤ i → i < 10 → p'.chunkByte pwdId i = p.chunkByte pwdId i) :
    passwordReadCounter t pwdId p' = passwordReadCounter t pwdId p := by
  have hlow := h 8 (by decide) (by decide)
  have hhigh := h 9 (by decide) (by decide)
  rw [passwordReadCounter, passwordReadCounter, hplain _ (by decide)]
  exact congrArg₂ (fun low high : Byte => low.toNat + 256 * high.toNat) hlow hhigh

end Bytes

/-! ## What the accessors do -/

variable {t} {p : Image} {v : Ram} {H : Image → Ram → Prop} {C : Step Write → Image → Prop}

@[simp] theorem length_wordBytes (n : ℕ) : (wordBytes n).length = 2 := rfl

/-- Writing a burst within a region. -/
theorem wp_framWriteBytes_within {addr : ℕ} {bytes : List Byte} {R : Set ℕ}
    (hsub : burst addr bytes.length ⊆ R) :
    wp (framWriteBytes addr bytes) (fun _ p' v' => p' = p.store addr bytes ∧ v' = v)
      (fun _ _ => False) (fun step _ => step.write.Within R) p v :=
  wp_framWriteBytes (fun _ hk => (within_burst _ hk).mono hsub) ⟨rfl, rfl⟩

/-- A field of a plain chunk, written as a burst. -/
theorem wp_chunkField {pwdId field : ℕ} {bytes : List Byte} (hplain : t.addressing.Plain pwdId)
    (hfield : field < 170) (hsize : field + bytes.length ≤ 170) :
    wp (framWriteBytes (pwdAddr t.addressing pwdId field) bytes)
      (fun _ p' v' => p' = p.store (535 + 170 * pwdId + field) bytes ∧ v' = v)
      (fun _ _ => False) (fun step _ => step.write.Within (chunkRegion pwdId)) p v := by
  rw [hplain _ hfield]
  exact wp_framWriteBytes_within (burst_subset_chunkRegion hsize)

/-- What `encrypt_and_write` leaves is read back by `read_and_decrypt`, cleared
from the first byte below 32 on. -/
theorem wp_encryptAndWrite {input : List Byte} {addrIv addrAes n : ℕ} {key : Block}
    {R : Set ℕ} (hpool : poolRegion ⊆ R) (hiv : burst addrIv 16 ⊆ R)
    (haes : burst addrAes (16 * n) ⊆ R) :
    wp (encryptAndWrite t input addrIv addrAes (16 * n) key)
      (fun _ p' v' => Drawn v v' ∧ (input.length = 16 * n → 16 * n ≤ framByteSize →
        (∀ x ∈ burst addrIv 16, x ∉ burst addrAes (16 * n)) →
        readAndDecrypt t addrIv addrAes (16 * n) key p' = removePadding false input))
      (fun _ _ => False) (fun step _ => step.write.Within R) p v := by
  rw [encryptAndWrite, wp_bind]
  have hn : 16 * n / 16 = n := Nat.mul_div_cancel_left _ (by decide)
  refine wp_mono (wp_randomBytes 16) (fun iv p₁ v₁ ⟨hlength, hdrawn⟩ => ?_)
    (fun _ _ => False.elim) fun _ _ hw => hw.mono hpool
  rw [wp_bind]
  refine wp_imp (wp_framWriteBytes_within (by rwa [hlength])) fun _ p₂ v₂ ⟨hp₂, hv₂⟩ => ?_
  subst hp₂ hv₂
  refine wp_imp (wp_framWriteBytes_within (by rwa [length_cbcEncrypt, hn]))
    fun _ p₃ v₃ ⟨hp₃, hv₃⟩ => ?_
  subst hp₃ hv₃
  refine ⟨hdrawn, fun hinput hfit hdisjoint => ?_⟩
  have hdata : (cbcEncrypt (t.cipher.encrypt key) n input (blockAt iv)).length =
      16 * n := length_cbcEncrypt ..
  have hsame := sameOff_store (p₁.store addrIv iv) addrAes
    (cbcEncrypt (t.cipher.encrypt key) n input (blockAt iv))
  rw [hdata] at hsame
  rw [readAndDecrypt, hn, hsame.bytes hdisjoint, Image.bytes_store_burst (by decide) hlength,
    Image.bytes_store_burst hfit hdata]
  exact removePadding_cbcDecrypt t.cipher key n input (blockAt iv) hinput

/-- The bytes of the entropy pool, and a set more. -/
def drawing (R : Set ℕ) : Set ℕ := poolRegion ∪ R

theorem notMem_drawing {R : Set ℕ} {x : ℕ} (hpool : x < 7 ∨ 263 ≤ x) (hR : x ∉ R) :
    x ∉ drawing R := by
  rintro (h | h)
  · exact absurd h (by simp only [poolRegion, Set.mem_ofPred_eq]; omega)
  · exact hR h

/-- An encrypted field of a chunk is read back, if the chunk does not go round the end of the
memory. -/
theorem wp_encryptField {pwdId field n : ℕ} {input : List Byte} {key : Block}
    (hfield : field + 16 + 16 * n ≤ 170) :
    wp (encryptAndWrite t input (535 + 170 * pwdId + field) (535 + 170 * pwdId + (field + 16))
        (16 * n) key)
      (fun _ p' v' => Drawn v v' ∧ (pwdId < 767 → input.length = 16 * n →
        readAndDecrypt t (535 + 170 * pwdId + field) (535 + 170 * pwdId + (field + 16)) (16 * n)
          key p' = removePadding false input))
      (fun _ _ => False)
      (fun step _ => step.write.Within (drawing (burst (535 + 170 * pwdId + field)
        (16 + 16 * n)))) p v := by
  have hiv : burst (535 + 170 * pwdId + field) 16 ⊆
      burst (535 + 170 * pwdId + field) (16 + 16 * n) :=
    burst_subset (k := 0) (by omega)
  have haes : burst (535 + 170 * pwdId + (field + 16)) (16 * n) ⊆
      burst (535 + 170 * pwdId + field) (16 + 16 * n) :=
    burst_subset (k := 16) (by omega)
  have hsize : framByteSize = 131072 := rfl
  refine wp_imp (wp_encryptAndWrite Set.subset_union_left (hiv.trans Set.subset_union_right)
    (haes.trans Set.subset_union_right)) fun _ p' v' h => ⟨h.1, fun hid hlength => ?_⟩
  refine h.2 hlength (by omega) fun x hx hx' => ?_
  rw [mem_burst (by omega)] at hx hx'
  omega

theorem wp_passwordSetData {pwdId : ℕ} {pwd : List Byte} {key : Block}
    (hplain : t.addressing.Plain pwdId) :
    wp (passwordSetData t pwdId pwd key)
      (fun _ p' v' => Drawn v v' ∧ (pwdId < 767 → pwd.length = 32 →
        passwordReadData t pwdId key p' = removePadding false pwd))
      (fun _ _ => False)
      (fun step _ => step.write.Within (drawing (burst (535 + 170 * pwdId + 42) 48))) p v := by
  rw [passwordSetData, passwordReadData, hplain _ (by decide), hplain _ (by decide)]
  exact wp_encryptField (n := 2) (by decide)

theorem wp_passwordSetUsrName {pwdId : ℕ} {usr : List Byte} {key : Block}
    (hplain : t.addressing.Plain pwdId) :
    wp (passwordSetUsrName t pwdId usr key)
      (fun _ p' v' => Drawn v v' ∧ (pwdId < 767 → usr.length = 64 →
        passwordReadUsrName t pwdId key p' = removePadding false usr))
      (fun _ _ => False)
      (fun step _ => step.write.Within (drawing (burst (535 + 170 * pwdId + 90) 80))) p v := by
  rw [passwordSetUsrName, passwordReadUsrName, hplain _ (by decide), hplain _ (by decide)]
  exact wp_encryptField (n := 4) (by decide)

end PasswordWallet
