import Mathlib.Data.Set.Basic
import Mathlib.Logic.Function.Basic
import PasswordWallet.Memory.Layout
import PasswordWallet.PowerLoss.Logic

/-!
# The memories of the device

What survives a power loss is the `Image`: the FRAM, the EEPROM and the card
the key lives on.  What does not is the `Ram`.  A single write changes one byte
of FRAM or EEPROM, or one block of the card.

The FRAM decodes an address modulo its size, and so does every access here; a
burst (`framWriteBytes`, `framSet`) advances the address itself, one byte per
write, so a power loss may fall between any two bytes of it.
-/

namespace PasswordWallet

open PowerLoss

abbrev Byte := BitVec 8

instance : LawfulBEq Byte := inferInstance

/-- A 16-byte block: a key, an initial vector, a block of a cipher or of the card. -/
abbrev Block := Vector Byte 16

/-- The durable memories. -/
structure Image where
  fram : ℕ → Byte
  eeprom : ℕ → Byte
  card : ℕ → Block

/-- Memories with nothing in them. -/
def Image.zero : Image := ⟨fun _ => 0, fun _ => 0, fun _ => Vector.replicate 16 0⟩

/-- The single writes: a byte of FRAM, a byte of EEPROM, a block of the card. -/
inductive Write
  | fram (addr : ℕ) (byte : Byte)
  | eeprom (addr : ℕ) (byte : Byte)
  | card (block : ℕ) (data : Block)
  deriving DecidableEq

instance : Durable Image Write where
  apply p
    | .fram addr byte => { p with fram := Function.update p.fram addr byte }
    | .eeprom addr byte => { p with eeprom := Function.update p.eeprom addr byte }
    | .card block data => { p with card := Function.update p.card block data }

/-- The number of random bytes in the entropy pool, never more than it holds. -/
structure EntropyPool where
  size : ℕ
  size_le : size ≤ sizeEntropyPool

/-- The volatile state.  `dwords` are the random double words that the watchdog
interrupt completes, in order; `stack` is what an uninitialised buffer holds. -/
structure Ram where
  key : Block
  numPwd : ℕ
  currentPasswordId : ℕ
  optionsFlag : Byte
  keyEntered : Bool
  pool : EntropyPool
  dwords : ℕ → Vector Byte 4
  stack : Block

/-- The volatile state after a reset, given the random double words to come and
what the stack holds. -/
def Ram.reset (dwords : ℕ → Vector Byte 4) (stack : Block) : Ram where
  key := Vector.replicate 16 0
  numPwd := 0
  currentPasswordId := 0
  optionsFlag := 0
  keyEntered := false
  pool := ⟨0, Nat.zero_le _⟩
  dwords := dwords
  stack := stack

/-- A program of the device. -/
abbrev Dev := Program Image Write Ram

def modifyRam (f : Ram → Ram) : Dev Unit := do
  let v ← Program.ram
  Program.setRam (f v)

/-! ## FRAM access -/

/-- The byte at an address, decoded modulo the size of the memory. -/
def Image.byte (p : Image) (addr : ℕ) : Byte := p.fram (addr % framByteSize)

def Image.bytes (p : Image) (addr size : ℕ) : List Byte :=
  (List.range size).map fun i => p.byte (addr + i)

/-- A little-endian 16-bit number: a password id, a counter, a count. -/
def Image.word (p : Image) (addr : ℕ) : ℕ :=
  (p.byte addr).toNat + 256 * (p.byte (addr + 1)).toNat

/-- A program that only reads. -/
def readImage {α : Type} (f : Image → α) : Dev α := do
  let p ← Program.durable
  pure (f p)

def framReadByte (addr : ℕ) : Dev Byte := readImage fun p => p.byte addr

def framWriteByte (addr : ℕ) (byte : Byte) : Dev Unit :=
  Program.write (.fram (addr % framByteSize) byte)

def framWriteBytes : ℕ → List Byte → Dev Unit
  | _, [] => pure ()
  | addr, byte :: rest => do
      framWriteByte addr byte
      framWriteBytes (addr + 1) rest

def framSet (addr : ℕ) (val : Byte) (num : ℕ) : Dev Unit :=
  framWriteBytes addr (List.replicate num val)

/-- The two bytes of a `uint16_t`, in the order they are stored. -/
def wordBytes (n : ℕ) : List Byte := [BitVec.ofNat 8 n, BitVec.ofNat 8 (n / 256)]

/-! ## What the accesses do -/

/-- The image after writing `bytes` from `addr` on. -/
def Image.store (p : Image) : ℕ → List Byte → Image
  | _, [] => p
  | addr, byte :: rest =>
      ({ p with fram := Function.update p.fram (addr % framByteSize) byte } : Image).store
        (addr + 1) rest

@[simp] theorem Image.store_nil (p : Image) (addr : ℕ) : p.store addr [] = p := rfl

@[simp] theorem Image.store_eeprom (p : Image) (addr : ℕ) (bytes : List Byte) :
    (p.store addr bytes).eeprom = p.eeprom := by
  induction bytes generalizing p addr with
  | nil => rfl
  | cons byte rest ih => exact ih _ _

@[simp] theorem Image.store_card (p : Image) (addr : ℕ) (bytes : List Byte) :
    (p.store addr bytes).card = p.card := by
  induction bytes generalizing p addr with
  | nil => rfl
  | cons byte rest ih => exact ih _ _

/-- Away from the bytes written nothing changes. -/
theorem Image.store_fram_of_ne {p : Image} {addr x : ℕ} {bytes : List Byte}
    (hx : ∀ i < bytes.length, x ≠ (addr + i) % framByteSize) :
    (p.store addr bytes).fram x = p.fram x := by
  induction bytes generalizing p addr with
  | nil => rfl
  | cons byte rest ih =>
      rw [Image.store, ih]
      · exact Function.update_of_ne (hx 0 (by simp)) _ _
      · intro i hi
        have := hx (i + 1) (by simpa using hi)
        rwa [show addr + (i + 1) = addr + 1 + i by omega] at this

/-- The bytes written, read back where they were put, also round the end of the
memory. -/
theorem Image.store_fram_getElem {p : Image} {addr i : ℕ} {bytes : List Byte}
    (hsize : bytes.length ≤ framByteSize) (hi : i < bytes.length) :
    (p.store addr bytes).fram ((addr + i) % framByteSize) = bytes[i] := by
  induction bytes generalizing p addr i with
  | nil => simp at hi
  | cons byte rest ih =>
      simp only [List.length_cons, framByteSize] at hsize hi
      cases i with
      | zero =>
          rw [Image.store, Image.store_fram_of_ne]
          · exact Function.update_self _ _ _
          · intro j hj
            simp only [framByteSize]
            omega
      | succ i =>
          have := @ih { p with fram := Function.update p.fram (addr % framByteSize) byte }
            (addr + 1) i (by simp only [framByteSize]; omega) (by omega)
          rw [show addr + (i + 1) = addr + 1 + i by omega]
          simpa [Image.store] using this

theorem Image.byte_store_of_disjoint {p : Image} {addr x : ℕ} {bytes : List Byte}
    (hfit : addr + bytes.length ≤ framByteSize) (hx : x < framByteSize)
    (hdisjoint : x < addr ∨ addr + bytes.length ≤ x) : (p.store addr bytes).byte x = p.byte x := by
  unfold Image.byte
  rw [Nat.mod_eq_of_lt hx]
  refine Image.store_fram_of_ne fun i hi => ?_
  rw [Nat.mod_eq_of_lt (by omega)]
  omega

theorem Image.byte_store_getElem {p : Image} {addr i : ℕ} {bytes : List Byte}
    (hfit : addr + bytes.length ≤ framByteSize) (hi : i < bytes.length) :
    (p.store addr bytes).byte (addr + i) = bytes[i] := by
  exact Image.store_fram_getElem (by omega) hi

theorem Image.word_store_of_disjoint {p : Image} {addr x : ℕ} {bytes : List Byte}
    (hfit : addr + bytes.length ≤ framByteSize) (hx : x + 2 ≤ framByteSize)
    (hdisjoint : x + 2 ≤ addr ∨ addr + bytes.length ≤ x) :
    (p.store addr bytes).word x = p.word x := by
  unfold Image.word
  rw [Image.byte_store_of_disjoint hfit (by omega) (by omega),
    Image.byte_store_of_disjoint hfit (by omega) (by omega)]

theorem toNat_wordBytes {n : ℕ} (hn : n < 65536) :
    (BitVec.ofNat 8 n).toNat + 256 * (BitVec.ofNat 8 (n / 256)).toNat = n := by
  simp only [BitVec.toNat_ofNat]
  omega

theorem Image.word_store_self {p : Image} {addr n : ℕ} (hfit : addr + 2 ≤ framByteSize)
    (hn : n < 65536) : (p.store addr (wordBytes n)).word addr = n := by
  unfold Image.word
  have hfit : addr + (wordBytes n).length ≤ framByteSize := hfit
  have hlow := Image.byte_store_getElem (p := p) (i := 0) hfit (by simp [wordBytes])
  have hhigh := Image.byte_store_getElem (p := p) (i := 1) hfit (by simp [wordBytes])
  rw [Nat.add_zero] at hlow
  rw [hlow, hhigh]
  exact toNat_wordBytes hn

@[simp] theorem Image.length_bytes (p : Image) (addr size : ℕ) :
    (p.bytes addr size).length = size := by
  simp [Image.bytes]

/-- A burst read back, also round the end of the memory. -/
theorem Image.bytes_store_burst {p : Image} {addr size : ℕ} {bytes : List Byte}
    (hfit : size ≤ framByteSize) (hsize : bytes.length = size) :
    (p.store addr bytes).bytes addr size = bytes := by
  subst hsize
  refine List.ext_getElem (by simp) fun i hi hi' => ?_
  simp only [Image.bytes, List.getElem_map, List.getElem_range]
  exact Image.store_fram_getElem hfit hi'

theorem Image.bytes_store_self {p : Image} {addr size : ℕ} {bytes : List Byte}
    (hfit : addr + bytes.length ≤ framByteSize) (hsize : bytes.length = size) :
    (p.store addr bytes).bytes addr size = bytes := by
  exact Image.bytes_store_burst (by omega) hsize

section Rules

variable {H : Image → Ram → Prop} {C : Step Write → Image → Prop} {p : Image} {v : Ram}

theorem bind_readImage {α β : Type} (f : Image → α) (m : α → Dev β) :
    (readImage f >>= m) p v = m (f p) p v := bind_silent rfl

theorem bind_modifyRam {β : Type} (f : Ram → Ram) (m : Unit → Dev β) :
    (modifyRam f >>= m) p v = m () p (f v) := bind_silent rfl

@[simp] theorem wp_modifyRam {Q : Unit → Image → Ram → Prop} (f : Ram → Ram) :
    wp (modifyRam f) Q H C p v ↔ Q () p (f v) := by
  simp [modifyRam]

@[simp] theorem wp_readImage {α : Type} {Q : α → Image → Ram → Prop} (f : Image → α) :
    wp (readImage f) Q H C p v ↔ Q (f p) p v := by
  simp [readImage]

@[simp] theorem wp_framReadByte {Q : Byte → Image → Ram → Prop} (addr : ℕ) :
    wp (framReadByte addr) Q H C p v ↔ Q (p.byte addr) p v := by
  simp [framReadByte]

@[simp] theorem wp_framWriteByte {Q : Unit → Image → Ram → Prop} (addr : ℕ) (byte : Byte) :
    wp (framWriteByte addr byte) Q H C p v ↔
      C ⟨.fram (addr % framByteSize) byte, false⟩ (p.store addr [byte]) ∧
        Q () (p.store addr [byte]) v := by
  rw [framWriteByte, wp_write]
  rfl

theorem wp_framWriteBytes {Q : Unit → Image → Ram → Prop} {addr : ℕ} {bytes : List Byte}
    (hcut : ∀ k (hk : k < bytes.length),
      C ⟨.fram ((addr + k) % framByteSize) bytes[k], false⟩ (p.store addr (bytes.take (k + 1))))
    (hreturn : Q () (p.store addr bytes) v) :
    wp (framWriteBytes addr bytes) Q H C p v := by
  induction bytes generalizing p addr with
  | nil => exact (wp_pure ()).mpr hreturn
  | cons byte rest ih =>
      rw [framWriteBytes, wp_bind, wp_framWriteByte]
      refine ⟨hcut 0 (by simp), ih (fun k hk => ?_) hreturn⟩
      have := hcut (k + 1) (by simpa using hk)
      rwa [show addr + (k + 1) = addr + 1 + k by omega] at this

end Rules

/-! ## Frames -/

/-- The bytes that a burst of `size` bytes from `addr` on touches. -/
def burst (addr size : ℕ) : Set ℕ := {x | ∃ i < size, x = (addr + i) % framByteSize}

theorem mem_burst {addr size x : ℕ} (hfit : addr + size ≤ framByteSize) :
    x ∈ burst addr size ↔ addr ≤ x ∧ x < addr + size := by
  constructor
  · rintro ⟨i, hi, rfl⟩
    rw [Nat.mod_eq_of_lt (by omega)]
    omega
  · rintro ⟨hle, hlt⟩
    exact ⟨x - addr, by omega, by rw [Nat.mod_eq_of_lt (by omega)]; omega⟩

theorem burst_subset {addr size k size' : ℕ} (h : k + size' ≤ size) :
    burst (addr + k) size' ⊆ burst addr size := by
  rintro x ⟨i, hi, rfl⟩
  exact ⟨k + i, by omega, by rw [Nat.add_assoc]⟩

/-- The writes that only touch FRAM bytes of `R`. -/
def Write.Within (R : Set ℕ) : Write → Prop
  | .fram addr _ => addr ∈ R
  | _ => False

/-- The images that differ from `p` only in FRAM bytes of `R`. -/
structure SameOff (R : Set ℕ) (p p' : Image) : Prop where
  fram : ∀ x ∉ R, p'.fram x = p.fram x
  eeprom : p'.eeprom = p.eeprom
  card : p'.card = p.card

theorem SameOff.refl (R : Set ℕ) (p : Image) : SameOff R p p := ⟨fun _ _ => rfl, rfl, rfl⟩

theorem SameOff.trans {R : Set ℕ} {p₁ p₂ p₃ : Image} (h₁ : SameOff R p₁ p₂)
    (h₂ : SameOff R p₂ p₃) : SameOff R p₁ p₃ :=
  ⟨fun x hx => (h₂.fram x hx).trans (h₁.fram x hx), h₂.eeprom.trans h₁.eeprom,
    h₂.card.trans h₁.card⟩

theorem SameOff.mono {R R' : Set ℕ} {p p' : Image} (h : SameOff R p p') (hsub : R ⊆ R') :
    SameOff R' p p' :=
  ⟨fun x hx => h.fram x fun hmem => hx (hsub hmem), h.eeprom, h.card⟩

theorem sameOff_store (p : Image) (addr : ℕ) (bytes : List Byte) :
    SameOff (burst addr bytes.length) p (p.store addr bytes) :=
  ⟨fun _ hx => Image.store_fram_of_ne fun i hi heq => hx ⟨i, hi, heq⟩, p.store_eeprom addr bytes,
    p.store_card addr bytes⟩

section Reading

variable {R : Set ℕ} {p p' : Image}

theorem SameOff.byte (h : SameOff R p p') {x : ℕ} (hx : x % framByteSize ∉ R) :
    p'.byte x = p.byte x := h.fram _ hx

theorem SameOff.bytes (h : SameOff R p p') {addr size : ℕ}
    (hdisjoint : ∀ x ∈ burst addr size, x ∉ R) : p'.bytes addr size = p.bytes addr size := by
  refine List.map_congr_left fun i hi => ?_
  exact h.byte (hdisjoint _ ⟨i, List.mem_range.mp hi, rfl⟩)

theorem SameOff.word (h : SameOff R p p') {addr : ℕ} (hdisjoint : ∀ x ∈ burst addr 2, x ∉ R) :
    p'.word addr = p.word addr := by
  have hlow : p'.byte addr = p.byte addr := h.byte (hdisjoint _ ⟨0, by omega, rfl⟩)
  have hhigh : p'.byte (addr + 1) = p.byte (addr + 1) := h.byte (hdisjoint _ ⟨1, by omega, rfl⟩)
  rw [Image.word, Image.word, hlow, hhigh]

end Reading

theorem Write.Within.mono {R R' : Set ℕ} {w : Write} (h : w.Within R) (hsub : R ⊆ R') :
    w.Within R' := by
  cases w with
  | fram addr byte => exact hsub h
  | eeprom addr byte => exact h
  | card block data => exact h

theorem Write.Within.sameOff {R : Set ℕ} {w : Write} (h : w.Within R) (p : Image) :
    SameOff R p (Durable.apply p w) := by
  cases w with
  | fram addr byte =>
      refine ⟨fun x hx => Function.update_of_ne ?_ _ _, rfl, rfl⟩
      rintro rfl
      exact hx h
  | eeprom addr byte => exact h.elim
  | card block data => exact h.elim

/-- A program whose writes stay in `R` leaves the rest alone, at its end and at
every power loss on the way. -/
theorem wp_sameOff {α : Type} {m : Dev α} {Q : α → Image → Ram → Prop} {H : Image → Ram → Prop}
    {R : Set ℕ} {p : Image} {v : Ram}
    (h : wp m Q H (fun step _ => step.write.Within R) p v) :
    wp m (fun a p' v' => SameOff R p p' ∧ Q a p' v') H
      (fun step p' => step.write.Within R ∧ SameOff R p p') p v :=
  wp_reach (SameOff.refl R) (fun _ _ _ => SameOff.trans) (fun _ p' hw => hw.sameOff p') h

/-- A group that writes within a region and leaves an image satisfying `D`. -/
theorem wp_group_sameOff {α : Type} {m : Dev α} {Q : α → Image → Ram → Prop}
    {H : Image → Ram → Prop} {R : Set ℕ} {D : Image → Prop} {p : Image} {v : Ram}
    (h : wp m (fun a p' v' => D p' ∧ Q a p' v') (fun p' v' => D p' ∧ H p' v')
      (fun step _ => step.write.Within R) p v) :
    wp (Program.group m) (fun a p' v' => SameOff R p p' ∧ D p' ∧ Q a p' v') H
      (fun step p' =>
        (step.write.Within R ∧ SameOff R p p') ∧ (step.inner = false → D p')) p v := by
  have hkept : wp m (fun a p' v' => D p' ∧ D p' ∧ Q a p' v') (fun p' v' => D p' ∧ H p' v')
      (fun step _ => step.write.Within R) p v :=
    wp_imp h fun _ _ _ h => ⟨h.1, h⟩
  have hleaves := wp_group_leaves hkept
  have hframe := wp_sameOff (wp_mono hleaves (fun _ _ _ => id) (fun _ _ => id) fun _ _ h => h.1)
  exact wp_mono (wp_and hframe hleaves) (fun _ _ _ h => ⟨h.1.1, h.2⟩) (fun _ _ h => h.2)
    fun _ _ h => ⟨h.1, h.2.2⟩

end PasswordWallet
