import PasswordWallet.Packing.Bits
import PasswordWallet.Proofs.LoadedLayout
import PasswordWallet.Utility.MemoryAccess

/-!
# The options that the memory parser writes and reads

`setOption` writes each of the five bits at its place.  `option` gives a bit-field the
masked byte, and the field keeps the lowest bit of it: a flag is seen only if its position
is 0.  A block at the offset 0 counts as missing.
-/

namespace PasswordWallet.MemoryAccess

open MemoryRepresentation Packing

/-- The bits of the byte `option`. -/
inductive OptionBit
  | sortingMethodL | sortingMethodH | orientation | initialized | qwerty
deriving DecidableEq

namespace OptionBit

def name : OptionBit → String
  | sortingMethodL => "sorting_method_l"
  | sortingMethodH => "sorting_method_h"
  | orientation => "orientation"
  | initialized => "initialized"
  | qwerty => "qwerty"

def all : List OptionBit := [sortingMethodL, sortingMethodH, orientation, initialized, qwerty]

theorem mem_all (b : OptionBit) : b ∈ all := by cases b <;> decide

theorem nodup_all : all.Nodup := by decide

end OptionBit

/-- The bit that an option has under a name. -/
def OptionBits.bit (o : OptionBits) : OptionBit → Bool
  | .sortingMethodL => o.sortingMethod.getLsbD 0
  | .sortingMethodH => o.sortingMethod.getLsbD 1
  | .orientation => o.orientation.getLsbD 0
  | .initialized => o.initialized.getLsbD 0
  | .qwerty => o.qwerty.getLsbD 0

/-- The section `header` has a byte `option` with the five bits, at different positions. -/
def HasOptions (root : XmlNode) (offset : BitVec 32) (pos : OptionBit → ℕ) : Prop :=
  (∃ bits, HasByte root "header" "option" offset bits ∧
    ∀ b : OptionBit, ∃ bitN ∈ bits, bitN.attributeValue "name" = some b.name ∧
      (bitPosition bitN).toNat = pos b) ∧
  Function.Injective pos ∧ ∀ b, pos b < 8

/-- The place of a bit in an image. -/
def place (offset : BitVec 32) (pos : OptionBit → ℕ) (b : OptionBit) : Place :=
  ⟨offset.toNat, pos b⟩

/-- `option()` gives an option back after `setOption`, which changes no bits but the five. -/
def OptionsKept (rep : MemoryRepresentation) (offset : BitVec 32) (pos : OptionBit → ℕ)
    (image : List Byte) (o : OptionBits) : Prop :=
  ∃ image', (setOption rep o).run image = .ok () image' ∧ option rep image' = .ok o ∧
    DifferAt (OptionBit.all.map (place offset pos)) image image'

/-- The image has the byte, at an offset that does not count as missing. -/
def Present (offset : BitVec 32) (image : List Byte) : Prop :=
  offset ≠ 0 ∧ offset.toNat < image.length

/-! ## Single bytes -/

theorem eq_one_shiftLeft (pos : ℕ) : (1 : BitVec 32) <<< pos = BitVec.twoPow 32 pos :=
  (BitVec.twoPow_eq 32 pos).symm

theorem getLsbD_twoPow_of_lt {bit i : ℕ} (hi : i < 8) :
    (BitVec.twoPow 32 bit).getLsbD i = (BitVec.twoPow 8 bit).getLsbD i := by
  rw [BitVec.getLsbD_twoPow, BitVec.getLsbD_twoPow]
  by_cases h : bit = i
  · simp [h, hi, show i < 32 by omega]
  · simp [h]

theorem ubi_eq (byte : Byte) (bit : ℕ) (value : Bool) :
    ubi byte bit value = withBit byte bit value := by
  apply BitVec.eq_of_getLsbD_eq
  intro i hi
  have hmask : (BitVec.twoPow 32 bit).getLsbD i = (BitVec.twoPow 8 bit).getLsbD i :=
    getLsbD_twoPow_of_lt hi
  cases value
  · simp only [ubi, withBit, Bool.false_eq_true, if_false, eq_one_shiftLeft,
      BitVec.getLsbD_setWidth, BitVec.getLsbD_and, BitVec.getLsbD_not, hmask, hi, decide_true,
      Bool.true_and, show i < 32 by omega]
  · simp only [ubi, withBit, if_true, eq_one_shiftLeft, BitVec.getLsbD_setWidth,
      BitVec.getLsbD_or, hmask, hi, decide_true, Bool.true_and, show i < 32 by omega]

/-- A masked byte is the mask, or nothing. -/
theorem masked_eq (byte : Byte) {pos : ℕ} (hpos : pos < 8) :
    byte.setWidth 32 &&& ((1 : BitVec 32) <<< pos) =
      if byte.getLsbD pos then BitVec.twoPow 32 pos else 0 := by
  rw [eq_one_shiftLeft, BitVec.and_twoPow, BitVec.getLsbD_setWidth, decide_eq_true (by omega),
    Bool.true_and]
  rfl

/-! ## Where the bits are found -/

/-- `position` gives the byte at the offset and its bits at their positions. -/
structure Located (rep : MemoryRepresentation) (offset : BitVec 32) (pos : OptionBit → ℕ) :
    Prop where
  byte : rep.position "header" "option" = { offset := offset, size := 1 }
  bit : ∀ b : OptionBit, rep.position "header" ("option" ++ "_" ++ b.name) =
    { offset := offset, size := 1, bitPos := BitVec.ofNat 8 (pos b) }
  pos_lt : ∀ b, pos b < 8

variable {doc root : XmlNode} {rep rep' : MemoryRepresentation} {offset : BitVec 32}
  {pos : OptionBit → ℕ} {data image : List Byte} {o : OptionBits}

theorem HasOptions.located (h : HasOptions root offset pos) (hdoc : doc.child "root" = some root)
    (hload : loadFromFile (some doc) rep = (true, rep')) : Located rep' offset pos := by
  obtain ⟨⟨bits, hbyte, hbits⟩, -, hlt⟩ := h
  refine ⟨position_byte hdoc hload hbyte, fun b => ?_, hlt⟩
  obtain ⟨bitN, hbit, hname, hpos⟩ := hbits b
  rw [position_bit hdoc hload hbyte hbit hname, ← hpos, BitVec.ofNat_toNat, BitVec.setWidth_eq]

/-- A flag, masked. -/
def masked (pos : OptionBit → ℕ) (flags : OptionBit → Bool) (b : OptionBit) : BitVec 32 :=
  if flags b then BitVec.twoPow 32 (pos b) else 0

/-- The option that the masked flags make. -/
def unmasked (pos : OptionBit → ℕ) (flags : OptionBit → Bool) : OptionBits :=
  { sortingMethod := ((((masked pos flags .sortingMethodH).setWidth 8).setWidth 32 <<< 1) |||
      ((masked pos flags .sortingMethodL).setWidth 8).setWidth 32).setWidth 2
    orientation := (masked pos flags .orientation).setWidth 1
    initialized := (masked pos flags .initialized).setWidth 1
    qwerty := (masked pos flags .qwerty).setWidth 1 }

/-- An image with the bits of an option written. -/
def written (offset : BitVec 32) (pos : OptionBit → ℕ) (image : List Byte) (o : OptionBits) :
    List Byte :=
  putBits image (OptionBit.all.map fun b => (place offset pos b, o.bit b))

theorem Present.written (h : Present offset image) (pos : OptionBit → ℕ) (o : OptionBits) :
    Present offset (written offset pos image o) :=
  ⟨h.1, by rw [MemoryAccess.written, length_putBits]; exact h.2⟩

theorem differAt_written (offset : BitVec 32) (pos : OptionBit → ℕ) (image : List Byte)
    (o : OptionBits) :
    DifferAt (OptionBit.all.map (place offset pos)) image (written offset pos image o) := by
  have h := differAt_putBits image (OptionBit.all.map fun b => (place offset pos b, o.bit b))
  rwa [List.map_map] at h

namespace Located

variable (h : Located rep offset pos)
include h

theorem toNat_bitPos (b : OptionBit) : (BitVec.ofNat 8 (pos b)).toNat = pos b := by
  rw [BitVec.toNat_ofNat, Nat.mod_eq_of_lt]
  exact lt_trans (h.pos_lt b) (by decide)

theorem setThrowIfEmpty_bit (hoffset : offset ≠ 0) (b : OptionBit) :
    setThrowIfEmpty rep "header" ("option" ++ "_" ++ b.name) =
      .ok { offset := offset, size := 1, bitPos := BitVec.ofNat 8 (pos b) } := by
  have hvalid : MemoryBlock.valid
      { offset := offset, size := 1, bitPos := BitVec.ofNat 8 (pos b) } := by
    simpa [MemoryBlock.valid] using hoffset
  unfold setThrowIfEmpty
  rw [h.bit b, if_pos hvalid]

/-! ### Writing -/

theorem setBit_run (hpresent : Present offset data) (b : OptionBit) (value : Bool) :
    (setBit rep ("option" ++ "_" ++ b.name) value).run data =
      .ok () (putBit data (place offset pos b) value) := by
  obtain ⟨hoffset, hlt⟩ := hpresent
  have hbyte : dataAt data offset = .ok data[offset.toNat] := by
    rw [dataAt, List.getElem?_eq_getElem hlt]
  have hput : putBit data (place offset pos b) value =
      data.set offset.toNat (ubi data[offset.toNat] (pos b) value) := by
    rw [putBit, place, List.modify_eq_set_getElem?, List.getElem?_eq_getElem hlt, ubi_eq]
    rfl
  unfold setBit
  rw [h.setThrowIfEmpty_bit hoffset, hput]
  change EStateM.run (MonadExcept.ofExcept (dataAt data offset) >>= fun byte =>
    modify fun data =>
      data.set offset.toNat (ubi byte (BitVec.ofNat 8 (pos b)).toNat value)) data = _
  rw [hbyte, h.toNat_bitPos]
  rfl

theorem setBit_fails (hpresent : ¬ Present offset data) (b : OptionBit) (value : Bool) :
    ∃ e, (setBit rep ("option" ++ "_" ++ b.name) value).run data = .error e data := by
  unfold setBit
  by_cases hoffset : offset = 0
  · have hvalid : ¬ MemoryBlock.valid
        { offset := offset, size := 1, bitPos := BitVec.ofNat 8 (pos b) } := by
      simp [MemoryBlock.valid, hoffset]
    rw [setThrowIfEmpty, h.bit b, if_neg hvalid]
    exact ⟨_, rfl⟩
  · have hbyte : dataAt data offset = .error .outOfRange := by
      have hlt : data.length ≤ offset.toNat := not_lt.mp fun hlt => hpresent ⟨hoffset, hlt⟩
      rw [dataAt, List.getElem?_eq_none hlt]
    refine ⟨.outOfRange, ?_⟩
    rw [h.setThrowIfEmpty_bit hoffset]
    change EStateM.run (MonadExcept.ofExcept (dataAt data offset) >>= fun byte =>
      modify fun data =>
      data.set offset.toNat (ubi byte (BitVec.ofNat 8 (pos b)).toNat value)) data = _
    rw [hbyte]
    rfl

/-- The bits of an option, written one after the other. -/
theorem setBits_run (hpresent : Present offset data) (o : OptionBits) (bs : List OptionBit) :
    (bs.forM fun b => setBit rep ("option" ++ "_" ++ b.name) (o.bit b)).run data =
      .ok () (putBits data (bs.map fun b => (place offset pos b, o.bit b))) := by
  induction bs generalizing data with
  | nil => rfl
  | cons b rest ih =>
      have hnext : Present offset (putBit data (place offset pos b) (o.bit b)) :=
        ⟨hpresent.1, by rw [length_putBit]; exact hpresent.2⟩
      change EStateM.bind (setBit rep ("option" ++ "_" ++ b.name) (o.bit b)) _ data = _
      rw [EStateM.bind, show setBit rep ("option" ++ "_" ++ b.name) (o.bit b) data = _ from
        h.setBit_run hpresent b (o.bit b)]
      exact ih hnext

omit h in
theorem setOption_eq (rep : MemoryRepresentation) (o : OptionBits) :
    setOption rep o =
      OptionBit.all.forM fun b => setBit rep ("option" ++ "_" ++ b.name) (o.bit b) := by
  obtain ⟨sortingMethod, orientation, initialized, qwerty⟩ := o
  have hlow : decide (sortingMethod &&& 0x01 ≠ 0) = sortingMethod.getLsbD 0 := by
    revert sortingMethod
    decide
  have hhigh : decide (sortingMethod >>> 1 ≠ 0) = sortingMethod.getLsbD 1 := by
    revert sortingMethod
    decide
  have hone : ∀ field : BitVec 1, decide (field ≠ 0) = field.getLsbD 0 := by decide
  unfold setOption
  simp only [hlow, hhigh, hone, OptionBit.all, List.forM_eq_forM, List.forM_cons, List.forM_nil,
    bind_pure_unit]
  rfl

theorem setOption_run (hpresent : Present offset image) (o : OptionBits) :
    (setOption rep o).run image = .ok () (written offset pos image o) := by
  rw [setOption_eq]
  exact h.setBits_run hpresent o OptionBit.all

theorem setOption_fails (hpresent : ¬ Present offset image) (o : OptionBits) :
    ∃ e, (setOption rep o).run image = .error e image := by
  obtain ⟨e, he⟩ := h.setBit_fails hpresent .sortingMethodL (o.bit .sortingMethodL)
  refine ⟨e, ?_⟩
  rw [setOption_eq]
  change EStateM.bind (setBit rep ("option" ++ "_" ++ OptionBit.sortingMethodL.name)
    (o.bit .sortingMethodL)) _ image = _
  rw [EStateM.bind, show setBit rep ("option" ++ "_" ++ OptionBit.sortingMethodL.name)
    (o.bit .sortingMethodL) image = _ from he]

/-! ### Reading -/

theorem maskedBit_eq (hpresent : Present offset data) (b : OptionBit) :
    maskedBit rep data offset ("option" ++ "_" ++ b.name) =
      .ok (if bitAt data (place offset pos b) then BitVec.twoPow 32 (pos b) else 0) := by
  obtain ⟨hoffset, hlt⟩ := hpresent
  have hbit : bitAt data (place offset pos b) = data[offset.toNat].getLsbD (pos b) := by
    rw [bitAt, place, List.getD_eq_getElem?_getD, List.getElem?_eq_getElem hlt, Option.getD_some]
  have hbyte : dataAt data offset = .ok data[offset.toNat] := by
    rw [dataAt, List.getElem?_eq_getElem hlt]
  rw [maskedBit, h.setThrowIfEmpty_bit hoffset, hbit]
  change (dataAt data offset >>= fun byte => .ok (byte.setWidth 32 &&&
    ((1 : BitVec 32) <<< (BitVec.ofNat 8 (pos b)).toNat))) = _
  rw [hbyte, h.toNat_bitPos b]
  exact congrArg Except.ok (masked_eq _ (h.pos_lt b))

theorem option_run (hpresent : Present offset data) :
    option rep data = .ok (unmasked pos fun b => bitAt data (place offset pos b)) := by
  have hmasked := h.maskedBit_eq hpresent
  have hvalid : MemoryBlock.valid { offset := offset, size := 1 } := by
    simpa [MemoryBlock.valid] using hpresent.1
  have hl := hmasked .sortingMethodL
  have hh := hmasked .sortingMethodH
  have ho := hmasked .orientation
  have hi := hmasked .initialized
  have hq := hmasked .qwerty
  simp only [OptionBit.name, String.reduceAppend] at hl hh ho hi hq
  rw [option, h.byte]
  simp only [hvalid, hl, hh, ho, hi, hq]
  rfl

end Located

/-! ## What the bit-fields keep -/

/-- The flags that are seen in an option made of them. -/
def kept (pos : OptionBit → ℕ) (flags : OptionBit → Bool) : OptionBit → Bool
  | .sortingMethodH => (flags .sortingMethodH && decide (pos .sortingMethodH = 0)) ||
      (flags .sortingMethodL && decide (pos .sortingMethodL = 1))
  | b => flags b && decide (pos b = 0)

theorem getElem_masked {i : ℕ} (hi : i < 32) (flags : OptionBit → Bool) (b : OptionBit) :
    (masked pos flags b)[i] = (flags b && decide (pos b = i)) := by
  unfold masked
  cases flags b
  · simp
  · rw [← BitVec.getLsbD_eq_getElem, if_pos rfl, BitVec.getLsbD_twoPow, Bool.true_and]
    by_cases h : pos b = i
    · simp [h, hi]
    · simp [h]

theorem getLsbD_field (flags : OptionBit → Bool) (b : OptionBit) :
    ((masked pos flags b).setWidth 1).getLsbD 0 = (flags b && decide (pos b = 0)) := by
  simp [getElem_masked]

theorem bit_unmasked (pos : OptionBit → ℕ) (flags : OptionBit → Bool) (b : OptionBit) :
    (unmasked pos flags).bit b = kept pos flags b := by
  cases b with
  | sortingMethodL =>
      simp only [OptionBits.bit, unmasked, kept, BitVec.getLsbD_setWidth, BitVec.getLsbD_or,
        BitVec.getLsbD_shiftLeft]
      simp [getElem_masked]
  | sortingMethodH =>
      simp only [OptionBits.bit, unmasked, kept, BitVec.getLsbD_setWidth, BitVec.getLsbD_or,
        BitVec.getLsbD_shiftLeft]
      simp [getElem_masked]
  | orientation => exact getLsbD_field flags .orientation
  | initialized => exact getLsbD_field flags .initialized
  | qwerty => exact getLsbD_field flags .qwerty

theorem OptionBits.ext_bit {o o' : OptionBits} (h : ∀ b, o.bit b = o'.bit b) : o = o' := by
  obtain ⟨s, r, i, q⟩ := o
  obtain ⟨s', r', i', q'⟩ := o'
  have hs : s = s' := by
    apply BitVec.eq_of_getLsbD_eq
    rintro (_ | _ | n) hn
    · exact h .sortingMethodL
    · exact h .sortingMethodH
    · omega
  have hone : ∀ {f f' : BitVec 1}, f.getLsbD 0 = f'.getLsbD 0 → f = f' := by decide
  have hr : r = r' := hone (h .orientation)
  have hi : i = i' := hone (h .initialized)
  have hq : q = q' := hone (h .qwerty)
  rw [hs, hr, hi, hq]

/-- The flags are all kept if each that is set has the position 0. -/
theorem kept_eq_iff (pos : OptionBit → ℕ) (flags : OptionBit → Bool) :
    (∀ b, kept pos flags b = flags b) ↔ ∀ b, flags b = true → pos b = 0 := by
  constructor
  · intro h b hb
    have hkept := h b
    have hlow := h .sortingMethodL
    cases b with
    | sortingMethodH =>
        simp only [kept, hb, Bool.true_and, Bool.or_eq_true, Bool.and_eq_true,
          decide_eq_true_eq] at hkept
        rcases hkept with hpos | ⟨hflag, hpos⟩
        · exact hpos
        · -- the other bit of the method is at the position 1, where its own field does not see it
          simp [kept, hflag, hpos] at hlow
    | sortingMethodL | orientation | initialized | qwerty => simpa [kept, hb] using hkept
  · intro h b
    have hkeep : ∀ b, (flags b && decide (pos b = 0)) = flags b := by
      intro b
      cases hb : flags b with
      | false => rfl
      | true => simp [h b hb]
    cases b with
    | sortingMethodH =>
        have hlow : (flags .sortingMethodL && decide (pos .sortingMethodL = 1)) = false := by
          cases hflag : flags .sortingMethodL with
          | false => rfl
          | true => simp [h _ hflag]
        rw [kept, hkeep, hlow, Bool.or_false]
    | sortingMethodL | orientation | initialized | qwerty => exact hkeep _

/-! ## The round trip -/

namespace Located

variable (h : Located rep offset pos)
include h

/-- Whether or not an exception is thrown, `setOption` changes no bits but the five. -/
theorem differAt_setOption (image : List Byte) (o : OptionBits) :
    ∃ image', ((setOption rep o).run image = .ok () image' ∨
        ∃ e, (setOption rep o).run image = .error e image') ∧
      DifferAt (OptionBit.all.map (place offset pos)) image image' := by
  by_cases hpresent : Present offset image
  · exact ⟨_, Or.inl (h.setOption_run hpresent o), differAt_written offset pos image o⟩
  · exact ⟨image, Or.inr (h.setOption_fails hpresent o), rfl, fun _ _ => rfl⟩

/-- After `setOption` each flag of the option is at its place. -/
theorem bitAt_written (hinj : Function.Injective pos) (hpresent : Present offset image)
    (o : OptionBits) (b : OptionBit) :
    bitAt (written offset pos image o) (place offset pos b) = o.bit b := by
  have hplace : Function.Injective (place offset pos) := by
    intro b b' heq
    exact hinj (Place.mk.inj heq).2
  have hmem : (place offset pos b, o.bit b) ∈
      OptionBit.all.map fun b => (place offset pos b, o.bit b) := List.mem_map_of_mem b.mem_all
  have hnodup : ((OptionBit.all.map fun b => (place offset pos b, o.bit b)).map Prod.fst).Nodup := by
    rw [List.map_map]
    exact OptionBit.nodup_all.map hplace
  have hinside : ∀ flag ∈ OptionBit.all.map fun b => (place offset pos b, o.bit b),
      flag.1.Inside image := by
    intro flag hflag
    obtain ⟨b', -, rfl⟩ := List.mem_map.mp hflag
    exact ⟨hpresent.2, h.pos_lt b'⟩
  have hwritten := bitAt_putBits_of_mem hnodup hinside hmem
  exact hwritten

/-- After `setOption`, `option` gives what the bit-fields keep. -/
theorem option_written (hinj : Function.Injective pos) (hpresent : Present offset image)
    (o : OptionBits) :
    option rep (written offset pos image o) = .ok (unmasked pos o.bit) := by
  rw [h.option_run (hpresent.written pos o)]
  congr
  funext b
  exact h.bitAt_written hinj hpresent o b

theorem optionsKept_iff (hinj : Function.Injective pos) (image : List Byte) (o : OptionBits) :
    OptionsKept rep offset pos image o ↔
      Present offset image ∧ ∀ b, o.bit b = true → pos b = 0 := by
  rw [← kept_eq_iff]
  constructor
  · rintro ⟨image', hset, hoption, -⟩
    by_cases hpresent : Present offset image
    · refine ⟨hpresent, fun b => ?_⟩
      rw [h.setOption_run hpresent, EStateM.Result.ok.injEq] at hset
      obtain ⟨-, rfl⟩ := hset
      rw [h.option_written hinj hpresent, Except.ok.injEq] at hoption
      rw [← bit_unmasked, hoption]
    · obtain ⟨e, he⟩ := h.setOption_fails hpresent o
      rw [he] at hset
      cases hset
  · rintro ⟨hpresent, hkept⟩
    refine ⟨_, h.setOption_run hpresent o, ?_, differAt_written offset pos image o⟩
    rw [h.option_written hinj hpresent]
    refine congrArg Except.ok (OptionBits.ext_bit fun b => ?_)
    rw [bit_unmasked, hkept b]

end Located

/-- The options are kept if the byte lies in the image, not at its start, and no bit is set
but one at the position 0. -/
theorem options_kept_iff (hdoc : doc.child "root" = some root)
    (hload : loadFromFile (some doc) rep = (true, rep')) (hoptions : HasOptions root offset pos)
    (image : List Byte) (o : OptionBits) :
    OptionsKept rep' offset pos image o ↔
      offset ≠ 0 ∧ offset.toNat < image.length ∧ ∀ b, o.bit b = true → pos b = 0 := by
  have hlocated := hoptions.located hdoc hload
  have hinj : Function.Injective pos := hoptions.2.1
  rw [hlocated.optionsKept_iff hinj, Present, and_assoc]

/-- No layout keeps all the options. -/
theorem exists_option_lost (hdoc : doc.child "root" = some root)
    (hload : loadFromFile (some doc) rep = (true, rep')) (hoptions : HasOptions root offset pos)
    (image : List Byte) : ∃ o, ¬ OptionsKept rep' offset pos image o := by
  have hlocated := hoptions.located hdoc hload
  have hinj : Function.Injective pos := hoptions.2.1
  refine ⟨{ initialized := 1, qwerty := 1 }, ?_⟩
  rw [hlocated.optionsKept_iff hinj]
  rintro ⟨-, hzero⟩
  have heq : pos .initialized = pos .qwerty :=
    (hzero .initialized (by decide)).trans (hzero .qwerty (by decide)).symm
  exact absurd (hinj heq) (by decide)

/-! ## `memorg.xml` -/

def bitNode (pos name : String) : XmlNode := ⟨"bit", [("pos", pos), ("name", name)], []⟩
def byteNode (name : String) (bits : List XmlNode) : XmlNode := ⟨"byte", [("name", name)], bits⟩
def blockNode (size name : String) : XmlNode := ⟨"block", [("size", size), ("name", name)], []⟩

def sectionNode (name : String) (children : List XmlNode) : XmlNode :=
  ⟨"section", [("name", name)], children⟩

def rootNode (sections : List XmlNode) : XmlNode := ⟨"root", [], sections⟩
def document (root : XmlNode) : XmlNode := ⟨"", [], [root]⟩

def memorgBit : OptionBit → XmlNode
  | .sortingMethodL => bitNode "0" "sorting_method_l"
  | .sortingMethodH => bitNode "1" "sorting_method_h"
  | .orientation => bitNode "3" "orientation"
  | .initialized => bitNode "4" "initialized"
  | .qwerty => bitNode "5" "qwerty"

def memorgPos : OptionBit → ℕ
  | .sortingMethodL => 0
  | .sortingMethodH => 1
  | .orientation => 3
  | .initialized => 4
  | .qwerty => 5

def optionNode : XmlNode := byteNode "option" (OptionBit.all.map memorgBit)

/-- `memorg.xml`, where `option` is the first byte of all. -/
def memorgXml : XmlNode := rootNode [
  sectionNode "header" [optionNode, byteNode "first_pwd_use" [], byteNode "first_pwd_alpha" [],
    byteNode "num_pwd" [], blockNode "256" "entropy_pool", blockNode "25" "memory_map",
    byteNode "backup_status" [], byteNode "backup_id" [], blockNode "166" "backup_data"],
  sectionNode "password" [byteNode "prev_pwd_use" [], byteNode "next_pwd_use" [],
    byteNode "prev_pwd_alpha" [], byteNode "next_pwd_alpha" [], blockNode "2" "counter",
    blockNode "32" "name", blockNode "16" "iv_data", blockNode "32" "data",
    blockNode "16" "iv_usr", blockNode "64" "usr_name"]]

/-- The same byte behind another one. -/
def shiftedXml : XmlNode := rootNode [sectionNode "header" [byteNode "version" [], optionNode]]

theorem hasOptions_optionNode
    (h : HasByte root "header" "option" offset (OptionBit.all.map memorgBit)) :
    HasOptions root offset memorgPos := by
  refine ⟨⟨_, h, fun b => ⟨memorgBit b, List.mem_map_of_mem b.mem_all, ?_⟩⟩, ?_, ?_⟩
  · cases b <;> decide
  · intro b b' heq
    cases b <;> cases b' <;> first | rfl | cases heq
  · intro b
    cases b <;> decide

theorem hasOptions_memorgXml : HasOptions memorgXml 0 memorgPos :=
  hasOptions_optionNode ⟨[], _, _, [], _, _, rfl, rfl, rfl, rfl, rfl, rfl, rfl⟩

theorem hasOptions_shiftedXml : HasOptions shiftedXml 1 memorgPos :=
  hasOptions_optionNode
    ⟨[], _, _, [byteNode "version" []], _, _, rfl, rfl, rfl, rfl, rfl, rfl, rfl⟩

theorem options_kept_iff_shifted :
    ∃ rep, loadFromFile (some (document shiftedXml)) {} = (true, rep) ∧
      OptionsKept rep 1 memorgPos [0, 0] { sortingMethod := 1 } := by
  have hroot : (document shiftedXml).child "root" = some shiftedXml := rfl
  obtain ⟨rep, hload⟩ : ∃ rep, loadFromFile (some (document shiftedXml)) {} = (true, rep) :=
    ⟨_, rfl⟩
  refine ⟨rep, hload, (options_kept_iff hroot hload hasOptions_shiftedXml [0, 0] _).mpr ?_⟩
  refine ⟨by decide, by decide, fun b => ?_⟩
  cases b <;> decide

/-- As the layout is, `setOption` finds none of the bits; behind another byte, `option` does
not see that a bit is set. -/
theorem options_lost :
    (∃ rep, loadFromFile (some (document memorgXml)) {} = (true, rep) ∧
      HasOptions memorgXml 0 memorgPos ∧
      ¬ OptionsKept rep 0 memorgPos (List.replicate 453 0) {}) ∧
    ∃ rep, loadFromFile (some (document shiftedXml)) {} = (true, rep) ∧
      HasOptions shiftedXml 1 memorgPos ∧
      ¬ OptionsKept rep 1 memorgPos [0, 0] { qwerty := 1 } := by
  refine ⟨⟨_, rfl, ?_, ?_⟩, ⟨_, rfl, ?_, ?_⟩⟩
  · exact hasOptions_memorgXml
  · rintro ⟨image, hset, -⟩
    cases hset
  · exact hasOptions_shiftedXml
  · rintro ⟨image, hset, hoption, -⟩
    cases hset
    exact absurd hoption (by decide)

end PasswordWallet.MemoryAccess
