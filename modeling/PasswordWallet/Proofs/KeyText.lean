import PasswordWallet.Graphics.Ascii85
import PasswordWallet.Radix.Weights
import PasswordWallet.Utility.MemoryAccess

/-!
# The key that is shown can be typed

The characters from `'!'` to `'u'` are the digits of base 85, five of them for four
bytes.  A number of 32 bits has five digits, so `encode_16B` loses nothing in the `char`
and `decode_16B` gets the number back; the other way round the number of five digits must
fit into 32 bits.
-/

namespace PasswordWallet

open Radix

/-- The characters from `'!'` to `'u'`. -/
def IsDigit (c : Byte) : Prop := 0x21 ≤ c.toNat ∧ c.toNat ≤ 0x75

instance : DecidablePred IsDigit := fun _ => inferInstanceAs (Decidable (_ ∧ _))

def digit (c : Byte) : ℕ := c.toNat - 0x21

/-- The characters of a group. -/
def group (s : Vector Byte 20) (i : ℕ) : List Byte := (s.toList.drop (5 * i)).take 5

/-- The number that the characters of a group denote. -/
def groupValue (s : Vector Byte 20) (i : ℕ) : ℕ :=
  value ((group s i).map digit) (weights 85 5)

theorem powers_toNat : powers.map BitVec.toNat = weights 85 5 := rfl

theorem length_group (s : Vector Byte 20) {i : ℕ} (hi : i < 4) : (group s i).length = 5 := by
  simp [group]
  omega

theorem mem_of_mem_group {s : Vector Byte 20} {i : ℕ} {c : Byte} (h : c ∈ group s i) :
    c ∈ s.toList :=
  List.mem_of_mem_drop (List.mem_of_mem_take h)

theorem getD_group (s : Vector Byte 20) {i : ℕ} (hi : i < 20) :
    (group s (i / 5)).getD (i % 5) 0 = s.toList.getD i 0 := by
  rw [List.getD_eq_getElem _ _ (by rw [length_group s (by omega)]; omega),
    List.getD_eq_getElem _ _ (by simpa using hi)]
  simp [group, Nat.div_add_mod]

/-! ## From the characters to the number -/

theorem toNat_foldl_add (l : List (BitVec 32)) (sum : BitVec 32) :
    (l.foldl (· + ·) sum).toNat = (sum.toNat + (l.map BitVec.toNat).sum) % 2 ^ 32 := by
  induction l generalizing sum with
  | nil => simp [Nat.mod_eq_of_lt sum.isLt]
  | cons x l ih =>
      rw [List.foldl_cons, ih, BitVec.toNat_add, List.map_cons, List.sum_cons, Nat.mod_add_mod,
        Nat.add_assoc]

theorem toNat_term {c : Byte} (hc : 0x21 ≤ c.toNat) (power : BitVec 32) :
    ((c.setWidth 32 - 33) * power).toNat = digit c * power.toNat % 2 ^ 32 := by
  have hlt := c.isLt
  have hsub : (c.setWidth 32 - 33).toNat = digit c := by
    simp [BitVec.toNat_sub, digit]
    omega
  rw [BitVec.toNat_mul, hsub]

theorem sum_terms {input : List Byte} (hinput : ∀ c ∈ input, 0x21 ≤ c.toNat)
    (ps : List (BitVec 32)) :
    ((List.zipWith (fun c power => (c.setWidth 32 - 33) * power) input ps).map
        BitVec.toNat).sum % 2 ^ 32 =
      value (input.map digit) (ps.map BitVec.toNat) % 2 ^ 32 := by
  induction input generalizing ps with
  | nil => cases ps <;> rfl
  | cons c input ih =>
      cases ps with
      | nil => rfl
      | cons power ps =>
          have hrest := ih (fun d hd => hinput d (List.mem_cons_of_mem _ hd)) ps
          rw [List.zipWith_cons_cons, List.map_cons, List.sum_cons, List.map_cons, List.map_cons,
            value, Nat.add_mod, hrest, toNat_term (hinput c (List.mem_cons_self ..)), Nat.mod_mod,
            ← Nat.add_mod]

theorem toNat_decodeSum {input : List Byte} (hinput : ∀ c ∈ input, 0x21 ≤ c.toNat) :
    (decodeSum input).toNat = value (input.map digit) (weights 85 5) % 2 ^ 32 := by
  rw [decodeSum, toNat_foldl_add, ← powers_toNat, ← sum_terms hinput]
  simp

/-! ## From the number to the characters -/

def character (d : ℕ) : Byte := BitVec.ofNat 8 (d + 0x21)

theorem isDigit_character {d : ℕ} (hd : d < 85) : IsDigit (character d) := by
  simp only [IsDigit, character, BitVec.toNat_ofNat]
  omega

theorem digit_character {d : ℕ} (hd : d < 85) : digit (character d) = d := by
  simp only [digit, character, BitVec.toNat_ofNat]
  omega

theorem character_digit {c : Byte} (hc : IsDigit c) : character (digit c) = c := by
  refine BitVec.eq_of_toNat_eq ?_
  have hlt := c.isLt
  simp only [IsDigit] at hc
  simp only [digit, character, BitVec.toNat_ofNat]
  omega

theorem digit_lt {c : Byte} (hc : IsDigit c) : digit c < 85 := by
  simp only [IsDigit] at hc
  simp only [digit]
  omega

/-- Below `85 ^ k` the quotients fit into the `char` and the rests are those of the
division. -/
theorem encodeDigits_eq {ps : List (BitVec 32)} {k : ℕ} {sum : BitVec 32}
    (hps : ps.map BitVec.toNat = weights 85 k) (hsum : sum.toNat < 85 ^ k) :
    encodeDigits ps sum = (greedy (weights 85 k) sum.toNat).map character := by
  induction k generalizing ps sum with
  | zero => rw [List.map_eq_nil_iff.mp hps]; rfl
  | succ k ih =>
      obtain ⟨power, rest, rfl, hpower, hrest⟩ := List.map_eq_cons_iff.mp hps
      have hpos : 0 < 85 ^ k := Nat.pow_pos (by decide)
      have hquotient : sum.toNat / 85 ^ k < 85 :=
        Nat.div_lt_of_lt_mul (by rwa [pow_succ] at hsum)
      -- the quotient is below 85 and fits into the `char`
      have hchar : ((sum / power).setWidth 8 : Byte).toNat = sum.toNat / 85 ^ k := by
        rw [BitVec.toNat_setWidth, BitVec.toNat_udiv, hpower, Nat.mod_eq_of_lt (by omega)]
      have hproduct : sum.toNat / 85 ^ k * 85 ^ k ≤ sum.toNat := Nat.div_mul_le_self _ _
      have hlt := sum.isLt
      -- the product is not above the sum, so nothing is borrowed
      have hremainder : (sum - ((sum / power).setWidth 8 : Byte).setWidth 32 * power).toNat =
          sum.toNat % 85 ^ k := by
        have hmul : (((sum / power).setWidth 8 : Byte).setWidth 32 * power).toNat =
            sum.toNat / 85 ^ k * 85 ^ k := by
          rw [BitVec.toNat_mul, BitVec.toNat_setWidth, hchar, hpower,
            Nat.mod_eq_of_lt (show sum.toNat / 85 ^ k < 2 ^ 32 by omega),
            Nat.mod_eq_of_lt (by omega)]
        have hdivision := Nat.div_add_mod' sum.toNat (85 ^ k)
        rw [BitVec.toNat_sub_of_le (BitVec.le_def.mpr (by omega)), hmul]
        omega
      rw [encodeDigits, weights, greedy, List.map_cons, ih hrest (hremainder ▸ Nat.mod_lt _ hpos),
        hremainder]
      congr 1
      refine BitVec.eq_of_toNat_eq ?_
      rw [character, BitVec.toNat_add, hchar, BitVec.toNat_ofNat]
      rfl

theorem toNat_lt_pow (sum : BitVec 32) : sum.toNat < 85 ^ 5 :=
  sum.isLt.trans (by decide)

theorem encodeDigits_powers (sum : BitVec 32) :
    encodeDigits powers sum = (greedy (weights 85 5) sum.toNat).map character :=
  encodeDigits_eq powers_toNat (toNat_lt_pow sum)

theorem isDigit_encodeDigits {sum : BitVec 32} {c : Byte} (hc : c ∈ encodeDigits powers sum) :
    IsDigit c := by
  rw [encodeDigits_powers] at hc
  obtain ⟨d, hd, rfl⟩ := List.mem_map.mp hc
  exact isDigit_character (greedy_lt (toNat_lt_pow sum) d hd)

theorem decodeSum_encodeDigits (sum : BitVec 32) : decodeSum (encodeDigits powers sum) = sum := by
  have hdigits : (encodeDigits powers sum).map digit = greedy (weights 85 5) sum.toNat := by
    rw [encodeDigits_powers, List.map_map]
    exact (List.map_congr_left fun d hd =>
      digit_character (greedy_lt (toNat_lt_pow sum) d hd)).trans (List.map_id _)
  refine BitVec.eq_of_toNat_eq ?_
  rw [toNat_decodeSum fun c hc => (isDigit_encodeDigits hc).1, hdigits,
    value_greedy (toNat_lt_pow sum), Nat.mod_eq_of_lt sum.isLt]

theorem encodeDigits_decodeSum {input : List Byte} (hinput : ∀ c ∈ input, IsDigit c)
    (hlength : input.length = 5)
    (hfits : value (input.map digit) (weights 85 5) < 2 ^ 32) :
    encodeDigits powers (decodeSum input) = input := by
  have hdigits : ∀ d ∈ input.map digit, d < 85 := by
    intro d hd
    obtain ⟨c, hc, rfl⟩ := List.mem_map.mp hd
    exact digit_lt (hinput c hc)
  rw [encodeDigits_powers, toNat_decodeSum fun c hc => (hinput c hc).1, Nat.mod_eq_of_lt hfits,
    greedy_value hdigits (by rw [List.length_map, hlength]), List.map_map]
  exact (List.map_congr_left fun c hc => character_digit (hinput c hc)).trans (List.map_id _)

/-! ## The bytes of the number -/

theorem getD_vector {n i : ℕ} (v : Vector Byte n) (hi : i < n) : v.getD i 0 = v[i] := by
  simp [Vector.getD, hi]

/-- A byte of a group, the highest first. -/
def sumByte (sum : BitVec 32) (i : ℕ) : Byte := (sum >>> (24 - 8 * i)).setWidth 8

theorem toNat_encodeSum (input : Block) (i : ℕ) :
    (encodeSum input i).toNat = (input.getD (4 * i) 0).toNat * 2 ^ 24 +
      (input.getD (4 * i + 1) 0).toNat * 2 ^ 16 + (input.getD (4 * i + 2) 0).toNat * 2 ^ 8 +
      (input.getD (4 * i + 3) 0).toNat := by
  have h₀ := (input.getD (4 * i) 0).isLt
  have h₁ := (input.getD (4 * i + 1) 0).isLt
  have h₂ := (input.getD (4 * i + 2) 0).isLt
  have h₃ := (input.getD (4 * i + 3) 0).isLt
  simp only [encodeSum, BitVec.toNat_add, BitVec.toNat_shiftLeft, BitVec.toNat_setWidth,
    Nat.shiftLeft_eq]
  omega

theorem toNat_sumByte (sum : BitVec 32) (i : ℕ) :
    (sumByte sum i).toNat = sum.toNat / 2 ^ (24 - 8 * i) % 2 ^ 8 := by
  rw [sumByte, BitVec.toNat_setWidth, BitVec.toNat_ushiftRight, Nat.shiftRight_eq_div_pow]

theorem sumByte_encodeSum (input : Block) (i : ℕ) :
    sumByte (encodeSum input (i / 4)) (i % 4) = input.getD i 0 := by
  have hindex := Nat.div_add_mod i 4
  refine BitVec.eq_of_toNat_eq ?_
  rw [toNat_sumByte, toNat_encodeSum]
  have h₀ := (input.getD (4 * (i / 4)) 0).isLt
  have h₁ := (input.getD (4 * (i / 4) + 1) 0).isLt
  have h₂ := (input.getD (4 * (i / 4) + 2) 0).isLt
  have h₃ := (input.getD (4 * (i / 4) + 3) 0).isLt
  have hcases : i % 4 = 0 ∨ i % 4 = 1 ∨ i % 4 = 2 ∨ i % 4 = 3 := by omega
  rcases hcases with hmod | hmod | hmod | hmod
  · rw [hmod, Nat.add_zero] at hindex
    rw [hmod, ← congrArg (fun k => (input.getD k 0).toNat) hindex]
    omega
  all_goals
    rw [hmod] at hindex
    rw [hmod, ← congrArg (fun k => (input.getD k 0).toNat) hindex]
    omega

theorem getD_decode16B (s : Vector Byte 20) {i : ℕ} (hi : i < 16) :
    (decode16B s).getD i 0 = sumByte (decodeSum (group s (i / 4))) (i % 4) := by
  rw [getD_vector _ hi, decode16B, Vector.getElem_ofFn]
  rfl

theorem encodeSum_decode16B (s : Vector Byte 20) {i : ℕ} (hi : i < 4) :
    encodeSum (decode16B s) i = decodeSum (group s i) := by
  have hbyte : ∀ r < 4, (decode16B s).getD (4 * i + r) 0 = sumByte (decodeSum (group s i)) r := by
    intro r hr
    rw [getD_decode16B s (by omega), show (4 * i + r) / 4 = i by omega,
      show (4 * i + r) % 4 = r by omega]
  refine BitVec.eq_of_toNat_eq ?_
  have hsum := (decodeSum (group s i)).isLt
  rw [toNat_encodeSum, ← Nat.add_zero (4 * i), hbyte 0 (by decide), Nat.add_zero,
    hbyte 1 (by decide), hbyte 2 (by decide), hbyte 3 (by decide)]
  simp only [toNat_sumByte]
  omega

theorem getD_encode16B (key : Block) {i : ℕ} (hi : i < 20) :
    (encode16B key).toList.getD i 0 =
      (encodeDigits powers (encodeSum key (i / 5))).getD (i % 5) 0 := by
  rw [List.getD_eq_getElem _ _ (by simpa using hi), Vector.getElem_toList, encode16B,
    Vector.getElem_ofFn]

theorem group_encode16B (key : Block) {i : ℕ} (hi : i < 4) :
    group (encode16B key) i = encodeDigits powers (encodeSum key i) := by
  refine List.ext_getElem (by rw [length_group _ hi]; rfl) fun j hj hj' => ?_
  rw [length_group _ hi] at hj
  rw [← List.getD_eq_getElem _ 0 hj', ← List.getD_eq_getElem _ 0]
  have hat := getD_group (encode16B key) (i := 5 * i + j) (by omega)
  rwa [getD_encode16B key (by omega), show (5 * i + j) / 5 = i by omega,
    show (5 * i + j) % 5 = j by omega] at hat

/-! ## The host -/

namespace MemoryAccess

theorem keySum_eq {input : List Byte} (hinput : ∀ c ∈ input, IsDigit c) :
    keySum input = decodeSum input := by
  -- a digit is below 128, so the `char` of the host has no sign
  have hextend : ∀ c ∈ input, c.signExtend 32 = c.setWidth 32 := by
    intro c hc
    have hdigit := (hinput c hc).2
    refine BitVec.signExtend_eq_setWidth_of_msb_false (BitVec.msb_eq_false_iff_two_mul_lt.mpr ?_)
    omega
  have hterms : ∀ ps : List (BitVec 32),
      List.zipWith (fun c power => (c.signExtend 32 - 33) * power) input ps =
        List.zipWith (fun c power => (c.setWidth 32 - 33) * power) input ps := by
    clear hinput
    induction input with
    | nil => exact fun ps => rfl
    | cons c input ih =>
        intro ps
        cases ps with
        | nil => rfl
        | cons power ps =>
            rw [List.zipWith_cons_cons, List.zipWith_cons_cons, hextend c (List.mem_cons_self ..),
              ih fun d hd => hextend d (List.mem_cons_of_mem _ hd)]
  rw [keySum, decodeSum, hterms]

theorem setWidth_masked (sum mask : BitVec 32) (k : ℕ)
    (hmask : (mask >>> k).setWidth 8 = BitVec.allOnes 8) :
    ((sum &&& mask) >>> k).setWidth 8 = (sum >>> k).setWidth 8 := by
  rw [BitVec.ushiftRight_and_distrib, BitVec.setWidth_and, hmask, BitVec.and_allOnes]

theorem keyBytes_eq (sum : BitVec 32) : keyBytes sum = (List.range 4).map (sumByte sum) := by
  have hlow : (sum &&& 0xFF).setWidth 8 = (sum >>> 0).setWidth 8 :=
    setWidth_masked sum 0xFF 0 (by decide)
  rw [keyBytes, setWidth_masked sum 0xFF0000 16 (by decide),
    setWidth_masked sum 0xFF00 8 (by decide), hlow]
  rfl

theorem keyFrom_eq {n : ℕ} {input : List Byte} (hinput : ∀ c ∈ input, IsDigit c) :
    keyFrom n input = (List.range n).flatMap fun i =>
      (List.range 4).map (sumByte (decodeSum ((input.drop (5 * i)).take 5))) := by
  induction n generalizing input with
  | zero => rfl
  | succ n ih =>
      have hdrop : ∀ c ∈ input.drop 5, IsDigit c := fun c hc => hinput c (List.mem_of_mem_drop hc)
      rw [keyFrom, keyBytes_eq, keySum_eq fun c hc => hinput c (List.mem_of_mem_take hc), ih hdrop,
        @List.range_succ_eq_map n, List.flatMap_cons, List.flatMap_map]
      simp only [List.drop_drop, Nat.mul_succ, Nat.mul_zero, List.drop_zero, Nat.add_comm]

theorem setKey_eq (s : Vector Byte 20) (hs : ∀ c ∈ s.toList, IsDigit c) :
    setKey s.toList = .ok (decode16B s).toList := by
  rw [setKey, if_neg (by simp), keyFrom_eq hs]
  rfl

end MemoryAccess

/-- The 20 characters of a key are from `'!'` to `'u'` and are decoded to the key.  A text
of such characters is decoded by the device and by the host to the same key, which is
shown as that text if each group of five fits into 32 bits. -/
theorem key_text_roundTrip :
    (∀ key : Block, (∀ c ∈ (encode16B key).toList, IsDigit c) ∧
      decode16B (encode16B key) = key) ∧
      ∀ s : Vector Byte 20, (∀ c ∈ s.toList, IsDigit c) →
        MemoryAccess.setKey s.toList = .ok (decode16B s).toList ∧
          ((∀ i < 4, groupValue s i < 2 ^ 32) → encode16B (decode16B s) = s) := by
  refine ⟨fun key => ⟨fun c hc => ?_, ?_⟩,
    fun s hs => ⟨MemoryAccess.setKey_eq s hs, fun hfits => ?_⟩⟩
  · obtain ⟨i, hi, rfl⟩ := List.getElem_of_mem hc
    have hlt : i < 20 := by simpa using hi
    rw [← List.getD_eq_getElem _ 0, getD_encode16B key hlt]
    refine isDigit_encodeDigits (?_ : _ ∈ encodeDigits powers (encodeSum key (i / 5)))
    have hlength : i % 5 < (encodeDigits powers (encodeSum key (i / 5))).length :=
      Nat.mod_lt i (by decide)
    rw [List.getD_eq_getElem _ _ hlength]
    exact List.getElem_mem _
  · refine Vector.ext fun i hi => ?_
    have hdecode := getD_decode16B (encode16B key) hi
    rw [group_encode16B key (by omega), decodeSum_encodeDigits, sumByte_encodeSum] at hdecode
    rwa [getD_vector _ hi, getD_vector _ hi] at hdecode
  · refine Vector.ext fun i hi => ?_
    -- a group that fits is what the digits of its number are
    have hgroup : encodeDigits powers (decodeSum (group s (i / 5))) = group s (i / 5) :=
      encodeDigits_decodeSum (fun c hc => hs c (mem_of_mem_group hc)) (length_group s (by omega))
        (hfits _ (by omega))
    have hencode := getD_encode16B (decode16B s) hi
    rw [encodeSum_decode16B s (by omega), hgroup, getD_group s hi] at hencode
    simpa [hi] using hencode

/-- The key that is typed in as `0p3n-Th3-Wa1let-Lock`. -/
theorem key_text_roundTrip_lock :
    let s : Vector Byte 20 := #v[0x30, 0x70, 0x33, 0x6E, 0x2D, 0x54, 0x68, 0x33, 0x2D, 0x57,
      0x61, 0x31, 0x6C, 0x65, 0x74, 0x2D, 0x4C, 0x6F, 0x63, 0x6B]
    MemoryAccess.setKey s.toList = .ok (decode16B s).toList ∧ encode16B (decode16B s) = s := by
  intro s
  have hdigits : ∀ c ∈ s.toList, IsDigit c := by decide
  have hfits : ∀ i < 4, groupValue s i < 2 ^ 32 := by decide
  exact ⟨(key_text_roundTrip.2 s hdigits).1, (key_text_roundTrip.2 s hdigits).2 hfits⟩

end PasswordWallet
