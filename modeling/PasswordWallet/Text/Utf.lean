import Mathlib.Data.List.Basic

/-!
# Text in UTF-8 and in UTF-16

The two encodings of a text as lists.  The byte zero stands for the character zero and
nothing else, so what comes before the first zero of an encoded text is an encoded text
(`utf8_takeWhile`).  UTF-16 takes at most as many units as UTF-8 takes bytes, and as many
only for ASCII (`length_utf16_eq_iff`).
-/

namespace Text

variable {c : Char} {s : List Char}

/-- The bytes of a character. -/
def utf8Char (c : Char) : List (BitVec 8) := (String.utf8EncodeChar c).map UInt8.toBitVec

def utf8 (s : List Char) : List (BitVec 8) := s.flatMap utf8Char

/-- The units of a character: one, or a pair of surrogates. -/
def utf16Char (c : Char) : List (BitVec 16) :=
  if c.toNat < 0x10000 then [BitVec.ofNat 16 c.toNat]
  else [BitVec.ofNat 16 (0xD800 + (c.toNat - 0x10000) / 0x400),
    BitVec.ofNat 16 (0xDC00 + (c.toNat - 0x10000) % 0x400)]

def utf16 (s : List Char) : List (BitVec 16) := s.flatMap utf16Char

@[simp]
theorem utf8_nil : utf8 [] = [] := rfl

@[simp]
theorem utf8_cons (c : Char) (s : List Char) : utf8 (c :: s) = utf8Char c ++ utf8 s := rfl

@[simp]
theorem utf16_nil : utf16 [] = [] := rfl

@[simp]
theorem utf16_cons (c : Char) (s : List Char) : utf16 (c :: s) = utf16Char c ++ utf16 s := rfl

/-! ## One character -/

/-- A character below 128 is its own byte. -/
theorem utf8Char_ascii (h : c.toNat < 128) : utf8Char c = [BitVec.ofNat 8 c.toNat] := by
  have hval : c.val.toNat ≤ 0x7f := Nat.le_of_lt_succ h
  simp only [utf8Char, String.utf8EncodeChar, if_pos hval]
  rfl

theorem utf16Char_ascii (h : c.toNat < 128) : utf16Char c = [BitVec.ofNat 16 c.toNat] :=
  if_pos (by omega)

/-- The other characters have only bytes from 128 on, and more of them than units. -/
theorem utf8Char_large (h : 128 ≤ c.toNat) :
    (∀ b ∈ utf8Char c, 128 ≤ b.toNat) ∧ (utf16Char c).length < (utf8Char c).length := by
  have hval : ¬ c.val.toNat ≤ 0x7f := fun hle => absurd h (Nat.not_le.2 (Nat.lt_succ_of_le hle))
  have hbyte : ∀ n, 128 ≤ n → n < 256 → 128 ≤ (BitVec.ofNat 8 n).toNat := by
    intro n hlow hhigh
    rw [BitVec.toNat_ofNat]
    omega
  have hunits : (utf16Char c).length ≤ 2 := by
    rw [utf16Char]
    split <;> simp
  have hunit : c.val.toNat ≤ 65535 → (utf16Char c).length = 1 := by
    intro hle
    rw [utf16Char, if_pos (Nat.lt_succ_of_le hle : c.toNat < 0x10000)]
    rfl
  simp only [utf8Char, String.utf8EncodeChar, if_neg hval]
  split_ifs with htwo hthree <;>
    simp only [List.map_cons, List.map_nil, List.forall_mem_cons, List.length_cons,
      List.length_nil]
  · refine ⟨⟨hbyte _ ?_ ?_, hbyte _ ?_ ?_, by simp⟩, ?_⟩
    all_goals omega
  · refine ⟨⟨hbyte _ ?_ ?_, hbyte _ ?_ ?_, hbyte _ ?_ ?_, by simp⟩, ?_⟩
    all_goals omega
  · refine ⟨⟨hbyte _ ?_ ?_, hbyte _ ?_ ?_, hbyte _ ?_ ?_, hbyte _ ?_ ?_, by simp⟩, ?_⟩
    all_goals omega

/-- The byte zero is the character zero. -/
theorem ne_zero_of_mem_utf8Char (hc : c ≠ Char.ofNat 0) {b : BitVec 8} (hb : b ∈ utf8Char c) :
    b ≠ 0 := by
  intro hzero
  subst hzero
  rcases Nat.lt_or_ge c.toNat 128 with hlt | hge
  · rw [utf8Char_ascii hlt, List.mem_singleton] at hb
    have hnat : c.toNat = 0 := by
      have := congrArg BitVec.toNat hb
      rw [BitVec.toNat_ofNat, Nat.mod_eq_of_lt (by omega)] at this
      exact this.symm
    exact hc (Char.ext (UInt32.toNat_inj.1 hnat))
  · exact absurd ((utf8Char_large hge).1 0 hb) (by decide)

/-! ## Texts -/

/-- Up to the first zero there is the text up to its first zero. -/
theorem utf8_takeWhile (s : List Char) :
    (utf8 s).takeWhile (· ≠ 0) = utf8 (s.takeWhile (· ≠ Char.ofNat 0)) := by
  induction s with
  | nil => rfl
  | cons c s ih =>
      by_cases hc : c = Char.ofNat 0
      · subst hc
        rfl
      · have hall : ∀ b ∈ utf8Char c, decide (b ≠ 0) = true :=
          fun b hb => decide_eq_true (ne_zero_of_mem_utf8Char hc hb)
        rw [utf8_cons, List.takeWhile_append_of_pos hall, ih,
          List.takeWhile_cons_of_pos (by simpa using hc), utf8_cons]

theorem length_utf16_le (s : List Char) : (utf16 s).length ≤ (utf8 s).length := by
  induction s with
  | nil => exact Nat.le_refl _
  | cons c s ih =>
      rw [utf16_cons, utf8_cons, List.length_append, List.length_append]
      refine Nat.add_le_add ?_ ih
      rcases Nat.lt_or_ge c.toNat 128 with hlt | hge
      · rw [utf8Char_ascii hlt, utf16Char_ascii hlt]
        exact Nat.le_refl _
      · exact Nat.le_of_lt (utf8Char_large hge).2

/-- As many units as bytes: ASCII. -/
theorem length_utf16_eq_iff (s : List Char) :
    (utf16 s).length = (utf8 s).length ↔ ∀ b ∈ utf8 s, b.toNat < 128 := by
  induction s with
  | nil => simp
  | cons c s ih =>
      have hle := length_utf16_le s
      rw [utf16_cons, utf8_cons, List.length_append, List.length_append, List.forall_mem_append,
        ← ih]
      rcases Nat.lt_or_ge c.toNat 128 with hlt | hge
      · have hbyte : (BitVec.ofNat 8 c.toNat).toNat = c.toNat := Nat.mod_eq_of_lt (by omega)
        rw [utf8Char_ascii hlt, utf16Char_ascii hlt, List.forall_mem_singleton, hbyte]
        simp [hlt]
      · obtain ⟨hlarge, hlength⟩ := utf8Char_large hge
        refine iff_of_false (by omega) fun hsmall => ?_
        obtain ⟨b, hb⟩ := List.exists_mem_of_length_pos (Nat.zero_lt_of_lt hlength)
        exact absurd (hsmall.1 b hb) (Nat.not_lt.2 (hlarge b hb))

/-! ## Reading the encodings -/

/-- The text of bytes that are one, and else a replacement character. -/
def decodeUtf8 (bytes : List (BitVec 8)) : List Char :=
  match (bytes.map UInt8.ofBitVec).toByteArray.utf8Decode? with
  | some text => text.toList
  | none => [Char.ofNat 0xFFFD]

theorem decodeUtf8_utf8 (s : List Char) : decodeUtf8 (utf8 s) = s := by
  have hbytes : ((utf8 s).map UInt8.ofBitVec).toByteArray = s.utf8Encode := by
    refine congrArg List.toByteArray ?_
    induction s with
    | nil => rfl
    | cons c s ih =>
        have hchar : (utf8Char c).map UInt8.ofBitVec = String.utf8EncodeChar c := by
          rw [utf8Char, List.map_map]
          exact List.map_id'' (fun _ => rfl) _
        rw [utf8_cons, List.map_append, ih, hchar]
        rfl
  rw [decodeUtf8, hbytes, List.utf8Decode?_utf8Encode]

theorem toNat_unit {n : ℕ} (h : n < 0x10000) : (BitVec.ofNat 16 n).toNat = n := by
  rw [BitVec.toNat_ofNat]
  exact Nat.mod_eq_of_lt h

/-- The text of units, with pairs of surrogates read as one character. -/
def decodeUtf16 : List (BitVec 16) → List Char
  | [] => []
  | [u] => [Char.ofNat u.toNat]
  | u :: v :: units =>
      if 0xD800 ≤ u.toNat ∧ u.toNat < 0xDC00 then
        Char.ofNat (0x10000 + (u.toNat - 0xD800) * 0x400 + (v.toNat - 0xDC00)) ::
          decodeUtf16 units
      else Char.ofNat u.toNat :: decodeUtf16 (v :: units)

theorem decodeUtf16_utf16 (s : List Char) : decodeUtf16 (utf16 s) = s := by
  induction s with
  | nil => rfl
  | cons c s ih =>
      have hvalid : c.toNat < 0xD800 ∨ 0xDFFF < c.toNat ∧ c.toNat < 0x110000 := c.valid
      have hself : Char.ofNat c.toNat = c := Char.ofNat_toNat c
      rw [utf16_cons, utf16Char]
      split
      · next hsmall =>
          have hunit : (BitVec.ofNat 16 c.toNat).toNat = c.toNat := toNat_unit hsmall
          cases hs : utf16 s with
          | nil =>
              rw [hs] at ih
              rw [List.append_nil, decodeUtf16, hunit, hself, ← ih]
              rfl
          | cons v units =>
              rw [hs] at ih
              rw [List.singleton_append, decodeUtf16, hunit, if_neg (by omega), hself, ih]
      · next hlarge =>
          have hhigh : (BitVec.ofNat 16 (0xD800 + (c.toNat - 0x10000) / 0x400)).toNat =
              0xD800 + (c.toNat - 0x10000) / 0x400 := toNat_unit (by omega)
          have hlow : (BitVec.ofNat 16 (0xDC00 + (c.toNat - 0x10000) % 0x400)).toNat =
              0xDC00 + (c.toNat - 0x10000) % 0x400 := toNat_unit (by omega)
          have hpair : 0x10000 + (0xD800 + (c.toNat - 0x10000) / 0x400 - 0xD800) * 0x400 +
              (0xDC00 + (c.toNat - 0x10000) % 0x400 - 0xDC00) = c.toNat := by omega
          simp only [List.cons_append, List.nil_append]
          rw [decodeUtf16, hhigh, hlow, if_pos (by omega), hpair, hself, ih]

end Text
