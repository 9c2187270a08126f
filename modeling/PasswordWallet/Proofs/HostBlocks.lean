import Mathlib.Data.List.GetD
import Mathlib.Data.List.TakeWhile
import PasswordWallet.Desktop.Blocks
import PasswordWallet.Text.Utf

/-!
# What the host keeps of a block

A password block is six bytes and five fields (`readFrom_fields`).  Of the six bytes only
the high byte of the counter can get lost, under the sign of the low byte
(`lowByte_shift`).  Of the fields the user name can: it goes through a `QString`, which
ends at the first zero and holds nothing but text (`userName_kept_iff`).

The block of the options is read without taking its fields away, so it is never read
whole.
-/

namespace PasswordWallet.Desktop

variable {fromUtf8 : List Byte → QString} {toUtf8 : QString → List Byte} {asserts : Bool}
  {block rest : List Byte} {low high : Byte}

/-! ## Numbers -/

theorem lowByte_bit (n : BitVec 32) {i : ℕ} (hi : i < 8) : (lowByte n)[i] = n.getLsbD i := by
  have hmask : (0xFF#32).getLsbD i = true := by
    have hall : 0xFF#32 = (BitVec.allOnes 8).setWidth 32 := rfl
    rw [hall, BitVec.getLsbD_setWidth, BitVec.getLsbD_allOnes]
    simp [hi, Nat.lt_trans hi (by decide : 8 < 32)]
  rw [lowByte, BitVec.getElem_setWidth, BitVec.getLsbD_and]
  show (n.getLsbD i && (0xFF#32).getLsbD i) = _
  rw [hmask, Bool.and_true]

@[simp]
theorem lowByte_signExtend (b : Byte) : lowByte (b.signExtend 32) = b := by
  refine BitVec.eq_of_getElem_eq fun i hi => ?_
  have hi' : i < 32 := by omega
  rw [lowByte_bit _ hi, BitVec.getLsbD_signExtend]
  simp [hi, hi']

/-- The low byte of the counter is kept. -/
@[simp]
theorem lowByte_counter (low high : Byte) :
    lowByte (low.signExtend 32 ||| (high.signExtend 32 <<< 8)) = low := by
  refine BitVec.eq_of_getElem_eq fun i hi => ?_
  have hi' : i < 32 := by omega
  rw [lowByte_bit _ hi, BitVec.getLsbD_or, BitVec.getLsbD_signExtend, BitVec.getLsbD_shiftLeft]
  simp [hi, hi']

/-- The high byte of the counter is filled with the sign of the low byte. -/
@[simp]
theorem lowByte_shift (low high : Byte) :
    lowByte ((low.signExtend 32 ||| (high.signExtend 32 <<< 8)).sshiftRight 8) =
      if low.msb then 0xFF else high := by
  refine BitVec.eq_of_getElem_eq fun i hi => ?_
  have hi' : 8 + i < 32 := by omega
  have hi'' : i < 32 := by omega
  have hpast : ¬ 8 + i < 8 := by omega
  have hall : (0xFF#8)[i] = true := BitVec.getElem_allOnes i hi
  rw [lowByte_bit _ hi, BitVec.getLsbD_sshiftRight, BitVec.getLsbD_or, BitVec.getLsbD_signExtend,
    BitVec.getLsbD_shiftLeft, BitVec.getLsbD_signExtend]
  cases hlow : low.msb with
  | true => simp [hi', hi'', hall]
  | false => simp [hi', hi'', hi, hpast]

theorem high_kept_iff (low high : Byte) :
    (if low.msb then 0xFF else high) = high ↔ low.toNat < 128 ∨ high = 0xFF := by
  have hmsb : low.msb = true ↔ ¬ low.toNat < 128 := by
    rw [BitVec.msb_eq_decide, decide_eq_true_iff, Nat.not_lt]
  split
  · next h => simp [hmsb.1 h, eq_comm]
  · next h => simp [not_not.1 (mt hmsb.2 h)]

/-! ## Text -/

/-- What the conversions in UTF-8 do with text, and that a `QString` is made of text.  An
array that is no text in UTF-8 gives some other text. -/
structure IsUtf8 (fromUtf8 : List Byte → QString) (toUtf8 : QString → List Byte) : Prop where
  fromUtf8_utf8 : ∀ s, fromUtf8 (Text.utf8 s) = Text.utf16 s
  toUtf8_utf16 : ∀ s, toUtf8 (Text.utf16 s) = Text.utf8 s
  fromUtf8_text : ∀ array, ∃ s, fromUtf8 array = Text.utf16 s

/-- A text without zeros is what comes back from a `QString`. -/
theorem userName_kept_iff (h : IsUtf8 fromUtf8 toUtf8) (userName : List Byte) :
    toUtf8 (fromUtf8 (userName.takeWhile (· ≠ 0))) = userName ↔
      0 ∉ userName ∧ ∃ s, Text.utf8 s = userName := by
  constructor
  · intro hkept
    obtain ⟨s, hs⟩ := h.fromUtf8_text (userName.takeWhile (· ≠ 0))
    have htext : Text.utf8 s = userName := by rw [← h.toUtf8_utf16, ← hs, hkept]
    refine ⟨fun hzero => ?_, s, htext⟩
    -- what stands before the zero is text, and comes back as it is
    have hfront : userName.takeWhile (· ≠ 0) = userName := by
      have htaken := Text.utf8_takeWhile s
      rw [htext] at htaken
      rwa [htaken, h.fromUtf8_utf8, h.toUtf8_utf16, ← htaken] at hkept
    have hne := List.takeWhile_eq_self_iff.1 hfront 0 hzero
    exact absurd hne (by decide)
  · rintro ⟨hzero, s, rfl⟩
    have hfront : (Text.utf8 s).takeWhile (· ≠ 0) = Text.utf8 s :=
      List.takeWhile_eq_self_iff.2 fun b hb => decide_eq_true fun h0 => hzero (h0 ▸ hb)
    rw [hfront, h.fromUtf8_utf8, h.toUtf8_utf16]

/-- The `QString` of a text has as many units as the text has bytes when it is ASCII. -/
theorem length_userName_iff (h : IsUtf8 fromUtf8 toUtf8) {userName : List Byte}
    (hkept : toUtf8 (fromUtf8 (userName.takeWhile (· ≠ 0))) = userName) :
    (fromUtf8 (userName.takeWhile (· ≠ 0))).length = userName.length ↔
      ∀ b ∈ userName, b.toNat < 128 := by
  obtain ⟨s, hs⟩ := h.fromUtf8_text (userName.takeWhile (· ≠ 0))
  have htext : Text.utf8 s = userName := by rw [← h.toUtf8_utf16, ← hs, hkept]
  rw [hs, ← htext]
  exact Text.length_utf16_eq_iff s

/-! ## The fields of a block -/

/-- `n` bytes of a block. -/
def field (block : List Byte) (i n : ℕ) : List Byte := (block.drop i).take n

theorem length_field {i n : ℕ} (h : i + n ≤ block.length) : (field block i n).length = n := by
  rw [field, List.length_take, List.length_drop]
  omega

theorem pick_drop {i : ℕ} (h : i < block.length) (rest : List Byte) :
    pick (block.drop i ++ rest) = (block.getD i 0, block.drop (i + 1) ++ rest) := by
  rw [List.drop_eq_getElem_cons h, List.getD_eq_getElem block 0 h]
  rfl

theorem drop_drop_append {i n : ℕ} (h : i + n ≤ block.length) (rest : List Byte) :
    (block.drop i ++ rest).drop n = block.drop (i + n) ++ rest := by
  rw [List.drop_append_of_le_length, List.drop_drop]
  rw [List.length_drop]
  omega

theorem take_drop_append {i n : ℕ} (h : i + n ≤ block.length) (rest : List Byte) :
    (block.drop i ++ rest).take n = field block i n := by
  rw [List.take_append_of_le_length, field]
  rw [List.length_drop]
  omega

theorem drop_eq_getD_cons {i : ℕ} (h : i < block.length) :
    block.drop i = block.getD i 0 :: block.drop (i + 1) := by
  rw [List.drop_eq_getElem_cons h, List.getD_eq_getElem block 0 h]

theorem drop_eq_field_append (block : List Byte) (i n : ℕ) :
    block.drop i = field block i n ++ block.drop (i + n) := by
  rw [field, ← List.drop_drop, List.take_append_drop]

/-- The bytes and the fields of a password block. -/
theorem password_fields (h : block.length = Password.size) :
    block = [block.getD 0 0, block.getD 1 0, block.getD 2 0, block.getD 3 0, block.getD 4 0,
      block.getD 5 0] ++ (field block 6 32 ++ (field block 38 16 ++ (field block 54 32 ++
        (field block 86 16 ++ field block 102 64)))) := by
  have hlength : block.length = 166 := h
  have hend : block.drop 166 = [] := List.drop_eq_nil_of_le hlength.le
  calc
    block = block.drop 0 := rfl
    _ = [block.getD 0 0, block.getD 1 0, block.getD 2 0, block.getD 3 0, block.getD 4 0,
          block.getD 5 0] ++ block.drop 6 := by
        rw [drop_eq_getD_cons (by omega), drop_eq_getD_cons (by omega),
          drop_eq_getD_cons (by omega), drop_eq_getD_cons (by omega),
          drop_eq_getD_cons (by omega), drop_eq_getD_cons (by omega)]
        rfl
    _ = _ := by
        rw [drop_eq_field_append block 6 32, drop_eq_field_append block (6 + 32) 16,
          drop_eq_field_append block (6 + 32 + 16) 32,
          drop_eq_field_append block (6 + 32 + 16 + 32) 16,
          drop_eq_field_append block (6 + 32 + 16 + 32 + 16) 64, hend, List.append_nil]

/-- What is read from a block. -/
def ofBlock (fromUtf8 : List Byte → QString) (block : List Byte) : Password where
  prevUse := (block.getD 0 0).signExtend 32
  nextUse := (block.getD 1 0).signExtend 32
  prevAlpha := (block.getD 2 0).signExtend 32
  nextAlpha := (block.getD 3 0).signExtend 32
  counter := (block.getD 4 0).signExtend 32 ||| ((block.getD 5 0).signExtend 32 <<< 8)
  name := fromLatin1 (field block 6 32)
  ivPwd := field block 38 16
  pwd := field block 54 32
  ivUsrName := field block 86 16
  userName := fromUtf8 ((field block 102 64).takeWhile (· ≠ 0))

theorem password_readFrom (h : block.length = Password.size) (rest : List Byte)
    (old : Password) :
    Password.readFrom fromUtf8 (block ++ rest) old = (true, rest, ofBlock fromUtf8 block) := by
  have hlength : block.length = 166 := h
  have hsize : ¬ (block ++ rest).length < Password.size := by
    rw [List.length_append, h]
    omega
  have hfront : block ++ rest = block.drop 0 ++ rest := rfl
  have hpick : ∀ i < 166, pick (block.drop i ++ rest) =
      (block.getD i 0, block.drop (i + 1) ++ rest) :=
    fun i hi => pick_drop (by omega) rest
  have hdrop : ∀ i n, i + n ≤ 166 →
      (block.drop i ++ rest).drop n = block.drop (i + n) ++ rest :=
    fun i n hi => drop_drop_append (by omega) rest
  have htake : ∀ i n, i + n ≤ 166 → (block.drop i ++ rest).take n = field block i n :=
    fun i n hi => take_drop_append (by omega) rest
  have hend : block.drop 166 = [] := List.drop_eq_nil_of_le hlength.le
  rw [Password.readFrom, if_neg hsize, hfront]
  simp (disch := decide) only [hpick, hdrop, htake, hend, List.nil_append]
  rfl

/-! ## A password block -/

theorem qAssert_of {cond : Prop} [Decidable cond] (h : cond) (what : String) :
    qAssert asserts (decide cond) what = .ok () := by
  rw [qAssert, decide_eq_true h, Bool.not_true, Bool.and_false]
  rfl

/-- A check that goes through. -/
theorem qAssert_bind_eq_ok {cond : Prop} [Decidable cond] {what : String}
    {next : Unit → Except String (List Byte)} {bytes : List Byte} :
    (qAssert asserts (decide cond) what).bind next = .ok bytes ↔
      (asserts = true → cond) ∧ next () = .ok bytes := by
  by_cases hcond : cond
  · rw [qAssert_of hcond]
    exact (and_iff_right fun _ => hcond).symm
  · cases asserts <;> simp [qAssert, Except.bind, hcond]

/-- The bytes that are given back, when no assertion fails. -/
def givenBack (fromUtf8 : List Byte → QString) (toUtf8 : QString → List Byte)
    (block : List Byte) : List Byte :=
  [block.getD 0 0, block.getD 1 0, block.getD 2 0, block.getD 3 0, block.getD 4 0,
    if (block.getD 4 0).msb then 0xFF else block.getD 5 0] ++ (field block 6 32 ++
      (field block 38 16 ++ (field block 54 32 ++ (field block 86 16 ++
        toUtf8 (fromUtf8 ((field block 102 64).takeWhile (· ≠ 0)))))))

theorem toByteArray_ofBlock (h : block.length = Password.size) :
    (ofBlock fromUtf8 block).toByteArray toUtf8 asserts =
      (qAssert asserts (decide ((ofBlock fromUtf8 block).userName.length = 64))
        "User name data is not 64 bytes").bind fun _ =>
      (qAssert asserts (decide ((givenBack fromUtf8 toUtf8 block).length = Password.size))
        "pwdChunk size and expected size mismatch").bind fun _ =>
      .ok (givenBack fromUtf8 toUtf8 block) := by
  have hlength : block.length = 166 := h
  have hivPwd : (ofBlock fromUtf8 block).ivPwd.length = 16 := length_field (by omega)
  have hpwd : (ofBlock fromUtf8 block).pwd.length = 32 := length_field (by omega)
  have hivUsrName : (ofBlock fromUtf8 block).ivUsrName.length = 16 := length_field (by omega)
  have hname : (ofBlock fromUtf8 block).name.length = 32 := by
    rw [ofBlock, fromLatin1, List.length_map, length_field (by omega)]
  have hgiven : ∀ p, p = ofBlock fromUtf8 block →
      [lowByte p.prevUse, lowByte p.nextUse, lowByte p.prevAlpha, lowByte p.nextAlpha,
        lowByte p.counter, lowByte (p.counter.sshiftRight 8)] ++
        toLatin1 (resize p.name 32 0) ++ p.ivPwd ++ p.pwd ++ p.ivUsrName ++ toUtf8 p.userName =
          givenBack fromUtf8 toUtf8 block := by
    rintro p rfl
    rw [resize_self hname]
    simp only [ofBlock, toLatin1_fromLatin1, lowByte_signExtend, lowByte_counter, lowByte_shift,
      givenBack, List.append_assoc]
  -- the fields that are read from a block have the lengths that are asserted
  rw [Password.toByteArray, qAssert_of hivPwd, qAssert_of hpwd, qAssert_of hivUsrName,
    ← hgiven _ rfl]
  rfl

/-- The block comes back whole. -/
theorem toByteArray_eq_ok_iff (h : block.length = Password.size) :
    (ofBlock fromUtf8 block).toByteArray toUtf8 asserts = .ok block ↔
      ((block.getD 4 0).toNat < 128 ∨ block.getD 5 0 = 0xFF) ∧
      toUtf8 (fromUtf8 ((field block 102 64).takeWhile (· ≠ 0))) = field block 102 64 ∧
      (asserts = true → (fromUtf8 ((field block 102 64).takeWhile (· ≠ 0))).length = 64) := by
  have hgiven : givenBack fromUtf8 toUtf8 block = block ↔
      ((block.getD 4 0).toNat < 128 ∨ block.getD 5 0 = 0xFF) ∧
      toUtf8 (fromUtf8 ((field block 102 64).takeWhile (· ≠ 0))) = field block 102 64 := by
    rw [← high_kept_iff]
    conv_lhs => rhs; rw [password_fields h]
    simp [givenBack]
  rw [toByteArray_ofBlock h, ← and_assoc, ← hgiven]
  refine qAssert_bind_eq_ok.trans ?_
  rw [and_comm]
  refine and_congr_left fun _ => qAssert_bind_eq_ok.trans ?_
  -- as many bytes are given back as the block has, so the last assertion holds
  rw [Except.ok.injEq]
  exact and_iff_right_of_imp fun hblock _ => (congrArg List.length hblock).trans h

/-! ## The block of the options -/

/-- What is read from a block: all fields but the first four begin where these end. -/
def ofOptionsBlock (block : List Byte) : Options where
  valid := true
  optFlags := block.getD 0 0
  firstPwdUse := block.getD 1 0
  firstPwdAlpha := block.getD 2 0
  numPwd := block.getD 3 0
  entropyPool := field block 4 256
  memoryMap := field block 4 25
  backupSection := field block 4 168

theorem options_readFrom (h : block.length = Options.size) (old : Options) :
    Options.readFrom block old = (true, block.drop 4, ofOptionsBlock block) := by
  have hlength : block.length = 453 := h
  have hpick : ∀ i < 453, pick (block.drop i) = (block.getD i 0, block.drop (i + 1)) := by
    intro i hi
    have hdrop := pick_drop (show i < block.length by omega) []
    rwa [List.append_nil, List.append_nil] at hdrop
  have hfront : block = block.drop 0 := rfl
  rw [Options.readFrom, if_neg (not_not.2 h)]
  conv_lhs => rw [hfront]
  simp (disch := decide) only [hpick]
  rfl

theorem options_given_back_iff (h : block.length = Options.size) :
    (ofOptionsBlock block).toByteArray = block ↔
      field block 4 25 = field block 260 25 ∧ field block 4 168 = field block 285 168 := by
  have hlength : block.length = 453 := h
  have hend : block.drop 453 = [] := List.drop_eq_nil_of_le hlength.le
  have hblock : block = [block.getD 0 0, block.getD 1 0, block.getD 2 0, block.getD 3 0] ++
      (field block 4 256 ++ (field block 260 25 ++ field block 285 168)) := by
    calc
      block = block.drop 0 := rfl
      _ = [block.getD 0 0, block.getD 1 0, block.getD 2 0, block.getD 3 0] ++ block.drop 4 := by
          rw [drop_eq_getD_cons (by omega), drop_eq_getD_cons (by omega),
            drop_eq_getD_cons (by omega), drop_eq_getD_cons (by omega)]
          rfl
      _ = _ := by
          rw [drop_eq_field_append block 4 256, drop_eq_field_append block (4 + 256) 25,
            drop_eq_field_append block (4 + 256 + 25) 168, hend, List.append_nil]
  have hmap : (field block 4 25).length = (field block 260 25).length := by
    rw [length_field (by omega), length_field (by omega)]
  conv_lhs => rhs; rw [hblock]
  simp only [Options.toByteArray, ofOptionsBlock, List.append_assoc, List.append_cancel_left_eq]
  exact ⟨fun heq => List.append_inj heq hmap, fun ⟨hhead, htail⟩ => by rw [hhead, htail]⟩

/-! ## Both -/

/-- A password block comes back, with exactly its bytes taken, when the low byte of the
counter has no sign (or the high byte is filled anyway) and the user name is a text without
zeros, in ASCII where the assertions are compiled in.  A block of the options never does:
only four bytes are taken. -/
theorem blocks_kept_iff (h : IsUtf8 fromUtf8 toUtf8) (asserts : Bool) :
    (∀ block rest old, block.length = Password.size →
      ((∃ p, Password.readFrom fromUtf8 (block ++ rest) old = (true, rest, p) ∧
          p.toByteArray toUtf8 asserts = .ok block) ↔
        ((block.getD 4 0).toNat < 128 ∨ block.getD 5 0 = 0xFF) ∧
        (0 ∉ field block 102 64 ∧ ∃ s, Text.utf8 s = field block 102 64) ∧
        (asserts = true → ∀ b ∈ field block 102 64, b.toNat < 128))) ∧
    (∀ block old, block.length = Options.size →
      (¬ ∃ o, Options.readFrom block old = (true, [], o) ∧ o.toByteArray = block) ∧
      ∃ o, Options.readFrom block old = (true, block.drop 4, o) ∧
        (o.toByteArray = block ↔
          field block 4 25 = field block 260 25 ∧ field block 4 168 = field block 285 168)) := by
  refine ⟨fun block rest old hblock => ?_, fun block old hblock => ⟨?_, ?_⟩⟩
  · have hlength : (field block 102 64).length = 64 :=
      length_field (show 102 + 64 ≤ block.length from hblock.ge)
    have hread : (∃ p, Password.readFrom fromUtf8 (block ++ rest) old = (true, rest, p) ∧
        p.toByteArray toUtf8 asserts = .ok block) ↔
          (ofBlock fromUtf8 block).toByteArray toUtf8 asserts = .ok block := by
      rw [password_readFrom hblock]
      simp
    rw [hread, toByteArray_eq_ok_iff hblock, ← userName_kept_iff h]
    refine and_congr_right fun _ => and_congr_right fun hkept => ?_
    rw [← length_userName_iff h hkept, hlength]
  · rintro ⟨o, hread, -⟩
    rw [options_readFrom hblock] at hread
    -- 449 bytes are left
    have hrest := congrArg (fun r : Bool × List Byte × Options => r.2.1.length) hread
    simp only [List.length_drop, hblock] at hrest
    exact absurd hrest (by decide)
  · exact ⟨_, options_readFrom hblock old, options_given_back_iff hblock⟩

theorem isUtf8_decode :
    IsUtf8 (fun array => Text.utf16 (Text.decodeUtf8 array))
      (fun s => Text.utf8 (Text.decodeUtf16 s)) where
  fromUtf8_utf8 s := by rw [Text.decodeUtf8_utf8]
  toUtf8_utf16 s := by rw [Text.decodeUtf16_utf16]
  fromUtf8_text array := ⟨_, rfl⟩

/-- A block full of the letter A. -/
theorem blocks_kept_iff_letters :
    ∃ p, Password.readFrom (fun array => Text.utf16 (Text.decodeUtf8 array))
        (List.replicate 166 0x41 ++ []) ⟨0, 0, 0, 0, 0, [], [], [], [], []⟩ = (true, [], p) ∧
      p.toByteArray (fun s => Text.utf8 (Text.decodeUtf16 s)) true =
        .ok (List.replicate 166 0x41) := by
  have hfield : field (List.replicate 166 0x41) 102 64 = List.replicate 64 0x41 := by
    rw [field, List.drop_replicate, List.take_replicate]
    rfl
  refine ((blocks_kept_iff isUtf8_decode true).1 (List.replicate 166 0x41) [] _
    List.length_replicate).2 ⟨Or.inl (by decide), ⟨?_, List.replicate 64 (Char.ofNat 0x41), ?_⟩,
      fun _ b hb => ?_⟩
  · rw [hfield]
    exact fun h => absurd (List.eq_of_mem_replicate h) (by decide)
  · rw [hfield]
    rfl
  · rw [hfield] at hb
    rw [List.eq_of_mem_replicate hb]
    decide

/-- A block of zeros for the options: four bytes are taken. -/
theorem zero_options_left :
    ¬∀ fromUtf8 toUtf8, IsUtf8 fromUtf8 toUtf8 → ∀ asserts : Bool,
      (∀ block rest old, block.length = Password.size →
        ∃ p, Password.readFrom fromUtf8 (block ++ rest) old = (true, rest, p) ∧
          p.toByteArray toUtf8 asserts = .ok block) ∧
      (∀ block old, block.length = Options.size →
        ∃ o, Options.readFrom block old = (true, [], o) ∧ o.toByteArray = block) := by
  intro h
  have hzero : (List.replicate 453 0 : List Byte).length = Options.size := List.length_replicate
  obtain ⟨o, hread, -⟩ :=
    (h _ _ isUtf8_decode false).2 (List.replicate 453 0) ⟨false, 0, 0, 0, 0, [], [], []⟩ hzero
  rw [options_readFrom hzero, List.drop_replicate] at hread
  cases hread

end PasswordWallet.Desktop
