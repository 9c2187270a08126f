import Mathlib
import PasswordWallet.Memory.Image
import PasswordWallet.Security.Cipher

/-!
# The block cipher of the firmware

`Aes.c` in the configuration of `Aes.h`: both substitutions come from `aesCalcSbox`, which
looks inverses up in a table of sixteen bytes and brings every other byte into its range by
doubling; the rows are turned by swaps, and one function mixes and unmixes the columns.

The key schedule has no memory of its own.  `aesAddRoundKey` adds the key to the state and
turns it into the next round key in place, so that after `aesCipher` the sixteen bytes of
the key hold the eleventh round key; `aesInvAddRoundKey` goes back.  `Rcon` is the round
constant, doubled or halved at every step.  `GF28_MUL2` and `GF28_DIV2` are written in
assembler for the AVR and in C for other targets, to the same effect.
-/

namespace PasswordWallet

local instance fourWords : NeZero 4 := ⟨four_ne_zero⟩

/-- `GF28_MUL2`. -/
def gf28Mul2 (a : Byte) : Byte := if a &&& 0x80 ≠ 0 then (a <<< 1) ^^^ 0x1b else a <<< 1

/-- `GF28_DIV2`. -/
def gf28Div2 (a : Byte) : Byte := if a &&& 0x01 ≠ 0 then (a >>> 1) ^^^ 0x8d else a >>> 1

/-! ## The substitution -/

/-- `AES_SHORTSBOXSIZE`. -/
def aesShortSboxSize : ℕ := 16

/-- The first inverses. -/
def invGf28 : Vector Byte 16 :=
  #v[0x00, 0x01, 0x8d, 0xf6, 0xcb, 0x52, 0x7b, 0xd1, 0xe8, 0x4f, 0x29, 0xc0, 0xb0, 0xe1, 0xe5,
    0xc7]

/-- The loop at the label `matxor`: `b`, turning, is added to `a` for each bit of `x`. -/
def matxor : (fuel : ℕ) → (x a b : Byte) → Option Byte
  | 0, _, _, _ => none
  | fuel + 1, x, a, b =>
      if x = 0 then some a
      else matxor fuel (x >>> 1) (if x &&& 1 ≠ 0 then a ^^^ b else a) ((b <<< 1) ||| (b >>> 7))

/-- `while (x >= AES_SHORTSBOXSIZE)`: double `x`, counting in `a`. -/
def doubleIntoTable : (fuel : ℕ) → (x a : Byte) → Option (Byte × Byte)
  | 0, _, _ => none
  | fuel + 1, x, a =>
      if aesShortSboxSize ≤ x.toNat then doubleIntoTable fuel (gf28Mul2 x) (a + 1)
      else some (x, a)

/-- The inverse of a byte: the table, and as many doublings as brought the byte into it. -/
def inverseByTable (fuel : ℕ) (x : Byte) : Option Byte :=
  (doubleIntoTable fuel x 0).map fun (x, a) => gf28Mul2^[a.toNat] (invGf28.toList.getD x.toNat 0)

/-- `aesCalcSbox`; the loops get `fuel` turns. -/
def aesCalcSbox (fuel : ℕ) (x : Byte) (inv : Bool) : Option Byte :=
  if inv then (matxor fuel (x ^^^ 0x63) 0 0x4a).bind (inverseByTable fuel)
  else (inverseByTable fuel x).bind fun x => matxor fuel x 0x63 0x1f

/-- Nine turns are enough for a byte, which is shifted at each. -/
theorem matxor_isSome (fuel : ℕ) (x a b : Byte) (hx : x.toNat < 2 ^ fuel) :
    (matxor (fuel + 1) x a b).isSome = true := by
  induction fuel generalizing x a b with
  | zero =>
      have hzero : x = 0 := BitVec.eq_of_toNat_eq (by
        change x.toNat = 0
        omega)
      rw [matxor, if_pos hzero]
      rfl
  | succ fuel ih =>
      rw [matxor]
      split_ifs with hzero
      · rfl
      · apply ih
        rw [BitVec.toNat_ushiftRight, Nat.shiftRight_eq_div_pow]
        omega
      · apply ih
        rw [BitVec.toNat_ushiftRight, Nat.shiftRight_eq_div_pow]
        omega

/-- Doubling brings every byte into the table. -/
theorem doubleIntoTable_isSome : ∀ x : Byte, (doubleIntoTable 256 x 0).isSome = true := by
  decide +kernel

theorem aesCalcSbox_isSome (x : Byte) (inv : Bool) : (aesCalcSbox 256 x inv).isSome = true := by
  have hmat (x a b : Byte) : (matxor 256 x a b).isSome = true :=
    matxor_isSome 255 x a b (x.isLt.trans (by decide))
  have hinverse (x : Byte) : (inverseByTable 256 x).isSome = true := by
    rw [inverseByTable, Option.isSome_map]
    exact doubleIntoTable_isSome x
  cases inv
  · obtain ⟨y, hy⟩ := Option.isSome_iff_exists.mp (hinverse x)
    rw [aesCalcSbox, if_neg Bool.false_ne_true, hy]
    exact hmat y _ _
  · obtain ⟨y, hy⟩ := Option.isSome_iff_exists.mp (hmat (x ^^^ 0x63) 0 0x4a)
    rw [aesCalcSbox, if_pos rfl, hy]
    exact hinverse y

/-- `SBOX`. -/
def sbox (x : Byte) : Byte := (aesCalcSbox 256 x false).get (aesCalcSbox_isSome x false)

/-- `INVSBOX`. -/
def invSbox (x : Byte) : Byte := (aesCalcSbox 256 x true).get (aesCalcSbox_isSome x true)

/-! ## The key schedule -/

/-- The four bytes `a`, `b`, `c` and `d` of the code. -/
structure Word where
  a : Byte
  b : Byte
  c : Byte
  d : Byte

def Word.xor (v w : Word) : Word := ⟨v.a ^^^ w.a, v.b ^^^ w.b, v.c ^^^ w.c, v.d ^^^ w.d⟩

/-- The bytes from `ptr = bytes + 4 * i` on. -/
def wordAt (bytes : Block) (i : Fin 4) : Word where
  a := bytes[4 * i.val]
  b := bytes[4 * i.val + 1]
  c := bytes[4 * i.val + 2]
  d := bytes[4 * i.val + 3]

def setWord (bytes : Block) (i : Fin 4) (w : Word) : Block :=
  (((bytes.set (4 * i.val) w.a).set (4 * i.val + 1) w.b).set (4 * i.val + 2) w.c).set
    (4 * i.val + 3) w.d

/-- What goes into the first word of the next round key. -/
def turnWord (w : Word) (rcon : Byte) : Word := ⟨sbox w.b ^^^ rcon, sbox w.c, sbox w.d, sbox w.a⟩

/-- What the two functions that add a round key work on; `state` is `NULL` when only the key
is to move. -/
structure KeyStep where
  state : Option Block
  key : Block
  rcon : Byte

/-- One turn of the loop of `aesAddRoundKey`, for the word `i`. -/
def KeyStep.forward (s : KeyStep) (i : Fin 4) : KeyStep :=
  let before := wordAt s.key (i - 1)
  let w := if i = 0 then turnWord before s.rcon else before
  let t := wordAt s.key i
  { state := s.state.map fun state => setWord state i ((wordAt state i).xor t)
    key := setWord s.key i (w.xor t)
    rcon := if i = 0 then gf28Mul2 s.rcon else s.rcon }

/-- `aesAddRoundKey`. -/
def aesAddRoundKey (s : KeyStep) : KeyStep := [0, 1, 2, 3].foldl KeyStep.forward s

/-- One turn of the loop of `aesInvAddRoundKey`. -/
def KeyStep.backward (s : KeyStep) (i : Fin 4) : KeyStep :=
  let before := wordAt s.key (i - 1)
  let rcon := if i = 0 then gf28Div2 s.rcon else s.rcon
  let w := (if i = 0 then turnWord before rcon else before).xor (wordAt s.key i)
  { state := s.state.map fun state => setWord state i ((wordAt state i).xor w)
    key := setWord s.key i w
    rcon := rcon }

/-- `aesInvAddRoundKey`: the words from the last to the first. -/
def aesInvAddRoundKey (s : KeyStep) : KeyStep := [3, 2, 1, 0].foldl KeyStep.backward s

/-! ## The steps of a round -/

def aesSubBytes (state : Block) : Block := state.map sbox

def aesInvSubBytes (state : Block) : Block := state.map invSbox

/-- The swap of `ptr[0]` and `ptr[4]`. -/
def swapNext (state : Block) (ptr : ℕ) (h : ptr + 4 < 16) : Block :=
  (state.set ptr state[ptr + 4]).set (ptr + 4) state[ptr]

/-- The innermost loop of `aesShiftRows_B`: `ptr` walks over three of the four columns, up
or down. -/
def turnRow (inv : Bool) (state : Block) (j : Fin 4) : Block :=
  if inv then
    swapNext (swapNext (swapNext state (j + 8) (by omega)) (j + 4) (by omega)) j (by omega)
  else
    swapNext (swapNext (swapNext state j (by omega)) (j + 4) (by omega)) (j + 8) (by omega)

/-- `aesShiftRows_B`: for each `i`, the rows `j` from `i` on turn by one place. -/
def aesShiftRowsB (state : Block) (inv : Bool) : Block :=
  [[1, 2, 3], [2, 3], [3]].foldl (List.foldl (turnRow inv)) state

/-- The body of `aesMixColumns_B`, on one column. -/
def mixWord (inv : Bool) (w : Word) : Word :=
  let sum := w.a ^^^ w.b ^^^ w.c ^^^ w.d
  let c := gf28Mul2 sum
  let d := if inv then gf28Mul2 (gf28Mul2 (c ^^^ w.a ^^^ w.c)) ^^^ sum else sum
  let e := if inv then gf28Mul2 (gf28Mul2 (c ^^^ w.b ^^^ w.d)) ^^^ sum else sum
  { a := d ^^^ w.a ^^^ gf28Mul2 (w.a ^^^ w.b)
    b := e ^^^ w.b ^^^ gf28Mul2 (w.b ^^^ w.c)
    c := d ^^^ w.c ^^^ gf28Mul2 (w.c ^^^ w.d)
    d := e ^^^ w.d ^^^ gf28Mul2 (w.d ^^^ w.a) }

/-- `aesMixColumns_B`. -/
def aesMixColumnsB (state : Block) (inv : Bool) : Block :=
  [0, 1, 2, 3].foldl (fun state i => setWord state i (mixWord inv (wordAt state i))) state

/-! ## The cipher -/

/-- One turn of the loop of `aesCipher`. -/
def aesCipherTurn (s : KeyStep) (r : ℕ) : KeyStep :=
  let state := s.state.map fun state =>
    if r ≠ 0 then
      let state := aesShiftRowsB (aesSubBytes state) false
      if r ≠ 10 then aesMixColumnsB state false else state
    else state
  aesAddRoundKey { s with state := state }

/-- `aesCipher`: the key is left patched. -/
def aesCipher (key state : Block) : KeyStep :=
  (List.range 11).foldl aesCipherTurn ⟨some state, key, 1⟩

/-- One turn of the loop of `aesInvCipher`. -/
def aesInvCipherTurn (s : KeyStep) (r : ℕ) : KeyStep :=
  let s := aesInvAddRoundKey s
  { s with state := s.state.map fun state =>
      if r ≠ 0 then
        let state := if r ≠ 10 then aesMixColumnsB state true else state
        aesInvSubBytes (aesShiftRowsB state true)
      else state }

/-- `aesInvCipher`, which takes the patched key and restores it. -/
def aesInvCipher (patched state : Block) : KeyStep :=
  (List.range 11).reverse.foldl aesInvCipherTurn ⟨some state, patched, 0xd8⟩

/-- `aesKeyRewind`. -/
def aesKeyRewind (patched : Block) : Block :=
  ((List.range 11).foldl (fun s _ => aesInvAddRoundKey s) ⟨none, patched, 0xd8⟩).key

/-- `aesKeyPatch`. -/
def aesKeyPatch (key : Block) : Block :=
  ((List.range 11).foldl (fun s _ => aesAddRoundKey s) ⟨none, key, 1⟩).key

/-! ## Buffers -/

/-- The three buffers of the two functions below; `input` may go on behind the blocks. -/
structure Buffers where
  input : List Byte
  key : Block
  iv : Block

/-- The loop of `AES128_CBC_encrypt_buffer`; `chain` is what `iv` points to.  The cipher
patches the key, `aesKeyRewind` restores it. -/
def aesCbcEncryptLoop : ℕ → (input : List Byte) → (key chain : Block) → List Byte × Block
  | 0, input, key, _ => (input, key)
  | blocks + 1, input, key, chain =>
      let block := memXor (blockAt input) chain
      let s := aesCipher key block
      let block := s.state.getD block
      let rest := aesCbcEncryptLoop blocks (input.drop 16) (aesKeyRewind s.key) block
      (block.toList ++ rest.1, rest.2)

/-- `AES128_CBC_encrypt_buffer`. -/
def aes128CbcEncryptBuffer (fuel : ℕ) (b : Buffers) (sz : Byte) : Option Buffers :=
  (blockTurns sz fuel 0).map fun blocks =>
    let out := aesCbcEncryptLoop blocks b.input b.key b.iv
    { b with input := out.1, key := out.2 }

/-- The loop of `AES128_CBC_decrypt_buffer`: `pos` says which of the two buffers takes the
next block, `inTemp` which one `xorWith` points to. -/
def aesCbcDecryptLoop : ℕ → Buffers → (tempCipher : Block) → (pos inTemp : Bool) → Buffers
  | 0, b, _, _, _ => b
  | blocks + 1, b, tempCipher, pos, inTemp =>
      let block := blockAt b.input
      let tempCipher := if pos then tempCipher else block
      let iv := if pos then block else b.iv
      let s := aesInvCipher (aesKeyPatch b.key) block
      let plain := memXor (s.state.getD block) (if inTemp then tempCipher else iv)
      let rest : Buffers := { input := b.input.drop 16, key := s.key, iv := iv }
      let rest :=
        if 0 ∈ plain.toList then rest
        else aesCbcDecryptLoop blocks rest tempCipher (!pos) (!pos)
      { rest with input := plain.toList ++ rest.input }

/-- `AES128_CBC_decrypt_buffer`; `tempCipher` is what lies on the stack. -/
def aes128CbcDecryptBuffer (fuel : ℕ) (b : Buffers) (sz : Byte) (tempCipher : Block) :
    Option Buffers :=
  (blockTurns sz fuel 0).map fun blocks => aesCbcDecryptLoop blocks b tempCipher false false

end PasswordWallet
