import PasswordWallet.Security.Aes

/-!
# The block cipher of the host

`Aes.cpp`, which the host programs share.  The substitutions and the constants of the rounds
are tables, and `KeyExpansion` computes all round keys before the first block.  The state is
the buffer itself: `(*state)[i][j]` is its byte `4 * i + j`, so that `(*state)[i]` is a word.

`RoundKey` and `Iv` are static; a call that passes a key and an initial vector, as all calls
do, sets both.  `KeyExpansion` writes the words of `RoundKey`, which is a function of their
index here, the 44 in the array being the arguments below 44.
-/

namespace PasswordWallet.HostAes

local instance fourWords : NeZero 4 := ⟨four_ne_zero⟩

/-! ## Tables -/

def sbox : Array Byte :=
  #[
    0x63, 0x7c, 0x77, 0x7b, 0xf2, 0x6b, 0x6f, 0xc5, 0x30, 0x01, 0x67, 0x2b, 0xfe, 0xd7, 0xab, 0x76,
    0xca, 0x82, 0xc9, 0x7d, 0xfa, 0x59, 0x47, 0xf0, 0xad, 0xd4, 0xa2, 0xaf, 0x9c, 0xa4, 0x72, 0xc0,
    0xb7, 0xfd, 0x93, 0x26, 0x36, 0x3f, 0xf7, 0xcc, 0x34, 0xa5, 0xe5, 0xf1, 0x71, 0xd8, 0x31, 0x15,
    0x04, 0xc7, 0x23, 0xc3, 0x18, 0x96, 0x05, 0x9a, 0x07, 0x12, 0x80, 0xe2, 0xeb, 0x27, 0xb2, 0x75,
    0x09, 0x83, 0x2c, 0x1a, 0x1b, 0x6e, 0x5a, 0xa0, 0x52, 0x3b, 0xd6, 0xb3, 0x29, 0xe3, 0x2f, 0x84,
    0x53, 0xd1, 0x00, 0xed, 0x20, 0xfc, 0xb1, 0x5b, 0x6a, 0xcb, 0xbe, 0x39, 0x4a, 0x4c, 0x58, 0xcf,
    0xd0, 0xef, 0xaa, 0xfb, 0x43, 0x4d, 0x33, 0x85, 0x45, 0xf9, 0x02, 0x7f, 0x50, 0x3c, 0x9f, 0xa8,
    0x51, 0xa3, 0x40, 0x8f, 0x92, 0x9d, 0x38, 0xf5, 0xbc, 0xb6, 0xda, 0x21, 0x10, 0xff, 0xf3, 0xd2,
    0xcd, 0x0c, 0x13, 0xec, 0x5f, 0x97, 0x44, 0x17, 0xc4, 0xa7, 0x7e, 0x3d, 0x64, 0x5d, 0x19, 0x73,
    0x60, 0x81, 0x4f, 0xdc, 0x22, 0x2a, 0x90, 0x88, 0x46, 0xee, 0xb8, 0x14, 0xde, 0x5e, 0x0b, 0xdb,
    0xe0, 0x32, 0x3a, 0x0a, 0x49, 0x06, 0x24, 0x5c, 0xc2, 0xd3, 0xac, 0x62, 0x91, 0x95, 0xe4, 0x79,
    0xe7, 0xc8, 0x37, 0x6d, 0x8d, 0xd5, 0x4e, 0xa9, 0x6c, 0x56, 0xf4, 0xea, 0x65, 0x7a, 0xae, 0x08,
    0xba, 0x78, 0x25, 0x2e, 0x1c, 0xa6, 0xb4, 0xc6, 0xe8, 0xdd, 0x74, 0x1f, 0x4b, 0xbd, 0x8b, 0x8a,
    0x70, 0x3e, 0xb5, 0x66, 0x48, 0x03, 0xf6, 0x0e, 0x61, 0x35, 0x57, 0xb9, 0x86, 0xc1, 0x1d, 0x9e,
    0xe1, 0xf8, 0x98, 0x11, 0x69, 0xd9, 0x8e, 0x94, 0x9b, 0x1e, 0x87, 0xe9, 0xce, 0x55, 0x28, 0xdf,
    0x8c, 0xa1, 0x89, 0x0d, 0xbf, 0xe6, 0x42, 0x68, 0x41, 0x99, 0x2d, 0x0f, 0xb0, 0x54, 0xbb, 0x16]

def rsbox : Array Byte :=
  #[
    0x52, 0x09, 0x6a, 0xd5, 0x30, 0x36, 0xa5, 0x38, 0xbf, 0x40, 0xa3, 0x9e, 0x81, 0xf3, 0xd7, 0xfb,
    0x7c, 0xe3, 0x39, 0x82, 0x9b, 0x2f, 0xff, 0x87, 0x34, 0x8e, 0x43, 0x44, 0xc4, 0xde, 0xe9, 0xcb,
    0x54, 0x7b, 0x94, 0x32, 0xa6, 0xc2, 0x23, 0x3d, 0xee, 0x4c, 0x95, 0x0b, 0x42, 0xfa, 0xc3, 0x4e,
    0x08, 0x2e, 0xa1, 0x66, 0x28, 0xd9, 0x24, 0xb2, 0x76, 0x5b, 0xa2, 0x49, 0x6d, 0x8b, 0xd1, 0x25,
    0x72, 0xf8, 0xf6, 0x64, 0x86, 0x68, 0x98, 0x16, 0xd4, 0xa4, 0x5c, 0xcc, 0x5d, 0x65, 0xb6, 0x92,
    0x6c, 0x70, 0x48, 0x50, 0xfd, 0xed, 0xb9, 0xda, 0x5e, 0x15, 0x46, 0x57, 0xa7, 0x8d, 0x9d, 0x84,
    0x90, 0xd8, 0xab, 0x00, 0x8c, 0xbc, 0xd3, 0x0a, 0xf7, 0xe4, 0x58, 0x05, 0xb8, 0xb3, 0x45, 0x06,
    0xd0, 0x2c, 0x1e, 0x8f, 0xca, 0x3f, 0x0f, 0x02, 0xc1, 0xaf, 0xbd, 0x03, 0x01, 0x13, 0x8a, 0x6b,
    0x3a, 0x91, 0x11, 0x41, 0x4f, 0x67, 0xdc, 0xea, 0x97, 0xf2, 0xcf, 0xce, 0xf0, 0xb4, 0xe6, 0x73,
    0x96, 0xac, 0x74, 0x22, 0xe7, 0xad, 0x35, 0x85, 0xe2, 0xf9, 0x37, 0xe8, 0x1c, 0x75, 0xdf, 0x6e,
    0x47, 0xf1, 0x1a, 0x71, 0x1d, 0x29, 0xc5, 0x89, 0x6f, 0xb7, 0x62, 0x0e, 0xaa, 0x18, 0xbe, 0x1b,
    0xfc, 0x56, 0x3e, 0x4b, 0xc6, 0xd2, 0x79, 0x20, 0x9a, 0xdb, 0xc0, 0xfe, 0x78, 0xcd, 0x5a, 0xf4,
    0x1f, 0xdd, 0xa8, 0x33, 0x88, 0x07, 0xc7, 0x31, 0xb1, 0x12, 0x10, 0x59, 0x27, 0x80, 0xec, 0x5f,
    0x60, 0x51, 0x7f, 0xa9, 0x19, 0xb5, 0x4a, 0x0d, 0x2d, 0xe5, 0x7a, 0x9f, 0x93, 0xc9, 0x9c, 0xef,
    0xa0, 0xe0, 0x3b, 0x4d, 0xae, 0x2a, 0xf5, 0xb0, 0xc8, 0xeb, 0xbb, 0x3c, 0x83, 0x53, 0x99, 0x61,
    0x17, 0x2b, 0x04, 0x7e, 0xba, 0x77, 0xd6, 0x26, 0xe1, 0x69, 0x14, 0x63, 0x55, 0x21, 0x0c, 0x7d]

def rcon : Array Byte :=
  #[
    0x8d, 0x01, 0x02, 0x04, 0x08, 0x10, 0x20, 0x40, 0x80, 0x1b, 0x36, 0x6c, 0xd8, 0xab, 0x4d, 0x9a,
    0x2f, 0x5e, 0xbc, 0x63, 0xc6, 0x97, 0x35, 0x6a, 0xd4, 0xb3, 0x7d, 0xfa, 0xef, 0xc5, 0x91, 0x39,
    0x72, 0xe4, 0xd3, 0xbd, 0x61, 0xc2, 0x9f, 0x25, 0x4a, 0x94, 0x33, 0x66, 0xcc, 0x83, 0x1d, 0x3a,
    0x74, 0xe8, 0xcb, 0x8d, 0x01, 0x02, 0x04, 0x08, 0x10, 0x20, 0x40, 0x80, 0x1b, 0x36, 0x6c, 0xd8,
    0xab, 0x4d, 0x9a, 0x2f, 0x5e, 0xbc, 0x63, 0xc6, 0x97, 0x35, 0x6a, 0xd4, 0xb3, 0x7d, 0xfa, 0xef,
    0xc5, 0x91, 0x39, 0x72, 0xe4, 0xd3, 0xbd, 0x61, 0xc2, 0x9f, 0x25, 0x4a, 0x94, 0x33, 0x66, 0xcc,
    0x83, 0x1d, 0x3a, 0x74, 0xe8, 0xcb, 0x8d, 0x01, 0x02, 0x04, 0x08, 0x10, 0x20, 0x40, 0x80, 0x1b,
    0x36, 0x6c, 0xd8, 0xab, 0x4d, 0x9a, 0x2f, 0x5e, 0xbc, 0x63, 0xc6, 0x97, 0x35, 0x6a, 0xd4, 0xb3,
    0x7d, 0xfa, 0xef, 0xc5, 0x91, 0x39, 0x72, 0xe4, 0xd3, 0xbd, 0x61, 0xc2, 0x9f, 0x25, 0x4a, 0x94,
    0x33, 0x66, 0xcc, 0x83, 0x1d, 0x3a, 0x74, 0xe8, 0xcb, 0x8d, 0x01, 0x02, 0x04, 0x08, 0x10, 0x20,
    0x40, 0x80, 0x1b, 0x36, 0x6c, 0xd8, 0xab, 0x4d, 0x9a, 0x2f, 0x5e, 0xbc, 0x63, 0xc6, 0x97, 0x35,
    0x6a, 0xd4, 0xb3, 0x7d, 0xfa, 0xef, 0xc5, 0x91, 0x39, 0x72, 0xe4, 0xd3, 0xbd, 0x61, 0xc2, 0x9f,
    0x25, 0x4a, 0x94, 0x33, 0x66, 0xcc, 0x83, 0x1d, 0x3a, 0x74, 0xe8, 0xcb, 0x8d, 0x01, 0x02, 0x04,
    0x08, 0x10, 0x20, 0x40, 0x80, 0x1b, 0x36, 0x6c, 0xd8, 0xab, 0x4d, 0x9a, 0x2f, 0x5e, 0xbc, 0x63,
    0xc6, 0x97, 0x35, 0x6a, 0xd4, 0xb3, 0x7d, 0xfa, 0xef, 0xc5, 0x91, 0x39, 0x72, 0xe4, 0xd3, 0xbd,
    0x61, 0xc2, 0x9f, 0x25, 0x4a, 0x94, 0x33, 0x66, 0xcc, 0x83, 0x1d, 0x3a, 0x74, 0xe8, 0xcb]

/-- `getSBoxValue`. -/
def getSBoxValue (num : Byte) : Byte := sbox.getD num.toNat 0

/-- `getSBoxInvert`. -/
def getSBoxInvert (num : Byte) : Byte := rsbox.getD num.toNat 0

/-! ## The round keys -/

/-- `Nk`. -/
def nk : ℕ := 4

/-- `Nr`. -/
def nr : ℕ := 10

/-- Function RotWord. -/
def rotWord (w : Word) : Word := ⟨w.b, w.c, w.d, w.a⟩

/-- Function Subword. -/
def subWord (w : Word) : Word :=
  ⟨getSBoxValue w.a, getSBoxValue w.b, getSBoxValue w.c, getSBoxValue w.d⟩

/-- The words of `RoundKey`. -/
abbrev RoundKey := ℕ → Word

/-- One turn of the second loop of `KeyExpansion`; `w` is `tempa`. -/
def expandWord (roundKey : RoundKey) (i : ℕ) : RoundKey :=
  let w := roundKey (i - 1)
  let w :=
    if i % nk = 0 then
      let w := subWord (rotWord w)
      { w with a := w.a ^^^ rcon.getD (i / nk) 0 }
    else if nk > 6 ∧ i % nk = 4 then subWord w
    else w
  Function.update roundKey i ((roundKey (i - nk)).xor w)

/-- The first loop: the first round key is the key itself. -/
def firstRoundKey (roundKey : RoundKey) (key : Block) : RoundKey :=
  [0, 1, 2, 3].foldl
    (fun roundKey (i : Fin 4) => Function.update roundKey i.val (wordAt key i)) roundKey

/-- `KeyExpansion`, over what the array held. -/
def keyExpansion (roundKey : RoundKey) (key : Block) : RoundKey :=
  (List.range' 4 40).foldl expandWord (firstRoundKey roundKey key)

/-! ## The steps of a round -/

/-- `AddRoundKey`. -/
def addRoundKey (roundKey : RoundKey) (round : ℕ) (state : Block) : Block :=
  [0, 1, 2, 3].foldl (fun state (i : Fin 4) =>
    setWord state i ((wordAt state i).xor (roundKey (round * 4 + i)))) state

/-- `SubBytes`. -/
def subBytes (state : Block) : Block := state.map getSBoxValue

/-- `InvSubBytes`. -/
def invSubBytes (state : Block) : Block := state.map getSBoxInvert

/-- `ShiftRows`. -/
def shiftRows (state : Block) : Block :=
  let temp := state[1]
  let state := ((state.set 1 state[5]).set 5 state[9]).set 9 state[13]
  let state := state.set 13 temp
  let temp := state[2]
  let state := (state.set 2 state[10]).set 10 temp
  let temp := state[6]
  let state := (state.set 6 state[14]).set 14 temp
  let temp := state[3]
  let state := ((state.set 3 state[15]).set 15 state[11]).set 11 state[7]
  state.set 7 temp

/-- `InvShiftRows`. -/
def invShiftRows (state : Block) : Block :=
  let temp := state[13]
  let state := ((state.set 13 state[9]).set 9 state[5]).set 5 state[1]
  let state := state.set 1 temp
  let temp := state[2]
  let state := (state.set 2 state[10]).set 10 temp
  let temp := state[6]
  let state := (state.set 6 state[14]).set 14 temp
  let temp := state[3]
  let state := ((state.set 3 state[7]).set 7 state[11]).set 11 state[15]
  state.set 15 temp

def xtime (x : Byte) : Byte := (x <<< 1) ^^^ (((x >>> 7) &&& 1) * 0x1b)

/-- The body of `MixColumns`. -/
def mixColumn (w : Word) : Word :=
  let tmp := w.a ^^^ w.b ^^^ w.c ^^^ w.d
  { a := w.a ^^^ (xtime (w.a ^^^ w.b) ^^^ tmp)
    b := w.b ^^^ (xtime (w.b ^^^ w.c) ^^^ tmp)
    c := w.c ^^^ (xtime (w.c ^^^ w.d) ^^^ tmp)
    d := w.d ^^^ (xtime (w.d ^^^ w.a) ^^^ tmp) }

/-- `MixColumns`. -/
def mixColumns (state : Block) : Block :=
  [0, 1, 2, 3].foldl (fun state i => setWord state i (mixColumn (wordAt state i))) state

/-- `Multiply`. -/
def multiply (x y : Byte) : Byte :=
  ((y &&& 1) * x) ^^^ ((y >>> 1 &&& 1) * xtime x) ^^^ ((y >>> 2 &&& 1) * xtime (xtime x)) ^^^
    ((y >>> 3 &&& 1) * xtime (xtime (xtime x))) ^^^
      ((y >>> 4 &&& 1) * xtime (xtime (xtime (xtime x))))

/-- The body of `InvMixColumns`. -/
def invMixColumn (w : Word) : Word where
  a := multiply w.a 0x0e ^^^ multiply w.b 0x0b ^^^ multiply w.c 0x0d ^^^ multiply w.d 0x09
  b := multiply w.a 0x09 ^^^ multiply w.b 0x0e ^^^ multiply w.c 0x0b ^^^ multiply w.d 0x0d
  c := multiply w.a 0x0d ^^^ multiply w.b 0x09 ^^^ multiply w.c 0x0e ^^^ multiply w.d 0x0b
  d := multiply w.a 0x0b ^^^ multiply w.b 0x0d ^^^ multiply w.c 0x09 ^^^ multiply w.d 0x0e

/-- `InvMixColumns`. -/
def invMixColumns (state : Block) : Block :=
  [0, 1, 2, 3].foldl (fun state i => setWord state i (invMixColumn (wordAt state i))) state

/-! ## The cipher -/

/-- `Cipher`. -/
def cipher (roundKey : RoundKey) (state : Block) : Block :=
  let state := addRoundKey roundKey 0 state
  let state := (List.range' 1 9).foldl (fun state round =>
    addRoundKey roundKey round (mixColumns (shiftRows (subBytes state)))) state
  addRoundKey roundKey nr (shiftRows (subBytes state))

/-- `InvCipher`. -/
def invCipher (roundKey : RoundKey) (state : Block) : Block :=
  let state := addRoundKey roundKey nr state
  let state := (List.range' 1 9).reverse.foldl (fun state round =>
    invMixColumns (addRoundKey roundKey round (invSubBytes (invShiftRows state)))) state
  addRoundKey roundKey 0 (invSubBytes (invShiftRows state))

/-! ## Buffers -/

/-- The loop of `AES128_CBC_encrypt_buffer`, with the output and the input, which it adds
the vector to in place. -/
def encryptLoop (roundKey : RoundKey) : ℕ → (input : List Byte) → (iv : Block) →
    List Byte × List Byte
  | 0, input, _ => ([], input)
  | blocks + 1, input, iv =>
      let block := memXor (blockAt input) iv
      let output := cipher roundKey block
      let rest := encryptLoop roundKey blocks (input.drop 16) output
      (output.toList ++ rest.1, block.toList ++ rest.2)

/-- `AES128_CBC_encrypt_buffer` on whole blocks; `statics` is what `RoundKey` held. -/
def aes128CbcEncryptBuffer (statics : RoundKey) (blocks : ℕ) (input : List Byte)
    (key iv : Block) : List Byte × List Byte :=
  encryptLoop (keyExpansion statics key) blocks input iv

/-- The loop of `AES128_CBC_decrypt_buffer`; the input is another buffer than the output. -/
def decryptLoop (roundKey : RoundKey) : ℕ → (input : List Byte) → (iv : Block) → List Byte
  | 0, _, _ => []
  | blocks + 1, input, iv =>
      (memXor (invCipher roundKey (blockAt input)) iv).toList ++
        decryptLoop roundKey blocks (input.drop 16) (blockAt input)

/-- `AES128_CBC_decrypt_buffer` on whole blocks. -/
def aes128CbcDecryptBuffer (statics : RoundKey) (blocks : ℕ) (input : List Byte)
    (key iv : Block) : List Byte :=
  decryptLoop (keyExpansion statics key) blocks input iv

end PasswordWallet.HostAes
