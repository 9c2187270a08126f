import PasswordWallet.Options.CallbackAdvanced

/-!
# A key as text

`encode_16B` of `Ascii85.c`, which the key is shown with.  Its inverse `decode_16B` and
the table of powers stand with the action that takes a typed key.
-/

namespace PasswordWallet

/-- Four bytes as a number, the highest first; the pointer has gone on `i` times. -/
def encodeSum (input : Block) (i : ℕ) : BitVec 32 :=
  ((input.getD (4 * i) 0).setWidth 32 <<< 24) + ((input.getD (4 * i + 1) 0).setWidth 32 <<< 16) +
    ((input.getD (4 * i + 2) 0).setWidth 32 <<< 8) + (input.getD (4 * i + 3) 0).setWidth 32

/-- The inner loop: the quotient goes through a `char`, and 33 is added to it there. -/
def encodeDigits : List (BitVec 32) → BitVec 32 → List Byte
  | [], _ => []
  | power :: rest, sum =>
      let tempOutput : Byte := (sum / power).setWidth 8
      (tempOutput + 33) :: encodeDigits rest (sum - tempOutput.setWidth 32 * power)

/-- `encode_16B`: five characters for every four bytes. -/
def encode16B (input : Block) : Vector Byte 20 :=
  Vector.ofFn fun i : Fin 20 =>
    (encodeDigits powers (encodeSum input (i.val / 5))).getD (i.val % 5) 0

end PasswordWallet
