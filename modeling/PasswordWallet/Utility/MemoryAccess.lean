import PasswordWallet.Options.CallbackAdvanced
import PasswordWallet.Utility.MemoryRepresentation

/-!
# The key and the options in the host tool

`MemoryAccess::setKey` of the memory parser, given the key as the device shows it.  A
`char` of the host has a sign.

`MemoryAccess::option` and `setOption` read and write the options in an image of the
memory, at the places that the layout gives.  `m_data` is the state of `setOption`, which
keeps what was written before an exception.
-/

namespace PasswordWallet.MemoryAccess

/-- The number that five characters stand for. -/
def keySum (input : List Byte) : BitVec 32 :=
  (List.zipWith (fun c power => (c.signExtend 32 - 33) * power) input powers).foldl (· + ·) 0

def keyBytes (sum : BitVec 32) : List Byte :=
  [(sum >>> 24).setWidth 8, ((sum &&& 0xFF0000) >>> 16).setWidth 8,
    ((sum &&& 0xFF00) >>> 8).setWidth 8, (sum &&& 0xFF).setWidth 8]

/-- The outer loop, with the turns that are left. -/
def keyFrom : ℕ → List Byte → List Byte
  | 0, _ => []
  | i + 1, input => keyBytes (keySum (input.take 5)) ++ keyFrom i (input.drop 5)

/-- What `m_key` becomes, or the `std::invalid_argument` that is thrown. -/
def setKey (keyEnc85 : List Byte) : Except String (List Byte) :=
  if keyEnc85.length ≠ 20 then .error "Wrong key size."
  else .ok (keyFrom 4 keyEnc85)

/-! ## The options -/

/-- The exceptions that are thrown. -/
inductive Exception
  | runtimeError (what : String)
  | outOfRange
deriving DecidableEq

/-- `struct Option`, with its bit-fields. -/
structure OptionBits where
  sortingMethod : BitVec 2 := 0
  orientation : BitVec 1 := 0
  initialized : BitVec 1 := 0
  qwerty : BitVec 1 := 0
deriving DecidableEq

/-- `set_throw_if_empty`. -/
def setThrowIfEmpty (rep : MemoryRepresentation) (sectionName name : String) :
    Except Exception MemoryBlock :=
  let block := rep.position sectionName name
  if block.valid then .ok block
  else .error (.runtimeError
    ("Cannot find \"" ++ name ++ "\" in section \"" ++ sectionName ++ "\"."))

/-- `m_data.at(off)`. -/
def dataAt (data : List Byte) (off : BitVec 32) : Except Exception Byte :=
  match data[off.toNat]? with
  | some byte => .ok byte
  | none => .error .outOfRange

/-- `m_data.at(off) & (1<<bitBlock.bitPos)`, an `int`, with the block of a name. -/
def maskedBit (rep : MemoryRepresentation) (data : List Byte) (off : BitVec 32) (name : String) :
    Except Exception (BitVec 32) := do
  let bitBlock ← setThrowIfEmpty rep "header" name
  let byte ← dataAt data off
  .ok (byte.setWidth 32 &&& ((1 : BitVec 32) <<< bitBlock.bitPos.toNat))

/-- `MemoryAccess::option`. -/
def option (rep : MemoryRepresentation) (data : List Byte) : Except Exception OptionBits := do
  let block := rep.position "header" "option"
  if !block.valid then
    .error (.runtimeError "Cannot find block \"option\" in section \"header\"")
  else
    let off := block.offset
    let sortingMethodL : Byte := (← maskedBit rep data off "option_sorting_method_l").setWidth 8
    let sortingMethodH : Byte := (← maskedBit rep data off "option_sorting_method_h").setWidth 8
    -- a bit-field keeps the lowest bit of what it is given
    let orientation : BitVec 1 := (← maskedBit rep data off "option_orientation").setWidth 1
    let initialized : BitVec 1 := (← maskedBit rep data off "option_initialized").setWidth 1
    let qwerty : BitVec 1 := (← maskedBit rep data off "option_qwerty").setWidth 1
    .ok
      { sortingMethod :=
          ((sortingMethodH.setWidth 32 <<< 1) ||| sortingMethodL.setWidth 32).setWidth 2
        orientation := orientation
        initialized := initialized
        qwerty := qwerty }

/-- `ubi`, on a byte. -/
def ubi (byte : Byte) (bit : ℕ) (value : Bool) : Byte :=
  if value then (byte.setWidth 32 ||| ((1 : BitVec 32) <<< bit)).setWidth 8
  else (byte.setWidth 32 &&& ~~~((1 : BitVec 32) <<< bit)).setWidth 8

/-- Writes the bit with a name. -/
def setBit (rep : MemoryRepresentation) (name : String) (value : Bool) :
    EStateM Exception (List Byte) Unit := do
  let bitBlock ← MonadExcept.ofExcept (setThrowIfEmpty rep "header" name)
  let byte ← MonadExcept.ofExcept (dataAt (← get) bitBlock.offset)
  modify fun data => data.set bitBlock.offset.toNat (ubi byte bitBlock.bitPos.toNat value)

/-- `MemoryAccess::setOption`. -/
def setOption (rep : MemoryRepresentation) (opt : OptionBits) :
    EStateM Exception (List Byte) Unit := do
  setBit rep "option_sorting_method_l" (opt.sortingMethod &&& 0x01 ≠ 0)
  setBit rep "option_sorting_method_h" (opt.sortingMethod >>> 1 ≠ 0)
  setBit rep "option_orientation" (opt.orientation ≠ 0)
  setBit rep "option_initialized" (opt.initialized ≠ 0)
  setBit rep "option_qwerty" (opt.qwerty ≠ 0)

end PasswordWallet.MemoryAccess
