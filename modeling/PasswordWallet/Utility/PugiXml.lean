import Mathlib.Data.Nat.Notation

/-!
# What the layout of the memory is read with

A document as the XML library gives it to the memory parser, and its `as_int`.
-/

namespace PasswordWallet

/-- `xml_node`.  A node that is no element has the empty name. -/
structure XmlNode where
  name : String
  attributes : List (String × String)
  children : List XmlNode

namespace XmlNode

/-- `attribute` with a name, the first; its value. -/
def attributeValue (node : XmlNode) (name : String) : Option String := node.attributes.lookup name

/-- `children` with a name. -/
def childrenNamed (node : XmlNode) (name : String) : List XmlNode :=
  node.children.filter fun child => child.name = name

/-- `child`, the first that has the name. -/
def child (node : XmlNode) (name : String) : Option XmlNode := (node.childrenNamed name).head?

end XmlNode

/-! ## `as_int` -/

/-- A digit in base 16, if it is one. -/
def hexDigit (c : Char) : Option (BitVec 32) :=
  if '0' ≤ c ∧ c ≤ '9' then some (BitVec.ofNat 32 (c.toNat - '0'.toNat))
  else if 'a' ≤ c ∧ c ≤ 'f' then some (BitVec.ofNat 32 (c.toNat - 'a'.toNat + 10))
  else if 'A' ≤ c ∧ c ≤ 'F' then some (BitVec.ofNat 32 (c.toNat - 'A'.toNat + 10))
  else none

/-- A digit in base 10, if it is one. -/
def decDigit (c : Char) : Option (BitVec 32) :=
  if '0' ≤ c ∧ c ≤ '9' then some (BitVec.ofNat 32 (c.toNat - '0'.toNat)) else none

/-- The loop over the digits: the result and the number of digits, for a result so far. -/
def readDigits (digit : Char → Option (BitVec 32)) (base : BitVec 32) :
    List Char → BitVec 32 → BitVec 32 × ℕ
  | [], result => (result, 0)
  | c :: rest, result =>
      match digit c with
      | none => (result, 0)
      | some d =>
          let after := readDigits digit base rest (result * base + d)
          (after.1, after.2 + 1)

/-- The number behind the sign, and whether it overflows. -/
def readUnsigned (s : List Char) : BitVec 32 × Bool :=
  match s with
  | '0' :: 'x' :: rest | '0' :: 'X' :: rest =>
      let number := readDigits hexDigit 16 (rest.dropWhile (· = '0')) 0
      (number.1, decide (8 < number.2))
  | s =>
      let start := s.dropWhile (· = '0')
      let number := readDigits decDigit 10 start 0
      -- the first digit and the highest bit tell whether ten digits are too big
      (number.1, decide (10 ≤ number.2) &&
        !(decide (number.2 = 10) && (decide (start.headD '0' < '4') ||
          (decide (start.headD '0' = '4') && number.1.getLsbD 31))))

/-- `string_to_integer` for an `int`. -/
def stringToInteger (value : String) : BitVec 32 :=
  let s := value.toList.dropWhile fun c => c = ' ' ∨ c = '\t' ∨ c = '\n' ∨ c = '\r'
  let negative := s.head? = some '-'
  let (result, overflow) :=
    readUnsigned (if s.head? = some '+' ∨ s.head? = some '-' then s.drop 1 else s)
  let minneg := 0x80000000
  let maxpos := 0x7FFFFFFF
  if negative then
    if overflow ∨ minneg < result then 0 - minneg else 0 - result
  else
    if overflow ∨ maxpos < result then maxpos else result

end PasswordWallet
