import PasswordWallet.Desktop.QString
import PasswordWallet.Patching.Slice
import PasswordWallet.Security.Cipher

/-!
# A password chunk in the first desktop application

`Password` of `desktop_app`: a chunk of 166 bytes with the names of its fields.  A
`QString` is converted from and to the local encoding, which is Latin-1 here; from bytes
it is read up to the first zero.  `behind` are the bytes behind the array `output` of the
program's stack, where the text goes on if the array holds no zero.
-/

namespace PasswordWallet.DesktopApp

open Desktop Patching

def pwdOffsetPrevPwdUse : ℕ := 0
def pwdOffsetNextPwdUse : ℕ := 1
def pwdOffsetPrevPwdAlpha : ℕ := 2
def pwdOffsetNextPwdAlpha : ℕ := 3
def pwdOffsetPwdCount : ℕ := 4
def pwdOffsetPwdName : ℕ := 6
def pwdSizePwdName : ℕ := 32
def pwdOffsetPwdIv : ℕ := 38
def pwdSizePwdIv : ℕ := 16
def pwdOffsetPwdData : ℕ := 54
def pwdSizePwdData : ℕ := 32
def pwdOffsetUsrIv : ℕ := 86
def pwdSizeUsrIv : ℕ := 16
def pwdOffsetUsrName : ℕ := 102
def pwdSizeUsrName : ℕ := 64
def sizeOfPwdBlock : ℕ := 166

structure Password where
  id : ℕ
  data : List Byte

/-- `QByteArray::mid`. -/
def mid (array : List Byte) (pos len : ℕ) : List Byte := (array.drop pos).take len

/-- `QString::fromLocal8Bit`. -/
def fromLocal8Bit (str : List Byte) : QString := fromLatin1 (str.takeWhile (· ≠ 0))

/-- `QChar::toLatin1`. -/
def charToLatin1 (c : BitVec 16) : Byte := if c.toNat < 256 then c.setWidth 8 else 0

namespace Password

/-- The constructor. -/
def ofData (id : ℕ) (data : List Byte) : Password :=
  ⟨id, if data.length ≠ sizeOfPwdBlock then List.replicate sizeOfPwdBlock 0 else data⟩

/-! ## Reading -/

def prevPwdUse (p : Password) : ℕ := (p.data.getD pwdOffsetPrevPwdUse 0).toNat

def nextPwdUse (p : Password) : ℕ := (p.data.getD pwdOffsetNextPwdUse 0).toNat

def prevPwdAlpha (p : Password) : ℕ := (p.data.getD pwdOffsetPrevPwdAlpha 0).toNat

def nextPwdAlpha (p : Password) : ℕ := (p.data.getD pwdOffsetNextPwdAlpha 0).toNat

/-- The sum of two `char`s, as a `quint16`; the first is cast to `quint16` by its sign. -/
def count (p : Password) : BitVec 16 :=
  (p.data.getD pwdOffsetPwdCount 0).signExtend 16 +
    ((p.data.getD (pwdOffsetPwdCount + 1) 0).signExtend 16 <<< 8)

def name (p : Password) : QString := fromLocal8Bit (mid p.data pwdOffsetPwdName 32)

/-- `Password::password`. -/
def password (p : Password) (cipher : BlockCipher) (key : Block) (behind : List Byte) : QString :=
  let iv := blockAt (mid p.data pwdOffsetPwdIv pwdSizePwdIv)
  let data := mid p.data pwdOffsetPwdData pwdSizePwdData
  let output := removePadding false (cbcDecryptAll (cipher.decrypt key) 2 data iv)
  fromLocal8Bit (output ++ behind)

/-- `Password::userName`. -/
def userName (p : Password) (cipher : BlockCipher) (key : Block) (behind : List Byte) : QString :=
  let iv := blockAt (mid p.data pwdOffsetUsrIv pwdSizeUsrIv)
  let data := mid p.data pwdOffsetUsrName pwdSizeUsrName
  let output := removePadding false (cbcDecryptAll (cipher.decrypt key) 4 data iv)
  fromLocal8Bit (output ++ behind)

/-! ## Writing -/

/-- One byte of the chunk. -/
def set (p : Password) (offset : ℕ) (val : Byte) : Password :=
  { p with data := p.data.set offset val }

def setPrevPwdUse (p : Password) (val : ℕ) : Password :=
  p.set pwdOffsetPrevPwdUse (BitVec.ofNat 8 val)

def setNextPwdUse (p : Password) (val : ℕ) : Password :=
  p.set pwdOffsetNextPwdUse (BitVec.ofNat 8 val)

def setPrevPwdAlpha (p : Password) (val : ℕ) : Password :=
  p.set pwdOffsetPrevPwdAlpha (BitVec.ofNat 8 val)

def setNextPwdAlpha (p : Password) (val : ℕ) : Password :=
  p.set pwdOffsetNextPwdAlpha (BitVec.ofNat 8 val)

/-- The high byte comes first. -/
def setCount (p : Password) (c : BitVec 16) : Password :=
  (p.set pwdOffsetPwdCount ((c >>> 8).setWidth 8)).set (pwdOffsetPwdCount + 1) (c.setWidth 8)

/-- `Password::setName`. -/
def setName (p : Password) (name : QString) : Bool × Password :=
  if name.length > pwdSizePwdName ∨ name = [] then (false, p)
  else
    let bytes := (List.range pwdSizePwdName).map fun i =>
      if i < name.length then charToLatin1 (name.getD i 0) else 0
    (true, { p with data := overwrite p.data pwdOffsetPwdName bytes })

/-- `Password::setPassword`, with the initial vector that the generator gives and what the
array `input` of the stack held. -/
def setPassword (p : Password) (cipher : BlockCipher) (pwd : QString) (key iv : Block)
    (input : Vector Byte 32) : Bool × Password :=
  if pwd.length > pwdSizePwdData then (false, p)
  else
    -- the `0` of `pwd.append(0)` is a null pointer to characters: nothing is appended
    let input := overwrite input.toList 0 (toLatin1 pwd)
    let data := overwrite p.data pwdOffsetPwdIv iv.toList
    let out := cbcEncrypt (cipher.encrypt key) 2 input iv
    (true, { p with data := overwrite data pwdOffsetPwdData out })

/-- `Password::setUserName`. -/
def setUserName (p : Password) (cipher : BlockCipher) (usr : QString) (key iv : Block) :
    Bool × Password :=
  if usr.length > pwdSizeUsrName then (false, p)
  else
    let usrData := toLatin1 usr
    let usrData := usrData ++ List.replicate (pwdSizeUsrName - usrData.length) 0
    let data := overwrite p.data pwdOffsetUsrIv iv.toList
    let out := cbcEncrypt (cipher.encrypt key) 4 usrData iv
    (true, { p with data := overwrite data pwdOffsetUsrName out })

end Password

end PasswordWallet.DesktopApp
