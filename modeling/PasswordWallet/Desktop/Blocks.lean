import PasswordWallet.Desktop.QString

/-!
# The host's images of the blocks of the device

`Password_1_0` and `Option_1_0` of the desktop application, with passwords' addresses of
one byte (`p_addr_sz`).  The conversions between `QByteArray` and `QString` in UTF-8 are
parameters; the conversion of a `QByteArray` into a `QString` reads up to the first zero.

The two calls of `pick` in one expression are made from the left to the right.  `asserts`
says whether `Q_ASSERT_X` is compiled into the application.
-/

namespace PasswordWallet.Desktop

/-- The `char` in front of an array, and the array without it. -/
def pick (array : List Byte) : Byte × List Byte := (array.headD 0, array.drop 1)

/-- `Q_ASSERT_X`. -/
def qAssert (asserts cond : Bool) (what : String) : Except String Unit :=
  if asserts && !cond then .error what else .ok ()

/-- `append` of an `int`. -/
def lowByte (n : BitVec 32) : Byte := (n &&& 0xFF).setWidth 8

/-! ## A password -/

/-- `Password_1_0`.  The four addresses and the counter are `int`s. -/
structure Password where
  prevUse : BitVec 32
  nextUse : BitVec 32
  prevAlpha : BitVec 32
  nextAlpha : BitVec 32
  counter : BitVec 32
  name : QString
  ivPwd : List Byte
  pwd : List Byte
  ivUsrName : List Byte
  userName : QString

def Password.size : ℕ := 4 * 1 + 2 + 32 + 16 + 32 + 16 + 64

/-- `Password_1_0::readFrom`: whether it succeeds, what is left of the bytes, and the
password. -/
def Password.readFrom (fromUtf8 : List Byte → QString) (deviceData : List Byte)
    (old : Password) : Bool × List Byte × Password :=
  if deviceData.length < Password.size then (false, deviceData, old)
  else
    let prevUse := pick deviceData
    let nextUse := pick prevUse.2
    let prevAlpha := pick nextUse.2
    let nextAlpha := pick prevAlpha.2
    let low := pick nextAlpha.2
    let high := pick low.2
    let name := high.2
    let ivPwd := name.drop 32
    let pwd := ivPwd.drop 16
    let ivUsrName := pwd.drop 32
    let userName := ivUsrName.drop 16
    (true, userName.drop 64,
      { prevUse := prevUse.1.signExtend 32
        nextUse := nextUse.1.signExtend 32
        prevAlpha := prevAlpha.1.signExtend 32
        nextAlpha := nextAlpha.1.signExtend 32
        -- both are `char`s, widened with their signs
        counter := low.1.signExtend 32 ||| (high.1.signExtend 32 <<< 8)
        name := fromLatin1 (name.take 32)
        ivPwd := ivPwd.take 16
        pwd := pwd.take 32
        ivUsrName := ivUsrName.take 16
        -- a `QByteArray` is assigned to a `QString`
        userName := fromUtf8 ((userName.take 64).takeWhile (· ≠ 0)) })

/-- `Password_1_0::toByteArray`, or the assertion that fails. -/
def Password.toByteArray (toUtf8 : QString → List Byte) (asserts : Bool) (p : Password) :
    Except String (List Byte) := do
  let pwdChunk := [lowByte p.prevUse, lowByte p.nextUse, lowByte p.prevAlpha,
    lowByte p.nextAlpha, lowByte p.counter, lowByte (p.counter.sshiftRight 8)]
  let pwdChunk := pwdChunk ++ toLatin1 (resize p.name 32 0)
  qAssert asserts (p.ivPwd.length = 16) "Initial vector for password data is not 16 bytes"
  let pwdChunk := pwdChunk ++ p.ivPwd
  qAssert asserts (p.pwd.length = 32) "Password data is not 32 bytes"
  let pwdChunk := pwdChunk ++ p.pwd
  qAssert asserts (p.ivUsrName.length = 16)
    "Initial vector for username data is not 16 bytes"
  let pwdChunk := pwdChunk ++ p.ivUsrName
  qAssert asserts (p.userName.length = 64) "User name data is not 64 bytes"
  let pwdChunk := pwdChunk ++ toUtf8 p.userName
  qAssert asserts (pwdChunk.length = Password.size) "pwdChunk size and expected size mismatch"
  return pwdChunk

/-! ## The options -/

/-- `Option_1_0`. -/
structure Options where
  valid : Bool
  optFlags : Byte
  firstPwdUse : Byte
  firstPwdAlpha : Byte
  numPwd : Byte
  entropyPool : List Byte
  memoryMap : List Byte
  backupSection : List Byte

def Options.size : ℕ := 1 + 3 * 1 + 256 + 25 + 2 + Password.size

/-- `Option_1_0::readFrom`. -/
def Options.readFrom (deviceData : List Byte) (old : Options) : Bool × List Byte × Options :=
  if deviceData.length ≠ Options.size then (false, deviceData, old)
  else
    let optFlags := pick deviceData
    let firstPwdUse := pick optFlags.2
    let firstPwdAlpha := pick firstPwdUse.2
    let numPwd := pick firstPwdAlpha.2
    -- `left` takes nothing away
    (true, numPwd.2,
      { valid := true
        optFlags := optFlags.1
        firstPwdUse := firstPwdUse.1
        firstPwdAlpha := firstPwdAlpha.1
        numPwd := numPwd.1
        entropyPool := numPwd.2.take 256
        memoryMap := numPwd.2.take 25
        backupSection := numPwd.2.take (2 + Password.size) })

/-- `Option_1_0::toByteArray`. -/
def Options.toByteArray (o : Options) : List Byte :=
  [o.optFlags, o.firstPwdUse, o.firstPwdAlpha, o.numPwd] ++ o.entropyPool ++ o.memoryMap ++
    o.backupSection

end PasswordWallet.Desktop
