import Mathlib.Data.Nat.Notation

/-!
# The layout of the FRAM

The constants of `MemoryLayout.h`, for `FRAM_BYTE_SIZE` 131072 and two-byte
password ids.  They are tagged for `simp`, which evaluates them.

`PWD_ADDR` is the one macro whose value depends on the target.  Read as integer
arithmetic it is `OFFSET_FIRST_PWD + SIZE_OF_PWD_BLOCK * id + field`; on the
AVR, where `int` and `uint16_t` have 16 bits, the same expression wraps modulo
`2 ^ 16` before it is widened to an address.  `Addressing` says which reading is
meant, and everything that uses a password chunk takes it as a parameter.
-/

namespace PasswordWallet

@[simp] def framByteSize : ℕ := 131072
@[simp] def framSizeDivider : ℕ := 1024

/-- `p_addr_sz`: a password id takes two bytes. -/
@[simp] def pAddrSz : ℕ := 2

/-! ## The FRAM section -/

@[simp] def offsetOptionsFlag : ℕ := 0
@[simp] def sizeOptionFlag : ℕ := 1
@[simp] def optionsFlagOffsetOrientation : ℕ := 2
@[simp] def optionsFlagOffsetInitialized : ℕ := 3
@[simp] def optionsFlagOffsetQwerty : ℕ := 4

@[simp] def offsetFirstPwdUse : ℕ := offsetOptionsFlag + sizeOptionFlag
@[simp] def offsetFirstPwdAlpha : ℕ := offsetFirstPwdUse + pAddrSz
@[simp] def offsetNumPwd : ℕ := offsetFirstPwdAlpha + pAddrSz

@[simp] def offsetEntropyPool : ℕ := offsetNumPwd + pAddrSz
@[simp] def sizeEntropyPool : ℕ := 256

@[simp] def offsetMemoryMap : ℕ := offsetEntropyPool + sizeEntropyPool
@[simp] def sizeMemoryMap : ℕ := 99

/-! ## The password section -/

@[simp] def pwdOffsetPrevPwdUse : ℕ := 0
@[simp] def pwdOffsetNextPwdUse : ℕ := pwdOffsetPrevPwdUse + pAddrSz
@[simp] def pwdOffsetPrevPwdAlpha : ℕ := pwdOffsetNextPwdUse + pAddrSz
@[simp] def pwdOffsetNextPwdAlpha : ℕ := pwdOffsetPrevPwdAlpha + pAddrSz
@[simp] def pwdOffsetPwdCount : ℕ := pwdOffsetNextPwdAlpha + pAddrSz
@[simp] def pwdOffsetPwdName : ℕ := pwdOffsetPwdCount + 2
@[simp] def pwdSizePwdName : ℕ := 32
@[simp] def pwdOffsetPwdIv : ℕ := pwdOffsetPwdName + pwdSizePwdName
@[simp] def pwdSizePwdIv : ℕ := 16
@[simp] def pwdOffsetPwdData : ℕ := pwdOffsetPwdIv + pwdSizePwdIv
@[simp] def pwdSizePwdData : ℕ := 32
@[simp] def pwdOffsetUsrIv : ℕ := pwdOffsetPwdData + pwdSizePwdData
@[simp] def pwdSizeUsrIv : ℕ := 16
@[simp] def pwdOffsetUsrName : ℕ := pwdOffsetUsrIv + pwdSizeUsrIv
@[simp] def pwdSizeUsrName : ℕ := 64
@[simp] def sizeOfPwdBlock : ℕ := pwdOffsetUsrName + pwdSizeUsrName

/-! ## The backup section -/

@[simp] def offsetBackupStatus : ℕ := offsetMemoryMap + sizeMemoryMap
@[simp] def offsetBackupId : ℕ := offsetBackupStatus + 1
@[simp] def offsetBackupData : ℕ := offsetBackupId + pAddrSz
@[simp] def offsetFirstPwd : ℕ := offsetBackupData + sizeOfPwdBlock

/-- The number of chunk ids, which is also the id that ends a list. -/
@[simp] def maximumNumberOfPwd : ℕ := (framByteSize - offsetFirstPwd) / sizeOfPwdBlock + 1

/-! ## The card -/

@[simp] def mifareBlockKey : ℕ := 4
@[simp] def mifareBlockTempKey : ℕ := 5

/-! ## Addresses of password chunks -/

/-- How `PWD_ADDR` is evaluated: as integer arithmetic, or in the 16 bits of
the AVR. -/
inductive Addressing
  | exact
  | avr
  deriving DecidableEq

def pwdAddr : Addressing → ℕ → ℕ → ℕ
  | .exact, pwdId, pwdField => offsetFirstPwd + sizeOfPwdBlock * pwdId + pwdField
  | .avr, pwdId, pwdField => (offsetFirstPwd + sizeOfPwdBlock * pwdId + pwdField) % 65536

/-- The chunk ids below `capacity` lie inside the FRAM at the address their
number says. -/
def Addressing.capacity : Addressing → ℕ
  | .exact => 767
  | .avr => 382

theorem Addressing.capacity_le (a : Addressing) : a.capacity ≤ 767 := by
  cases a <;> decide

/-- Below the capacity both readings of `PWD_ADDR` agree. -/
theorem pwdAddr_eq {a : Addressing} {pwdId pwdField : ℕ} (hid : pwdId < a.capacity)
    (hfield : pwdField < 170) : pwdAddr a pwdId pwdField = 535 + 170 * pwdId + pwdField := by
  cases a with
  | exact => simp [pwdAddr]
  | avr =>
      simp only [Addressing.capacity] at hid
      simp [pwdAddr]
      omega

end PasswordWallet
