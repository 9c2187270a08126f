import PasswordWallet.Security.PasswordList

/-!
# Browsing by letter

`State_Browse.c`, `select_pwd_from_letter`: along the list by name the password is
looked for whose name begins with the letter of the dock, or with the next one that is
taken.  Names that begin with no letter are under `'@'`.
-/

namespace PasswordWallet

open PowerLoss

variable (t : Target)

/-- The first character of a name, in upper case, or `'@'` in the place of a symbol. -/
def letterOf (name : List Byte) : Byte :=
  let c := name.headD 0
  let c := if 0x61 ≤ c.toNat ∧ c.toNat ≤ 0x7A then c - (0x61 - 0x41) else c
  if c.toNat < 0x41 ∨ 0x5A < c.toNat then 0x40 else c

/-- What is kept of the difference to the letter when the password may be a better
one; it then becomes the current one. -/
def selectBetter (letter c : Byte) (pwdId minDif : ℕ) : Dev ℕ :=
  if letter.toNat < c.toNat ∧ c.toNat - letter.toNat < minDif then do
    modifyRam fun v => { v with currentPasswordId := pwdId }
    pure (c.toNat - letter.toNat)
  else pure minDif

/-- The loop, from a password on. -/
def selectFrom (letter : Byte) (firstId : ℕ) : ℕ → ℕ → ℕ → Dev Unit
  | 0, _, _ => Program.hang
  | fuel + 1, pwdId, minDif => do
      let name ← readImage (passwordReadName t pwdId)
      if letterOf name = letter then modifyRam fun v => { v with currentPasswordId := pwdId }
      else do
        -- a better password becomes the current one on the way
        let minDif ← selectBetter letter (letterOf name) pwdId minDif
        let pwdId ← readImage (getNextPwdIdSorted (orderAlpha t) pwdId)
        if pwdId ≠ firstId then selectFrom letter firstId fuel pwdId minDif else pure ()

/-- `select_pwd_from_letter`. -/
def selectPwdFromLetter (fuel : ℕ) (letter : Byte) : Dev Unit := do
  let firstId ← readImage (getFirstPwdIdSorted (orderAlpha t))
  selectFrom t letter firstId fuel firstId 255

end PasswordWallet
