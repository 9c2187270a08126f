import PasswordWallet.Security.Encryption

/-!
# The card and the change of the master key

`Authentification.c`.  What the card and the reader answer is not up to the
firmware: a `CardSession` says what each command returns, in terms of what the
card stores.  `CardSession.correct` is the session of a card that answers every
command as it should.

The change of key is one long transaction over three memories: the new key goes
to a block of the card kept for it, the chunks are re-encrypted, the key block
of the card is replaced, and the validation in the EEPROM is renewed.  The
status byte of the backup section tells the phases apart.
-/

namespace PasswordWallet

open PowerLoss

variable (t : Target)

inductive StatusCode
  | ok
  | error
  | collision
  | timeout
  | noRoom
  | internalError
  | invalid
  | crcWrong
  | mifareNack
  deriving DecidableEq

/-- What the reader answers while one card is presented: the identification,
the authentication, and for each block what a read returns (the status, the
size it leaves in its argument, and the data it leaves in the buffer) and what
becomes of a write (the status, and whether the card has stored the block). -/
structure CardSession where
  sak : ℕ
  authenticate : StatusCode
  read : ℕ → Block → StatusCode × ℕ × Block
  write : ℕ → StatusCode × Bool

/-- A MIFARE 1K card with the default key that answers every command. -/
def CardSession.correct : CardSession where
  sak := 0x08
  authenticate := .ok
  read _ stored := (.ok, 18, stored)
  write _ := (.ok, true)

variable (card : CardSession)

/-- `user_authenticate_card`, true for `RETURN_SUCCESS`. -/
def userAuthenticateCard : Bool :=
  if card.sak ≠ 0x08 then false else card.authenticate = .ok

/-- `user_read_key_from_card`, with the key it leaves for `RETURN_SUCCESS`. -/
def userReadKeyFromCard (keyBlock : ℕ) (p : Image) : Option Block :=
  match card.read keyBlock (p.card keyBlock) with
  | (status, size, keyOut) => if status ≠ .ok ∧ size ≠ 16 then none else some keyOut

/-- The block reaches the card, or does not. -/
def rfidMifareWrite (keyBlock : ℕ) (keyIn : Block) : Dev Unit :=
  if (card.write keyBlock).2 then Program.write (.card keyBlock keyIn) else pure ()

/-- `user_write_key_to_card`, true for `RETURN_SUCCESS`. -/
def userWriteKeyToCard (keyIn : Block) (keyBlock : ℕ) : Dev Bool := do
  rfidMifareWrite card keyBlock keyIn
  pure ((card.write keyBlock).1 = .ok)

def userUpdateValidation : Dev Unit := do
  backupSetStatus backupStatusChangeKeyValidation
  encryptionUpdateValidation t

/-- The end of `user_change_key`, behind the test of the key block: a write that
fails crashes the device on purpose. -/
def userChangeKeyValidation (written : Bool) : Dev Unit :=
  if written then do
    userUpdateValidation t
    backupFree
  else Program.hang

/-- `user_change_key` once the new key is on the card. -/
def userChangeKeyUpdate (newKey : Block) : Dev Unit := do
  encryptionUpdateKey t newKey 0
  backupSetStatus backupStatusChangeKeyUpdateCard
  let v ← Program.ram
  let written ← userWriteKeyToCard card v.key mifareBlockKey
  userChangeKeyValidation t written

def userChangeKeyCard (newKey : Block) : Dev Unit :=
  if userAuthenticateCard card then do
    let written ← userWriteKeyToCard card newKey mifareBlockTempKey
    if written then userChangeKeyUpdate t card newKey else pure ()
  else pure ()

/-- The 16 bytes of a key that were drawn. -/
def keyOfBytes (bytes : List Byte) : Block := blockAt bytes

/-- `user_change_key`, once the user has confirmed. -/
def userChangeKey : Dev Unit := do
  let newKey ← randomFill randomRequestByte 16
  userChangeKeyCard t card (keyOfBytes newKey)

/-! ## What the card does -/

variable {card} {p : Image} {v : Ram}

/-- A session in which a read that the firmware accepts returns what the card
stores. -/
def CardSession.Genuine (card : CardSession) : Prop :=
  ∀ block p key, userReadKeyFromCard card block p = some key → key = p.card block

@[simp] theorem userReadKeyFromCard_correct (block : ℕ) :
    userReadKeyFromCard .correct block p = some (p.card block) := rfl

theorem CardSession.genuine_correct : CardSession.correct.Genuine :=
  fun block p key h => by simpa using h.symm

@[simp] theorem userAuthenticateCard_correct : userAuthenticateCard .correct = true := rfl

/-- A session in which, moreover, a write that is reported as done has reached the
card. -/
structure CardSession.Faithful (card : CardSession) : Prop where
  genuine : card.Genuine
  stored : ∀ block, (card.write block).1 = .ok → (card.write block).2 = true

theorem CardSession.faithful_correct : CardSession.correct.Faithful :=
  ⟨genuine_correct, fun _ _ => rfl⟩

theorem wp_userWriteKeyToCard {keyIn : Block} {keyBlock : ℕ} {Q : Bool → Image → Ram → Prop}
    {H : Image → Ram → Prop} {C : Step Write → Image → Prop}
    (hstored : (card.write keyBlock).2 = true →
      C ⟨.card keyBlock keyIn, false⟩ { p with card := Function.update p.card keyBlock keyIn } ∧
      Q ((card.write keyBlock).1 = .ok)
        { p with card := Function.update p.card keyBlock keyIn } v)
    (hlost : (card.write keyBlock).2 = false → Q ((card.write keyBlock).1 = .ok) p v) :
    wp (userWriteKeyToCard card keyIn keyBlock) Q H C p v := by
  rw [userWriteKeyToCard, wp_bind, rfidMifareWrite, wp_ite, wp_write, wp_pure, wp_pure, wp_pure]
  exact ⟨hstored, fun h => hlost (by simpa using h)⟩

end PasswordWallet
