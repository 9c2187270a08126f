import PasswordWallet.Security.Authentification

/-!
# The reader

`rfid_MIFARE_read` of `Rfid.c`, with `rfid_pcd_communicate_with_PICC` and
`rfid_pcd_calculate_crc` as it calls them.  What the MFRC522 answers is a parameter:
a `Conversation` holds what its registers read as, one after another where a loop
polls them.
-/

namespace PasswordWallet

open PowerLoss

/-- What the registers of the reader read as during one `rfid_MIFARE_read`: first
for the CRC of the command, then for the reply, and last for the CRC of the reply. -/
structure Conversation where
  commandDivIrq : ℕ → Byte
  commandCrc : Byte × Byte
  comIrq : ℕ → Byte
  error : Byte
  fifoLevel : Byte
  fifo : ℕ → Byte
  control : Byte
  replyDivIrq : ℕ → Byte
  replyCrc : Byte × Byte

/-- The loop of `rfid_pcd_calculate_crc`, with `i` turns left; `k` reads were made. -/
def calculateCrcLoop (divIrq : ℕ → Byte) : ℕ → ℕ → StatusCode
  | 0, _ => .timeout
  | i + 1, k => if divIrq k &&& 0x04 ≠ 0 then .ok else calculateCrcLoop divIrq i (k + 1)

/-- `rfid_pcd_calculate_crc`, but for its result. -/
def rfidPcdCalculateCrc (divIrq : ℕ → Byte) : StatusCode := calculateCrcLoop divIrq 5000 0

/-- `RxIRq` and `IdleIRq`. -/
def waitIrq : Byte := 0x30

/-- The loop of `rfid_pcd_communicate_with_PICC`. -/
def communicateLoop (comIrq : ℕ → Byte) : ℕ → ℕ → StatusCode
  | 0, _ => .timeout
  | i + 1, k =>
      if comIrq k &&& waitIrq ≠ 0 then .ok
      else if comIrq k &&& 0x01 ≠ 0 then .timeout
      else communicateLoop comIrq i (k + 1)

/-- `rfid_pcd_read_register_multiple` on the FIFO, without an alignment. -/
def readFifo (fifo : ℕ → Byte) (n : ℕ) (values : Vector Byte 18) : Vector Byte 18 :=
  Vector.ofFn fun i : Fin 18 => if i.val < n then fifo i.val else values[i]

/-- The validation of the CRC, on a reply of `n` bytes in the buffer. -/
def checkCrc (x : Conversation) (n : ℕ) (backData : Vector Byte 18) : StatusCode :=
  let validBits := x.control &&& 0x07
  if n = 1 ∧ validBits = 4 then .mifareNack
  else if n < 2 ∨ validBits ≠ 0 then .crcWrong
  else
    match rfidPcdCalculateCrc x.replyDivIrq with
    | .ok =>
        if backData.toList.getD (n - 2) 0 ≠ x.replyCrc.1 ∨
            backData.toList.getD (n - 1) 0 ≠ x.replyCrc.2 then .crcWrong
        else .ok
    | status => status

/-- `rfid_pcd_communicate_with_PICC` for `PCD_Transceive`, with a buffer, without
valid bits and with a check of the CRC. -/
def rfidPcdCommunicateWithPicc (x : Conversation) (backData : Vector Byte 18) (backLen : ℕ) :
    StatusCode × ℕ × Vector Byte 18 :=
  match communicateLoop x.comIrq 4000 0 with
  | .ok =>
      if x.error &&& 0x13 ≠ 0 then (.error, backLen, backData)
      else if x.fifoLevel.toNat > backLen then (.noRoom, backLen, backData)
      else
        let n := x.fifoLevel.toNat
        let backData := readFifo x.fifo n backData
        if x.error &&& 0x08 ≠ 0 then (.collision, n, backData)
        else (checkCrc x n backData, n, backData)
  | status => (status, backLen, backData)

def piccCmdMfRead : Byte := 0x30

/-- `rfid_MIFARE_read`, with what it leaves in the buffer and in its size. -/
def rfidMifareRead (x : Conversation) (blockAddr : ℕ) (buffer : Vector Byte 18)
    (bufferSize : ℕ) : StatusCode × ℕ × Vector Byte 18 :=
  if bufferSize < 18 then (.noRoom, bufferSize, buffer)
  else
    let buffer := (buffer.set 0 piccCmdMfRead).set 1 (BitVec.ofNat 8 blockAddr)
    match rfidPcdCalculateCrc x.commandDivIrq with
    | .ok =>
        let buffer := (buffer.set 2 x.commandCrc.1).set 3 x.commandCrc.2
        rfidPcdCommunicateWithPicc x buffer bufferSize
    | status => (status, bufferSize, buffer)

/-- The session of a card with such a reader.  A read starts on what the stack
holds, and a key is the first 16 bytes of the buffer. -/
def CardSession.ofReader (sak : ℕ) (authenticate : StatusCode) (write : ℕ → StatusCode × Bool)
    (reader : ℕ → Conversation) (stack : ℕ → Vector Byte 18) : CardSession where
  sak := sak
  authenticate := authenticate
  read keyBlock _ :=
    match rfidMifareRead (reader keyBlock) keyBlock (stack keyBlock) 18 with
    | (status, size, buffer) =>
        (status, size, Vector.ofFn fun i : Fin 16 => buffer[i.val])
  write := write

/-! ## How a read ends -/

section Exits

variable {x : Conversation}

/-- A reply has come, within the time and without an error other than a collision. -/
structure Conversation.Replies (x : Conversation) : Prop where
  command : rfidPcdCalculateCrc x.commandDivIrq = .ok
  reply : communicateLoop x.comIrq 4000 0 = .ok
  error : x.error &&& 0x13 = 0

/-- The reply is free of a collision, whole bytes, and ends with its CRC. -/
structure Conversation.Verified (x : Conversation) : Prop where
  collision : x.error &&& 0x08 = 0
  whole : x.control &&& 0x07 = 0
  done : rfidPcdCalculateCrc x.replyDivIrq = .ok
  low : x.fifo (x.fifoLevel.toNat - 2) = x.replyCrc.1
  high : x.fifo (x.fifoLevel.toNat - 1) = x.replyCrc.2

/-- A reply of just 16 bytes that is not verified: the read fails, and leaves this
size. -/
def Conversation.ShortFailure (x : Conversation) : Prop :=
  x.Replies ∧ x.fifoLevel.toNat = 16 ∧ ¬x.Verified

theorem calculateCrcLoop_cases (divIrq : ℕ → Byte) (i k : ℕ) :
    calculateCrcLoop divIrq i k = .ok ∨ calculateCrcLoop divIrq i k = .timeout := by
  induction i generalizing k with
  | zero => exact .inr rfl
  | succ i ih =>
      rw [calculateCrcLoop]
      split_ifs
      · exact .inl rfl
      · exact ih (k + 1)

theorem rfidPcdCalculateCrc_cases (divIrq : ℕ → Byte) :
    rfidPcdCalculateCrc divIrq = .ok ∨ rfidPcdCalculateCrc divIrq = .timeout :=
  calculateCrcLoop_cases divIrq 5000 0

theorem communicateLoop_cases (comIrq : ℕ → Byte) (i k : ℕ) :
    communicateLoop comIrq i k = .ok ∨ communicateLoop comIrq i k = .timeout := by
  induction i generalizing k with
  | zero => exact .inr rfl
  | succ i ih =>
      rw [communicateLoop]
      split_ifs
      · exact .inl rfl
      · exact .inr rfl
      · exact ih (k + 1)

theorem readFifo_getD {fifo : ℕ → Byte} {n i : ℕ} {values : Vector Byte 18} (hi : i < n)
    (hn : n ≤ 18) : (readFifo fifo n values).toList.getD i 0 = fifo i := by
  have hlength : i < (readFifo fifo n values).toList.length := by
    rw [Vector.length_toList]
    omega
  rw [List.getD_eq_getElem?_getD, List.getElem?_eq_getElem hlength, Option.getD_some,
    Vector.getElem_toList]
  simp [readFifo, hi]

theorem checkCrc_ok_iff {n : ℕ} {values : Vector Byte 18} (hn : n = x.fifoLevel.toNat)
    (hle : n ≤ 18) (hcollision : x.error &&& 0x08 = 0) :
    checkCrc x n (readFifo x.fifo n values) = .ok ↔ 2 ≤ n ∧ x.Verified := by
  unfold checkCrc
  simp only
  by_cases hnack : n = 1 ∧ x.control &&& 0x07 = 4
  · rw [if_pos hnack]
    exact ⟨nofun, fun h => by omega⟩
  rw [if_neg hnack]
  by_cases hbad : n < 2 ∨ x.control &&& 0x07 ≠ 0
  · rw [if_pos hbad]
    refine ⟨nofun, fun h => ?_⟩
    rcases hbad with hfew | hpart
    · omega
    · exact absurd h.2.whole hpart
  rw [if_neg hbad]
  rw [not_or, not_not, Nat.not_lt] at hbad
  rcases rfidPcdCalculateCrc_cases x.replyDivIrq with hdone | hdone
  · rw [hdone, readFifo_getD (by omega) hle, readFifo_getD (by omega) hle]
    simp only
    split_ifs with hcrc
    · refine ⟨nofun, fun h => ?_⟩
      have hlow := h.2.low
      have hhigh := h.2.high
      rw [← hn] at hlow hhigh
      exact absurd hcrc (not_or.mpr ⟨not_not.mpr hlow, not_not.mpr hhigh⟩)
    · rw [not_or, not_not, not_not, hn] at hcrc
      exact ⟨fun _ => ⟨hbad.1, hcollision, hbad.2, hdone, hcrc.1, hcrc.2⟩, fun _ => rfl⟩
  · rw [hdone]
    refine ⟨nofun, fun h => ?_⟩
    have hok := h.2.done
    rw [hdone] at hok
    cases hok

/-- What a read returns, and the size it leaves. -/
theorem communicate_outcome {backData : Vector Byte 18}
    (hcommand : rfidPcdCalculateCrc x.commandDivIrq = .ok) :
    let outcome := rfidPcdCommunicateWithPicc x backData 18
    (x.Replies ∧ x.fifoLevel.toNat ≤ 18 ∧ outcome.2.1 = x.fifoLevel.toNat ∧
        (outcome.1 = .ok ↔ 2 ≤ x.fifoLevel.toNat ∧ x.Verified)) ∨
      ((¬x.Replies ∨ 18 < x.fifoLevel.toNat) ∧ outcome.2.1 = 18 ∧ outcome.1 ≠ .ok) := by
  unfold rfidPcdCommunicateWithPicc
  rcases communicateLoop_cases x.comIrq 4000 0 with hreply | hreply
  swap
  · rw [hreply]
    refine .inr ⟨.inl fun h => ?_, rfl, nofun⟩
    have hok := h.reply
    rw [hreply] at hok
    cases hok
  rw [hreply]
  simp only
  by_cases herror : x.error &&& 0x13 = 0
  swap
  · rw [if_pos herror]
    exact .inr ⟨.inl fun h => herror h.error, rfl, nofun⟩
  rw [if_neg (not_not.mpr herror)]
  by_cases hroom : x.fifoLevel.toNat > 18
  · rw [if_pos hroom]
    exact .inr ⟨.inr hroom, rfl, nofun⟩
  rw [if_neg hroom]
  have hle := Nat.not_lt.mp hroom
  refine .inl ⟨⟨hcommand, hreply, herror⟩, hle, ?_⟩
  by_cases hcollision : x.error &&& 0x08 = 0
  · rw [if_neg (not_not.mpr hcollision)]
    exact ⟨rfl, checkCrc_ok_iff rfl hle hcollision⟩
  · rw [if_pos hcollision]
    exact ⟨rfl, nofun, fun h => absurd h.2.collision hcollision⟩

/-- A read fails and leaves the size 16 if and only if the reply is short and not
verified. -/
theorem rfidMifareRead_short_iff (blockAddr : ℕ) (buffer : Vector Byte 18) :
    ((rfidMifareRead x blockAddr buffer 18).1 ≠ .ok ∧
      (rfidMifareRead x blockAddr buffer 18).2.1 = 16) ↔ x.ShortFailure := by
  rw [rfidMifareRead, if_neg (Nat.lt_irrefl 18)]
  simp only
  rcases rfidPcdCalculateCrc_cases x.commandDivIrq with hcommand | hcommand
  · rw [hcommand]
    simp only
    rcases communicate_outcome (x := x) hcommand with ⟨hreplies, -, hsize, hok⟩ |
      ⟨hnone, hsize, -⟩
    · rw [hsize, Ne, hok]
      constructor
      · rintro ⟨hbad, hsixteen⟩
        exact ⟨hreplies, hsixteen, fun h => hbad ⟨by omega, h⟩⟩
      · rintro ⟨-, hsixteen, hbad⟩
        exact ⟨fun h => hbad h.2, hsixteen⟩
    · rw [hsize]
      refine ⟨fun h => absurd h.2 (by decide), fun h => ?_⟩
      rcases hnone with hnone | hroom
      · exact absurd h.1 hnone
      · have hsixteen := h.2.1
        omega
  · rw [hcommand]
    refine ⟨fun h => absurd h.2 (show ¬18 = 16 by decide), fun h => ?_⟩
    have hok := h.1.command
    rw [hcommand] at hok
    cases hok

end Exits

end PasswordWallet
