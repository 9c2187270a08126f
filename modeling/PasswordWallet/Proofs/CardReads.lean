import PasswordWallet.Hardware.Rfid
import PasswordWallet.Options.CallbackAdvanced
import PasswordWallet.States.WaitCard

/-!
# Keys from reads that failed

`user_read_key_from_card` refuses a read that failed *and* did not return 16 bytes.
A reply that is verified has 18, with its CRC; so a reply of just 16 bytes that ran
into a collision, or whose CRC is wrong, is taken for a key.

`KeyUse` is a key that a function makes use of, with the read that it comes from.
The `…Uses` follow the control flow up to the keys, and the `…_eq` say that the
functions get at the card's answers through them alone.
-/

namespace PasswordWallet

open PowerLoss

variable (t : Target) (card : CardSession)

/-! ## The keys that are used -/

/-- A key that is copied to `KEY` or that passwords are encrypted with, and the
block that it was read from, if it was read at all. -/
structure KeyUse where
  source : Option ℕ
  key : Block

/-- The key was read, in a reply that was verified. -/
def KeyUse.Verified (reader : ℕ → Conversation) (use : KeyUse) : Prop :=
  ∃ block, use.source = some block ∧ (reader block).Verified

/-- The use of a read that is accepted. -/
def useRead (block : ℕ) (p : Image) : Option KeyUse :=
  (userReadKeyFromCard card block p).map fun key => ⟨some block, key⟩

/-- `state_wait_card_transition`. -/
def waitCardUses (p : Image) (v : Ram) : List KeyUse :=
  if v.keyEntered = false ∧ userAuthenticateCard card then (useRead card mifareBlockKey p).toList
  else []

/-- `opt_callback_force_card`. -/
def forceCardUses (p : Image) : List KeyUse :=
  if userAuthenticateCard card then (useRead card mifareBlockKey p).toList else []

/-- `backup_recover`: the last key first, then the new one if the last one passes
its check.  With a status that it does not know it takes what the stack holds. -/
def recoverUses (p : Image) (v : Ram) : List KeyUse :=
  if p.backupStatus = backupStatusOk ∨ p.backupStatus = backupStatusUpdate then []
  else if ChangeKeyStatus p.backupStatus then
    if userAuthenticateCard card then
      match useRead card mifareBlockTempKey p, useRead card mifareBlockKey p with
      | some newUse, some lastUse =>
          if recoverCheckKey t p.backupStatus lastUse.key p then [lastUse, newUse] else [lastUse]
      | _, _ => []
    else []
  else [⟨none, v.stack⟩]

/-! ## What the functions do with them -/

variable {t card} {p : Image} {v : Ram}

theorem useRead_eq_none_iff {block : ℕ} :
    useRead card block p = none ↔ userReadKeyFromCard card block p = none := by
  rw [useRead, Option.map_eq_none_iff]

theorem useRead_eq_some {block : ℕ} {key : Block}
    (h : userReadKeyFromCard card block p = some key) :
    useRead card block p = some ⟨some block, key⟩ := by
  rw [useRead, h, Option.map_some]

theorem stateWaitCardTransition_eq :
    stateWaitCardTransition t card p v =
      (match waitCardUses card p v with
        | [] => (pure v.keyEntered : Dev Bool)
        | use :: _ => enterKey t use.key) p v := by
  rw [stateWaitCardTransition, bind_silent (show Program.ram p v = ⟨[], v, some v⟩ from rfl),
    waitCardUses]
  cases hentered : v.keyEntered with
  | true => simp
  | false =>
      cases hauth : userAuthenticateCard card with
      | false => simp
      | true =>
          simp only [Bool.false_eq_true, if_false, if_true, and_self, bind_readImage]
          rw [useRead]
          cases userReadKeyFromCard card mifareBlockKey p with
          | none => rfl
          | some key => rfl

theorem optCallbackForceCard_eq :
    optCallbackForceCard t card p v =
      (match forceCardUses card p with
        | [] => (pure () : Dev Unit)
        | use :: _ => forceCardKey t (some use.key)) p v := by
  rw [optCallbackForceCard, forceCardUses]
  cases hauth : userAuthenticateCard card with
  | false => simp
  | true =>
      simp only [if_true, bind_readImage]
      rw [useRead]
      cases userReadKeyFromCard card mifareBlockKey p with
      | none => rfl
      | some key => rfl

/-- Without the statuses of a change of key the card is not read. -/
theorem backupRecover_eq :
    backupRecover t card p v =
      (if p.backupStatus = backupStatusOk then pure ()
      else if p.backupStatus = backupStatusUpdate then backupRestore t
      else
        match recoverUses t card p v with
        | [] => (pure () : Dev Unit)
        | [use] =>
            if ChangeKeyStatus p.backupStatus then modifyRam fun v => { v with key := use.key }
            else recoverUpdate t card use.key p.backupStatus
        | lastUse :: newUse :: _ => do
            modifyRam fun v => { v with key := lastUse.key }
            recoverUpdate t card newUse.key p.backupStatus) p v := by
  rw [backupRecover, framReadByte, bind_readImage,
    show p.byte offsetBackupStatus = p.backupStatus from rfl, recoverUses]
  by_cases hok : p.backupStatus = backupStatusOk
  · rw [if_pos hok, if_pos hok]
  rw [if_neg hok, if_neg hok]
  by_cases hupdate : p.backupStatus = backupStatusUpdate
  · rw [if_pos hupdate, if_pos hupdate]
  rw [if_neg hupdate, if_neg hupdate, if_neg (not_or.mpr ⟨hok, hupdate⟩)]
  by_cases hstatus : ChangeKeyStatus p.backupStatus
  swap
  · rw [if_neg hstatus, if_neg hstatus]
    simp only [if_neg hstatus]
    exact bind_silent rfl
  simp only [if_pos hstatus]
  rw [recoverChangeKey, bind_readImage, recoverReadKeys]
  cases hauth : userAuthenticateCard card with
  | false => simp
  | true =>
      simp only [if_true]
      rw [useRead, useRead]
      cases userReadKeyFromCard card mifareBlockTempKey p with
      | none => rfl
      | some newKey =>
          cases userReadKeyFromCard card mifareBlockKey p with
          | none => rfl
          | some lastKey =>
              simp only [Option.map_some]
              rw [recoverWithKeys, bind_modifyRam, bind_readImage]
              cases recoverCheckKey t p.backupStatus lastKey p with
              | true => simp [bind_modifyRam]
              | false => rfl

/-! ## Reads of the reader -/

/-- A read that succeeds has verified its reply. -/
theorem rfidMifareRead_ok {x : Conversation} (blockAddr : ℕ) (buffer : Vector Byte 18)
    (hok : (rfidMifareRead x blockAddr buffer 18).1 = .ok) : x.Verified := by
  rw [rfidMifareRead, if_neg (Nat.lt_irrefl 18)] at hok
  simp only at hok
  rcases rfidPcdCalculateCrc_cases x.commandDivIrq with hcommand | hcommand
  · rw [hcommand] at hok
    simp only at hok
    rcases communicate_outcome (x := x) hcommand with ⟨-, -, -, hverified⟩ | ⟨-, -, hfails⟩
    · exact (hverified.mp hok).2
    · exact absurd hok hfails
  · rw [hcommand] at hok
    cases hok

section Reader

variable {sak : ℕ} {authenticate : StatusCode} {write : ℕ → StatusCode × Bool}
  {reader : ℕ → Conversation} {stack : ℕ → Vector Byte 18} {block : ℕ}

theorem userReadKeyFromCard_ofReader :
    ∃ status size key,
      (status = (rfidMifareRead (reader block) block (stack block) 18).1 ∧
        size = (rfidMifareRead (reader block) block (stack block) 18).2.1) ∧
      (CardSession.ofReader sak authenticate write reader stack).read block (p.card block) =
        (status, size, key) ∧
      userReadKeyFromCard (.ofReader sak authenticate write reader stack) block p =
        if status ≠ .ok ∧ size ≠ 16 then none else some key :=
  ⟨_, _, _, ⟨rfl, rfl⟩, rfl, rfl⟩

/-- A key that is used is verified unless its read is a short failure. -/
theorem useRead_verified_iff {use : KeyUse}
    (h : useRead (.ofReader sak authenticate write reader stack) block p = some use) :
    use.Verified reader ↔ ¬(reader block).ShortFailure := by
  obtain ⟨status, size, key, ⟨hstatus, hsize⟩, -, haccept⟩ :=
    @userReadKeyFromCard_ofReader p sak authenticate write reader stack block
  rw [useRead, haccept] at h
  split_ifs at h with hrefused
  · cases h
  · obtain rfl := Option.some.inj h
    constructor
    · rintro ⟨_, hsource, hverified⟩ hshort
      obtain rfl := Option.some.inj hsource
      exact hshort.2.2 hverified
    intro hnot
    refine ⟨block, rfl, ?_⟩
    refine rfidMifareRead_ok block (stack block) ?_
    rw [← hstatus]
    by_contra hfails
    refine hnot ((rfidMifareRead_short_iff block (stack block)).mp ⟨?_, ?_⟩)
    · rw [← hstatus]
      exact hfails
    · rw [← hsize]
      by_contra hother
      exact hrefused ⟨hfails, hother⟩

/-- The key of a short failure is used. -/
theorem exists_useRead (hshort : (reader block).ShortFailure) :
    ∃ use, useRead (.ofReader sak authenticate write reader stack) block p = some use := by
  obtain ⟨status, size, key, ⟨-, hsize⟩, -, haccept⟩ :=
    @userReadKeyFromCard_ofReader p sak authenticate write reader stack block
  have hsixteen := (rfidMifareRead_short_iff block (stack block)).mpr hshort
  rw [useRead, haccept, if_neg fun hrefused => hrefused.2 (hsize.trans hsixteen.2)]
  exact ⟨_, rfl⟩

/-- Of the keys of one read. -/
theorem verified_useRead_iff {c : Prop} [Decidable c] :
    (∀ use ∈ if c then (useRead (.ofReader sak authenticate write reader stack) block p).toList
        else [], use.Verified reader) ↔ ¬(c ∧ (reader block).ShortFailure) := by
  split_ifs with hc
  · constructor
    · rintro hall ⟨-, hshort⟩
      obtain ⟨use, huse⟩ :=
        @exists_useRead p sak authenticate write reader stack block hshort
      refine (useRead_verified_iff huse).mp (hall use ?_) hshort
      rw [huse]
      exact List.mem_singleton.mpr rfl
    · intro hnot use hmem
      rw [Option.mem_toList] at hmem
      exact (useRead_verified_iff hmem).mpr fun hshort => hnot ⟨hc, hshort⟩
  · exact ⟨fun _ h => hc h.1, fun _ _ hmem => (List.not_mem_nil hmem).elim⟩

theorem ChangeKeyStatus.unfinished {status : Byte} (h : ChangeKeyStatus status) :
    ¬(status = backupStatusOk ∨ status = backupStatusUpdate) := by
  rcases h with rfl | rfl | rfl | rfl
  all_goals decide

/-- Of the keys of a recovery. -/
theorem recoverUses_verified_iff :
    (∀ use ∈ recoverUses t (.ofReader sak authenticate write reader stack) p v,
        use.Verified reader) ↔
      (p.backupStatus = backupStatusOk ∨ p.backupStatus = backupStatusUpdate ∨
        ChangeKeyStatus p.backupStatus) ∧
      ∀ newKey lastKey, ChangeKeyStatus p.backupStatus →
        recoverReadKeys (.ofReader sak authenticate write reader stack) p =
            some (newKey, lastKey) →
          ¬(reader mifareBlockKey).ShortFailure ∧
            (recoverCheckKey t p.backupStatus lastKey p = true →
              ¬(reader mifareBlockTempKey).ShortFailure) := by
  unfold recoverUses recoverReadKeys
  generalize hcard : CardSession.ofReader sak authenticate write reader stack = card
  by_cases hfinished : p.backupStatus = backupStatusOk ∨ p.backupStatus = backupStatusUpdate
  · rw [if_pos hfinished]
    refine ⟨fun _ => ⟨?_, fun _ _ h => absurd hfinished h.unfinished⟩,
      fun _ _ hmem => (List.not_mem_nil hmem).elim⟩
    exact hfinished.imp_right .inl
  rw [if_neg hfinished]
  by_cases hstatus : ChangeKeyStatus p.backupStatus
  swap
  · rw [if_neg hstatus, List.forall_mem_singleton]
    refine ⟨fun ⟨_, hsource, _⟩ => (Option.some_ne_none _ hsource.symm).elim, fun h => ?_⟩
    rcases h.1 with h | h | h
    · exact absurd (.inl h) hfinished
    · exact absurd (.inr h) hfinished
    · exact absurd h hstatus
  have hnone : (∀ newKey lastKey : Block, ChangeKeyStatus p.backupStatus →
      none = some (newKey, lastKey) → ¬(reader mifareBlockKey).ShortFailure ∧
        (recoverCheckKey t p.backupStatus lastKey p = true →
          ¬(reader mifareBlockTempKey).ShortFailure)) :=
    fun _ _ _ h => (Option.some_ne_none _ h.symm).elim
  have hempty : ∀ use ∈ ([] : List KeyUse), use.Verified reader :=
    fun _ hmem => (List.not_mem_nil hmem).elim
  rw [if_pos hstatus]
  by_cases hauth : userAuthenticateCard card
  swap
  · rw [if_neg hauth, if_neg hauth]
    exact ⟨fun _ => ⟨.inr (.inr hstatus), hnone⟩, fun _ => hempty⟩
  rw [if_pos hauth, if_pos hauth]
  cases hnew : userReadKeyFromCard card mifareBlockTempKey p with
  | none =>
      rw [useRead_eq_none_iff.mpr hnew]
      exact ⟨fun _ => ⟨.inr (.inr hstatus), hnone⟩, fun _ => hempty⟩
  | some newKey =>
      have huseNew := useRead_eq_some hnew
      rw [huseNew]
      cases hlast : userReadKeyFromCard card mifareBlockKey p with
      | none =>
          rw [useRead_eq_none_iff.mpr hlast]
          exact ⟨fun _ => ⟨.inr (.inr hstatus), hnone⟩, fun _ => hempty⟩
      | some lastKey =>
          have huseLast := useRead_eq_some hlast
          rw [huseLast]
          subst hcard
          have hverifiedNew := useRead_verified_iff huseNew
          have hverifiedLast := useRead_verified_iff huseLast
          have hkeys : ∀ newKey' lastKey',
              some (newKey, lastKey) = some (newKey', lastKey') → lastKey' = lastKey :=
            fun _ _ h => (Prod.mk.inj (Option.some.inj h)).2.symm
          simp only
          split_ifs with hcheck
          · rw [List.forall_mem_cons, List.forall_mem_singleton, hverifiedLast, hverifiedNew]
            refine ⟨fun h => ⟨.inr (.inr hstatus), fun _ _ _ _ => ⟨h.1, fun _ => h.2⟩⟩,
              fun h => ?_⟩
            have hboth := h.2 newKey lastKey hstatus rfl
            exact ⟨hboth.1, hboth.2 hcheck⟩
          · rw [List.forall_mem_singleton, hverifiedLast]
            refine ⟨fun h => ⟨.inr (.inr hstatus), fun newKey' lastKey' _ hequal =>
              ⟨h, fun hknown => ?_⟩⟩, fun h => (h.2 newKey lastKey hstatus rfl).1⟩
            rw [hkeys _ _ hequal] at hknown
            exact absurd hknown hcheck

end Reader

/-! ## The theorem -/

/-- Whatever the reader answers: a read is accepted only if its status is
`STATUS_OK`, and only verified bytes become a key, if and only if no reply of just 16
bytes fails to be verified, of those that come to be used. -/
theorem card_keys_verified_iff (t : Target) (sak : ℕ) (authenticate : StatusCode)
    (write : ℕ → StatusCode × Bool) (reader : ℕ → Conversation) (stack : ℕ → Vector Byte 18) :
    let card := CardSession.ofReader sak authenticate write reader stack
    (∀ block p, (∀ key, userReadKeyFromCard card block p = some key →
        (card.read block (p.card block)).1 = .ok) ↔ ¬(reader block).ShortFailure) ∧
      (∀ p v, (∀ use ∈ waitCardUses card p v, use.Verified reader) ↔
        ¬((v.keyEntered = false ∧ userAuthenticateCard card) ∧
          (reader mifareBlockKey).ShortFailure)) ∧
      (∀ p, (∀ use ∈ forceCardUses card p, use.Verified reader) ↔
        ¬(userAuthenticateCard card ∧ (reader mifareBlockKey).ShortFailure)) ∧
      ∀ p v, (∀ use ∈ recoverUses t card p v, use.Verified reader) ↔
        (p.backupStatus = backupStatusOk ∨ p.backupStatus = backupStatusUpdate ∨
          ChangeKeyStatus p.backupStatus) ∧
        ∀ newKey lastKey, ChangeKeyStatus p.backupStatus →
          recoverReadKeys card p = some (newKey, lastKey) →
            ¬(reader mifareBlockKey).ShortFailure ∧
              (recoverCheckKey t p.backupStatus lastKey p = true →
                ¬(reader mifareBlockTempKey).ShortFailure) := by
  intro card
  refine ⟨fun block p => ?_, fun p v => verified_useRead_iff, fun p => verified_useRead_iff,
    fun p => ?_⟩
  · obtain ⟨status, size, key, ⟨hstatus, hsize⟩, hread, haccept⟩ :=
      @userReadKeyFromCard_ofReader p sak authenticate write reader stack block
    rw [haccept, hread, ← rfidMifareRead_short_iff block (stack block), ← hstatus, ← hsize]
    constructor
    · rintro hall ⟨hfails, hsixteen⟩
      refine hfails (hall key ?_)
      rw [if_neg fun hrefused => hrefused.2 hsixteen]
    · intro hnot key' hkey
      split_ifs at hkey with hrefused
      by_contra hfails
      refine hnot ⟨hfails, ?_⟩
      by_contra hother
      exact hrefused ⟨hfails, hother⟩
  · exact fun v => recoverUses_verified_iff

/-! ## A concrete read -/

/-- A reply of 16 bytes with a collision. -/
def collided : Conversation where
  commandDivIrq _ := 0x04
  commandCrc := (0, 0)
  comIrq _ := 0x30
  error := 0x08
  fifoLevel := 16
  fifo i := BitVec.ofNat 8 i
  control := 0
  replyDivIrq _ := 0x04
  replyCrc := (0, 0)

def collidedCard : CardSession :=
  .ofReader 0x08 .ok (fun _ => (.ok, true)) (fun _ => collided) fun _ => Vector.replicate 18 0

/-- The read fails with `STATUS_COLLISION`; its bytes are accepted, and with the card
in front of a locked device they become `KEY`. -/
theorem collided_read_used :
    (collidedCard.read mifareBlockKey (Image.zero.card mifareBlockKey)).1 = .collision ∧
      userReadKeyFromCard collidedCard mifareBlockKey .zero =
        some (Vector.ofFn fun i : Fin 16 => BitVec.ofNat 8 i.val) ∧
      (stateWaitCardTransition ⟨.exact, .xorKey⟩ collidedCard .zero
          (.reset (fun _ => Vector.replicate 4 0) zeroIv)).ram.key =
        Vector.ofFn fun i : Fin 16 => BitVec.ofNat 8 i.val := by
  decide +kernel

end PasswordWallet
