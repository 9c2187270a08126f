import PasswordWallet.Communication.KeyCommands
import PasswordWallet.PowerLoss.Sequence
import PasswordWallet.Proofs.AesBuffers
import PasswordWallet.States.Recovery

/-!
# An unlocked device holds the right key

Between two operations of the device, if `EVENT_KEY_ENTERED` is set then `KEY` passes
`encryption_check_key`.  Two operations may break this, because they write `KEY` before
they check it and do not clear the event if the check fails: `COM_SET_KEY`, and a key
that is typed in the recovery menu.  Both only do so on a device that is unlocked.
-/

namespace PasswordWallet

open PowerLoss Framing

/-- A command of the host, in the packets that it comes in. -/
structure SerialCommand where
  frame : Frame
  packets : List (List Byte)
  sent : Sent (frame, packets)

/-- What the device does at a time: a reset, what happens in the states, a command of
the host, and the actions of the menus, with what the user and the card do. -/
inductive Operation
  | powerOn (ram : Ram) (confirmed changeConfirmed : Bool) (firstCard card : CardSession)
  | presentCard (card : CardSession)
  | recovery (choice : RecoveryChoice)
  | waitCardEnd (fuel : ℕ)
  | command (answer : Image → Session → Bool) (c : SerialCommand)
  | timeout
  | button (i : Fin 4)
  | buttonsTaken
  | saveEntropy
  | select (pwdId : ℕ)
  | menu (fuel : ℕ) (action : MenuAction)
  | changeKey (confirmed : Bool) (card : CardSession)
  | forceCard (card : CardSession)
  | forceEnter (usrKey : Vector Byte 20)
  | inverseScreen
  | changeKeyboard
  | fullReset (confirmed changeConfirmed : Bool) (card : CardSession)

variable (t : Target) (framId : Vector Byte 4)

def Operation.run : Operation → Com Unit
  | .powerOn ram confirmed changeConfirmed firstCard card =>
      PasswordWallet.powerOn t ram confirmed changeConfirmed firstCard card
  | .presentCard card => liftDev do
      let _ ← stateWaitCardTransition t card
      pure ()
  | .recovery choice => recoveryTurn t choice
  | .waitCardEnd fuel => liftDev (stateWaitCardEnd t fuel)
  | .command answer c =>
      receive (comExec t (.quiet answer framId)) (comAbort (.quiet answer framId)) c.packets
  | .timeout => modifySession fun s => { s with timedOut := true }
  | .button i => pressButton i
  | .buttonsTaken => eventsGet
  | .saveEntropy => liftDev randomSaveEntropy
  | .select pwdId => liftDev (modifyRam fun v => { v with currentPasswordId := pwdId })
  | .menu fuel action => liftDev (action.run t fuel)
  | .changeKey confirmed card => liftDev (optCallbackChangeKey t confirmed card)
  | .forceCard card => liftDev (optCallbackForceCard t card)
  | .forceEnter usrKey => liftDev (optCallbackForceEnter t usrKey)
  | .inverseScreen => liftDev optCallbackInverseScreen
  | .changeKeyboard => liftDev optCallbackChangeKeyboard
  | .fullReset confirmed changeConfirmed card =>
      optCallbackFullReset t confirmed changeConfirmed card

/-- An unlocked device holds a key that passes the check. -/
def RightKey (p : Image) (v : Ram) : Prop :=
  v.keyEntered = true → encryptionCheckKey t v.key p = true

/-- What an operation must not do: put a key that fails the check into a device that is
unlocked. -/
def Operation.KeepsKey (p : Image) (s : Session) : Operation → Prop
  | .command _ c => s.ram.keyEntered = true → s.enabled = true → c.frame.id = comSetKey →
      c.frame.size ≤ 16 → encryptionCheckKey t (overKey s.ram.key c.frame.data) p = true
  | .recovery (.enterKey usrKey) => s.ram.keyEntered = true →
      encryptionCheckKey t (decode16B usrKey) p = true
  | _ => True

/-- No command is under way. -/
structure AtRest (s : Session) : Prop where
  comState : s.parser.comState = .id
  comPos : s.comPos = 0
  comParameter : s.comParameter = 0

variable {t framId} {p p' : Image} {v v' : Ram} {s : Session}

theorem RightKey.congr (h : RightKey t p v) (hp : p'.eeprom = p.eeprom) (hv : SameKey v v') :
    RightKey t p' v' := by
  intro hentered
  rw [encryptionCheckKey_congr hp, hv.1]
  exact h (hv.2.symm.trans hentered)

theorem rightKey_of_locked (h : v.keyEntered = false) : RightKey t p v := fun hentered =>
  absurd (h.symm.trans hentered) Bool.false_ne_true

/-! ## Operations on the memories -/

section Memories

theorem wp_rightKey_leavesKey {α : Type} (m : Dev α) [LeavesKey m] (h : RightKey t p v) :
    wp m (fun _ p' v' => RightKey t p' v') (fun _ _ => True) (fun _ _ => True) p v :=
  wp_mono (wp_eeprom m) (fun _ _ _ hpost => h.congr hpost.1 hpost.2) (fun _ _ _ => trivial)
    fun _ _ => id

/-- Once the validation is renewed the key passes the check, whatever it was. -/
theorem wp_userUpdateValidation_rightKey :
    wp (userUpdateValidation t) (fun _ p' v' => RightKey t p' v') (fun _ _ => True)
      (fun _ _ => True) p v := by
  rw [userUpdateValidation, wp_bind]
  -- whatever has come before, the validation is that of the key in memory
  refine wp_always _ (fun _ p₁ v₁ => ?_) fun _ _ => trivial
  refine wp_mono wp_encryptionUpdateValidation (fun _ p₂ v₂ hpost _ => ?_) (fun _ _ => False.elim)
    fun _ _ _ => trivial
  rw [hpost.2.1.key]
  exact hpost.2.2

theorem wp_forceKey_rightKey :
    wp (forceKey t) (fun _ p' v' => RightKey t p' v') (fun _ _ => True) (fun _ _ => True) p v := by
  rw [forceKey, wp_bind]
  exact wp_imp wp_userUpdateValidation_rightKey fun _ _ _ h => wp_rightKey_leavesKey backupFree h

theorem wp_optCallbackForceEnter_rightKey (usrKey : Vector Byte 20) :
    wp (optCallbackForceEnter t usrKey) (fun _ p' v' => RightKey t p' v') (fun _ _ => True)
      (fun _ _ => True) p v := by
  rw [optCallbackForceEnter, wp_bind]
  exact wp_always _ (fun _ _ _ => wp_forceKey_rightKey) fun _ _ => trivial

theorem wp_optCallbackForceCard_rightKey (card : CardSession) (h : RightKey t p v) :
    wp (optCallbackForceCard t card) (fun _ p' v' => RightKey t p' v') (fun _ _ => True)
      (fun _ _ => True) p v := by
  rw [optCallbackForceCard, wp_ite, wp_pure, wp_bind, wp_readImage]
  refine ⟨fun _ => ?_, fun _ => h⟩
  cases userReadKeyFromCard card mifareBlockKey p with
  | none => exact (wp_pure _).mpr h
  | some key =>
      rw [forceCardKey, wp_bind, wp_modifyRam]
      exact wp_forceKey_rightKey

/-- The change of the key comes to its end with the validation renewed, or before it
has touched the key. -/
theorem wp_userChangeKey_rightKey (card : CardSession) (h : RightKey t p v) :
    wp (userChangeKey t card) (fun _ p' v' => RightKey t p' v') (fun _ _ => True)
      (fun _ _ => True) p v := by
  rw [userChangeKey, wp_bind]
  refine wp_imp (wp_rightKey_leavesKey _ h) fun newKey p₁ v₁ h₁ => ?_
  rw [userChangeKeyCard, wp_ite, wp_pure, wp_bind]
  refine ⟨fun _ => wp_userWriteKeyToCard (fun _ => ⟨trivial, ?_⟩) fun _ => ?_, fun _ => h₁⟩
  -- the card has been written or not; only a card that was reaches the update
  all_goals rw [wp_ite, wp_pure]
  all_goals refine ⟨fun _ => ?_, fun _ => h₁⟩
  all_goals
    rw [userChangeKeyUpdate, wp_bind]
    refine wp_always _ (fun _ p₂ v₂ => ?_) fun _ _ => trivial
    rw [wp_bind]
    refine wp_always _ (fun _ p₃ v₃ => ?_) fun _ _ => trivial
    rw [wp_bind, wp_ram, wp_bind]
    refine wp_always _ (fun written p₄ v₄ => ?_) fun _ _ => trivial
    rw [userChangeKeyValidation, wp_ite, wp_hang]
    exact ⟨fun _ => wp_forceKey_rightKey, fun _ => trivial⟩

theorem wp_optCallbackChangeKey_rightKey (confirmed : Bool) (card : CardSession)
    (h : RightKey t p v) :
    wp (optCallbackChangeKey t confirmed card) (fun _ p' v' => RightKey t p' v') (fun _ _ => True)
      (fun _ _ => True) p v := by
  rw [optCallbackChangeKey, wp_ite, wp_pure]
  exact ⟨fun _ => wp_userChangeKey_rightKey card h, fun _ => h⟩

/-- A card that is read unlocks the device if its key passes the check; a key that does
not goes to a device that is locked. -/
theorem wp_stateWaitCardTransition_rightKey (card : CardSession) (h : RightKey t p v) :
    wp (stateWaitCardTransition t card) (fun _ p' v' => RightKey t p' v') (fun _ _ => True)
      (fun _ _ => True) p v := by
  rw [stateWaitCardTransition, wp_bind, wp_ram, wp_ite, wp_pure, wp_ite, wp_pure, wp_bind,
    wp_readImage]
  refine ⟨fun _ => h, fun hlocked => ⟨fun _ => ?_, fun _ => h⟩⟩
  cases userReadKeyFromCard card mifareBlockKey p with
  | none => exact (wp_pure _).mpr h
  | some key =>
      -- the key of the card is entered only if it passes the check
      simp only [enterKey, wp_bind, wp_modifyRam, wp_readImage, wp_ite, wp_pure]
      exact ⟨fun hknown _ => hknown, fun _ hentered => absurd hentered hlocked⟩

end Memories

/-! ## Operations on a session -/

section Session

/-- What is asked of the state between two operations. -/
def KeySafe (t : Target) (p : Image) (s : Session) : Prop := AtRest s ∧ RightKey t p s.ram

theorem AtRest.ram (h : AtRest s) (ram : Ram) : AtRest { s with ram := ram } :=
  ⟨h.comState, h.comPos, h.comParameter⟩

theorem wp_liftDev_keySafe {α : Type} {m : Dev α} (hrest : AtRest s)
    (h : wp m (fun _ p' v' => RightKey t p' v') (fun _ _ => True) (fun _ _ => True) p s.ram) :
    wp (liftDev m) (fun _ p' s' => KeySafe t p' s') (fun _ _ => True) (fun _ _ => True) p s := by
  rw [wp_liftDev]
  exact wp_imp h fun _ _ v' hright => ⟨hrest.ram v', hright⟩

theorem wp_liftDev_lock {α : Type} {m : Dev α} [h : LeavesLock m] (hrest : AtRest s) :
    wp (liftDev m) (fun _ _ s' => AtRest s' ∧ s'.ram.keyEntered = s.ram.keyEntered)
      (fun _ _ => True) (fun _ _ => True) p s := by
  rw [wp_liftDev]
  exact wp_mono (h.wp_frame p s.ram) (fun _ _ v' hlock => ⟨hrest.ram v', hlock⟩)
    (fun _ _ _ => trivial) fun _ _ _ => trivial

/-- The full reset locks the device, or does nothing. -/
theorem wp_optCallbackFullReset (confirmed changeConfirmed : Bool) (card : CardSession)
    (hrest : AtRest s) :
    wp (optCallbackFullReset t confirmed changeConfirmed card)
      (fun _ p' s' => AtRest s' ∧ (s'.ram.keyEntered = false ∨ p' = p ∧ s' = s)) (fun _ _ => True)
      (fun _ _ => True) p s := by
  rw [optCallbackFullReset, wp_ite, wp_pure, wp_bind]
  refine ⟨fun _ => ?_, fun _ => ⟨hrest, .inr ⟨rfl, rfl⟩⟩⟩
  refine wp_imp (wp_liftDev_lock hrest) fun _ p₁ s₁ h₁ => ?_
  rw [wp_bind, wp_modifySession]
  have hcleared : AtRest s₁.clearVariables := ⟨h₁.1.comState, h₁.1.comPos, h₁.1.comParameter⟩
  exact wp_imp (wp_liftDev_lock hcleared) fun _ p₂ s₂ h₂ => ⟨h₂.1, .inl h₂.2⟩

theorem wp_optCallbackFullReset_keySafe (confirmed changeConfirmed : Bool) (card : CardSession)
    (h : KeySafe t p s) :
    wp (optCallbackFullReset t confirmed changeConfirmed card) (fun _ p' s' => KeySafe t p' s')
      (fun _ _ => True) (fun _ _ => True) p s := by
  refine wp_imp (wp_optCallbackFullReset confirmed changeConfirmed card h.1) fun _ p' s' hpost => ?_
  obtain ⟨hrest, hlocked | ⟨rfl, rfl⟩⟩ := hpost
  · exact ⟨hrest, rightKey_of_locked hlocked⟩
  · exact h

/-- A device that has just been switched on is locked. -/
theorem wp_powerOn (ram : Ram) (confirmed changeConfirmed : Bool) (firstCard card : CardSession) :
    wp (powerOn t ram confirmed changeConfirmed firstCard card) (fun _ p' s' => KeySafe t p' s')
      (fun _ _ => True) (fun _ _ => True) p s := by
  -- the start reads its options, and sets nothing else
  have hinit : LeavesKey programInit := by
    unfold programInit
    have hcache : ∀ (optionsFlag : Byte) (numPwd : ℕ), LeavesKey (modifyRam fun v =>
        { v with optionsFlag := optionsFlag, numPwd := numPwd }) := fun _ _ =>
      frames_modifyRam fun _ => ⟨rfl, rfl⟩
    infer_instance
  rw [powerOn, wp_bind, wp_setRam, wp_bind]
  refine wp_imp (wp_liftDev_lock (s := .boot ram) ⟨rfl, rfl, rfl⟩) fun _ p₁ s₁ h₁ => ?_
  have hlocked₁ : s₁.ram.keyEntered = false := h₁.2
  have hfirst : wp (initializeFirst t confirmed changeConfirmed firstCard)
      (fun _ _ s' => AtRest s' ∧ s'.ram.keyEntered = false) (fun _ _ => True)
      (fun _ _ => True) p₁ s₁ := by
    rw [initializeFirst, wp_bind, wp_liftDev, wp_framReadByte, wp_ite, wp_pure]
    refine ⟨fun _ => ?_, fun _ => ⟨h₁.1, hlocked₁⟩⟩
    refine wp_imp (wp_optCallbackFullReset confirmed changeConfirmed firstCard h₁.1)
      fun _ p' s' hpost => ?_
    obtain ⟨hrest, hlocked | ⟨-, rfl⟩⟩ := hpost
    · exact ⟨hrest, hlocked⟩
    · exact ⟨hrest, hlocked₁⟩
  rw [wp_bind]
  refine wp_imp hfirst fun _ p₂ s₂ h₂ => ?_
  refine wp_imp (wp_liftDev_lock h₂.1) fun _ p₃ s₃ h₃ => ?_
  exact ⟨h₃.1, rightKey_of_locked (h₃.2.trans h₂.2)⟩

/-- The check that ends the recovery sequence. -/
theorem wp_leaveRecovery (hrest : AtRest s) {Keeps : Prop}
    (h : RightKey t p s.ram ↔ Keeps) :
    wp (leaveRecovery t) (fun _ p' s' => AtRest s' ∧ (RightKey t p' s'.ram ↔ Keeps))
      (fun _ _ => False) (fun _ _ => True) p s := by
  rw [leaveRecovery, wp_bind, wp_durable, wp_bind, wp_ram, wp_ite, wp_modifySession, wp_pure]
  refine ⟨fun hknown => ⟨⟨hrest.comState, hrest.comPos, hrest.comParameter⟩, ?_⟩,
    fun _ => ⟨hrest, h⟩⟩
  exact iff_of_true (fun _ => hknown) (h.mp fun _ => hknown)

/-- At a boundary the timeout is forgotten when the first packet comes. -/
theorem wp_receive_rested {exec : List Byte → Com Unit} {abort : Com Unit}
    {packets : List (List Byte)} {Q : Unit → Image → Session → Prop} {H : Image → Session → Prop}
    {C : Step Write → Image → Prop} (hne : packets ≠ []) (hcomState : s.parser.comState = .id)
    (h : wp (receive exec abort packets) Q H C p { s with timedOut := false }) :
    wp (receive exec abort packets) Q H C p s := by
  cases packets with
  | nil => exact absurd rfl hne
  | cons packet rest =>
      rw [receive, wp_bind] at h ⊢
      simp only [processData, abortLate, wp_bind, wp_ram, hcomState, ne_eq, not_true, and_false,
        if_false, wp_pure, wp_modifySession] at h ⊢
      exact h

theorem SerialCommand.packets_ne_nil (c : SerialCommand) : c.packets ≠ [] := by
  intro hnil
  have hlength := congrArg List.length c.sent.cut
  simp only [hnil, List.flatten_nil, List.length_nil, Frame.length_bytes] at hlength
  omega

/-- A command leaves the right key if and only if it is not a `COM_SET_KEY` that puts a
wrong key into a device that is unlocked. -/
theorem wp_command (answer : Image → Session → Bool) (c : SerialCommand) (hrest : AtRest s)
    (hright : RightKey t p s.ram) :
    wp ((Operation.command answer c).run t framId)
      (fun _ p' s' => AtRest s' ∧
        (RightKey t p' s'.ram ↔ (Operation.command answer c).KeepsKey t p s))
      (fun _ _ => (Operation.command answer c).KeepsKey t p s) (fun _ _ => True) p s := by
  refine wp_receive_rested c.packets_ne_nil hrest.comState ?_
  have hboundary : Boundary { s with timedOut := false } :=
    ⟨hrest.comState, rfl, hrest.comPos, hrest.comParameter⟩
  have hfull : c.frame.Full := c.sent.full
  have hfits : ∀ packet ∈ c.packets, packet ≠ [] ∧ packet.length ≤ 255 := c.sent.fits
  have hcut : c.packets.flatten = c.frame.bytes := c.sent.cut
  by_cases hset : c.frame.id = comSetKey ∧ s.enabled = true
  · obtain ⟨hid, hopen⟩ := hset
    have honce := @wp_receive_setKey_once t answer framId p _ _ _
      hfull hfits hcut hboundary hid hopen
    -- a key that is too long hangs the device, and nothing is asked of it
    rcases Nat.lt_or_ge 16 c.frame.size with hlong | hsize
    · refine wp_mono honce (fun _ _ _ hpost => ?_) (fun _ _ _ _ _ _ hle => ?_) fun _ _ => id
      · exact absurd hpost.2.2 (Nat.not_le.mpr hlong)
      · exact absurd hle (Nat.not_le.mpr hlong)
    · refine wp_mono (wp_and honce (wp_receive_setKey hfull hfits hcut hboundary hid hopen hsize))
        (fun _ p₁ s₁ hpost => ?_) (fun _ _ hhang => ?_) fun _ _ _ => trivial
      · obtain ⟨⟨hboundary₁, -⟩, rfl, hkey, hentered⟩ := hpost
        refine ⟨⟨hboundary₁.comState, hboundary₁.comPos, hboundary₁.comParameter⟩, ?_⟩
        have hentered : s₁.ram.keyEntered = (s.ram.keyEntered ||
          encryptionCheckKey t (overKey s.ram.key c.frame.data) p₁) := hentered
        have hkey : s₁.ram.key = overKey s.ram.key c.frame.data := hkey
        rw [RightKey, hkey, hentered, Bool.or_eq_true]
        refine ⟨fun hright hunlocked _ _ _ => hright (.inl hunlocked), fun hkeeps h => ?_⟩
        rcases h with hunlocked | hknown
        · exact hkeeps hunlocked hopen hid hsize
        · exact hknown
      · exact absurd hsize (Nat.not_le.mpr hhang.1.2)
  · have hkeeps : (Operation.command answer c).KeepsKey t p s := fun _ hopen hid =>
      absurd ⟨hid, hopen⟩ hset
    -- any other command, or one behind a closed gate, spares the key
    have hspared : wp (receive (comExec t (.quiet answer framId)) (comAbort (.quiet answer framId))
        c.packets) (fun _ p' s' => p'.eeprom = p.eeprom ∧ s.SameKey s') (fun _ _ => True)
        (fun _ _ => True) p { s with timedOut := false } := by
      by_cases hid : c.frame.id = comSetKey
      · have hclosed : s.enabled = false := (Bool.not_eq_true _).mp fun hopen => hset ⟨hid, hopen⟩
        exact wp_receive_refused hfull hfits hcut hboundary hid hclosed
      · exact wp_receive_sparesKey hfull hfits hcut hboundary hid
    refine wp_mono (wp_and (wp_receive_replies hfull hfits hcut hboundary) hspared)
      (fun _ p₁ s₁ hpost => ?_) (fun _ _ _ => hkeeps) fun _ _ _ => trivial
    obtain ⟨⟨hboundary₁, -⟩, heeprom, hsame⟩ := hpost
    exact ⟨⟨hboundary₁.comState, hboundary₁.comPos, hboundary₁.comParameter⟩,
      iff_of_true (hright.congr heeprom hsame) hkeeps⟩

/-- What an operation leaves. -/
theorem wp_operation (op : Operation) (hrest : AtRest s) (hright : RightKey t p s.ram) :
    wp (op.run t framId)
      (fun _ p' s' => AtRest s' ∧ (RightKey t p' s'.ram ↔ op.KeepsKey t p s))
      (fun _ _ => op.KeepsKey t p s) (fun _ _ => True) p s := by
  have hkept : ∀ {op : Operation}, op.KeepsKey t p s →
      wp (op.run t framId) (fun _ p' s' => KeySafe t p' s') (fun _ _ => True) (fun _ _ => True)
        p s →
      wp (op.run t framId)
        (fun _ p' s' => AtRest s' ∧ (RightKey t p' s'.ram ↔ op.KeepsKey t p s))
        (fun _ _ => op.KeepsKey t p s) (fun _ _ => True) p s := fun hkeeps h =>
    wp_mono h (fun _ _ _ hsafe => ⟨hsafe.1, iff_of_true hsafe.2 hkeeps⟩) (fun _ _ _ => hkeeps)
      fun _ _ => id
  cases op with
  | powerOn ram confirmed changeConfirmed firstCard card =>
      exact hkept trivial (wp_powerOn ram confirmed changeConfirmed firstCard card)
  | presentCard card =>
      refine hkept trivial (wp_liftDev_keySafe hrest ?_)
      rw [wp_bind]
      exact wp_imp (wp_stateWaitCardTransition_rightKey card hright)
        fun _ _ _ h => (wp_pure _).mpr h
  | recovery choice =>
      have hchosen : wp (choice.run t) (fun _ p' s' => AtRest s' ∧
          (RightKey t p' s'.ram ↔ (Operation.recovery choice).KeepsKey t p s))
          (fun _ _ => (Operation.recovery choice).KeepsKey t p s) (fun _ _ => True) p s := by
        cases choice with
        | fullReset confirmed changeConfirmed card =>
            exact wp_mono (wp_optCallbackFullReset_keySafe confirmed changeConfirmed card
              ⟨hrest, hright⟩) (fun _ _ _ h => ⟨h.1, iff_of_true h.2 trivial⟩)
              (fun _ _ _ => trivial) fun _ _ => id
        | enterKey usrKey =>
            rw [RecoveryChoice.run, wp_liftDev, optCallbackEnterKey, wp_modifyRam]
            exact ⟨hrest.ram _, Iff.rfl⟩
        | back => exact (wp_pure _).mpr ⟨hrest, iff_of_true hright trivial⟩
      rw [Operation.run, recoveryTurn, wp_bind]
      refine wp_imp hchosen fun _ p₁ s₁ hpost => ?_
      exact wp_mono (wp_leaveRecovery hpost.1 hpost.2) (fun _ _ _ => id) (fun _ _ => False.elim)
        fun _ _ => id
  | waitCardEnd fuel =>
      have hfirst : ∀ first, LeavesKey (modifyRam fun v => { v with currentPasswordId := first }) :=
        fun _ => frames_modifyRam fun _ => ⟨rfl, rfl⟩
      have hkey : LeavesKey (stateWaitCardEnd t fuel) := by
        unfold stateWaitCardEnd
        infer_instance
      exact hkept trivial (wp_liftDev_keySafe hrest (wp_rightKey_leavesKey _ hright))
  | command answer c => exact wp_command answer c hrest hright
  | timeout =>
      refine hkept trivial ((wp_modifySession _).mpr ?_)
      exact ⟨⟨hrest.comState, hrest.comPos, hrest.comParameter⟩, hright⟩
  | button i =>
      refine hkept trivial ((wp_modifySession _).mpr ?_)
      refine ⟨⟨hrest.comState, hrest.comPos, hrest.comParameter⟩, hright.congr rfl ?_⟩
      exact sameKey_eventsHappen s _ (buttonToEvent_bits _ i).2
  | buttonsTaken =>
      refine hkept trivial ((wp_modifySession _).mpr ?_)
      refine ⟨⟨hrest.comState, hrest.comPos, hrest.comParameter⟩, hright.congr rfl ?_⟩
      exact sameKey_clearEvents s eventAllButtons rfl
  | saveEntropy =>
      exact hkept trivial (wp_liftDev_keySafe hrest (wp_rightKey_leavesKey randomSaveEntropy hright))
  | select pwdId =>
      exact hkept trivial (wp_liftDev_keySafe hrest (wp_rightKey_leavesKey _ hright))
  | menu fuel action =>
      exact hkept trivial (wp_liftDev_keySafe hrest
        (wp_rightKey_leavesKey (action.run t fuel) hright))
  | changeKey confirmed card =>
      exact hkept trivial (wp_liftDev_keySafe hrest
        (wp_optCallbackChangeKey_rightKey confirmed card hright))
  | forceCard card =>
      exact hkept trivial (wp_liftDev_keySafe hrest (wp_optCallbackForceCard_rightKey card hright))
  | forceEnter usrKey =>
      exact hkept trivial (wp_liftDev_keySafe hrest (wp_optCallbackForceEnter_rightKey usrKey))
  | inverseScreen =>
      exact hkept trivial (wp_liftDev_keySafe hrest (wp_rightKey_leavesKey (toggleOption _) hright))
  | changeKeyboard =>
      exact hkept trivial (wp_liftDev_keySafe hrest (wp_rightKey_leavesKey (toggleOption _) hright))
  | fullReset confirmed changeConfirmed card =>
      exact hkept trivial (wp_optCallbackFullReset_keySafe confirmed changeConfirmed card
        ⟨hrest, hright⟩)

end Session

/-! ## Runs -/

end PasswordWallet
