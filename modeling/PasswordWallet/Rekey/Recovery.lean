import PasswordWallet.Rekey.Progress
import PasswordWallet.Security.Recover

/-!
# What the stages of a change of key do

The stages that `user_change_key` and `backup_recover` share, each with what it
leaves at its end and at every power loss inside it: the passwords
(`wp_recoverPasswords`), the card (`wp_recoverCard`), the validation
(`wp_setValidation`).
-/

namespace PasswordWallet

open PowerLoss

variable {t : Target} {used : ℕ → Bool} {key newKey : Block} {P : Progress t used key newKey}
  {p p' : Image} {v : Ram} {card : CardSession}

/-! ## The passwords -/

/-- The call has come to the end of a byte of the map. -/
def Progress.Finished (P : Progress t used key newKey) (q : Image) : Prop :=
  ∃ row, P.done (8 * row + 8) q

/-- A power loss while the passwords are re-keyed, or right behind them. -/
def RekeyCut (P : Progress t used key newKey) (step : Step Write) (q : Image) : Prop :=
  Journal P q ∨ IdWindow P step q ∨
    (q.backupStatus = backupStatusChangeKeyUpdateCard ∧ P.Finished q)

theorem sameOff_store_status (p : Image) (status : Byte) :
    SameOff backupRegion p (p.store 362 [status]) :=
  (show (Write.fram 362 status).Within backupRegion from ⟨le_rfl, by decide⟩).sameOff p

theorem backupRegion_map : ∀ x, 263 ≤ x → x < 362 → x ∉ backupRegion :=
  fun _ _ hx h => absurd h.1 (by omega)

theorem chunkRegion_map {pwdId : ℕ} (hid : pwdId < 768) :
    ∀ x, 263 ≤ x → x < 362 → x ∉ chunkRegion pwdId :=
  fun _ hx hx' => notMem_chunkRegion hid (by omega) (by omega)

/-- Re-keying, followed by the status of the next stage. -/
theorem wp_rekey_updateCard {startFrom : ℕ}
    (hplain : ∀ id < 768, used id = true → t.addressing.Plain id) (hrow : startFrom < 792)
    (h : RekeyInv P startFrom p v) :
    wp (do
        encryptionUpdateKey t newKey startFrom
        backupSetStatus backupStatusChangeKeyUpdateCard : Dev Unit)
      (fun _ p' v' => v'.key = newKey ∧ Undisturbed p p' ∧
        p'.backupStatus = backupStatusChangeKeyUpdateCard ∧ P.Finished p')
      (fun _ _ => False) (fun step p' => Undisturbed p p' ∧ RekeyCut P step p') p v := by
  rw [wp_bind]
  refine wp_mono (wp_rekey hplain hrow h) ?_ (fun _ _ => False.elim) ?_
  · rintro _ p₁ v₁ ⟨hkey, hfar, hdone⟩
    have hsame := sameOff_store_status p₁ backupStatusChangeKeyUpdateCard
    have hfar := hfar.trans (hsame.undisturbed backupRegion_map)
    have hstatus := p₁.backupStatus_store backupStatusChangeKeyUpdateCard
    have hfinished : P.Finished (p₁.store 362 [backupStatusChangeKeyUpdateCard]) :=
      ⟨_, P.done_backup hdone hsame⟩
    rw [wp_backupSetStatus]
    exact ⟨⟨hfar, Or.inr (Or.inr ⟨hstatus, hfinished⟩)⟩, hkey, hfar, hstatus, hfinished⟩
  · rintro step p' ⟨hfar, hjournal | hwindow⟩
    · exact ⟨hfar, Or.inl hjournal⟩
    · exact ⟨hfar, Or.inr (Or.inl hwindow)⟩

/-- The passwords, from a journal on. -/
theorem wp_recoverPasswords (hplain : ∀ id < 768, used id = true → t.addressing.Plain id)
    (hkey : v.key = key) (hmap : ∀ id < 768, p.used id = used id) (hjournal : Journal P p)
    (hstatus : p.backupStatus = backupStatusChangeKey ∨
      p.backupStatus = backupStatusChangeKeyChunkOk) :
    wp (recoverPasswords t newKey p.backupStatus)
      (fun _ p' v' => v'.key = newKey ∧ Undisturbed p p' ∧
        p'.backupStatus = backupStatusChangeKeyUpdateCard ∧ P.Finished p')
      (fun _ _ => False) (fun step p' => Undisturbed p p' ∧ RekeyCut P step p') p v := by
  have hread : passwordReadId offsetBackupId p = p.backupId := rfl
  rw [recoverPasswords, wp_bind, wp_readImage, hread, recoverChunks]
  rcases hjournal with hok | ⟨hresume, hid, hused, hcopied⟩ | ⟨hnext, hid, hdone⟩
  · rcases hstatus with h | h <;> exact absurd (hok.symm.trans h) (by decide)
  · rw [if_pos hresume, wp_bind, wp_bind]
    have hregion : ∀ x, 363 ≤ x → x < 535 → x ∉ chunkRegion p.backupId :=
      fun x hx hx' => notMem_chunkRegion hid (by omega) hx'
    refine wp_mono (wp_backupPartialRestore (hplain _ hid hused) hid) ?_
      (fun _ _ => False.elim) ?_
    · rintro _ p₁ v₁ ⟨hv₁, hsame, hcopy⟩
      subst hv₁
      have hfar := hsame.undisturbed (chunkRegion_map hid)
      have hstatus₁ := hsame.backupStatus (notMem_chunkRegion hid (by decide) (by decide))
      -- the chunk is restored: it comes next, and the section holds a copy of it
      have hinv : RekeyInv P p.backupId p₁ v₁ :=
        { key := hkey
          map := fun id hlt => (hfar.map id hlt).trans (hmap id hlt)
          done := P.done_of_copied hid hcopied hsame hcopy
          status := Or.inr (Or.inl (hstatus₁.trans hresume))
          resume := fun _ => ⟨hid, hused,
            hsame.backupId (hregion _ (by decide) (by decide)) (hregion _ (by decide) (by decide)),
            fun i hi => (hsame.backupByte (fun x hx => hregion x (by omega)) hi).trans
              (hcopy i hi).symm⟩
          next := fun hnext => absurd ((hstatus₁.trans hresume).symm.trans hnext) (by decide) }
      refine (wp_bind (encryptionUpdateKey t newKey p.backupId)
        fun _ => backupSetStatus backupStatusChangeKeyUpdateCard).mp ?_
      exact wp_mono (wp_rekey_updateCard hplain (by omega) hinv)
        (fun _ _ _ h => ⟨h.1, hfar.trans h.2.1, h.2.2⟩) (fun _ _ h => h)
        fun _ _ h => ⟨hfar.trans h.1, h.2⟩
    · rintro step p' ⟨-, hsame⟩
      have hid' := hsame.backupId (hregion _ (by decide) (by decide))
        (hregion _ (by decide) (by decide))
      have hcopied := P.copied_restoring hid hcopied hsame
      refine ⟨hsame.undisturbed (chunkRegion_map hid), Or.inl (Or.inr (Or.inl ⟨?_, ?_⟩))⟩
      · exact (hsame.backupStatus (notMem_chunkRegion hid (by decide) (by decide))).trans hresume
      · rw [hid']
        exact ⟨hid, hused, hcopied⟩
  · have hother : p.backupStatus ≠ backupStatusChangeKey := fun h =>
      absurd (hnext.symm.trans h) (by decide)
    have hinv : RekeyInv P (p.backupId + 1) p v :=
      { key := hkey
        map := hmap
        done := hdone
        status := Or.inr (Or.inr hnext)
        resume := fun h => absurd h hother
        next := fun _ => ⟨hid, Nat.lt_succ_self _, hdone⟩ }
    rw [if_neg hother, Nat.mod_eq_of_lt (by omega)]
    exact wp_rekey_updateCard hplain (by omega) hinv

/-! ## The card and the validation -/

/-- What the last stages leave alone: the FRAM but for the backup section and the
pool, and the block that keeps the new key. -/
structure Closing (p q : Image) : Prop where
  fram : ∀ x ∉ drawing backupRegion, q.fram x = p.fram x
  card : q.card mifareBlockTempKey = p.card mifareBlockTempKey

theorem Closing.trans {p₁ p₂ p₃ : Image} (h₁ : Closing p₁ p₂) (h₂ : Closing p₂ p₃) :
    Closing p₁ p₃ :=
  ⟨fun x hx => (h₂.fram x hx).trans (h₁.fram x hx), h₂.card.trans h₁.card⟩

theorem Closing.map (h : Closing p p') : ∀ id < 768, p'.used id = p.used id := by
  intro id hid
  have hmem : (offsetMemoryMap + id / 8) % framByteSize ∉ drawing backupRegion := by
    rw [Nat.mod_eq_of_lt (by simp; omega)]
    exact notMem_drawing (by simp) (backupRegion_map _ (by simp) (by simp; omega))
  have hbyte : p'.byte (offsetMemoryMap + id / 8) = p.byte (offsetMemoryMap + id / 8) :=
    h.fram _ hmem
  rw [Image.used, Image.used, hbyte]

theorem SameOff.closing (h : SameOff backupRegion p p') : Closing p p' :=
  ⟨fun x hx => h.fram x fun hmem => hx (Or.inr hmem), congrFun h.card _⟩

theorem Validated.closing (h : Validated p p') : Closing p p' :=
  ⟨fun x hx => h.fram x fun hmem => hx (Or.inl hmem), congrFun h.card _⟩

theorem Validated.backupStatus (h : Validated p p') : p'.backupStatus = p.backupStatus :=
  h.fram 362 fun hmem => absurd hmem.2 (by decide)

/-- The end of a change of key. -/
structure KeyChanged (t : Target) (k : Block) (p : Image) (v : Ram) : Prop where
  status : p.backupStatus = backupStatusOk
  key : v.key = k
  card : p.card mifareBlockKey = k
  known : encryptionCheckKey t k p = true

theorem wp_recoverValidation :
    wp (recoverValidation t)
      (fun _ p' v' => Closing p p' ∧ p'.card = p.card ∧ p'.backupStatus = backupStatusOk ∧
        v'.key = v.key ∧ encryptionCheckKey t v.key p' = true)
      (fun _ _ => False)
      (fun _ p' => Closing p p' ∧ p'.card = p.card ∧
        (p'.backupStatus = p.backupStatus ∨ p'.backupStatus = backupStatusOk)) p v := by
  rw [recoverValidation, wp_bind]
  refine wp_mono wp_encryptionUpdateValidation ?_ (fun _ _ => False.elim) ?_
  · rintro _ p₁ v₁ ⟨hvalidated, hdrawn, hknown⟩
    refine wp_mono wp_backupFree ?_ (fun _ _ => id) ?_
    · rintro _ p' v' ⟨hv', hsame, hok⟩
      refine ⟨hvalidated.closing.trans hsame.closing, hsame.card.trans hvalidated.card, hok,
        hv' ▸ hdrawn.key, ?_⟩
      rw [encryptionCheckKey_congr hsame.eeprom, hknown]
    · rintro step p' ⟨-, hsame, hok⟩
      exact ⟨hvalidated.closing.trans hsame.closing, hsame.card.trans hvalidated.card,
        Or.inr hok⟩
  · rintro step p' ⟨-, hvalidated⟩
    exact ⟨hvalidated.closing, hvalidated.card, Or.inl hvalidated.backupStatus⟩

/-- The validation, under its status. -/
theorem wp_setValidation :
    wp (do
        backupSetStatus backupStatusChangeKeyValidation
        recoverValidation t : Dev Unit)
      (fun _ p' v' => Closing p p' ∧ p'.card = p.card ∧ p'.backupStatus = backupStatusOk ∧
        v'.key = v.key ∧ encryptionCheckKey t v.key p' = true)
      (fun _ _ => False)
      (fun _ p' => Closing p p' ∧ p'.card = p.card ∧
        (p'.backupStatus = backupStatusChangeKeyValidation ∨
          p'.backupStatus = backupStatusOk)) p v := by
  have hsame := sameOff_store_status p backupStatusChangeKeyValidation
  have hstatus := p.backupStatus_store backupStatusChangeKeyValidation
  rw [wp_bind, wp_backupSetStatus]
  refine ⟨⟨hsame.closing, hsame.card, Or.inl hstatus⟩, ?_⟩
  refine wp_mono wp_recoverValidation ?_ (fun _ _ => id) ?_
  · rintro _ p' v' ⟨hclosing, hcard, hrest⟩
    exact ⟨hsame.closing.trans hclosing, hcard.trans hsame.card, hrest⟩
  · rintro step p' ⟨hclosing, hcard, hphase⟩
    rw [hstatus] at hphase
    exact ⟨hsame.closing.trans hclosing, hcard.trans hsame.card, hphase⟩

/-- A power loss while the card and the validation are brought up to date: right
behind the write of the key block, or under the status of the validation. -/
def ClosingCut (card : CardSession) (k : Block) (p : Image) (step : Step Write) (q : Image) :
    Prop :=
  Closing p q ∧
    ((step.write = .card mifareBlockKey k ∧ q.backupStatus = p.backupStatus) ∨
      (q.backupStatus = backupStatusChangeKeyValidation ∧
        (card.Faithful → q.card mifareBlockKey = k)) ∨
      q.backupStatus = backupStatusOk)

/-- The image once the key block has been written. -/
def Image.withKeyBlock (p : Image) (k : Block) : Image :=
  { p with card := Function.update p.card mifareBlockKey k }

theorem card_withKeyBlock (p : Image) (k : Block) :
    (p.withKeyBlock k).card mifareBlockKey = k := by
  simp [Image.withKeyBlock]

theorem closing_withKeyBlock (p : Image) (k : Block) : Closing p (p.withKeyBlock k) where
  fram _ _ := rfl
  card := by simp [Image.withKeyBlock]

/-- The key block is written; then, if the reader says so, the validation.  What
follows a failure is `rest`. -/
theorem wp_writeKeyBlock {rest : Bool → Dev Unit} {H : Image → Ram → Prop}
    {Q : Unit → Image → Ram → Prop} {k : Block}
    (hwritten : ∀ C p v, wp (do
        backupSetStatus backupStatusChangeKeyValidation
        recoverValidation t : Dev Unit) Q H C p v → wp (rest true) Q H C p v)
    (hfailed : (card.write mifareBlockKey).1 ≠ .ok →
      ∀ p v, wp (rest false) Q H (fun _ _ => False) p v)
    (hkey : v.key = k)
    (hend : ∀ p' v', (card.Faithful → KeyChanged t k p' v') → Q () p' v') :
    wp (do
        let written ← userWriteKeyToCard card k mifareBlockKey
        rest written : Dev Unit) Q H (ClosingCut card k p) p v := by
  have hclose : ∀ q : Image, Closing p q → (card.Faithful → q.card mifareBlockKey = k) →
      wp (rest true) Q H (ClosingCut card k p) q v := by
    intro q hclosing hcard
    refine hwritten _ q v (wp_mono wp_setValidation ?_ (fun _ _ => False.elim) ?_)
    · rintro _ p' v' ⟨-, hsame, hok, hkey', hknown⟩
      rw [hkey] at hkey' hknown
      exact hend p' v' fun hfaithful =>
        ⟨hok, hkey', (congrFun hsame _).trans (hcard hfaithful), hknown⟩
    · rintro step p' ⟨hclosing', hsame, hphase⟩
      refine ⟨hclosing.trans hclosing', Or.inr (hphase.imp_left fun hstatus => ⟨hstatus, ?_⟩)⟩
      exact fun hfaithful => (congrFun hsame _).trans (hcard hfaithful)
  have hfail : (card.write mifareBlockKey).1 ≠ .ok →
      ∀ q : Image, wp (rest false) Q H (ClosingCut card k p) q v := fun hcode q =>
    wp_mono (hfailed hcode q v) (fun _ _ _ h => h) (fun _ _ h => h) fun _ _ => False.elim
  rw [wp_bind]
  refine wp_userWriteKeyToCard (fun hstored => ⟨?_, ?_⟩) fun hlost => ?_
  · exact ⟨closing_withKeyBlock p k, Or.inl ⟨rfl, rfl⟩⟩
  · by_cases hcode : (card.write mifareBlockKey).1 = .ok
    · simp only [hcode, decide_true]
      exact hclose (p.withKeyBlock k) (closing_withKeyBlock p k) fun _ => card_withKeyBlock p k
    · simp only [hcode, decide_false]
      exact hfail hcode _
  · by_cases hcode : (card.write mifareBlockKey).1 = .ok
    · simp only [hcode, decide_true]
      refine hclose p ⟨fun _ _ => rfl, rfl⟩ fun hfaithful => ?_
      rw [hfaithful.stored _ hcode] at hlost
      exact absurd hlost (by decide)
    · simp only [hcode, decide_false]
      exact hfail hcode _

/-- A power loss from the start of the re-keying on. -/
def ChangeCut (P : Progress t used key newKey) (card : CardSession) (p : Image)
    (step : Step Write) (q : Image) : Prop :=
  (Undisturbed p q ∧ RekeyCut P step q) ∨
    ∃ r, Undisturbed p r ∧ r.backupStatus = backupStatusChangeKeyUpdateCard ∧ P.Finished r ∧
      ClosingCut card newKey r step q

/-! ## The change of key itself -/

/-- `user_change_key` from the re-keying on. -/
theorem wp_userChangeKeyUpdate
    (hplain : ∀ id < 768, used id = true → t.addressing.Plain id) (h : RekeyInv P 0 p v) :
    wp (userChangeKeyUpdate t card newKey) (fun _ _ _ => True) (fun _ _ => True)
      (ChangeCut P card p) p v := by
  simp only [userChangeKeyUpdate, wp_bind, wp_ram]
  refine (wp_bind (encryptionUpdateKey t newKey 0)
    fun _ => backupSetStatus backupStatusChangeKeyUpdateCard).mp ?_
  refine wp_mono (wp_rekey_updateCard hplain (by decide) h) ?_ (fun _ _ => False.elim)
    fun _ _ => Or.inl
  rintro _ r w ⟨rfl, hfar, hr, hfinished⟩
  refine (wp_bind (userWriteKeyToCard card w.key mifareBlockKey)
    (userChangeKeyValidation t)).mp ?_
  refine wp_mono (wp_writeKeyBlock (t := t) (Q := fun _ _ _ => True) (H := fun _ _ => True)
    (fun C p v hwp => ?_) (fun _ p v => ?_) rfl fun _ _ _ => trivial) (fun _ _ _ h => h)
    (fun _ _ h => h) fun _ _ hcut => Or.inr ⟨r, hfar, hr, hfinished, hcut⟩
  · simpa only [userChangeKeyValidation, userUpdateValidation, recoverValidation, if_true,
      wp_bind] using hwp
  · exact wp_hang.mpr trivial

/-! ## Recovery, phase by phase -/

/-- With a card that answers correctly, the card and the validation are brought
up to date. -/
theorem wp_recoverCard (hkey : v.key = newKey) :
    wp (recoverCard t card)
      (fun _ p' v' => card = .correct → KeyChanged t newKey p' v') (fun _ _ => False)
      (ClosingCut card newKey p) p v := by
  rw [recoverCard, wp_bind, wp_ram, hkey]
  refine wp_writeKeyBlock (t := t) (fun _ _ _ h => h) (fun hcode p v => ?_) hkey
    fun p' v' h hcard => ?_
  · refine (wp_pure _).mpr fun hcard => ?_
    rw [hcard] at hcode
    exact absurd rfl hcode
  · exact h (hcard ▸ CardSession.faithful_correct)

/-- Recovery of a change of key, up to the check of the last key.  It leaves
early with no write made if the card does not answer or the key is not known. -/
theorem wp_backupRecover_changeKey {H : Image → Ram → Prop} {Q : Unit → Image → Ram → Prop}
    {C : Step Write → Image → Prop} (hcard : card.Genuine)
    (hstatus : ChangeKeyStatus p.backupStatus)
    (hexit : (card = .correct →
        recoverCheckKey t p.backupStatus (p.card mifareBlockKey) p = false) →
      ∀ v', Q () p v')
    (hupdate : wp (recoverUpdate t card (p.card mifareBlockTempKey) p.backupStatus) Q H C p
      { v with key := p.card mifareBlockKey }) :
    wp (backupRecover t card) Q H C p v := by
  have hread : p.byte offsetBackupStatus = p.backupStatus := rfl
  have hok : p.backupStatus ≠ backupStatusOk := by
    rcases hstatus with h | h | h | h <;> rw [h] <;> decide
  have hedit : p.backupStatus ≠ backupStatusUpdate := by
    rcases hstatus with h | h | h | h <;> rw [h] <;> decide
  rw [backupRecover, wp_bind, wp_framReadByte, hread, if_neg hok, if_neg hedit, if_pos hstatus,
    recoverChangeKey, wp_bind, wp_readImage]
  cases hkeys : recoverReadKeys card p with
  | none =>
      refine (wp_pure _).mpr (hexit (fun hcorrect => ?_) v)
      rw [hcorrect] at hkeys
      exact absurd hkeys (by simp [recoverReadKeys])
  | some keys =>
      obtain ⟨temp, last⟩ := keys
      -- what is read is what the card stores
      have hgenuine : temp = p.card mifareBlockTempKey ∧ last = p.card mifareBlockKey := by
        rw [recoverReadKeys] at hkeys
        split at hkeys
        · split at hkeys
          · exact absurd hkeys (by simp)
          · next new hnew =>
              split at hkeys
              · exact absurd hkeys (by simp)
              · next old hold =>
                  simp only [Option.some.injEq, Prod.mk.injEq] at hkeys
                  exact ⟨hkeys.1 ▸ hcard _ _ _ hnew, hkeys.2 ▸ hcard _ _ _ hold⟩
        · exact absurd hkeys (by simp)
      obtain ⟨rfl, rfl⟩ := hgenuine
      simp only [recoverWithKeys, wp_bind, wp_modifyRam, wp_readImage, wp_ite, wp_pure]
      refine ⟨fun _ => hupdate, fun hunknown => hexit (fun _ => ?_) _⟩
      simpa using hunknown

theorem recoverCheckKey_known (status : Byte) {last : Block}
    (h : encryptionCheckKey t last p = true) : recoverCheckKey t status last p = true := by
  rw [recoverCheckKey]
  split
  · exact h
  · rfl

/-- Recovery while passwords are re-keyed. -/
theorem wp_backupRecover_passwords
    (hplain : ∀ id < 768, used id = true → t.addressing.Plain id) (hcard : card.Genuine)
    (hkey : p.card mifareBlockKey = key) (hnew : p.card mifareBlockTempKey = newKey)
    (hmap : ∀ id < 768, p.used id = used id) (hjournal : Journal P p)
    (hstatus : p.backupStatus = backupStatusChangeKey ∨
      p.backupStatus = backupStatusChangeKeyChunkOk) :
    wp (backupRecover t card)
      (fun _ p' v' => card = .correct → encryptionCheckKey t key p = true →
        KeyChanged t newKey p' v')
      (fun _ _ => False)
      (ChangeCut P card p) p v := by
  refine wp_backupRecover_changeKey hcard ?_ ?_ ?_
  · rcases hstatus with h | h
    · exact Or.inl h
    · exact Or.inr (Or.inl h)
  · intro hunknown v' hcorrect hknown
    have := recoverCheckKey_known p.backupStatus hknown
    rw [← hkey, hunknown hcorrect] at this
    exact absurd this (by decide)
  · rw [recoverUpdate, if_pos hstatus, wp_bind, hkey, hnew]
    refine wp_mono (wp_recoverPasswords hplain rfl hmap hjournal hstatus) ?_
      (fun _ _ => False.elim) fun _ _ h => Or.inl h
    rintro _ r w ⟨hw, hfar, hr, hfinished⟩
    exact wp_mono (wp_recoverCard hw) (fun _ _ _ h hcorrect _ => h hcorrect) (fun _ _ h => h)
      fun _ _ h => Or.inr ⟨r, hfar, hr, hfinished, h⟩

/-- Recovery once the passwords are re-keyed. -/
theorem wp_backupRecover_card (hcard : card.Genuine)
    (hnew : p.card mifareBlockTempKey = newKey)
    (hstatus : p.backupStatus = backupStatusChangeKeyUpdateCard) :
    wp (backupRecover t card)
      (fun _ p' v' => card = .correct →
        encryptionCheckKey t (p.card mifareBlockKey) p = true → KeyChanged t newKey p' v')
      (fun _ _ => False) (ClosingCut card newKey p) p v := by
  refine wp_backupRecover_changeKey hcard (Or.inr (Or.inr (Or.inr hstatus))) ?_ ?_
  · intro hunknown v' hcorrect hknown
    have := recoverCheckKey_known p.backupStatus hknown
    rw [hunknown hcorrect] at this
    exact absurd this (by decide)
  · rw [recoverUpdate, hstatus, if_neg (by decide), wp_bind, wp_modifyRam, if_pos rfl]
    exact wp_imp (wp_recoverCard hnew) fun _ _ _ h hcorrect _ => h hcorrect

/-- Recovery once the card is up to date. -/
theorem wp_backupRecover_validation (hcard : card.Genuine)
    (hnew : p.card mifareBlockTempKey = newKey)
    (hstatus : p.backupStatus = backupStatusChangeKeyValidation) :
    wp (backupRecover t card)
      (fun _ p' v' => card = .correct → p.card mifareBlockKey = newKey →
        KeyChanged t newKey p' v')
      (fun _ _ => False)
      (fun _ p' => Closing p p' ∧ p'.card = p.card ∧
        (p'.backupStatus = backupStatusChangeKeyValidation ∨
          p'.backupStatus = backupStatusOk)) p v := by
  refine wp_backupRecover_changeKey hcard (Or.inr (Or.inr (Or.inl hstatus))) ?_ ?_
  · -- the key is not checked any more
    intro hunknown v' hcorrect
    have := hunknown hcorrect
    rw [recoverCheckKey, hstatus, if_neg (by decide)] at this
    exact absurd this (by decide)
  · rw [recoverUpdate, hstatus, if_neg (by decide), wp_bind, wp_modifyRam, if_neg (by decide),
      if_pos rfl]
    refine wp_mono wp_recoverValidation ?_ (fun _ _ h => h) ?_
    · rintro _ p' v' ⟨-, hsame, hok, hkey, hknown⟩ - hblock
      rw [hnew] at hkey hknown
      exact ⟨hok, hkey, (congrFun hsame _).trans hblock, hknown⟩
    · rintro step p' ⟨hclosing, hsame, hphase⟩
      exact ⟨hclosing, hsame, hphase.imp_left fun h => h.trans hstatus⟩

end PasswordWallet
