import PasswordWallet.Proofs.AesBuffers
import PasswordWallet.Rekey.Recovery

/-!
# A change of key can be finished

`user_change_key` updates four things one after the other: the block of the card
that keeps the new key, the passwords, the key block of the card, the validation
in the EEPROM.  Recovery takes the phase from the status byte, and checks the
key of the card against the validation in every phase but the last.

The key block is replaced before the status says so.  A power loss between the
two leaves the new key on the card next to the old validation, and recovery
refuses the card for good, unless the new key happens to pass the old
validation (`keyChange_stuck`).  With that moment excluded the change of key can
be finished by one more recovery (`keyChange_finished`).
-/

namespace PasswordWallet

open PowerLoss

/-- The cut is not right behind a write of the key block with a key that does
not pass the validation. -/
def KeyBlockKnown (t : Target) (step : Step Write) (q : Image) : Prop :=
  ∀ k, step.write = .card mifareBlockKey k → encryptionCheckKey t k q = true

/-- The key block of the card passes the validation. -/
def CardKnown (t : Target) (q : Image) : Prop :=
  encryptionCheckKey t (q.card mifareBlockKey) q = true

instance (t : Target) (q : Image) : Decidable (CardKnown t q) :=
  inferInstanceAs (Decidable (_ = true))

variable {t : Target} {used : ℕ → Bool} {newKey : Block} {p p' : Image} {v : Ram}
  {card : CardSession} {step : Step Write}

theorem Undisturbed.cardKnown (h : Undisturbed p p') (hknown : CardKnown t p) :
    CardKnown t p' := by
  rw [CardKnown, h.card, encryptionCheckKey_congr h.eeprom]
  exact hknown

/-- The images from which one recovery finishes the change to `newKey`. -/
structure Finishable (t : Target) (used : ℕ → Bool) (newKey : Block) (q : Image) : Prop where
  map : ∀ id < 768, q.used id = used id
  phase : q.backupStatus = backupStatusOk ∨
    ((q.backupStatus = backupStatusChangeKey ∨ q.backupStatus = backupStatusChangeKeyChunkOk) ∧
      Journal (noProgress t used newKey newKey) q ∧ CardKnown t q ∧
      q.card mifareBlockTempKey = newKey) ∨
    (q.backupStatus = backupStatusChangeKeyUpdateCard ∧ CardKnown t q ∧
      q.card mifareBlockTempKey = newKey) ∨
    (q.backupStatus = backupStatusChangeKeyValidation ∧ q.card mifareBlockKey = newKey ∧
      q.card mifareBlockTempKey = newKey)

/-! ## The power losses -/

/-- The torn id of two ids is an id. -/
theorem IdWindow.noProgress_journal {key : Block}
    (h : IdWindow (noProgress t used key newKey) step p) :
    Journal (noProgress t used key newKey) p := by
  obtain ⟨hstatus, -, old, new, hlt, hnew, hid, -⟩ := h
  refine Or.inr (Or.inr ⟨hstatus, ?_, trivial⟩)
  rcases hid with hid | hid
  · rw [hid, tornId]
    omega
  · exact hid ▸ hnew

/-- Behind the last chunk. -/
theorem Finishable.of_closingCut (hmap : ∀ id < 768, p.used id = used id)
    (hstatus : p.backupStatus = backupStatusChangeKeyUpdateCard)
    (hnew : p.card mifareBlockTempKey = newKey) (hcard : card.Faithful)
    (hcut : ClosingCut card newKey p step p')
    (happlied : ∃ before, p' = Durable.apply before step.write)
    (hgood : KeyBlockKnown t step p') : Finishable t used newKey p' := by
  obtain ⟨hclosing, hphase⟩ := hcut
  refine ⟨fun id hid => (hclosing.map id hid).trans (hmap id hid), ?_⟩
  have hnew' := hclosing.card.trans hnew
  rcases hphase with ⟨hwrite, hkept⟩ | ⟨hvalidation, hblock⟩ | hok
  · -- the key block has just been written, with a key that passes
    obtain ⟨before, rfl⟩ := happlied
    have hblock : (Durable.apply before step.write).card mifareBlockKey = newKey := by
      rw [hwrite]
      exact card_withKeyBlock before newKey
    refine Or.inr (Or.inr (Or.inl ⟨hkept.trans hstatus, ?_, hnew'⟩))
    rw [CardKnown, hblock]
    exact hgood _ hwrite
  · exact Or.inr (Or.inr (Or.inr ⟨hvalidation, hblock hcard, hnew'⟩))
  · exact Or.inl hok

theorem Finishable.of_changeCut {key : Block} (hmap : ∀ id < 768, p.used id = used id)
    (hknown : CardKnown t p) (hnew : p.card mifareBlockTempKey = newKey)
    (hcard : card.Faithful) (hcut : ChangeCut (noProgress t used key newKey) card p step p')
    (happlied : ∃ before, p' = Durable.apply before step.write)
    (hgood : KeyBlockKnown t step p') : Finishable t used newKey p' := by
  have hcarried : ∀ {q}, Undisturbed p q →
      (∀ id < 768, q.used id = used id) ∧ CardKnown t q ∧ q.card mifareBlockTempKey = newKey :=
    fun hfar => ⟨fun id hid => (hfar.map id hid).trans (hmap id hid), hfar.cardKnown hknown,
      (congrFun hfar.card _).trans hnew⟩
  rcases hcut with ⟨hfar, hrekey⟩ | ⟨r, hfar, hr, -, hclosing⟩
  · obtain ⟨hmap', hknown', hnew'⟩ := hcarried hfar
    refine ⟨hmap', ?_⟩
    have hjournal : Journal (noProgress t used key newKey) p' →
        (p'.backupStatus = backupStatusOk ∨ ((p'.backupStatus = backupStatusChangeKey ∨
          p'.backupStatus = backupStatusChangeKeyChunkOk) ∧
          Journal (noProgress t used newKey newKey) p')) := fun h =>
      h.imp_right fun hphase => ⟨hphase.imp (fun h => h.1) fun h => h.1, Or.inr hphase⟩
    rcases hrekey with h | hwindow | ⟨hstatus, -⟩
    · exact (hjournal h).imp_right fun h => Or.inl ⟨h.1, h.2, hknown', hnew'⟩
    · exact (hjournal hwindow.noProgress_journal).imp_right fun h =>
        Or.inl ⟨h.1, h.2, hknown', hnew'⟩
    · exact Or.inr (Or.inr (Or.inl ⟨hstatus, hknown', hnew'⟩))
  · obtain ⟨hmap', -, hnew'⟩ := hcarried hfar
    exact .of_closingCut hmap' hr hnew' hcard hclosing happlied hgood

/-- A recovery that is cut short leaves an image from which the next one can
finish. -/
theorem Finishable.recover (hplain : ∀ id < 768, used id = true → t.addressing.Plain id)
    (h : Finishable t used newKey p) (hcard : card.Faithful)
    (hcut : CutAfter (backupRecover t card) p v step p') (hgood : KeyBlockKnown t step p') :
    Finishable t used newKey p' := by
  rcases h.phase with hok | ⟨hstatus, hjournal, hknown, hnew⟩ | ⟨hstatus, hknown, hnew⟩ |
    ⟨hstatus, hblock, hnew⟩
  · exact (wp_cutAfter (Q := fun _ _ _ => True) (H := fun _ _ => False) (C := fun _ _ => False)
      (wp_backupRecover_ok _ _ hok trivial) hcut).elim
  · have hchange := wp_cutAfter (wp_backupRecover_passwords
      (P := noProgress t used (p.card mifareBlockKey) newKey) hplain hcard.genuine rfl hnew h.map
      hjournal hstatus) hcut
    exact .of_changeCut h.map hknown hnew hcard hchange hcut.applied hgood
  · have hclosing := wp_cutAfter (wp_backupRecover_card hcard.genuine hnew hstatus) hcut
    exact .of_closingCut h.map hstatus hnew hcard hclosing hcut.applied hgood
  · obtain ⟨hclosing, hsame, hphase⟩ := wp_cutAfter
      (wp_backupRecover_validation hcard.genuine hnew hstatus) hcut
    have hmap' := fun id hid => (hclosing.map id hid).trans (h.map id hid)
    refine ⟨hmap', hphase.symm.imp_right fun hvalidation => Or.inr (Or.inr ⟨hvalidation, ?_, ?_⟩)⟩
    · exact (congrFun hsame _).trans hblock
    · exact hclosing.card.trans hnew

/-- A recovery that is not cut short, with a card that answers correctly. -/
theorem Finishable.finish (hplain : ∀ id < 768, used id = true → t.addressing.Plain id)
    (h : Finishable t used newKey p) (hpending : p.backupStatus ≠ backupStatusOk) :
    recoverCheckKey t p.backupStatus (p.card mifareBlockKey) p = true ∧
      ∃ p' v', Completes (backupRecover t .correct) p v () p' v' ∧ KeyChanged t newKey p' v' := by
  rcases h.phase with hok | ⟨hstatus, hjournal, hknown, hnew⟩ | ⟨hstatus, hknown, hnew⟩ |
    ⟨hstatus, hblock, hnew⟩
  · exact absurd hok hpending
  · obtain ⟨_, p', v', hrun, hchanged⟩ := exists_completes (wp_backupRecover_passwords
      (v := v) (P := noProgress t used (p.card mifareBlockKey) newKey) hplain
      CardSession.genuine_correct rfl hnew h.map hjournal hstatus)
    exact ⟨recoverCheckKey_known _ hknown, p', v', hrun, hchanged rfl hknown⟩
  · obtain ⟨_, p', v', hrun, hchanged⟩ := exists_completes (wp_backupRecover_card
      (t := t) (v := v) CardSession.genuine_correct hnew hstatus)
    exact ⟨recoverCheckKey_known _ hknown, p', v', hrun, hchanged rfl hknown⟩
  · obtain ⟨_, p', v', hrun, hchanged⟩ := exists_completes (wp_backupRecover_validation
      (t := t) (v := v) CardSession.genuine_correct hnew hstatus)
    refine ⟨?_, p', v', hrun, hchanged rfl hblock⟩
    rw [recoverCheckKey, hstatus, if_neg (by decide)]

/-! ## The change of key, from the start -/

theorem poolRegion_map : ∀ x, 263 ≤ x → x < 362 → x ∉ poolRegion :=
  fun _ hx _ h => absurd h.2 (by omega)

/-- Every power loss inside `user_change_key`: before the re-keying, or from the
re-keying on, once the drawn key is in its block. -/
theorem wp_userChangeKey {drawn : List Byte} {pd : Image} {vd : Ram}
    (hplain : ∀ id < 768, p.used id = true → t.addressing.Plain id)
    (hok : p.backupStatus = backupStatusOk) (hcard : card.Faithful)
    (hdraw : Completes (randomFill randomRequestByte 16) p v drawn pd vd) :
    wp (userChangeKey t card) (fun _ _ _ => True) (fun _ _ => True)
      (fun step q => (q.backupStatus = backupStatusOk ∧ ∀ id < 768, q.used id = p.used id) ∨
        ∃ r, r.card = Function.update p.card mifareBlockTempKey (keyOfBytes drawn) ∧
          r.eeprom = p.eeprom ∧ (∀ id < 768, r.used id = p.used id) ∧
          ChangeCut (noProgress t p.used vd.key (keyOfBytes drawn)) card r step q) p v := by
  have hidle : ∀ {q}, SameOff poolRegion p q →
      q.backupStatus = backupStatusOk ∧ ∀ id < 768, q.used id = p.used id := fun hsame =>
    ⟨(hsame.backupStatus fun h => absurd h.2 (by decide)).trans hok,
      (hsame.undisturbed poolRegion_map).map⟩
  rw [userChangeKey, wp_bind]
  refine wp_mono (wp_and (wp_sameOff (wp_randomBytes 16)) (wp_of_completes (H := fun _ _ => True)
    (Q := fun bytes q w => drawn = bytes ∧ pd = q ∧ vd = w) hdraw ⟨rfl, rfl, rfl⟩)) ?_
    (fun _ _ h => h.1.elim) fun _ _ h => Or.inl (hidle h.1.2)
  rintro _ _ _ ⟨⟨hsame, -⟩, rfl, rfl, rfl⟩
  obtain ⟨hok', hmap⟩ := hidle hsame
  rw [userChangeKeyCard, wp_ite, wp_bind, wp_pure]
  refine ⟨fun _ => wp_userWriteKeyToCard (fun _ => ⟨Or.inl ⟨hok', hmap⟩, ?_⟩) fun hlost => ?_,
    fun _ => trivial⟩
  · rw [wp_ite, wp_pure]
    refine ⟨fun _ => ?_, fun _ => trivial⟩
    refine wp_mono (wp_userChangeKeyUpdate
      (P := noProgress t p.used vd.key (keyOfBytes drawn)) hplain ?_) (fun _ _ _ h => h)
      (fun _ _ h => h) fun _ _ hchange => Or.inr
        ⟨{ pd with card := Function.update pd.card mifareBlockTempKey (keyOfBytes drawn) }, ?_,
          hsame.eeprom, hmap, hchange⟩
    · exact
        { key := rfl
          map := hmap
          done := trivial
          status := Or.inl hok'
          resume := fun h => absurd (hok'.symm.trans h) (by decide)
          next := fun h => absurd (hok'.symm.trans h) (by decide) }
    · simp only [hsame.card]
  · have hfailed : (card.write mifareBlockTempKey).1 ≠ .ok := fun hcode => by
      rw [hcard.stored _ hcode] at hlost
      exact absurd hlost (by decide)
    rw [wp_ite]
    exact ⟨fun hwritten => absurd (of_decide_eq_true hwritten) hfailed,
      fun _ => (wp_pure _).mpr trivial⟩

/-- `user_change_key`, cut short anywhere but in the moment that `KeyBlockKnown`
excludes, then recovered in any number of attempts cut short in the same way: as
long as the change is pending, one more recovery finishes it. -/
theorem keyChange_finished (t : Target) (v₂ : Ram) {drawn : List Byte} {pd p₁ p₂ : Image}
    {vd : Ram}
    (hplain : ∀ id < maximumNumberOfPwd, p.used id = true → t.addressing.Plain id)
    (hok : p.backupStatus = backupStatusOk) (hknown : CardKnown t p)
    (hdraw : Completes (randomFill randomRequestByte 16) p v drawn pd vd)
    (hcard : card.Faithful)
    (hcut : CutWhere (KeyBlockKnown t) (userChangeKey t card) p v p₁)
    (hagain : Interrupted (fun card : { card : CardSession // card.Faithful } =>
      CutWhere (KeyBlockKnown t) (backupRecover t card)) p₁ p₂)
    (hpending : p₂.backupStatus ≠ backupStatusOk) :
    recoverCheckKey t p₂.backupStatus (p₂.card mifareBlockKey) p₂ = true ∧
      ∃ p' v', Completes (backupRecover t .correct) p₂ v₂ () p' v' ∧
        KeyChanged t (keyOfBytes drawn) p' v' := by
  have hplain : ∀ id < 768, p.used id = true → t.addressing.Plain id := by simpa using hplain
  have hfirst : Finishable t p.used (keyOfBytes drawn) p₁ := by
    rcases hcut with rfl | ⟨step, hgood, hstep⟩
    · exact ⟨fun _ _ => rfl, Or.inl hok⟩
    · rcases wp_cutAfter (wp_userChangeKey hplain hok hcard hdraw) hstep with
        ⟨hok', hmap⟩ | ⟨r, hblocks, heeprom, hmap, hchange⟩
      · exact ⟨hmap, Or.inl hok'⟩
      · refine .of_changeCut hmap ?_ ?_ hcard hchange hstep.applied hgood
        · rw [CardKnown, hblocks, encryptionCheckKey_congr heeprom,
            Function.update_of_ne (by decide)]
          exact hknown
        · rw [hblocks, Function.update_self]
  have hlast : Finishable t p.used (keyOfBytes drawn) p₂ := by
    refine hagain.invariant ?_ hfirst
    rintro ⟨card, hcard⟩ p v p' h (rfl | ⟨step, hgood, hstep⟩)
    · exact h
    · exact h.recover hplain hcard hstep hgood
  exact hlast.finish hplain hpending

/-! ## Two power losses -/

/-- Cut short right behind the status of the card. -/
theorem keyChange_finished_34 :
    let t : Target := ⟨.exact, .xorKey⟩
    let v := Ram.reset (fun _ => Vector.replicate 4 7) zeroIv
    let p₁ := replay Image.zero ((userChangeKey t .correct Image.zero v).trace.take 34)
    ∃ p' v', Completes (backupRecover t .correct) p₁ v () p' v' ∧
      p'.backupStatus = backupStatusOk := by
  intro t v p₁
  obtain ⟨drawn, pd, vd, hdraw, -⟩ := exists_completes
    (wp_randomBytes 16 (p := Image.zero) (v := v))
  have hstep : CutAfter (userChangeKey t .correct) Image.zero v ⟨.fram 362 4, false⟩ p₁ :=
    cutAfter_take (k := 33) (by decide +kernel)
  have hgood : KeyBlockKnown t ⟨.fram 362 4, false⟩ p₁ := fun k hwrite => nomatch hwrite
  obtain ⟨-, p', v', hrun, hchanged⟩ := keyChange_finished (p := Image.zero) t v
    (fun _ _ _ => Addressing.plain_exact _) (by decide) (by decide +kernel) hdraw
    CardSession.faithful_correct (Or.inr ⟨_, hgood, hstep⟩) .refl (by decide +kernel)
  exact ⟨p', v', hrun, hchanged.status⟩

/-- Cut short right behind the write of the key block, the change can no longer be
finished: the card is refused. -/
theorem keyChange_stuck :
    ¬ ∀ (t : Target) (p p₁ p₂ pd : Image) (v v₂ vd : Ram) (card : CardSession)
      (drawn : List Byte),
      (∀ id < maximumNumberOfPwd, p.used id = true → t.addressing.Plain id) →
      p.backupStatus = backupStatusOk → CardKnown t p →
      Completes (randomFill randomRequestByte 16) p v drawn pd vd → card.Faithful →
      Cut (userChangeKey t card) p v p₁ →
      Interrupted (fun card : { card : CardSession // card.Faithful } =>
        Cut (backupRecover t card)) p₁ p₂ →
      p₂.backupStatus ≠ backupStatusOk →
      recoverCheckKey t p₂.backupStatus (p₂.card mifareBlockKey) p₂ = true ∧
        ∃ p' v', Completes (backupRecover t .correct) p₂ v₂ () p' v' ∧
          KeyChanged t (keyOfBytes drawn) p' v' := by
  intro hclaim
  let t : Target := ⟨.exact, aesBlockCipher⟩
  let v := Ram.reset (fun _ => Vector.replicate 4 7) zeroIv
  let p₁ := replay Image.keyZero ((userChangeKey t .correct Image.keyZero v).trace.take 35)
  obtain ⟨drawn, pd, vd, hdraw, -⟩ := exists_completes
    (wp_randomBytes 16 (p := Image.keyZero) (v := v))
  have hrefused : recoverCheckKey t p₁.backupStatus (p₁.card mifareBlockKey) p₁ = false := by
    decide +kernel
  obtain ⟨haccepted, -⟩ := hclaim t Image.keyZero p₁ p₁ pd v v vd .correct drawn
    (fun _ _ _ => Addressing.plain_exact _) (by decide) encryptionCheckKey_keyZero hdraw
    CardSession.faithful_correct ⟨_, List.take_prefix _ _, rfl⟩ .refl (by decide +kernel)
  rw [haccepted] at hrefused
  exact absurd hrefused (by decide)

end PasswordWallet
