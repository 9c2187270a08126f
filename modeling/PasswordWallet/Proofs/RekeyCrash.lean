import PasswordWallet.Rekey.Recovery
import PasswordWallet.Proofs.RekeyComplete

/-!
# Power loss while chunks are re-keyed

The journal of `encryption_update_key` says which chunk is under way, or which
one was done last.  It does so by three separate writes, and between two chunks
there is a moment at which it lies: the id of the next chunk is already in place
under the status of the last one, and recovery would go on behind a chunk that
nobody has re-keyed.

`rekey_crash` shows that this moment is the only one.  However often the call
and its recoveries are cut short elsewhere, the first recovery that comes to the
end of the loop leaves every chunk of the call under the new key.
`rekey_crash_skips_one` is a power loss at that moment.
-/

namespace PasswordWallet

open PowerLoss

/-- The cut is not right behind a write of the id of one of the first chunks
under the status of the chunk before it. -/
def JournalKept (step : Step Write) (q : Image) : Prop :=
  ¬ (step.write.Within backupIdRegion ∧ q.backupStatus = backupStatusChangeKeyChunkOk ∧
    q.backupId < 8)

/-- The uninterrupted call writes the secrets of the chunk. -/
def Reencrypted (t : Target) (newKey : Block) (p : Image) (v : Ram) (pwdId : ℕ) : Prop :=
  ∃ step ∈ (encryptionUpdateKey t newKey 0 p v).trace, ∃ byte,
    step.write = .fram (535 + 170 * pwdId + pwdOffsetPwdIv) byte

variable {t : Target} {p₀ p p' : Image} {v : Ram} {key newKey : Block} {card : CardSession}

/-- Only the used chunks of the first byte of the map are re-encrypted. -/
theorem Reencrypted.visited {pwdId : ℕ} (hid : pwdId < 768) (h : Reencrypted t newKey p v pwdId) :
    pwdId < 8 ∧ p.used pwdId = true := by
  obtain ⟨step, hstep, byte, hwrite⟩ := h
  have hwithin := wp_trace wp_encryptionUpdateKey_within step hstep
  rw [hwrite] at hwithin
  obtain hpool | ⟨other, hother, hused, hmem⟩ | hbackup := hwithin
  · simp only [poolRegion, Set.mem_ofPred_eq] at hpool
    omega
  · rw [secretRegion, mem_burst (by simp; omega)] at hmem
    have hfield : pwdOffsetPwdIv = 42 := rfl
    obtain rfl : pwdId = other := by omega
    exact ⟨hother, hused⟩
  · exact absurd hbackup.2 (by omega)

/-! ## The invariant of the interrupted runs -/

/-- The progress of the secrets no longer changes once the first byte of the map
is done. -/
theorem secretsProgress_done {m n : ℕ} (hm : 8 ≤ m) (hn : 8 ≤ n)
    (h : (secretsProgress t p₀ key newKey).done m p) :
    (secretsProgress t p₀ key newKey).done n p := by
  intro id hid hused
  rw [if_pos (by omega : id < n), ← h id hid hused, if_pos (by omega : id < m)]

/-- The change of key that started from `p₀` can be taken up from `q`, and will
not leave out a chunk. -/
structure Resumable (t : Target) (p₀ : Image) (key newKey : Block) (q : Image) : Prop where
  map : ∀ id < 768, q.used id = p₀.used id
  phase : q.backupStatus = backupStatusOk ∨
    ((q.backupStatus = backupStatusChangeKey ∨ q.backupStatus = backupStatusChangeKeyChunkOk) ∧
      Journal (secretsProgress t p₀ key newKey) q ∧
      q.card mifareBlockKey = key ∧ q.card mifareBlockTempKey = newKey) ∨
    ((q.backupStatus = backupStatusChangeKeyUpdateCard ∨
        q.backupStatus = backupStatusChangeKeyValidation) ∧
      (secretsProgress t p₀ key newKey).Finished q ∧ q.card mifareBlockTempKey = newKey)

/-- Where the id is not one of the first, the journal is right in any case. -/
theorem IdWindow.journal {step : Step Write}
    (h : IdWindow (secretsProgress t p₀ key newKey) step p) (hgood : JournalKept step p) :
    Journal (secretsProgress t p₀ key newKey) p := by
  obtain ⟨hstatus, hwithin, old, new, hlt, hnew, hid, hdone⟩ := h
  have hlow : 8 ≤ p.backupId := by
    by_contra hlow
    exact hgood ⟨hwithin, hstatus, by omega⟩
  have htorn : tornId old new < 768 ∧ (8 ≤ tornId old new → 8 ≤ new) := by
    unfold tornId
    omega
  have hbound : p.backupId < 768 ∧ 8 ≤ new := by
    rcases hid with hid | hid
    · exact ⟨hid ▸ htorn.1, htorn.2 (hid ▸ hlow)⟩
    · exact ⟨hid ▸ hnew, hid ▸ hlow⟩
  exact Or.inr (Or.inr ⟨hstatus, hbound.1, secretsProgress_done hbound.2 (by omega) hdone⟩)

theorem Resumable.of_journal (hmap : ∀ id < 768, p.used id = p₀.used id)
    (hjournal : Journal (secretsProgress t p₀ key newKey) p)
    (hkey : p.card mifareBlockKey = key) (hnew : p.card mifareBlockTempKey = newKey) :
    Resumable t p₀ key newKey p where
  map := hmap
  phase := by
    rcases hjournal with hok | hresume | hnext
    · exact Or.inl hok
    · exact Or.inr (Or.inl ⟨Or.inl hresume.1, Or.inr (Or.inl hresume), hkey, hnew⟩)
    · exact Or.inr (Or.inl ⟨Or.inr hnext.1, Or.inr (Or.inr hnext), hkey, hnew⟩)

theorem Resumable.of_rekeyCut {step : Step Write} (hmap : ∀ id < 768, p.used id = p₀.used id)
    (hkey : p.card mifareBlockKey = key) (hnew : p.card mifareBlockTempKey = newKey)
    (hfar : Undisturbed p p')
    (hcut : RekeyCut (secretsProgress t p₀ key newKey) step p') (hgood : JournalKept step p') :
    Resumable t p₀ key newKey p' := by
  have hmap' := fun id hid => (hfar.map id hid).trans (hmap id hid)
  have hkey' := (congrFun hfar.card _).trans hkey
  have hnew' := (congrFun hfar.card _).trans hnew
  rcases hcut with hjournal | hwindow | ⟨hstatus, hfinished⟩
  · exact .of_journal hmap' hjournal hkey' hnew'
  · exact .of_journal hmap' (hwindow.journal hgood) hkey' hnew'
  · exact ⟨hmap', Or.inr (Or.inr ⟨Or.inl hstatus, hfinished, hnew'⟩)⟩

theorem Closing.finished {P : Progress t p₀.used key newKey} (h : Closing p p')
    (hfinished : P.Finished p) : P.Finished p' :=
  hfinished.imp fun _ hdone => P.done_frame hdone h.fram

/-- Behind the last chunk. -/
theorem Resumable.of_closing (hmap : ∀ id < 768, p.used id = p₀.used id)
    (hfinished : (secretsProgress t p₀ key newKey).Finished p)
    (hnew : p.card mifareBlockTempKey = newKey) (hclosing : Closing p p')
    (hstatus : p'.backupStatus = backupStatusOk ∨
      p'.backupStatus = backupStatusChangeKeyUpdateCard ∨
      p'.backupStatus = backupStatusChangeKeyValidation) :
    Resumable t p₀ key newKey p' where
  map id hid := (hclosing.map id hid).trans (hmap id hid)
  phase := hstatus.imp_right fun h =>
    Or.inr ⟨h, hclosing.finished hfinished, hclosing.card.trans hnew⟩

theorem ClosingCut.status {step : Step Write} (h : ClosingCut card newKey p step p')
    (hstatus : p.backupStatus = backupStatusChangeKeyUpdateCard) :
    p'.backupStatus = backupStatusOk ∨ p'.backupStatus = backupStatusChangeKeyUpdateCard ∨
      p'.backupStatus = backupStatusChangeKeyValidation := by
  rcases h.2 with ⟨-, hkept⟩ | ⟨hvalidation, -⟩ | hok
  · exact Or.inr (Or.inl (hkept.trans hstatus))
  · exact Or.inr (Or.inr hvalidation)
  · exact Or.inl hok

/-- A cut of a recovery leaves a state from which the next one can go on. -/
theorem Resumable.recover {step : Step Write} {cipher : BlockCipher}
    (h : Resumable ⟨.exact, cipher⟩ p₀ key newKey p) (hcard : card.Genuine)
    (hcut : CutAfter (backupRecover ⟨.exact, cipher⟩ card) p v step p')
    (hgood : JournalKept step p') : Resumable ⟨.exact, cipher⟩ p₀ key newKey p' := by
  rcases h.phase with hok | ⟨hstatus, hjournal, hkey, hnew⟩ | ⟨hstatus | hstatus, hfinished, hnew⟩
  · -- there is nothing to recover
    exact (wp_cutAfter (Q := fun _ _ _ => True) (H := fun _ _ => False) (C := fun _ _ => False)
      (wp_backupRecover_ok _ _ hok trivial) hcut).elim
  · rcases wp_cutAfter (wp_backupRecover_passwords (fun _ _ _ => Addressing.plain_exact _) hcard
      hkey hnew h.map hjournal hstatus) hcut with
      ⟨hfar, hrekey⟩ | ⟨r, hfar, hr, hfinished, hclosing⟩
    · exact .of_rekeyCut h.map hkey hnew hfar hrekey hgood
    · have hmap := fun id hid => (hfar.map id hid).trans (h.map id hid)
      exact .of_closing hmap hfinished ((congrFun hfar.card _).trans hnew) hclosing.1
        (hclosing.status hr)
  · have hclosing := wp_cutAfter (wp_backupRecover_card hcard hnew hstatus) hcut
    exact .of_closing h.map hfinished hnew hclosing.1 (hclosing.status hstatus)
  · obtain ⟨hclosing, -, hphase⟩ := wp_cutAfter
      (wp_backupRecover_validation hcard hnew hstatus) hcut
    exact .of_closing h.map hfinished hnew hclosing (hphase.symm.imp_right Or.inr)

/-- Until the status of the next stage is written, the id of a chunk being
written is the only thing that can go wrong; the write of that status is none. -/
theorem journalKept_status {step : Step Write} {status : Byte}
    (h : step.write = .fram offsetBackupStatus status) : JournalKept step p := by
  rintro ⟨hwithin, -⟩
  rw [h] at hwithin
  exact absurd hwithin.1 (by decide)

/-! ## The claim for runs -/

/-- The change of key, cut short anywhere but in the moment that `JournalKept`
excludes, then recovered in any number of attempts cut short in the same way: an
attempt that comes to the end of the loop leaves the chunks of the call under
the new key, with the password and user name they had. -/
theorem rekey_crash (cipher : BlockCipher) {v₀ v₂ : Ram} {p₁ p₂ : Image} {step : Step Write}
    (hok : p₀.backupStatus = backupStatusOk) (hkey : p₀.card mifareBlockKey = v₀.key)
    (hnew : p₀.card mifareBlockTempKey = newKey)
    (hcut : CutWhere JournalKept (encryptionUpdateKey ⟨.exact, cipher⟩ newKey 0) p₀ v₀ p₁)
    (hagain : Interrupted (fun card : { card : CardSession // card.Genuine } =>
      CutWhere JournalKept (backupRecover ⟨.exact, cipher⟩ card)) p₁ p₂)
    (hcard : card.Genuine)
    (hend : CutAfter (backupRecover ⟨.exact, cipher⟩ card) p₂ v₂ step p')
    (hstep : step.write = .fram offsetBackupStatus backupStatusChangeKeyUpdateCard) :
    ∀ id < maximumNumberOfPwd, Reencrypted ⟨.exact, cipher⟩ newKey p₀ v₀ id →
      passwordReadData ⟨.exact, cipher⟩ id newKey p' =
          passwordReadData ⟨.exact, cipher⟩ id v₀.key p₀ ∧
        passwordReadUsrName ⟨.exact, cipher⟩ id newKey p' =
          passwordReadUsrName ⟨.exact, cipher⟩ id v₀.key p₀ := by
  set t : Target := ⟨.exact, cipher⟩
  have hstart : RekeyInv (secretsProgress t p₀ v₀.key newKey) 0 p₀ v₀ :=
    { key := rfl
      map := fun _ _ => rfl
      done := fun id _ _ => by rw [if_neg (Nat.not_lt_zero id)]
      status := Or.inl hok
      resume := fun h => absurd (hok.symm.trans h) (by decide)
      next := fun h => absurd (hok.symm.trans h) (by decide) }
  -- the first run
  have hfirst : Resumable t p₀ v₀.key newKey p₁ := by
    rcases hcut with rfl | ⟨step₁, hgood, hstep₁⟩
    · exact ⟨fun _ _ => rfl, Or.inl hok⟩
    · obtain ⟨hfar, hrekey⟩ := wp_cutAfter
        (wp_rekey (fun _ _ _ => Addressing.plain_exact _) (by decide) hstart) hstep₁
      exact .of_rekeyCut (fun _ _ => rfl) hkey hnew hfar (hrekey.imp_right Or.inl) hgood
  -- the recoveries
  have hlast : Resumable t p₀ v₀.key newKey p₂ := by
    refine hagain.invariant ?_ hfirst
    rintro ⟨card, hcard⟩ p v p' h (rfl | ⟨step, hgood, hstep⟩)
    · exact h
    · exact h.recover hcard hstep hgood
  have hafter := hlast.recover hcard hend (journalKept_status hstep)
  have hstatus : p'.backupStatus = backupStatusChangeKeyUpdateCard := by
    obtain ⟨before, rfl⟩ := hend.applied
    rw [hstep]
    exact before.backupStatus_store _
  rcases hafter.phase with hidle | ⟨hphase, -⟩ | ⟨-, ⟨row, hdone⟩, -⟩
  · exact absurd (hidle.symm.trans hstatus) (by decide)
  · rcases hphase with h | h <;> exact absurd (h.symm.trans hstatus) (by decide)
  · intro id hid hre
    obtain ⟨hlow, hused⟩ := hre.visited (by simpa using hid)
    have := hdone id hlow hused
    rw [if_pos (by omega)] at this
    exact Prod.ext_iff.mp this

/-! ## Two power losses -/

/-- Chunks 0 and 1 are used, and the card keeps a new key. -/
def Image.firstTwo (newKey : Block) : Image :=
  { Image.zero with
    fram := fun x => if x = offsetMemoryMap then 3 else 0
    card := Function.update Image.zero.card mifareBlockTempKey newKey }

/-- Cut short while chunk 1 is copied, and recovered. -/
theorem rekey_crash_450 :
    let t : Target := ⟨.exact, .xorKey⟩
    let newKey : Block := Vector.replicate 16 64
    let v := Ram.reset (fun _ => Vector.replicate 4 7) zeroIv
    let p₁ := replay (Image.firstTwo newKey)
      ((encryptionUpdateKey t newKey 0 (.firstTwo newKey) v).trace.take 450)
    let p' := replay p₁ ((backupRecover t .correct p₁ v).trace.take 367)
    passwordReadData t 1 newKey p' = passwordReadData t 1 v.key (.firstTwo newKey) := by
  intro t newKey v p₁ p'
  have hcut : CutAfter (encryptionUpdateKey t newKey 0) (.firstTwo newKey) v
      ⟨.fram 448 0, false⟩ p₁ := cutAfter_take (k := 449) (by decide +kernel)
  have hend : CutAfter (backupRecover t .correct) p₁ v ⟨.fram 362 4, false⟩ p' :=
    cutAfter_take (k := 366) (by decide +kernel)
  have hvisited : Reencrypted t newKey (.firstTwo newKey) v 1 :=
    ⟨⟨.fram 747 7, false⟩, List.mem_of_getElem? (i := 571) (by decide +kernel), 7, rfl⟩
  have hok : (Image.firstTwo newKey).backupStatus = backupStatusOk := by decide
  refine (rekey_crash .xorKey hok (by decide) (by decide) (Or.inr ⟨_, ?_, hcut⟩) .refl
    CardSession.genuine_correct hend rfl 1 (by decide) hvisited).1
  exact fun h => absurd h.1.2 (by decide)

theorem passwordReadData_skipped :
    let t : Target := ⟨.exact, .xorKey⟩
    let newKey : Block := Vector.replicate 16 64
    let v := Ram.reset (fun _ => Vector.replicate 4 7) zeroIv
    let p₁ := replay (Image.firstTwo newKey)
      ((encryptionUpdateKey t newKey 0 (.firstTwo newKey) v).trace.take 537)
    passwordReadData t 1 newKey (replay p₁ ((backupRecover t .correct p₁ v).trace.take 1)) ≠
      passwordReadData t 1 v.key (.firstTwo newKey) := by
  decide +kernel

/-- Cut short between the id of chunk 1 and its status, recovery goes on behind
chunk 1, which stays under the old key. -/
theorem rekey_crash_skips_one :
    ¬ ∀ (cipher : BlockCipher) (newKey : Block) (p₀ p₁ p₂ p' : Image) (v₀ v₂ : Ram)
      (card : CardSession) (step : Step Write),
      p₀.backupStatus = backupStatusOk → p₀.card mifareBlockKey = v₀.key →
      p₀.card mifareBlockTempKey = newKey →
      Cut (encryptionUpdateKey ⟨.exact, cipher⟩ newKey 0) p₀ v₀ p₁ →
      Interrupted (fun card : { card : CardSession // card.Genuine } =>
        Cut (backupRecover ⟨.exact, cipher⟩ card)) p₁ p₂ →
      card.Genuine → CutAfter (backupRecover ⟨.exact, cipher⟩ card) p₂ v₂ step p' →
      step.write = .fram offsetBackupStatus backupStatusChangeKeyUpdateCard →
      ∀ id < maximumNumberOfPwd, Reencrypted ⟨.exact, cipher⟩ newKey p₀ v₀ id →
        passwordReadData ⟨.exact, cipher⟩ id newKey p' =
            passwordReadData ⟨.exact, cipher⟩ id v₀.key p₀ ∧
          passwordReadUsrName ⟨.exact, cipher⟩ id newKey p' =
            passwordReadUsrName ⟨.exact, cipher⟩ id v₀.key p₀ := by
  intro hclaim
  let t : Target := ⟨.exact, .xorKey⟩
  let newKey : Block := Vector.replicate 16 64
  let v := Ram.reset (fun _ => Vector.replicate 4 7) zeroIv
  let p₁ := replay (Image.firstTwo newKey)
    ((encryptionUpdateKey t newKey 0 (.firstTwo newKey) v).trace.take 537)
  have hend : CutAfter (backupRecover t .correct) p₁ v ⟨.fram 362 4, false⟩
      (replay p₁ ((backupRecover t .correct p₁ v).trace.take 1)) :=
    cutAfter_take (k := 0) (by decide +kernel)
  have hvisited : Reencrypted t newKey (.firstTwo newKey) v 1 :=
    ⟨⟨.fram 747 7, false⟩, List.mem_of_getElem? (i := 571) (by decide +kernel), 7, rfl⟩
  refine passwordReadData_skipped (hclaim .xorKey newKey (.firstTwo newKey) p₁ p₁ _ v v .correct _
    (by decide) (by decide) (by decide) ⟨_, List.take_prefix _ _, rfl⟩ .refl
    CardSession.genuine_correct hend rfl 1 (by decide) hvisited).1

end PasswordWallet
