import PasswordWallet.Rekey.UpdateKey

/-!
# The progress of a re-keying

How far a re-keying has come is a property of the image: the chunks below some
id are done, the others are not.  `Progress` says what such a property has to
satisfy to be carried through `encryption_update_key`, and through the power
losses inside it and the recoveries after them.  Two instances matter:
`secretsProgress`, which follows the secrets of the chunks that the call visits,
and `noProgress`, for what does not depend on them.

`Journal` ties the backup section to the progress.  `wp_rekey` shows that every
power loss inside the call leaves a journal, except while the id is written
under the status of the chunk before.
-/

namespace PasswordWallet

open PowerLoss

variable {t : Target} {p p' : Image} {v : Ram}

/-! ## Where chunks do not meet -/

theorem chunkRegion_disjoint {pwdId other x : ℕ} (hid : pwdId < 767) (hother : other < 768)
    (hne : pwdId ≠ other) (hx : x ∈ chunkRegion pwdId) : x ∉ chunkRegion other := by
  rw [mem_chunkRegion hid] at hx
  rcases Nat.lt_or_ge other 767 with hlt | hge
  · rw [mem_chunkRegion hlt]
    omega
  · -- the bytes of the last chunk that go round the end come before every chunk
    obtain rfl : other = 767 := by omega
    rintro ⟨i, hi, rfl⟩
    simp only [framByteSize] at hx
    rcases Nat.lt_or_ge (535 + 170 * 767 + i) 131072 with hlt | hge
    · rw [Nat.mod_eq_of_lt hlt] at hx
      omega
    · omega

theorem chunkRegion_notMem_backup {pwdId x : ℕ} (hid : pwdId < 768)
    (hx : x ∈ chunkRegion pwdId) : x ∉ backupRegion := fun h =>
  notMem_chunkRegion hid (le_trans (by decide) h.1) h.2 hx

theorem chunkRegion_notMem_update {pwdId other x : ℕ} (hid : pwdId < 767) (hother : other < 768)
    (hne : pwdId ≠ other) (hx : x ∈ chunkRegion pwdId) : x ∉ updateRegion other := by
  have hlow := ((mem_chunkRegion hid).mp hx).1
  refine notMem_drawing (by omega) ?_
  rintro (h | h)
  · exact chunkRegion_disjoint hid hother hne hx (secretRegion_subset h)
  · exact chunkRegion_notMem_backup (by omega) hx h

theorem map_notMem_update {pwdId x : ℕ} (hid : pwdId < 768) (hlow : 263 ≤ x) (hhigh : x < 362) :
    x ∉ updateRegion pwdId := by
  refine notMem_drawing (by omega) ?_
  rintro (h | h)
  · exact notMem_chunkRegion hid (by omega) (by omega) (secretRegion_subset h)
  · exact absurd h.1 (by omega)

/-! ## Progress -/

/-- A property of images that follows a re-keying of the used chunks. -/
structure Progress (t : Target) (used : ℕ → Bool) (key newKey : Block) where
  /-- The chunks below `n` are done. -/
  done : ℕ → Image → Prop
  /-- As `done n`, but that chunk `n` is the one in the backup section. -/
  copied : ℕ → Image → Prop
  done_frame {n : ℕ} {q q' : Image} : done n q →
    (∀ x ∉ drawing backupRegion, q'.fram x = q.fram x) → done n q'
  done_skip {n : ℕ} {q : Image} : done n q → ¬ (n < 768 ∧ used n = true) → done (n + 1) q
  done_succ {n : ℕ} {q q' : Image} : n < 768 → done n q → SameOff (updateRegion n) q q' →
    (n < 767 → secrets t n newKey q' = secrets t n key q) → done (n + 1) q'
  copied_of_done {n : ℕ} {q q' : Image} : n < 768 → used n = true → done n q →
    SameOff (updateRegion n) q q' → Saved (q.chunkByte n) n q' → copied n q'
  copied_restoring {n : ℕ} {q q' : Image} : n < 768 → copied n q →
    SameOff (chunkRegion n) q q' → copied n q'
  done_of_copied {n : ℕ} {q q' : Image} : n < 768 → copied n q → SameOff (chunkRegion n) q q' →
    (∀ i < 170, q'.chunkByte n i = q.backupByte i) → done n q'

/-- The progress that says nothing. -/
def noProgress (t : Target) (used : ℕ → Bool) (key newKey : Block) :
    Progress t used key newKey where
  done _ _ := True
  copied _ _ := True
  done_frame _ _ := trivial
  done_skip _ _ := trivial
  done_succ _ _ _ _ := trivial
  copied_of_done _ _ _ _ _ := trivial
  copied_restoring _ _ _ := trivial
  done_of_copied _ _ _ _ := trivial

theorem plain_of_lt_eight {pwdId : ℕ} (hid : pwdId < 8) : t.addressing.Plain pwdId :=
  Addressing.plain_of_lt (by
    cases t.addressing with
    | exact => exact hid.trans (by decide)
    | avr => exact hid.trans (by decide))

/-- The secrets of the chunks of the first byte of the map: those below `n` are
readable under the new key, the others under the old one, and they are those of
`p₀`. -/
def secretsProgress (t : Target) (p₀ : Image) (key newKey : Block) :
    Progress t p₀.used key newKey where
  done n q := ∀ id < 8, p₀.used id = true →
    secrets t id (if id < n then newKey else key) q = secrets t id key p₀
  copied n q :=
    (∀ id < 8, p₀.used id = true → id ≠ n →
      secrets t id (if id < n then newKey else key) q = secrets t id key p₀) ∧
    (n < 8 → p₀.used n = true → ∃ r, secrets t n key r = secrets t n key p₀ ∧
      ∀ i < 170, q.backupByte i = r.chunkByte n i)
  done_frame h hsame id hid hused := by
    rw [← h id hid hused]
    exact secrets_congr (plain_of_lt_eight hid) fun i _ hi => hsame _
      (chunkByte_notMem_pool (by omega) hi fun hmem => absurd hmem.2 (by omega))
  done_skip {n _} h hskip id hid hused := by
    rw [← h id hid hused]
    have hne : id ≠ n := fun heq => hskip ⟨heq ▸ by omega, heq ▸ hused⟩
    congr 1
    exact if_congr (by omega) rfl rfl
  done_succ {n _ _} hn h hsame hsecrets id hid hused := by
    rw [← h id hid hused]
    by_cases hne : id = n
    · subst hne
      rw [if_pos (Nat.lt_succ_self id), if_neg (lt_irrefl id), hsecrets (by omega)]
    · rw [show (if id < n + 1 then newKey else key) = if id < n then newKey else key from
        if_congr (by omega) rfl rfl]
      exact secrets_congr (plain_of_lt_eight hid) fun i _ hi =>
        hsame.chunkByte hi fun x hx => chunkRegion_notMem_update (by omega) hn hne hx
  copied_of_done {n q _} hn hused h hsame hsaved := by
    refine ⟨fun id hid hused hne => ?_, fun hlt _ => ⟨q, ?_, hsaved.byte⟩⟩
    · rw [← h id hid hused]
      exact secrets_congr (plain_of_lt_eight hid) fun i _ hi =>
        hsame.chunkByte hi fun x hx => chunkRegion_notMem_update (by omega) hn hne hx
    · have := h n hlt hused
      rwa [if_neg (lt_irrefl n)] at this
  copied_restoring {n _ _} hn h hsame := by
    refine ⟨fun id hid hused hne => ?_, fun hlt hused => ?_⟩
    · rw [← h.1 id hid hused hne]
      exact secrets_congr (plain_of_lt_eight hid) fun i _ hi =>
        hsame.chunkByte hi fun x hx => chunkRegion_disjoint (by omega) hn hne hx
    · obtain ⟨r, hr, hcopy⟩ := h.2 hlt hused
      refine ⟨r, hr, fun i hi => (hsame.backupByte (fun x hx hx' => ?_) hi).trans (hcopy i hi)⟩
      exact notMem_chunkRegion hn (by omega) hx'
  done_of_copied {n q q'} hn h hsame hcopy id hid hused := by
    by_cases hne : id = n
    · subst hne
      obtain ⟨r, hr, hbyte⟩ := h.2 hid hused
      rw [if_neg (lt_irrefl id), ← hr]
      exact secrets_congr (plain_of_lt_eight hid) fun i _ hi =>
        (hcopy i hi).trans (hbyte i hi)
    · rw [← h.1 id hid hused hne]
      exact secrets_congr (plain_of_lt_eight hid) fun i _ hi =>
        hsame.chunkByte hi fun x hx => chunkRegion_disjoint (by omega) hn hne hx

/-! ## The loop -/

variable {used : ℕ → Bool} {key newKey : Block} {P : Progress t used key newKey} {pos : ℕ}

theorem Progress.done_backup {n : ℕ} (P : Progress t used key newKey) (h : P.done n p)
    (hsame : SameOff backupRegion p p') : P.done n p' :=
  P.done_frame h fun x hx => hsame.fram x fun hmem => hx (Or.inr hmem)

/-- The chunks below `pos` are done. -/
structure RekeyDone (P : Progress t used key newKey) (pos : ℕ) (q : Image) (v : Ram) : Prop where
  key : v.key = key
  map : ∀ id < 768, q.used id = used id
  done : P.done pos q

theorem RekeyDone.skip (h : RekeyDone P pos p v) (hskip : ¬ (pos < 768 ∧ used pos = true)) :
    RekeyDone P (pos + 1) p v :=
  { h with done := P.done_skip h.done hskip }

theorem wp_updateChunk_done (hplain : t.addressing.Plain pos) (hid : pos < 768)
    (h : RekeyDone P pos p v) :
    wp (updateChunk t newKey pos)
      (fun _ p' v' => RekeyDone P (pos + 1) p' v' ∧ SameOff (updateRegion pos) p p' ∧
        p'.backupStatus = backupStatusChangeKeyChunkOk ∧ p'.backupId = pos)
      (fun _ _ => False)
      (fun step p' => SameOff (updateRegion pos) p p' ∧ ChunkCut t newKey key p pos step p')
      p v := by
  have hchunk : wp (updateChunk t newKey pos) _ _ _ p v := wp_updateChunk hplain hid
  have hframe := wp_sameOff (wp_mono hchunk (fun _ _ _ => id) (fun _ _ => id) fun _ _ h => h.1)
  rw [h.key] at hchunk hframe
  refine wp_mono (wp_and hchunk hframe) ?_ (fun _ _ h => h.1) fun _ _ h => ⟨h.2.2, h.1.2⟩
  rintro _ p' v' ⟨⟨hdrawn, hstatus, hpos, hsecrets⟩, hsame, -⟩
  refine ⟨⟨hdrawn.key.trans h.key, fun id hlt => ?_, ?_⟩, hsame, hstatus, hpos⟩
  · have hbit : id < 8 * sizeMemoryMap := by simp only [sizeMemoryMap]; omega
    rw [hsame.used (fun x hx hx' => map_notMem_update hid hx hx') hbit, h.map id hlt]
  · exact P.done_succ hid h.done hsame hsecrets

/-! ## The journal -/

/-- What the backup section says of the progress, in the phases in which chunks
are re-keyed. -/
def Journal (P : Progress t used key newKey) (q : Image) : Prop :=
  q.backupStatus = backupStatusOk ∨
    (q.backupStatus = backupStatusChangeKey ∧ q.backupId < 768 ∧ used q.backupId = true ∧
      P.copied q.backupId q) ∨
    (q.backupStatus = backupStatusChangeKeyChunkOk ∧ q.backupId < 768 ∧
      P.done (q.backupId + 1) q)

/-- The id of chunk `new` is being written while the status still says that
chunk `old` is done. -/
def IdWindow (P : Progress t used key newKey) (step : Step Write) (q : Image) : Prop :=
  q.backupStatus = backupStatusChangeKeyChunkOk ∧ step.write.Within backupIdRegion ∧
    ∃ old new, old < new ∧ new < 768 ∧ (q.backupId = tornId old new ∨ q.backupId = new) ∧
      P.done new q

/-- The invariant of the loop: the section is idle, or it holds the chunk that
comes next, or it says that the last one is done. -/
structure RekeyInv (P : Progress t used key newKey) (pos : ℕ) (q : Image) (v : Ram) : Prop
    extends RekeyDone P pos q v where
  status : q.backupStatus = backupStatusOk ∨ q.backupStatus = backupStatusChangeKey ∨
    q.backupStatus = backupStatusChangeKeyChunkOk
  resume : q.backupStatus = backupStatusChangeKey →
    pos < 768 ∧ used pos = true ∧ Saved (q.chunkByte pos) pos q
  next : q.backupStatus = backupStatusChangeKeyChunkOk →
    q.backupId < 768 ∧ q.backupId < pos ∧ P.done (q.backupId + 1) q

theorem RekeyInv.skip (h : RekeyInv P pos p v) (hskip : ¬ (pos < 768 ∧ used pos = true)) :
    RekeyInv P (pos + 1) p v where
  toRekeyDone := h.toRekeyDone.skip hskip
  status := h.status
  resume hstatus := absurd ⟨(h.resume hstatus).1, (h.resume hstatus).2.1⟩ hskip
  next hstatus :=
    have hnext := h.next hstatus
    ⟨hnext.1, hnext.2.1.trans (Nat.lt_succ_self pos), hnext.2.2⟩

/-- The power losses inside one chunk. -/
theorem RekeyInv.cut (h : RekeyInv P pos p v) (hid : pos < 768) (hused : used pos = true)
    {step : Step Write} (hsame : SameOff (updateRegion pos) p p')
    (hcut : ChunkCut t newKey key p pos step p') : Journal P p' ∨ IdWindow P step p' := by
  have hcopied : p'.backupStatus = backupStatusChangeKey → Saved (p.chunkByte pos) pos p' →
      Journal P p' := fun hstatus hsaved => by
    have hpos := hsaved.id
    have hcopied := P.copied_of_done hid hused h.done hsame hsaved
    exact Or.inr (Or.inl ⟨hstatus, hpos ▸ hid, hpos ▸ hused, hpos ▸ hcopied⟩)
  rcases hcut with ⟨-, hbackup, hold | ⟨hstatus, hsaved⟩⟩ | ⟨hstatus, hsaved, -⟩ |
    ⟨hstatus, hpos, -, hsecrets⟩
  · obtain ⟨hstatus, hkept, hidold⟩ := hold
    rcases h.status with hok | hresume | hnext
    · exact Or.inl (Or.inl (hstatus.trans hok))
    · exact Or.inl (hcopied (hstatus.trans hresume) (hkept (h.resume hresume).2.2))
    · obtain ⟨hlast, hlt, hdone⟩ := h.next hnext
      rcases hidold with hidold | ⟨hwithin, htorn⟩
      · have hdone := P.done_backup hdone hbackup
        rw [← hidold] at hdone hlast
        exact Or.inl (Or.inr (Or.inr ⟨hstatus.trans hnext, hlast, hdone⟩))
      · exact Or.inr ⟨hstatus.trans hnext, hwithin, p.backupId, pos, hlt, hid, htorn,
          P.done_backup h.done hbackup⟩
  · exact Or.inl (hcopied hstatus hsaved)
  · exact Or.inl (hcopied hstatus hsaved)
  · have hdone := P.done_succ hid h.done hsame hsecrets
    exact Or.inl (Or.inr (Or.inr ⟨hstatus, hpos ▸ hid, hpos ▸ hdone⟩))

/-- What re-keying leaves alone. -/
structure Undisturbed (p q : Image) : Prop where
  card : q.card = p.card
  eeprom : q.eeprom = p.eeprom
  map : ∀ id < 768, q.used id = p.used id

theorem Undisturbed.refl (p : Image) : Undisturbed p p := ⟨rfl, rfl, fun _ _ => rfl⟩

theorem Undisturbed.trans {p₁ p₂ p₃ : Image} (h₁ : Undisturbed p₁ p₂) (h₂ : Undisturbed p₂ p₃) :
    Undisturbed p₁ p₃ :=
  ⟨h₂.card.trans h₁.card, h₂.eeprom.trans h₁.eeprom,
    fun id hid => (h₂.map id hid).trans (h₁.map id hid)⟩

theorem SameOff.undisturbed {R : Set ℕ} (h : SameOff R p p')
    (hR : ∀ x, 263 ≤ x → x < 362 → x ∉ R) : Undisturbed p p' :=
  ⟨h.card, h.eeprom, fun _ hid => h.used hR (by simp only [sizeMemoryMap]; omega)⟩

/-- Re-keying from a journal: what it ends with, and what a power loss on the way
leaves. -/
theorem wp_rekey {startFrom : ℕ} (hplain : ∀ id < 768, used id = true → t.addressing.Plain id)
    (hrow : startFrom < 792) (h : RekeyInv P startFrom p v) :
    wp (encryptionUpdateKey t newKey startFrom)
      (fun _ p' v' => v'.key = newKey ∧ Undisturbed p p' ∧
        P.done (8 * (startFrom / 8) + 8) p')
      (fun _ _ => False)
      (fun step p' => Undisturbed p p' ∧ (Journal P p' ∨ IdWindow P step p')) p v := by
  refine wp_encryptionUpdateKey (fun pos q w => RekeyInv P pos q w ∧ Undisturbed p q) hrow
    ⟨h, .refl p⟩ ?_ ?_ fun _ _ hend => ⟨rfl, hend.2, hend.1.done⟩
  · rintro id q w _ _ hid hbit ⟨hinv, hfar⟩
    have hused : used id = true := h.map id hid ▸ hbit
    have hmap : ∀ x, 263 ≤ x → x < 362 → x ∉ updateRegion id :=
      fun x hx hx' => map_notMem_update hid hx hx'
    refine wp_mono (wp_updateChunk_done (hplain id hid hused) hid hinv.toRekeyDone) ?_
      (fun _ _ => False.elim) ?_
    · rintro _ q' w' ⟨hdone, hsame, hstatus, hpos⟩
      refine ⟨⟨hdone, Or.inr (Or.inr hstatus), fun hresume => ?_, fun _ => ?_⟩,
        hfar.trans (hsame.undisturbed hmap)⟩
      · exact absurd (hresume.symm.trans hstatus) (by decide)
      · rw [hpos]
        exact ⟨hid, Nat.lt_succ_self id, hdone.done⟩
    · rintro step q' ⟨hsame, hcut⟩
      exact ⟨hfar.trans (hsame.undisturbed hmap), hinv.cut hid hused hsame hcut⟩
  · rintro id q w _ _ hskip ⟨hinv, hfar⟩
    exact ⟨hinv.skip fun hid => hskip ⟨hid.1, (h.map id hid.1).trans hid.2⟩, hfar⟩

end PasswordWallet
