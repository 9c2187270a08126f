import PasswordWallet.Options.CallbackPassword
import PasswordWallet.Security.Recover

/-!
# Editing a secret is atomic

The three edits save the chunk, rewrite it, and free the backup section.  A
power loss leaves one of two kinds of stores:

* `Undoable`: the status is `BACKUP_STATUS_UPDATE` and the section holds the
  chunk as it was, so that a recovery puts it back, however often it is
  interrupted itself;
* `Settled`: the status is `BACKUP_STATUS_OK` and the chunk is whole, the old one
  before the status is first written, the new one once it has been freed.

`edit_atomic` puts these together for every edit, power loss and sequence of
interrupted recoveries.
-/

namespace PasswordWallet

open PowerLoss

inductive EditOperation
  | regenerate (fuel : ℕ) (confirmed : Bool)
  | changePwd (typing : Typing 32)
  | changeUsrName (typing : Typing 64)

def EditOperation.run (t : Target) : EditOperation → Dev Unit
  | regenerate fuel confirmed => optCallbackRegeneratePwd t fuel confirmed
  | changePwd typing => optCallbackChangePwd t typing
  | changeUsrName typing => optCallbackChangeUsrName t typing

/-- What an edit may touch: the chunk, the backup section, the entropy pool. -/
def editRegion (pwdId : ℕ) : Set ℕ := drawing (chunkRegion pwdId ∪ backupRegion)

/-- An edit of `p₀` is under way, and the section holds the chunk of `p₀`. -/
structure Undoable (p₀ : Image) (pwdId : ℕ) (p : Image) : Prop where
  status : p.backupStatus = backupStatusUpdate
  saved : Saved (p₀.chunkByte pwdId) pwdId p
  frame : SameOff (editRegion pwdId) p₀ p

/-- No edit is under way, and the chunk is `chunk`. -/
structure Settled (p₀ : Image) (chunk : ℕ → Byte) (pwdId : ℕ) (p : Image) : Prop where
  status : p.backupStatus = backupStatusOk
  chunk : ∀ i < 170, p.chunkByte pwdId i = chunk i
  frame : SameOff (editRegion pwdId) p₀ p

variable {t : Target} {p₀ p p₁ : Image} {v : Ram} {pwdId : ℕ} {edit : ℕ → Dev Unit}

theorem backupRegion_subset_editRegion : backupRegion ⊆ editRegion pwdId :=
  Set.subset_union_right.trans Set.subset_union_right

theorem chunkRegion_subset_editRegion : drawing (chunkRegion pwdId) ⊆ editRegion pwdId :=
  Set.union_subset_union_right _ Set.subset_union_left

/-- The backup section is out of reach of what is written to the chunk. -/
theorem backup_notMem_drawing (hid : pwdId < 768) {x : ℕ} (hx : 362 ≤ x) (hx' : x < 535) :
    x ∉ drawing (chunkRegion pwdId) :=
  notMem_drawing (by omega) (notMem_chunkRegion hid (by omega) hx')

theorem Settled.of_backup {chunk : ℕ → Byte} (hid : pwdId < 768) (h : SameOff backupRegion p p₁)
    (hstatus : p₁.backupStatus = backupStatusOk)
    (hchunk : ∀ i < 170, p.chunkByte pwdId i = chunk i) (hframe : SameOff (editRegion pwdId) p₀ p) :
    Settled p₀ chunk pwdId p₁ where
  status := hstatus
  chunk i hi := (h.chunkByte hi fun _ hx hmem =>
    notMem_chunkRegion hid (le_trans (by decide) hmem.1) hmem.2 hx).trans (hchunk i hi)
  frame := hframe.trans (h.mono backupRegion_subset_editRegion)

/-! ## Recovery -/

theorem wp_backupRecover_settled (card : CardSession) {chunk : ℕ → Byte}
    (h : Settled p₀ chunk pwdId p) :
    wp (backupRecover t card) (fun _ p' _ => Settled p₀ chunk pwdId p') (fun _ _ => False)
      (fun _ p' => Settled p₀ chunk pwdId p') p v :=
  wp_backupRecover_ok t card h.status h

/-- Undoing an edit. -/
theorem wp_backupRecover_undoable (card : CardSession) (hplain : t.addressing.Plain pwdId)
    (hid : pwdId < 768) (h : Undoable p₀ pwdId p) :
    wp (backupRecover t card) (fun _ p' _ => Settled p₀ (p₀.chunkByte pwdId) pwdId p')
      (fun _ _ => False)
      (fun _ p' => Undoable p₀ pwdId p' ∨ Settled p₀ (p₀.chunkByte pwdId) pwdId p') p v := by
  have hstatus : p.byte offsetBackupStatus = backupStatusUpdate := h.status
  have hpid := h.saved.id
  have hregion : chunkRegion pwdId ∪ backupRegion ⊆ editRegion pwdId := Set.subset_union_right
  have hchunk : chunkRegion pwdId ⊆ drawing (chunkRegion pwdId) := Set.subset_union_right
  rw [backupRecover, wp_bind, wp_framReadByte, if_neg (by rw [hstatus]; decide), if_pos hstatus]
  have hrestore := wp_backupRestore (t := t) (p := p) (v := v) (hpid ▸ hplain) (hpid ▸ hid)
  have hframe := wp_sameOff (wp_mono hrestore (fun _ _ _ => id) (fun _ _ => id) fun _ _ h => h.1)
  rw [hpid] at hframe
  refine wp_mono (wp_and hrestore hframe) ?_ (fun _ _ h => h.1) ?_
  · rintro _ p' v' ⟨⟨-, hok, hcopy⟩, hsame, -⟩
    refine ⟨hok, fun i hi => ?_, h.frame.trans (hsame.mono hregion)⟩
    rw [← h.saved.byte i hi, ← hcopy (by rw [h.status]; decide) i hi, hpid]
  · rintro step p' ⟨⟨-, hcut⟩, -, hsame⟩
    rw [hpid] at hcut
    rcases hcut with hcopying | ⟨hok, hcopy⟩
    · refine Or.inl ⟨?_, ?_, h.frame.trans (hsame.mono hregion)⟩
      · refine (hcopying.backupStatus ?_).trans h.status
        exact notMem_chunkRegion hid (by decide) (by decide)
      · exact h.saved.of_sameOff hcopying fun x hx hx' =>
          notMem_chunkRegion hid (by omega) hx'
    · refine Or.inr ⟨hok, fun i hi => ?_, h.frame.trans (hsame.mono hregion)⟩
      rw [← h.saved.byte i hi, ← hcopy i hi]

/-! ## The edit -/

/-- What an edit may do between the save and the freeing. -/
def Editing (edit : ℕ → Dev Unit) (pwdId : ℕ) : Prop :=
  ∀ p v, wp (edit pwdId) (fun _ _ _ => True) (fun _ _ => True)
    (fun step _ => step.write.Within (drawing (chunkRegion pwdId))) p v

/-- Saving the chunk. -/
theorem wp_backupSave_update (hplain : t.addressing.Plain pwdId) (hid : pwdId < 768)
    (hok : p.backupStatus = backupStatusOk) :
    wp (backupSave t pwdId backupStatusUpdate) (fun _ p' _ => Undoable p pwdId p')
      (fun _ _ => False)
      (fun _ p' => Settled p (p.chunkByte pwdId) pwdId p' ∨ Undoable p pwdId p') p v := by
  have hframe : ∀ {p'}, SameOff backupRegion p p' → SameOff (editRegion pwdId) p p' :=
    fun hsame => hsame.mono backupRegion_subset_editRegion
  refine wp_mono (wp_backupSave hplain hid) ?_ (fun _ _ => id) ?_
  · rintro _ p' v' ⟨-, hsame, hstatus, hsaved⟩
    exact ⟨hstatus, hsaved, hframe hsame⟩
  · rintro step p' ⟨-, hsame, ⟨hstatus, -⟩ | ⟨hstatus, hsaved⟩⟩
    · exact Or.inl (.of_backup hid hsame (hstatus.trans hok) (fun _ _ => rfl) (.refl _ _))
    · exact Or.inr ⟨hstatus, hsaved, hframe hsame⟩

/-- Rewriting the secret leaves the saved chunk alone. -/
theorem wp_edit_undoable (hid : pwdId < 768) (hedit : Editing edit pwdId)
    (h : Undoable p₀ pwdId p) :
    wp (edit pwdId) (fun _ p' _ => Undoable p₀ pwdId p') (fun _ _ => True)
      (fun _ p' => Undoable p₀ pwdId p') p v := by
  have hkept : ∀ {p'}, SameOff (drawing (chunkRegion pwdId)) p p' → Undoable p₀ pwdId p' :=
    fun hsame =>
      { status := (hsame.backupStatus
          (backup_notMem_drawing hid (by decide) (by decide))).trans h.status
        saved := h.saved.of_sameOff hsame fun x hx hx' =>
          backup_notMem_drawing hid (by omega) hx'
        frame := h.frame.trans (hsame.mono chunkRegion_subset_editRegion) }
  exact wp_mono (wp_sameOff (hedit p v)) (fun _ _ _ h => hkept h.1) (fun _ _ => id)
    fun _ _ h => hkept h.2

theorem protectedEdit_run (t : Target) (edit : ℕ → Dev Unit) (p : Image) (v : Ram) :
    protectedEdit t edit p v = (do
      backupSave t v.currentPasswordId backupStatusUpdate
      edit v.currentPasswordId
      backupFree : Dev Unit) p v :=
  bind_silent rfl

/-- Every power loss inside an edit: the old chunk, a chunk that can be undone,
or the chunk that the edit ends with. -/
theorem cut_protectedEdit (hplain : t.addressing.Plain v.currentPasswordId)
    (hid : v.currentPasswordId < 768) (hedit : Editing edit v.currentPasswordId)
    (hok : p.backupStatus = backupStatusOk) (hcut : Cut (protectedEdit t edit) p v p₁) :
    Settled p (p.chunkByte v.currentPasswordId) v.currentPasswordId p₁ ∨
      Undoable p v.currentPasswordId p₁ ∨
      ∃ p' v', Completes (protectedEdit t edit) p v () p' v' ∧
        Settled p (p'.chunkByte v.currentPasswordId) v.currentPasswordId p₁ := by
  have hsave := wp_backupSave_update (v := v) hplain hid hok
  have hstart : Settled p (p.chunkByte v.currentPasswordId) v.currentPasswordId p :=
    ⟨hok, fun _ _ => rfl, .refl _ _⟩
  rw [cut_congr (protectedEdit_run t edit p v)] at hcut
  simp only [completes_congr (protectedEdit_run t edit p v)]
  rcases cut_bind hcut with hcut | ⟨_, p₂, v₂, hsaved, hcut⟩
  · rcases wp_cut (D := fun p' => Settled p _ _ p' ∨ Undoable p _ p') hsave (Or.inl hstart) hcut
      with h | h
    · exact Or.inl h
    · exact Or.inr (Or.inl h)
  have hundo := wp_completes hsave hsaved
  rcases cut_bind hcut with hcut | ⟨_, p₃, v₃, hedited, hcut⟩
  · exact Or.inr (Or.inl
      (wp_cut (D := Undoable p _) (wp_edit_undoable hid hedit hundo) hundo hcut))
  have hundo := wp_completes (wp_edit_undoable hid hedit hundo) hedited
  rcases cut_iff.mp hcut with rfl | ⟨step, hstep⟩
  · exact Or.inr (Or.inl hundo)
  obtain ⟨-, hsame, hfreed⟩ := wp_cutAfter wp_backupFree hstep
  obtain ⟨_, p', v', hend, -, hsame', -⟩ := exists_completes (wp_backupFree (p := p₃) (v := v₃))
  refine Or.inr (Or.inr ⟨p', v', hsaved.bind (hedited.bind hend), ?_⟩)
  refine .of_backup hid hsame hfreed (fun i hi => ?_) hundo.frame
  exact (hsame'.chunkByte hi fun _ hx hmem =>
    notMem_chunkRegion hid (le_trans (by decide) hmem.1) hmem.2 hx).symm

/-! ## The three edits -/

theorem editing_passwordSetData (hplain : t.addressing.Plain pwdId) (pwd : List Byte)
    (key : Block) :
    wp (passwordSetData t pwdId pwd key) (fun _ _ _ => True) (fun _ _ => True)
      (fun step _ => step.write.Within (drawing (chunkRegion pwdId))) p v :=
  wp_mono (wp_passwordSetData hplain) (fun _ _ _ _ => trivial) (fun _ _ _ => trivial)
    fun _ _ h => h.mono (Set.union_subset_union_right _ (burst_subset_chunkRegion (by decide)))

theorem editing_passwordSetUsrName (hplain : t.addressing.Plain pwdId) (usr : List Byte)
    (key : Block) :
    wp (passwordSetUsrName t pwdId usr key) (fun _ _ _ => True) (fun _ _ => True)
      (fun step _ => step.write.Within (drawing (chunkRegion pwdId))) p v :=
  wp_mono (wp_passwordSetUsrName hplain) (fun _ _ _ _ => trivial) (fun _ _ _ => trivial)
    fun _ _ h => h.mono (Set.union_subset_union_right _ (burst_subset_chunkRegion (by decide)))

theorem editing_passwordRegenerate (hplain : t.addressing.Plain pwdId) (fuel : ℕ) :
    Editing (passwordRegenerate t fuel) pwdId := fun p v => by
  rw [passwordRegenerate, wp_bind]
  refine wp_mono (wp_randomFill (fun _ _ => wp_randomRequestPrintable fuel) 32) ?_
    (fun _ _ => id) fun _ _ h => h.mono Set.subset_union_left
  intro newPwd p₁ v₁ _
  rw [wp_bind, wp_ram]
  exact editing_passwordSetData hplain newPwd v₁.key

/-- The conclusion of `cut_protectedEdit`, for each of the three edits. -/
theorem cut_edit (op : EditOperation) (hplain : t.addressing.Plain v.currentPasswordId)
    (hid : v.currentPasswordId < 768) (hok : p.backupStatus = backupStatusOk)
    (hcut : Cut (op.run t) p v p₁) :
    Settled p (p.chunkByte v.currentPasswordId) v.currentPasswordId p₁ ∨
      Undoable p v.currentPasswordId p₁ ∨
      ∃ p' v', Completes (op.run t) p v () p' v' ∧
        Settled p (p'.chunkByte v.currentPasswordId) v.currentPasswordId p₁ := by
  -- an edit that is given up writes nothing
  have hnothing : ∀ {m : Dev Unit}, m p v = (pure () : Dev Unit) p v → Cut m p v p₁ →
      Settled p (p.chunkByte v.currentPasswordId) v.currentPasswordId p₁ := fun hrun hcut => by
    obtain ⟨done, hdone, rfl⟩ := (cut_congr hrun).mp hcut
    rw [List.prefix_nil.mp (show done <+: [] from hdone)]
    exact ⟨hok, fun _ _ => rfl, .refl _ _⟩
  have hprotected : ∀ {m : Dev Unit} (edit : ℕ → Dev Unit),
      m p v = protectedEdit t edit p v → Editing edit v.currentPasswordId → Cut m p v p₁ →
      Settled p (p.chunkByte v.currentPasswordId) v.currentPasswordId p₁ ∨
        Undoable p v.currentPasswordId p₁ ∨
        ∃ p' v', Completes m p v () p' v' ∧
          Settled p (p'.chunkByte v.currentPasswordId) v.currentPasswordId p₁ := by
    intro m edit hrun hedit hcut
    simp only [completes_congr hrun]
    exact cut_protectedEdit hplain hid hedit hok ((cut_congr hrun).mp hcut)
  cases op with
  | regenerate fuel confirmed =>
      cases confirmed with
      | false => exact Or.inl (hnothing rfl hcut)
      | true => exact hprotected _ rfl (editing_passwordRegenerate hplain fuel) hcut
  | changePwd typing =>
      have hrun : optCallbackChangePwd t typing p v =
          whenTyped typing (passwordReadData t v.currentPasswordId v.key p)
            (fun pwd => protectedEdit t fun pwdId =>
              underKey (passwordSetData t pwdId) pwd.toList) p v := rfl
      cases htyped : typing (passwordReadData t v.currentPasswordId v.key p) with
      | none =>
          rw [whenTyped, htyped] at hrun
          exact Or.inl (hnothing hrun hcut)
      | some pwd =>
          rw [whenTyped, htyped] at hrun
          refine hprotected _ hrun (fun p v => ?_) hcut
          rw [underKey, wp_bind, wp_ram]
          exact editing_passwordSetData hplain _ _
  | changeUsrName typing =>
      have hrun : optCallbackChangeUsrName t typing p v =
          whenTyped typing (passwordReadUsrName t v.currentPasswordId v.key p)
            (fun usr => protectedEdit t fun pwdId =>
              underKey (passwordSetUsrName t pwdId) usr.toList) p v := rfl
      cases htyped : typing (passwordReadUsrName t v.currentPasswordId v.key p) with
      | none =>
          rw [whenTyped, htyped] at hrun
          exact Or.inl (hnothing hrun hcut)
      | some usr =>
          rw [whenTyped, htyped] at hrun
          refine hprotected _ hrun (fun p v => ?_) hcut
          rw [underKey, wp_bind, wp_ram]
          exact editing_passwordSetUsrName hplain _ _

/-- An edit cut short anywhere, then recovered in any number of interrupted
attempts: the first attempt that is not interrupted ends, with the chunk either
as before the edit or as after the whole edit. -/
theorem edit_atomic (cipher : BlockCipher) (op : EditOperation)
    (hid : v.currentPasswordId < maximumNumberOfPwd) (hok : p.backupStatus = backupStatusOk)
    {p₁ p₂ : Image} (hcut : Cut (op.run ⟨.exact, cipher⟩) p v p₁)
    (hagain : Interrupted (fun card => Cut (backupRecover ⟨.exact, cipher⟩ card)) p₁ p₂)
    (card : CardSession) (v₂ : Ram) :
    ∃ p' v', Completes (backupRecover ⟨.exact, cipher⟩ card) p₂ v₂ () p' v' ∧
      ((∀ i < sizeOfPwdBlock,
          p'.chunkByte v.currentPasswordId i = p.chunkByte v.currentPasswordId i) ∨
        ∃ pe ve, Completes (op.run ⟨.exact, cipher⟩) p v () pe ve ∧
          ∀ i < sizeOfPwdBlock,
            p'.chunkByte v.currentPasswordId i = pe.chunkByte v.currentPasswordId i) ∧
      p'.backupStatus = backupStatusOk ∧
      SameOff (drawing (chunkRegion v.currentPasswordId ∪ backupRegion)) p p' := by
  set t : Target := ⟨.exact, cipher⟩
  have hid : v.currentPasswordId < 768 := by simpa using hid
  have hplain : t.addressing.Plain v.currentPasswordId := Addressing.plain_exact _
  have hsettled : ∀ {chunk p₁ p₂}, Settled p chunk v.currentPasswordId p₁ →
      Interrupted (fun card => Cut (backupRecover t card)) p₁ p₂ →
      ∃ p' v', Completes (backupRecover t card) p₂ v₂ () p' v' ∧
        Settled p chunk v.currentPasswordId p' := fun hstart hagain => by
    have hend := hagain.invariant (D := Settled p _ v.currentPasswordId)
      (fun card _ _ _ h hcut => wp_cut (wp_backupRecover_settled card h) h hcut) hstart
    obtain ⟨_, p', v', hrun, h⟩ := exists_completes
      (wp_backupRecover_settled (t := t) (v := v₂) card hend)
    exact ⟨p', v', hrun, h⟩
  rcases cut_edit op hplain hid hok hcut with hold | hundo | ⟨pe, ve, hrun, hnew⟩
  · obtain ⟨p', v', hend, h⟩ := hsettled hold hagain
    exact ⟨p', v', hend, Or.inl h.chunk, h.status, h.frame⟩
  · have hcuts : ∀ card p₁ v₁ p₂,
        (Undoable p v.currentPasswordId p₁ ∨
          Settled p (p.chunkByte v.currentPasswordId) v.currentPasswordId p₁) →
        Cut (backupRecover t card) p₁ v₁ p₂ →
        Undoable p v.currentPasswordId p₂ ∨
          Settled p (p.chunkByte v.currentPasswordId) v.currentPasswordId p₂ := by
      rintro card p₁ v₁ p₂ (h | h) hcut
      · exact wp_cut (D := fun p₂ => Undoable p _ p₂ ∨ Settled p _ _ p₂)
          (wp_backupRecover_undoable card hplain hid h) (Or.inl h) hcut
      · exact Or.inr (wp_cut (wp_backupRecover_settled card h) h hcut)
    rcases hagain.invariant hcuts (Or.inl hundo) with h | h
    · obtain ⟨_, p', v', hend, h⟩ := exists_completes
        (wp_backupRecover_undoable (v := v₂) card hplain hid h)
      exact ⟨p', v', hend, Or.inl h.chunk, h.status, h.frame⟩
    · obtain ⟨p', v', hend, h⟩ := hsettled h .refl
      exact ⟨p', v', hend, Or.inl h.chunk, h.status, h.frame⟩
  · obtain ⟨p', v', hend, h⟩ := hsettled hnew hagain
    exact ⟨p', v', hend, Or.inr ⟨pe, ve, hrun, h.chunk⟩, h.status, h.frame⟩

/-- A change of password on an empty store, cut after 200 writes. -/
theorem edit_atomic_cut_200 :
    let t : Target := ⟨.exact, .xorKey⟩
    let op := EditOperation.changePwd fun _ => some (Vector.replicate 32 65)
    let v := Ram.reset (fun _ => Vector.replicate 4 7) zeroIv
    let p₁ := replay Image.zero ((op.run t Image.zero v).trace.take 200)
    ∃ p' v', Completes (backupRecover t .correct) p₁ v () p' v' ∧
      p'.backupStatus = backupStatusOk := by
  intro t op v p₁
  obtain ⟨p', v', hrun, -, hok, -⟩ := edit_atomic (p := Image.zero) (v := v) .xorKey op
    (by decide) (by decide) ⟨_, List.take_prefix _ _, rfl⟩ .refl .correct v
  exact ⟨p', v', hrun, hok⟩

end PasswordWallet
