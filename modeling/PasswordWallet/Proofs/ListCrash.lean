import PasswordWallet.Lists.Delete
import PasswordWallet.States.WaitCard

/-!
# Power loss while passwords are added and deleted

Neither `pwd_list_add_pwd` nor `pwd_list_delete_pwd` has a journal.  A power loss
between two of their rewirings leaves lists that both sorts of the next start come
to an end on, with every other password in them (`listOperation_survives`).  Inside
a rewiring it can leave links that lead round in a circle, and the device hangs at
every start (`listOperation_hangs`).
-/

namespace PasswordWallet

open PowerLoss LinkedList

/-- The two operations that take chunks in and out of use. -/
inductive ListOperation
  | addPwd (name data : Vector Byte 32) (usrName : Vector Byte 64)
  | deletePwd (pwdId : ℕ)

def ListOperation.run (t : Target) (fuel : ℕ) : ListOperation → Dev Unit
  | addPwd name data usrName => do
      let _ ← pwdListAddPwd t fuel name data.toList usrName.toList
      pure ()
  | deletePwd pwdId => pwdListDeletePwd t pwdId

/-- What the menus check before they call: the number of passwords is below the
limit, or the password to delete is used. -/
def ListOperation.Allowed (p : Image) (v : Ram) : ListOperation → Prop
  | addPwd _ _ _ => v.numPwd < maximumNumberOfPwd - 1
  | deletePwd pwdId => pwdId < maximumNumberOfPwd ∧ p.used pwdId = true

/-- The passwords that the operation is not about. -/
def ListOperation.Keeps (p : Image) (id : ℕ) : ListOperation → Prop
  | addPwd _ _ _ => id < maximumNumberOfPwd ∧ p.used id = true
  | deletePwd pwdId => id < maximumNumberOfPwd ∧ p.used id = true ∧ id ≠ pwdId

/-- A power loss outside the rewirings of the links, or with less than two
passwords counted. -/
def BetweenRewirings (step : Step Write) (p' : Image) : Prop :=
  step.inner = false ∨ p'.word offsetNumPwd < 2

/-- What a start makes of the passwords that an operation is not about: they are
visited in each sorting mode, and read as before. -/
def Unharmed (t : Target) (op : ListOperation) (p p' : Image) : Prop :=
  ∀ id, op.Keeps p id →
    (∀ optionsFlag, pwdListGetSortingMethod optionsFlag ≤ pwdSortingAlpha →
      Visited t optionsFlag p' id) ∧
    ∀ key, readEntry t key id p' = readEntry t key id p

variable {t : Target} {fuel : ℕ} {p p' : Image} {v : Ram} {use alpha : List ℕ}

/-- Each operation touches one chunk and the lists, and what a power loss leaves has
the other passwords in them. -/
theorem wp_listOperation (hexact : t.addressing = .exact) (hfuel : sortTurns ≤ fuel)
    (h : WellFormed t p v use alpha) {op : ListOperation} (hallowed : op.Allowed p v) :
    wp (op.run t fuel) (fun _ _ _ => True) (fun _ _ => False)
      (fun step p' => ∃ kept pwdId, pwdId < 767 ∧
        (∀ id, op.Keeps p id → id ∈ kept ∧ id ≠ pwdId) ∧ ListCut t kept pwdId step p' ∧
        SameOff (pwdRegion t pwdId) p p') p v := by
  cases op with
  | addPwd name data usrName =>
      have hroom : use.length < t.addressing.capacity := by
        have hroom : v.numPwd < 767 := hallowed
        rw [h.numPwd] at hroom
        rwa [hexact]
      have hdata : data.toList.length = 32 := by simp
      have husr : usrName.toList.length = 64 := by simp
      rw [ListOperation.run, wp_bind]
      refine wp_mono (wp_pwdListAddPwd h hfuel hroom hdata husr)
        (fun _ _ _ _ => (wp_pure _).mpr trivial) (fun _ _ => id) ?_
      intro step p' ⟨pwdId, hlt, hnew, hcut, hsame⟩
      refine ⟨use, pwdId, hlt, fun id hkeeps => ?_, hcut, hsame⟩
      have hmem := h.mem_use_iff.mpr hkeeps
      exact ⟨hmem, fun heq => hnew (heq ▸ hmem)⟩
  | deletePwd pwdId =>
      have hmem := h.mem_use_iff.mpr hallowed
      refine wp_mono (wp_pwdListDeletePwd h hmem) (fun _ _ _ _ => trivial) (fun _ _ => id) ?_
      intro step p' ⟨hcut, hsame⟩
      refine ⟨use.erase pwdId, pwdId, lt_of_lt_capacity (h.threadedUse.bound _ hmem),
        fun id ⟨hid, hused, hne⟩ => ⟨?_, hne⟩, hcut, hsame⟩
      exact h.threadedUse.nodup.mem_erase_iff.mpr ⟨hne, h.mem_use_iff.mpr ⟨hid, hused⟩⟩

/-- After a power loss between two rewirings the device starts, and every other
password is visited in each sorting mode and reads as before. -/
theorem listOperation_survives (hexact : t.addressing = .exact) (hfuel : sortTurns ≤ fuel)
    (h : WellFormed t p v use alpha) (hok : p.backupStatus = backupStatusOk)
    {op : ListOperation} (hallowed : op.Allowed p v)
    (hcut : CutWhere BetweenRewirings (op.run t fuel) p v p') (card : CardSession)
    (cards : List CardSession) (v' : Ram) :
    ∃ entered p'' v'', Completes (reboot t fuel card cards) p' v' entered p'' v'' ∧
      Unharmed t op p p'' := by
  have hbound : ∀ {id}, op.Keeps p id → id < t.addressing.capacity ∧ id ∈ use := by
    intro id hkeeps
    have hused : id < maximumNumberOfPwd ∧ p.used id = true := by
      cases op with
      | addPwd name data usrName => exact hkeeps
      | deletePwd pwdId => exact ⟨hkeeps.1, hkeeps.2.1⟩
    have hmem := h.mem_use_iff.mpr hused
    exact ⟨h.threadedUse.bound id hmem, hmem⟩
  obtain ⟨kept, hkept, hstanding, hok', hread⟩ : ∃ kept, (∀ id, op.Keeps p id → id ∈ kept) ∧
      Standing t kept p' ∧ p'.backupStatus = backupStatusOk ∧
      ∀ id key, op.Keeps p id → readEntry t key id p' = readEntry t key id p := by
    -- the power may be lost before the first write
    rcases hcut with rfl | ⟨step, hbetween, hstep⟩
    · refine ⟨use, fun id hkeeps => (hbound hkeeps).2, Or.inl ?_, hok, fun _ _ _ => rfl⟩
      exact h.listed.survives (List.Subset.refl _) h.perm.symm.subset (fun id hmem => by simpa)
        fun hle => ⟨fun hnil => by simp [hnil] at hle, fun hnil => by
          rw [← h.perm.length_eq, hnil] at hle
          exact absurd hle (by decide)⟩
    · obtain ⟨kept, pwdId, hlt, hkeeps, ⟨-, hlist⟩, hsame⟩ :=
        wp_cutAfter (wp_listOperation hexact hfuel h hallowed) hstep
      refine ⟨kept, fun id hid => (hkeeps id hid).1, hlist hbetween, ?_, fun id key hid => ?_⟩
      -- the operation does not write to the backup section
      · rw [hsame.backupStatus ?_, hok]
        rintro (hx | hx)
        · rcases hx with hx | hx | ⟨other, hother, hx⟩
          · omega
          · omega
          · have := lt_of_lt_capacity hother
            rw [mem_burst (by simp only [framByteSize]; omega)] at hx
            omega
        · have := drawing_bounds hlt hx
          omega
      · exact hsame.readEntry (hbound hid).1 hlt (hkeeps id hid).2
  -- the start sorts, which only moves the passwords in their lists
  obtain ⟨entered, p'', v'', hrun, hsame, hstanding'⟩ :=
    exists_completes (wp_reboot (v := v') hfuel hstanding hok' card cards)
  refine ⟨entered, p'', v'', hrun, fun id hid => ⟨fun optionsFlag hmethod => ?_, fun key => ?_⟩⟩
  · have hlt := lt_of_lt_capacity (hbound hid).1
    exact hstanding'.visited (hkept id hid) (by simp; omega) hmethod
  · rw [hsame.readEntry_of_list (hbound hid).1, hread id key hid]

/-! ## A circle of links -/

/-- When the links lead round in a circle and no password on it changes place, the
outer loop of the sort never comes to an end. -/
theorem wp_sortOuter_circle {K : Type} {o : PwdOrder K} {circle : List ℕ}
    (hnext : ∀ id ∈ circle, id ≠ maximumNumberOfPwd ∧ o.readNext id p ∈ circle)
    (hprev : ∀ id ∈ circle, o.readPrev id p = maximumNumberOfPwd ∨
      o.before (o.readKey id p) (o.readKey (o.readPrev id p) p) = false)
    (turns first : ℕ) {fuel current : ℕ} (hmem : current ∈ circle) :
    wp (sortOuter o turns fuel first current) (fun _ _ _ => False) (fun _ _ => True)
      (fun _ _ => True) p v := by
  induction fuel generalizing current with
  | zero => exact wp_hang.mpr trivial
  | succ fuel ih =>
      obtain ⟨hne, hround⟩ := hnext current hmem
      rw [sortOuter, if_pos hne]
      simp only [wp_bind, wp_readImage]
      cases turns with
      | zero => exact wp_hang.mpr trivial
      | succ turns =>
          simp only [sortInner, wp_ite, wp_bind, wp_readImage, wp_pure]
          -- nothing is swapped, so the sort goes on to the next password, which is on the circle
          refine ⟨fun hmid => ⟨fun hbefore => ?_, fun _ => ih hround⟩, fun _ => ih hround⟩
          rw [(hprev current hmem).resolve_left hmid] at hbefore
          exact absurd hbefore (by decide)

/-- The third password, added to two. -/
def ListOperation.third : ListOperation :=
  addPwd (Vector.replicate 32 0) (Vector.replicate 32 65) (Vector.replicate 64 66)

theorem third_allowed : ListOperation.third.Allowed .twoPwds .twoPwds :=
  show 2 < maximumNumberOfPwd - 1 by decide

/-- Cut short before the links are written, the two passwords are still visited. -/
theorem listOperation_survives_third :
    let t : Target := ⟨.exact, .xorKey⟩
    let p' := replay Image.twoPwds
      ((ListOperation.third.run t sortTurns Image.twoPwds .twoPwds).trace.take 1)
    ∃ entered p'' v'',
      Completes (reboot t sortTurns .correct [.correct]) p' .twoPwds entered p'' v'' ∧
        Unharmed t .third .twoPwds p'' := by
  intro t p'
  have hstep : CutAfter (ListOperation.third.run t sortTurns) Image.twoPwds .twoPwds
      ⟨.fram 263 7, false⟩ p' := cutAfter_take (k := 0) (by decide +kernel)
  exact listOperation_survives rfl le_rfl wellFormed_twoPwds (by decide +kernel) third_allowed
    (Or.inr ⟨_, Or.inl rfl, hstep⟩) .correct [.correct] .twoPwds

/-- Cut short when the last password points to the new one, which does not point to
the end yet, the device never starts again. -/
theorem listOperation_hangs :
    ¬ ∀ (t : Target) (p p' : Image) (v v' : Ram) (use alpha : List ℕ) (op : ListOperation)
      (card : CardSession) (cards : List CardSession),
      t.addressing = .exact → WellFormed t p v use alpha → p.backupStatus = backupStatusOk →
      op.Allowed p v → Cut (op.run t sortTurns) p v p' →
      ∃ fuel entered p'' v'', Completes (reboot t fuel card cards) p' v' entered p'' v'' ∧
        Unharmed t op p p'' := by
  intro hclaim
  let t : Target := ⟨.exact, .xorKey⟩
  let v' := Ram.reset (fun _ => Vector.replicate 4 7) (Vector.replicate 16 0)
  let p' := replay Image.twoPwds
    ((ListOperation.third.run t sortTurns Image.twoPwds .twoPwds).trace.take 3)
  obtain ⟨fuel, entered, p'', v'', hrun, -⟩ := hclaim t .twoPwds p' .twoPwds v' [0, 1] [0, 1]
    .third .correct [.correct] rfl wellFormed_twoPwds (by decide +kernel) third_allowed
    ⟨_, List.take_prefix _ _, rfl⟩
  -- 0 leads to 1, 1 to the new password 2, and 2 to 0
  have hnext : ∀ id ∈ [0, 1, 2], id ≠ maximumNumberOfPwd ∧
      (orderUse t).readNext id p' ∈ [0, 1, 2] := by decide +kernel
  have hprev : ∀ id ∈ [0, 1, 2], (orderUse t).readPrev id p' = maximumNumberOfPwd ∨
      (orderUse t).before ((orderUse t).readKey id p')
        ((orderUse t).readKey ((orderUse t).readPrev id p') p') = false := by decide +kernel
  have hhang : wp (reboot t fuel .correct [.correct]) (fun _ _ _ => False) (fun _ _ => True)
      (fun _ _ => True) p' v' := by
    simp only [reboot, programInit, wp_bind, wp_framReadByte, wp_readImage, wp_modifyRam]
    refine wp_backupRecover_ok t .correct (by decide +kernel) ?_
    simp only [waitCard, stateWaitCardTransition, wp_bind, wp_ram]
    rw [if_neg (by decide), userAuthenticateCard_correct, if_pos rfl]
    simp only [wp_bind, wp_readImage, userReadKeyFromCard_correct, enterKey, wp_modifyRam]
    rw [if_pos (by decide +kernel)]
    simp only [wp_bind, wp_modifyRam, wp_pure, if_true, stateWaitCardEnd, wp_ram, wp_readImage,
      pwdListSortUse, pwdListSort]
    rw [if_neg (by decide +kernel)]
    simp only [wp_bind, wp_readImage]
    exact wp_mono (wp_sortOuter_circle hnext hprev fuel _ (by decide +kernel))
      (fun _ _ _ => False.elim) (fun _ _ _ => trivial) fun _ _ _ => trivial
  exact wp_completes (Q := fun _ _ _ => False) hhang hrun

end PasswordWallet
