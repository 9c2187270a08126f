import PasswordWallet.Lists.SortAccesses
import PasswordWallet.Options.Entries
import PasswordWallet.Options.TypedActions
import PasswordWallet.PowerLoss.Sequence

/-!
# Where the menu actions call the sort by name

`pwd_list_add_pwd` and `opt_callback_change_name` end with `pwd_list_sort_alpha`; the
other actions do not call it.  `MenuAction.toSort` is what an action does before the
call (`MenuAction.run_eq_toSort`).  At the call the store is well formed, but for the
order of the list by name (`wp_toSort`).
-/

namespace PasswordWallet

open PowerLoss

section Model

variable (t : Target) (fuel : ℕ)

/-- `pwd_list_add_pwd` once a chunk has been found, up to `pwd_list_sort_alpha`. -/
def addInChunkToSort (pwdId : ℕ) (name : Vector Byte 32) (data usrName : List Byte) :
    Dev Unit := do
  setMapBit pwdId
  Program.group (linkNew t fuel pwdId)
  passwordSetCounter t pwdId 0
  passwordSetName t pwdId name
  let v ← Program.ram
  passwordSetData t pwdId data v.key
  passwordSetUsrName t pwdId usrName v.key
  writeNumPwd fun n => n + 1
  pwdListSortUse t fuel

/-- An action up to its call of `pwd_list_sort_alpha`, true if it calls it. -/
def MenuAction.toSort : MenuAction → Dev Bool
  | addPwd name data usrName => do
      let v ← Program.ram
      if v.numPwd = maximumNumberOfPwd - 1 then pure false
      else do
        let chunkFree ← readImage fun p => freeScan p 0 sizeMemoryMap
        match chunkFree with
        | none => pure false
        | some pwdId => do
            addInChunkToSort t fuel pwdId name data.toList usrName.toList
            pure true
  | changeName typing => do
      let v ← Program.ram
      let name ← readImage (passwordReadName t v.currentPasswordId)
      match typing name with
      | none => pure false
      | some name => do
          passwordSetName t v.currentPasswordId name
          pure true
  | action => do
      action.run t fuel
      pure false

/-- The states in which an action of the user calls `pwd_list_sort_alpha`. -/
def UserAction.SortsAt (action : UserAction) (p : Image) (v : Ram) (q : Image) (w : Ram) : Prop :=
  ∃ menu, action.menu = some menu ∧ Completes (menu.toSort t fuel) p v true q w

end Model

variable {t : Target} {fuel : ℕ} {p : Image} {v : Ram} {use alpha : List ℕ}

theorem addInChunk_eq (pwdId : ℕ) (name : Vector Byte 32) (data usrName : List Byte) :
    addInChunk t fuel pwdId name data usrName =
      (do
        addInChunkToSort t fuel pwdId name data usrName
        pwdListSortAlpha t fuel) := by
  simp only [addInChunk, addInChunkToSort, bind_assoc]

/-- An action ends with the sort if it calls it at all. -/
theorem MenuAction.run_eq_toSort (action : MenuAction) :
    action.run t fuel = (do
      let called ← action.toSort t fuel
      if called then pwdListSortAlpha t fuel else pure ()) := by
  have hnever : ∀ m : Dev Unit, m = (do
      let called ← (do
        m
        pure false : Dev Bool)
      if called then pwdListSortAlpha t fuel else pure ()) := by
    intro m
    rw [bind_assoc]
    simp only [pure_bind, Bool.false_eq_true, if_false]
    exact (bind_pure m).symm
  cases action with
  | addPwd name data usrName =>
      rw [run, toSort, optCallbackAddPwd, bind_assoc]
      refine congrArg (Program.ram >>= ·) (funext fun v => ?_)
      split_ifs with hfull
      · rw [pure_bind]
        rfl
      · rw [pwdListAddPwd, bind_assoc, bind_assoc]
        refine congrArg (readImage _ >>= ·) (funext fun chunkFree => ?_)
        cases chunkFree with
        | none => simp only [pure_bind, Bool.false_eq_true, if_false]
        | some pwdId =>
            simp only [addInChunk_eq, bind_assoc, pure_bind, if_true]
            exact congrArg _ (funext fun _ => bind_pure _)
  | changeName typing =>
      rw [run, toSort, optCallbackChangeName, bind_assoc]
      refine congrArg (Program.ram >>= ·) (funext fun v => ?_)
      rw [bind_assoc]
      refine congrArg (readImage _ >>= ·) (funext fun name => ?_)
      unfold whenTyped
      cases typing name with
      | none => simp only [pure_bind, Bool.false_eq_true, if_false]
      | some typed => simp only [bind_assoc, pure_bind, if_true]
  | deletePwd confirmed => exact hnever _
  | changePwd typing => exact hnever _
  | changeUsrName typing => exact hnever _
  | regeneratePwd drawings confirmed => exact hnever _
  | sendPwd => exact hnever _
  | sendUsr => exact hnever _
  | sendBoth => exact hnever _
  | noSort => exact hnever _
  | sortUse => exact hnever _
  | sortAlpha => exact hnever _

/-- What an action does from its call of the sort on. -/
theorem completes_sort {action : MenuAction} {p' q : Image} {v' w : Ram}
    (hcall : Completes (action.toSort t fuel) p v true q w)
    (hrun : Completes (action.run t fuel) p v () p' v') :
    Completes (pwdListSortAlpha t fuel) q w () p' v' := by
  rw [MenuAction.run_eq_toSort, completes_bind] at hrun
  obtain ⟨called, p₁, v₁, hfirst, hsort⟩ := hrun
  obtain ⟨rfl, rfl, rfl⟩ := hcall.unique hfirst
  exact hsort

/-! ## The store at the call -/

theorem wp_addInChunkToSort {pwdId : ℕ} {name : Vector Byte 32} {data usrName : List Byte}
    (h : WellFormed t p v use alpha) (hfuel : sortTurns ≤ fuel)
    (hid : pwdId < t.addressing.capacity) (hnew : pwdId ∉ use) (hzero : use = [] → pwdId = 0)
    (hdata : data.length = 32) (husr : usrName.length = 64) :
    wp (addInChunkToSort t fuel pwdId name data usrName)
      (fun _ q w => ∃ use' alpha', WellFormed t q w use' alpha')
      (fun _ _ => False) (fun _ _ => True) p v := by
  have hlt := lt_of_lt_capacity hid
  have hentered := wp_mono (wp_enter (v := v) h hfuel hid hnew hzero) (fun _ _ _ => id)
    (fun _ _ => id) fun _ _ _ => show True from trivial
  rw [wp_bind] at hentered
  simp only [addInChunkToSort, wp_bind, wp_ram]
  refine wp_imp hentered fun _ _ _ hlinked => wp_imp hlinked ?_
  intro _ p₁ v₁ hpost
  obtain ⟨hv₁, h₁⟩ := hpost
  have hfilled := wp_mono (wp_sameOff (wp_fillChunk (p := p₁) (v := v₁) (t := t) name hid
    (show 0 < 65536 by decide) hdata husr)) (fun _ _ _ => id) (fun _ _ => id)
    fun _ _ _ => show True from trivial
  simp only [wp_bind, wp_ram] at hfilled
  refine wp_imp hfilled fun _ _ _ hnamed => wp_imp hnamed fun _ _ _ hnamed =>
    wp_imp hnamed fun _ _ _ hnamed => wp_imp hnamed ?_
  intro _ p₂ v₂ hpost
  obtain ⟨hsame₂, hdrawn₂, _⟩ := hpost
  have h₂ := h₁.of_quiet hsame₂ (quiet_fields hlt)
  have hlength : (use ++ [pwdId]).length = use.length + 1 := by simp
  have hbig := h₂.threadedUse.length_lt
  have hmod : (v₂.numPwd + 1) % 65536 = (use ++ [pwdId]).length := by
    rw [hdrawn₂.numPwd, hv₁, h.numPwd, hlength]
    omega
  refine wp_mono wp_writeNumPwd ?_ (fun _ _ => id) fun _ _ _ => trivial
  intro _ p₃ v₃ hpost
  obtain ⟨hv₃, hsame₃, hcount₃⟩ := hpost
  rw [hmod] at hv₃ hcount₃
  refine wp_mono (wp_pwdListSortUse (h₂.of_count hsame₃ hcount₃) hfuel fun _ => by simp) ?_
    (fun _ _ => id) fun _ _ _ => trivial
  intro _ q w hpost
  obtain ⟨hw, _, use', huse', h₄, _⟩ := hpost
  refine ⟨use', alpha ++ [pwdId], (huse'.length_eq ▸ h₄).wellFormed (fun id _ => ?_)
    ((h.perm.append_right _).trans huse'.symm) ?_⟩
  · rw [Bool.eq_iff_iff, decide_eq_true_eq, decide_eq_true_eq, huse'.mem_iff]
  · rw [hw, hv₃, huse'.length_eq]

/-- The store is well formed where the sort is called. -/
theorem wp_toSort {action : MenuAction} (hfits : action.Fits t v) (hfuel : sortTurns ≤ fuel)
    (h : MenuInvariant t p v) (hpwd : action.OnPwd → v.numPwd ≠ 0) :
    wp (action.toSort t fuel)
      (fun called q w => called = true → ∃ use alpha, WellFormed t q w use alpha)
      (fun _ _ => True) (fun _ _ => True) p v := by
  obtain ⟨⟨use, alpha, hwell, -, hcurrent⟩, -⟩ := h
  have hnever : ∀ m : Dev Unit, wp (do
      m
      pure false : Dev Bool)
      (fun called q w => called = true → ∃ use alpha, WellFormed t q w use alpha)
      (fun _ _ => True) (fun _ _ => True) p v := by
    intro m
    rw [wp_bind]
    exact wp_always m (fun _ _ _ => (wp_pure _).mpr fun hcalled => nomatch hcalled)
      fun _ _ => trivial
  cases action with
  | addPwd name data usrName =>
      rw [MenuAction.toSort, wp_bind, wp_ram, wp_ite, wp_pure]
      refine ⟨fun _ hcalled => (nomatch hcalled), fun hroom => ?_⟩
      have hlength := hwell.length_lt_capacity hfits (hwell.length_lt_of_room hroom)
      obtain ⟨pwdId, hid, hscan, hnew, hlowest⟩ := freeScan_lowest hwell hlength
      have hzero : use = [] → pwdId = 0 := fun hnil => by
        by_contra! hne
        exact absurd (hlowest 0 (by omega)) (by simp [hnil])
      rw [wp_bind, wp_readImage, hscan]
      show wp (do
        addInChunkToSort t fuel pwdId name data.toList usrName.toList
        pure true : Dev Bool) _ _ _ p v
      rw [wp_bind]
      refine wp_mono (wp_addInChunkToSort hwell hfuel hid hnew hzero (by simp) (by simp)) ?_
        (fun _ _ _ => trivial) fun _ _ => id
      exact fun _ q w hcall => (wp_pure _).mpr fun _ => hcall
  | changeName typing =>
      have hmem : v.currentPasswordId ∈ use := by
        rcases hcurrent with ⟨hnil, -⟩ | hmem
        · exact absurd (hwell.numPwd.trans (by rw [hnil]; rfl)) (hpwd trivial)
        · exact hmem
      have hid := hwell.threadedUse.bound _ hmem
      have hlt := lt_of_lt_capacity hid
      have hsub : drawing (burst (535 + 170 * v.currentPasswordId + 10) 32) ⊆
          fieldsRegion v.currentPasswordId := drawing_burst_subset (by decide) (by decide)
      rw [MenuAction.toSort, wp_bind, wp_ram, wp_bind, wp_readImage]
      cases typing (passwordReadName t v.currentPasswordId p) with
      | none => exact (wp_pure _).mpr fun hcalled => nomatch hcalled
      | some typed =>
          show wp (do
            passwordSetName t v.currentPasswordId typed
            pure true : Dev Bool) _ _ _ p v
          rw [wp_bind]
          refine wp_mono (wp_sameOff (@wp_setName_entry t _ v.key p v hid typed)) ?_
            (fun _ _ => False.elim) fun _ _ _ => trivial
          intro _ q w ⟨hsame, hw, _⟩
          subst hw
          exact (wp_pure _).mpr fun _ =>
            ⟨use, alpha, hwell.of_quiet hsame ((quiet_fields hlt).mono hsub)⟩
  | deletePwd confirmed => exact hnever _
  | changePwd typing => exact hnever _
  | changeUsrName typing => exact hnever _
  | regeneratePwd drawings confirmed => exact hnever _
  | sendPwd => exact hnever _
  | sendUsr => exact hnever _
  | sendBoth => exact hnever _
  | noSort => exact hnever _
  | sortUse => exact hnever _
  | sortAlpha => exact hnever _

end PasswordWallet
