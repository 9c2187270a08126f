import PasswordWallet.Options.LeavesKey

/-!
# What the menu actions write into a chunk

Every action on passwords writes at most one entry: a new one, or the one of the
current password with one of its parts changed (`MenuAction.Writes`).  What the other
chunks say stays as it is (`MenuAction.Rewrites`).
-/

namespace PasswordWallet

open PowerLoss

variable {t : Target} {fuel pwdId id : ℕ} {key : Block} {p p' : Image} {v v' : Ram}
  {H : Image → Ram → Prop}

/-! ## Frames -/

/-- What happens outside a chunk, or in its links, changes nothing of what it says. -/
theorem readEntry_of_notMem {R : Set ℕ} (hsame : SameOff R p p')
    (hid : id < t.addressing.capacity) (hR : ∀ i, 8 ≤ i → i < 170 → 535 + 170 * id + i ∉ R) :
    readEntry t key id p' = readEntry t key id p := by
  have hlt := lt_of_lt_capacity hid
  have hsize : framByteSize = 131072 := rfl
  refine readEntry_congr (Addressing.plain_of_lt hid) fun i hlow hhigh => hsame.byte ?_
  rw [Nat.mod_eq_of_lt (by omega)]
  exact hR i hlow hhigh

/-- The options and the backup section are not part of a chunk. -/
theorem readEntry_of_header {R : Set ℕ} (hsame : SameOff R p p')
    (hid : id < t.addressing.capacity) (hR : ∀ x ∈ R, x < 535) :
    readEntry t key id p' = readEntry t key id p :=
  readEntry_of_notMem hsame hid fun _ _ _ hmem => absurd (hR _ hmem) (by omega)

theorem readEntry_of_edit (hsame : SameOff (secretsRegion pwdId ∪ backupRegion) p p')
    (hid : id < t.addressing.capacity) (hpwd : pwdId < 767) (hne : id ≠ pwdId) :
    readEntry t key id p' = readEntry t key id p := by
  have hlt := lt_of_lt_capacity hid
  have hsize : framByteSize = 131072 := rfl
  refine readEntry_of_notMem hsame hid fun i hlow hhigh hmem => ?_
  rcases hmem with (hmem | hmem) | hmem
  · exact absurd hmem.2 (by omega)
  · rw [mem_burst (by omega)] at hmem
    omega
  · exact absurd hmem.2 (by omega)

/-! ## One part of an entry -/

section Setters

variable (hid : pwdId < t.addressing.capacity)
include hid

theorem wp_setData_entry {pwd : List Byte} (hlength : pwd.length = 32) :
    wp (passwordSetData t pwdId pwd key)
      (fun _ p' v' => Drawn v v' ∧
        readEntry t key pwdId p' = { readEntry t key pwdId p with data := cleared pwd })
      (fun _ _ => False) (fun step _ => step.write.Within (secretsRegion pwdId)) p v := by
  have hlt := lt_of_lt_capacity hid
  have hplain := Addressing.plain_of_lt hid
  refine wp_mono (wp_sameOff (wp_passwordSetData hplain)) ?_ (fun _ _ => id) fun _ _ h =>
    h.1.mono (Set.union_subset_union_right _ (burst_subset (k := 0) (by decide)))
  intro _ p' v' ⟨hsame, hdrawn, hdata⟩
  refine ⟨hdrawn, ?_⟩
  have hkept : ∀ i, i < 42 ∨ 90 ≤ i → i < 170 → p'.chunkByte pwdId i = p.chunkByte pwdId i :=
    fun i hout hi => chunkByte_of_field hlt hlt hsame (by decide) hi (Or.inr hout)
  rw [readEntry, readEntry, hdata hlt hlength, removePadding_eq,
    passwordReadName_congr hplain fun i _ _ => hkept i (by omega) (by omega),
    passwordReadCounter_congr hplain fun i _ _ => hkept i (by omega) (by omega),
    passwordReadUsrName_congr hplain fun i _ _ => hkept i (by omega) (by omega)]

theorem wp_setUsrName_entry {usr : List Byte} (hlength : usr.length = 64) :
    wp (passwordSetUsrName t pwdId usr key)
      (fun _ p' v' => Drawn v v' ∧
        readEntry t key pwdId p' = { readEntry t key pwdId p with usrName := cleared usr })
      (fun _ _ => False) (fun step _ => step.write.Within (secretsRegion pwdId)) p v := by
  have hlt := lt_of_lt_capacity hid
  have hplain := Addressing.plain_of_lt hid
  have hsub : burst (535 + 170 * pwdId + 42 + 48) 80 ⊆ burst (535 + 170 * pwdId + 42) 128 :=
    burst_subset (by decide)
  refine wp_mono (wp_sameOff (wp_passwordSetUsrName hplain)) ?_ (fun _ _ => id) fun _ _ h =>
    h.1.mono (Set.union_subset_union_right _ hsub)
  intro _ p' v' ⟨hsame, hdrawn, husr⟩
  refine ⟨hdrawn, ?_⟩
  have hkept : ∀ i < 90, p'.chunkByte pwdId i = p.chunkByte pwdId i := fun i hi =>
    chunkByte_of_field hlt hlt hsame (by decide) (by omega) (by omega)
  rw [readEntry, readEntry, husr hlt hlength, removePadding_eq,
    passwordReadName_congr hplain fun i _ _ => hkept i (by omega),
    passwordReadCounter_congr hplain fun i _ _ => hkept i (by omega),
    passwordReadData_congr hplain fun i _ _ => hkept i (by omega)]

theorem wp_setName_entry {name : Vector Byte 32} :
    wp (passwordSetName t pwdId name)
      (fun _ p' v' => v' = v ∧
        readEntry t key pwdId p' = { readEntry t key pwdId p with name := name.toList })
      (fun _ _ => False)
      (fun step _ => step.write.Within (drawing (burst (535 + 170 * pwdId + 10) 32))) p v := by
  have hlt := lt_of_lt_capacity hid
  have hplain := Addressing.plain_of_lt hid
  refine wp_imp (wp_passwordSetName hid) fun _ p' v' ⟨hv, hsame, hname⟩ => ⟨hv, ?_⟩
  have hkept : ∀ i, i < 10 ∨ 42 ≤ i → i < 170 → p'.chunkByte pwdId i = p.chunkByte pwdId i :=
    fun i hout hi => chunkByte_of_field hlt hlt hsame (by decide) hi (Or.inr hout)
  rw [readEntry, readEntry, hname,
    passwordReadCounter_congr hplain fun i _ _ => hkept i (by omega) (by omega),
    passwordReadData_congr hplain fun i _ _ => hkept i (by omega) (by omega),
    passwordReadUsrName_congr hplain fun i _ _ => hkept i (by omega) (by omega)]

theorem wp_setCounter_entry {val : ℕ} (hval : val < 65536) :
    wp (passwordSetCounter t pwdId val)
      (fun _ p' v' => v' = v ∧
        readEntry t key pwdId p' = { readEntry t key pwdId p with counter := val })
      (fun _ _ => False)
      (fun step _ => step.write.Within (drawing (burst (535 + 170 * pwdId + 8) 2))) p v := by
  have hlt := lt_of_lt_capacity hid
  have hplain := Addressing.plain_of_lt hid
  refine wp_imp (wp_passwordSetCounter hid hval) fun _ p' v' ⟨hv, hsame, hcounter⟩ => ⟨hv, ?_⟩
  have hkept : ∀ i, 10 ≤ i → i < 170 → p'.chunkByte pwdId i = p.chunkByte pwdId i :=
    fun i hout hi => chunkByte_of_field hlt hlt hsame (by decide) hi (by omega)
  rw [readEntry, readEntry, hcounter,
    passwordReadName_congr hplain fun i _ _ => hkept i (by omega) (by omega),
    passwordReadData_congr hplain fun i _ _ => hkept i (by omega) (by omega),
    passwordReadUsrName_congr hplain fun i _ _ => hkept i (by omega) (by omega)]

end Setters

/-! ## The entry of the current password -/

/-- What the current password says. -/
def currentEntry (t : Target) (v : Ram) (p : Image) : Entry :=
  readEntry t v.key v.currentPasswordId p

/-- The current password says what is written, or what it said if nothing is. -/
def Rewritten (t : Target) (v : Ram) (p : Image) (writes : Entry → Prop) (p' : Image) : Prop :=
  ((∀ e, ¬ writes e) ∧ currentEntry t v p' = currentEntry t v p) ∨ writes (currentEntry t v p')

/-- An edit when something is typed, and nothing else. -/
theorem wp_whenTyped_entry {size : ℕ} {typing : Typing size} {text : List Byte}
    {f : Vector Byte size → Entry} {edit : Vector Byte size → Dev Unit}
    (hedit : ∀ typed, wp (edit typed) (fun _ p' _ => currentEntry t v p' = f typed)
      (fun _ _ => False) (fun _ _ => True) p v) :
    wp (whenTyped typing text edit)
      (fun _ p' _ => Rewritten t v p (fun e => ∃ typed, typing text = some typed ∧ e = f typed) p')
      (fun _ _ => False) (fun _ _ => True) p v := by
  refine wp_whenTyped (fun hnone => Or.inl ⟨?_, rfl⟩) fun typed htyped => ?_
  · rintro e ⟨typed, htyped, -⟩
    exact absurd (hnone.symm.trans htyped) (by simp)
  · exact wp_imp (hedit typed) fun _ _ _ hentry => Or.inr ⟨typed, htyped, hentry⟩

section Current

variable (hid : v.currentPasswordId < t.addressing.capacity)
include hid

/-- The backup section has no part in an entry. -/
theorem wp_protectedEdit_entry {edit : ℕ → Dev Unit} {W : Entry → Prop}
    (hedit : ∀ p₁, currentEntry t v p₁ = currentEntry t v p →
      wp (edit v.currentPasswordId) (fun _ p' _ => W (currentEntry t v p')) H
        (fun _ _ => True) p₁ v) :
    wp (protectedEdit t edit) (fun _ p' _ => W (currentEntry t v p')) H (fun _ _ => True) p v := by
  have hlt := lt_of_lt_capacity hid
  have hbackup : ∀ {p₁ p₂}, SameOff backupRegion p₁ p₂ →
      currentEntry t v p₂ = currentEntry t v p₁ := fun hsame =>
    readEntry_of_header hsame hid fun _ hx => hx.2
  rw [protectedEdit, wp_bind, wp_ram, wp_bind]
  refine wp_mono (wp_backupSave (Addressing.plain_of_lt hid) (by omega)) ?_
    (fun _ _ => False.elim) fun _ _ _ => trivial
  intro _ p₁ v₁ hpost
  obtain ⟨hv₁, hsame₁, _⟩ := hpost
  subst hv₁
  rw [wp_bind]
  refine wp_imp (hedit p₁ (hbackup hsame₁)) fun _ p₂ v₂ hwritten => ?_
  refine wp_mono wp_backupFree ?_ (fun _ _ => False.elim) fun _ _ _ => trivial
  intro _ p₃ _ hpost
  obtain ⟨_, hsame₃, _⟩ := hpost
  rwa [hbackup hsame₃]

theorem wp_changePwd_entry (typing : Typing 32) :
    wp (optCallbackChangePwd t typing)
      (fun _ p' _ => Rewritten t v p (fun e => ∃ typed, typing (currentEntry t v p).data =
        some typed ∧ e = { currentEntry t v p with data := cleared typed.toList }) p')
      (fun _ _ => False) (fun _ _ => True) p v := by
  rw [optCallbackChangePwd, wp_bind, wp_ram, wp_bind, wp_readImage]
  refine wp_whenTyped_entry fun typed => wp_protectedEdit_entry (W := fun e =>
    e = { currentEntry t v p with data := cleared typed.toList }) hid fun p₁ hsame => ?_
  rw [underKey, wp_bind, wp_ram]
  refine wp_mono (wp_setData_entry hid (by simp)) ?_ (fun _ _ => id) fun _ _ _ => trivial
  exact fun _ _ _ h => h.2.trans (by rw [← hsame]; rfl)

theorem wp_changeUsrName_entry (typing : Typing 64) :
    wp (optCallbackChangeUsrName t typing)
      (fun _ p' _ => Rewritten t v p (fun e => ∃ typed, typing (currentEntry t v p).usrName =
        some typed ∧ e = { currentEntry t v p with usrName := cleared typed.toList }) p')
      (fun _ _ => False) (fun _ _ => True) p v := by
  rw [optCallbackChangeUsrName, wp_bind, wp_ram, wp_bind, wp_readImage]
  refine wp_whenTyped_entry fun typed => wp_protectedEdit_entry (W := fun e =>
    e = { currentEntry t v p with usrName := cleared typed.toList }) hid fun p₁ hsame => ?_
  rw [underKey, wp_bind, wp_ram]
  refine wp_mono (wp_setUsrName_entry hid (by simp)) ?_ (fun _ _ => id) fun _ _ _ => trivial
  exact fun _ _ _ h => h.2.trans (by rw [← hsame]; rfl)

/-- A new random password is 32 printable characters. -/
theorem wp_regeneratePwd_entry (confirmed : Bool) :
    wp (optCallbackRegeneratePwd t fuel confirmed)
      (fun _ p' _ => Rewritten t v p (fun e => confirmed = true ∧ ∃ newPwd : List Byte,
        newPwd.length = 32 ∧ (∀ byte ∈ newPwd, 32 ≤ byte.toNat ∧ byte.toNat ≤ 125) ∧
        e = { currentEntry t v p with data := cleared newPwd }) p')
      (fun _ _ => True) (fun _ _ => True) p v := by
  rw [optCallbackRegeneratePwd, wp_ite, wp_pure]
  refine ⟨fun hconfirmed => ?_, fun hnot => Or.inl ⟨fun _ h => hnot h.1, rfl⟩⟩
  refine wp_imp (wp_protectedEdit_entry (W := fun e => ∃ newPwd : List Byte,
    newPwd.length = 32 ∧ (∀ byte ∈ newPwd, 32 ≤ byte.toNat ∧ byte.toNat ≤ 125) ∧
    e = { currentEntry t v p with data := cleared newPwd }) hid fun p₁ hsame => ?_)
    fun _ _ _ h => Or.inr ⟨hconfirmed, h⟩
  have hlt := lt_of_lt_capacity hid
  rw [passwordRegenerate, wp_bind]
  refine wp_mono (wp_sameOff (wp_randomFill (fun _ _ => wp_randomRequestPrintable fuel) 32)) ?_
    (fun _ _ => id) fun _ _ _ => trivial
  intro newPwd p₂ v₂ hpost
  obtain ⟨hpool, ⟨hlength, hprintable⟩, hdrawn⟩ := hpost
  rw [wp_bind, wp_ram, hdrawn.key]
  refine wp_mono (wp_setData_entry hid hlength) ?_ (fun _ _ => False.elim) fun _ _ _ => trivial
  intro _ p₃ _ hpost
  obtain ⟨_, hentry⟩ := hpost
  refine ⟨newPwd, hlength, hprintable, hentry.trans ?_⟩
  have hdrawnEntry : currentEntry t v p₂ = currentEntry t v p₁ :=
    readEntry_of_header hpool hid fun _ hx => hx.2.trans (by decide)
  rw [← hsame, ← hdrawnEntry]
  rfl

/-- The order by name is sorted after the name is written. -/
theorem wp_changeName_entry {use alpha : List ℕ} (h : WellFormed t p v use alpha)
    (hfuel : sortTurns ≤ fuel) (typing : Typing 32) :
    wp (optCallbackChangeName t fuel typing)
      (fun _ p' _ => Rewritten t v p (fun e => ∃ typed, typing (currentEntry t v p).name =
        some typed ∧ e = { currentEntry t v p with name := typed.toList }) p')
      (fun _ _ => False) (fun _ _ => True) p v := by
  have hlt := lt_of_lt_capacity hid
  have hsub : drawing (burst (535 + 170 * v.currentPasswordId + 10) 32) ⊆
      fieldsRegion v.currentPasswordId := drawing_burst_subset (by decide) (by decide)
  rw [optCallbackChangeName, wp_bind, wp_ram, wp_bind, wp_readImage]
  refine wp_whenTyped_entry fun typed => ?_
  rw [wp_bind]
  refine wp_mono (wp_sameOff (@wp_setName_entry t _ v.key p v hid typed)) ?_ (fun _ _ => id)
    fun _ _ _ => trivial
  intro _ p₁ v₁ hpost
  obtain ⟨hsame₁, hv₁, hentry⟩ := hpost
  subst hv₁
  have h₁ := h.of_quiet hsame₁ ((quiet_fields hlt).mono hsub)
  refine wp_mono (wp_sameOff (wp_mono (wp_sortAlpha h₁ hfuel) (fun _ _ _ => id) (fun _ _ => id)
    fun _ _ hcut => hcut.mono (orderRegion_subset (Or.inr rfl)))) ?_ (fun _ _ => id)
    fun _ _ _ => trivial
  intro _ p₂ _ hpost
  obtain ⟨hsame₂, _⟩ := hpost
  exact (hsame₂.readEntry_of_list hid).trans hentry

/-- The counter goes up when the password is sent, and round to 0. -/
theorem wp_sendPwd_entry {use alpha : List ℕ} (h : WellFormed t p v use alpha)
    (hfuel : sortTurns ≤ fuel) :
    wp (optCallbackSendPwd t fuel)
      (fun _ p' _ => Rewritten t v p (fun e => e = { currentEntry t v p with
        counter := ((currentEntry t v p).counter + 1) % 65536 }) p')
      (fun _ _ => False) (fun _ _ => True) p v := by
  have hlt := lt_of_lt_capacity hid
  have hsub : drawing (burst (535 + 170 * v.currentPasswordId + 8) 2) ⊆
      fieldsRegion v.currentPasswordId := drawing_burst_subset (by decide) (by decide)
  rw [optCallbackSendPwd]
  simp only [wp_bind, wp_ram, wp_readImage, passwordIncrementCounter]
  refine wp_mono (wp_sameOff (@wp_setCounter_entry t _ v.key p v hid _
    (Nat.mod_lt _ (by decide)))) ?_ (fun _ _ => id) fun _ _ _ => trivial
  intro _ p₁ v₁ hpost
  obtain ⟨hsame₁, hv₁, hentry⟩ := hpost
  subst hv₁
  have h₁ := h.of_quiet hsame₁ ((quiet_fields hlt).mono hsub)
  refine wp_mono (wp_sameOff (wp_mono (wp_sortUse h₁ hfuel) (fun _ _ _ => id) (fun _ _ => id)
    fun _ _ hcut => hcut.mono (orderRegion_subset (Or.inl rfl)))) ?_ (fun _ _ => id)
    fun _ _ _ => trivial
  intro _ p₂ _ hpost
  obtain ⟨hsame₂, _⟩ := hpost
  exact (wp_pure _).mpr (Or.inr ((hsame₂.readEntry_of_list hid).trans hentry))

end Current

/-! ## All entries -/

/-- The entry that an action writes. -/
def MenuAction.Writes (t : Target) (p : Image) (v : Ram) (e : Entry) : MenuAction → Prop
  | addPwd name data usrName => v.numPwd ≠ maximumNumberOfPwd - 1 ∧
      e = ⟨name.toList, 0, cleared data.toList, cleared usrName.toList⟩
  | changeName typing => ∃ typed, typing (currentEntry t v p).name = some typed ∧
      e = { currentEntry t v p with name := typed.toList }
  | changePwd typing => ∃ typed, typing (currentEntry t v p).data = some typed ∧
      e = { currentEntry t v p with data := cleared typed.toList }
  | changeUsrName typing => ∃ typed, typing (currentEntry t v p).usrName = some typed ∧
      e = { currentEntry t v p with usrName := cleared typed.toList }
  | regeneratePwd _ confirmed => confirmed = true ∧ ∃ newPwd : List Byte,
      newPwd.length = 32 ∧ (∀ byte ∈ newPwd, 32 ≤ byte.toNat ∧ byte.toNat ≤ 125) ∧
      e = { currentEntry t v p with data := cleared newPwd }
  | sendPwd | sendBoth => e = { currentEntry t v p with
      counter := ((currentEntry t v p).counter + 1) % 65536 }
  | deletePwd _ | sendUsr | noSort | sortUse | sortAlpha => False

/-- The used chunks say what they said, but for one that says what the action
writes, if it writes something. -/
structure MenuAction.Rewrites (t : Target) (p : Image) (v : Ram) (action : MenuAction)
    (p' : Image) : Prop where
  entries : ∀ id < maximumNumberOfPwd, p'.used id = true →
    (p.used id = true ∧ readEntry t v.key id p' = readEntry t v.key id p) ∨
      action.Writes t p v (readEntry t v.key id p')
  written : (∃ e, action.Writes t p v e) → ∃ id < maximumNumberOfPwd, p'.used id = true ∧
    action.Writes t p v (readEntry t v.key id p')

variable {use alpha use' alpha' : List ℕ} {action : MenuAction}

/-- What is written to the current password only. -/
theorem rewrites_of_current (h : WellFormed t p v use alpha)
    (h' : WellFormed t p' v' use' alpha') (hperm : use'.Perm use)
    (hmem : v.currentPasswordId ∈ use)
    (hothers : ∀ id ∈ use, id ≠ v.currentPasswordId →
      readEntry t v.key id p' = readEntry t v.key id p)
    (hentry : Rewritten t v p (fun e => action.Writes t p v e) p') :
    action.Rewrites t p v p' := by
  refine ⟨fun id hid hused => ?_, fun ⟨e, he⟩ => ?_⟩
  · have hin : id ∈ use := hperm.mem_iff.mp (h'.mem_use_iff.mpr ⟨hid, hused⟩)
    have hused' := (h.mem_use_iff.mp hin).2
    by_cases hcurrent : id = v.currentPasswordId
    · subst hcurrent
      rcases hentry with ⟨-, hsame⟩ | hwritten
      · exact Or.inl ⟨hused', hsame⟩
      · exact Or.inr hwritten
    · exact Or.inl ⟨hused', hothers id hin hcurrent⟩
  · rcases hentry with ⟨hnone, -⟩ | hwritten
    · exact absurd he (hnone e)
    · obtain ⟨hid, hused⟩ := h'.mem_use_iff.mp (hperm.mem_iff.mpr hmem)
      exact ⟨_, hid, hused, hwritten⟩

/-- What writes no entry at all. -/
theorem rewrites_of_same (h : WellFormed t p v use alpha) (h' : WellFormed t p' v' use' alpha')
    (hsub : use' ⊆ use)
    (hsame : ∀ id ∈ use', readEntry t v.key id p' = readEntry t v.key id p)
    (hnone : ∀ e, ¬ action.Writes t p v e) : action.Rewrites t p v p' := by
  refine ⟨fun id hid hused => Or.inl ?_, fun ⟨e, he⟩ => absurd he (hnone e)⟩
  have hin := h'.mem_use_iff.mpr ⟨hid, hused⟩
  exact ⟨(h.mem_use_iff.mp (hsub hin)).2, hsame id hin⟩

theorem wp_addPwd_rewrites (h : WellFormed t p v use alpha) (hfuel : sortTurns ≤ fuel)
    (hreach : t.Reaches v) (name data : Vector Byte 32) (usrName : Vector Byte 64) :
    wp (optCallbackAddPwd t fuel name data usrName)
      (fun _ p' _ => (MenuAction.addPwd name data usrName).Rewrites t p v p')
      (fun _ _ => False) (fun _ _ => True) p v := by
  rw [optCallbackAddPwd, wp_bind, wp_ram, wp_ite, wp_pure]
  refine ⟨fun hfull => ?_, fun hroom => ?_⟩
  · exact rewrites_of_same h h (List.Subset.refl _) (fun _ _ => rfl) fun e he => he.1 hfull
  · have hlength := h.length_lt_capacity hreach (h.length_lt_of_room hroom)
    rw [wp_bind]
    refine wp_mono (wp_pwdListAddPwd h hfuel hlength (by simp) (by simp)) ?_ (fun _ _ => id)
      fun _ _ _ => trivial
    intro _ p' v' hpost
    obtain ⟨_, pwdId, hlt, hnew, _, hadded⟩ := hpost
    obtain ⟨use', alpha', huse, -, hwell, -⟩ := hadded.lists
    have hwrites : (MenuAction.addPwd name data usrName).Writes t p v
        (readEntry t v.key pwdId p') := ⟨hroom, hadded.entry⟩
    refine (wp_pure _).mpr ⟨fun id hid hused => ?_, fun _ => ?_⟩
    · have hin := huse.mem_iff.mp (hwell.mem_use_iff.mpr ⟨hid, hused⟩)
      by_cases heq : id = pwdId
      · exact Or.inr (heq ▸ hwrites)
      · have hold : id ∈ use := by simpa [heq] using hin
        exact Or.inl ⟨(h.mem_use_iff.mp hold).2,
          hadded.frame.readEntry (h.threadedUse.bound id hold) hlt heq⟩
    · have hin : pwdId ∈ use' :=
        huse.mem_iff.mpr (List.mem_append_right use (List.mem_singleton_self pwdId))
      obtain ⟨hid, hused⟩ := hwell.mem_use_iff.mp hin
      exact ⟨pwdId, hid, hused, hwrites⟩

theorem wp_deletePwd_rewrites (h : WellFormed t p v use alpha) (hmem : v.currentPasswordId ∈ use)
    (hfuel : 768 ≤ fuel) (hmethod : pwdListGetSortingMethod v.optionsFlag ≤ pwdSortingAlpha)
    (confirmed : Bool) :
    wp (optCallbackDeletePwd t fuel confirmed)
      (fun _ p' _ => (MenuAction.deletePwd confirmed).Rewrites t p v p')
      (fun _ _ => False) (fun _ _ => True) p v := by
  have hnone : ∀ e, ¬ (MenuAction.deletePwd confirmed).Writes t p v e := fun _ => id
  rw [optCallbackDeletePwd, wp_ite, wp_pure]
  refine ⟨fun _ => ?_, fun _ =>
    rewrites_of_same h h (List.Subset.refl _) (fun _ _ => rfl) hnone⟩
  rw [deleteCurrent, wp_bind]
  refine wp_imp (wp_prevOfDeleted h hmem hfuel hmethod) ?_
  intro prevPwd p₁ v₁ hpost
  obtain ⟨hp, hv, _⟩ := hpost
  subst hp hv
  rw [wp_bind, wp_ram, wp_bind]
  refine wp_mono (wp_pwdListDeletePwd h hmem) ?_ (fun _ _ => id) fun _ _ _ => trivial
  intro _ p' v' hpost
  obtain ⟨hsame, hv', hwell, _⟩ := hpost
  rw [wp_modifyRam]
  have hlt := lt_of_lt_capacity (h.threadedUse.bound _ hmem)
  refine rewrites_of_same h hwell List.erase_subset (fun id hid => ?_) hnone
  obtain ⟨hne, hin⟩ := h.threadedUse.nodup.mem_erase_iff.mp hid
  exact hsame.readEntry (h.threadedUse.bound id hin) hlt hne

/-- What an action on the current password rewrites, by what it touches and what the
current password says after it. -/
theorem wp_current_rewrites {m : Dev Unit} {R : Set ℕ} {Q : Ram → Prop}
    (h : WellFormed t p v use alpha) (hmem : v.currentPasswordId ∈ use)
    (hlists : wp m (fun _ p' v' => Q v' ∧ Rearranged t use alpha p p' v') H
      (fun step _ => step.write.Within R) p v)
    (hframe : ∀ p', SameOff R p p' → ∀ id ∈ use, id ≠ v.currentPasswordId →
      readEntry t v.key id p' = readEntry t v.key id p)
    (hentry : wp m (fun _ p' _ => Rewritten t v p (fun e => action.Writes t p v e) p')
      (fun _ _ => True) (fun _ _ => True) p v) :
    wp m (fun _ p' _ => action.Rewrites t p v p') (fun _ _ => True) (fun _ _ => True) p v := by
  refine wp_mono (wp_and (wp_sameOff hlists) hentry) ?_ (fun _ _ _ => trivial)
    fun _ _ _ => trivial
  intro _ p' v' ⟨⟨hsame, _, hrest⟩, hwritten⟩
  obtain ⟨use', alpha', hperm, hwell, -⟩ := hrest
  exact rewrites_of_current h hwell hperm hmem (hframe p' hsame) hwritten

/-- What every action writes. -/
theorem wp_menuAction_rewrites (hfits : action.Fits t v) (hfuel : sortTurns ≤ fuel)
    (h : MenuInvariant t p v) (hpwd : action.OnPwd → v.numPwd ≠ 0) :
    wp (action.run t fuel) (fun _ p' _ => action.Rewrites t p v p') (fun _ _ => True)
      (fun _ _ => True) p v := by
  have hmany : 768 ≤ fuel := le_trans (by decide) hfuel
  obtain ⟨⟨use, alpha, hwell, -, hcurrent⟩, hmethod⟩ := h
  have hmem : action.OnPwd → v.currentPasswordId ∈ use := by
    intro honPwd
    rcases hcurrent with ⟨hnil, -⟩ | hmem
    · exact absurd (hwell.numPwd.trans (by rw [hnil]; rfl)) (hpwd honPwd)
    · exact hmem
  have hlost : ∀ {m : Dev Unit} {Q : Unit → Image → Ram → Prop} {C : Step Write → Image → Prop},
      wp m Q (fun _ _ => False) C p v → wp m Q (fun _ _ => True) (fun _ _ => True) p v :=
    fun hm => wp_mono hm (fun _ _ _ => id) (fun _ _ _ => trivial) fun _ _ _ => trivial
  -- the chunks that are not the current one
  have hedit : v.currentPasswordId ∈ use → ∀ p', SameOff (secretsRegion v.currentPasswordId ∪
      backupRegion) p p' → ∀ id ∈ use, id ≠ v.currentPasswordId →
      readEntry t v.key id p' = readEntry t v.key id p := fun hin p' hsame id hid hne =>
    readEntry_of_edit hsame (hwell.threadedUse.bound id hid)
      (lt_of_lt_capacity (hwell.threadedUse.bound _ hin)) hne
  have hchunk : v.currentPasswordId ∈ use → ∀ p', SameOff (pwdRegion t v.currentPasswordId) p p' →
      ∀ id ∈ use, id ≠ v.currentPasswordId → readEntry t v.key id p' = readEntry t v.key id p :=
    fun hin p' hsame id hid hne => hsame.readEntry (hwell.threadedUse.bound id hid)
      (lt_of_lt_capacity (hwell.threadedUse.bound _ hin)) hne
  have hsend : v.currentPasswordId ∈ use → wp (optCallbackSendPwd t fuel)
      (fun _ p' _ => MenuAction.sendPwd.Rewrites t p v p') (fun _ _ => True) (fun _ _ => True)
      p v := by
    intro hin
    have hid := hwell.threadedUse.bound _ hin
    refine wp_mono (wp_and (wp_sameOff (wp_optCallbackSendPwd hwell hfuel hid))
      (wp_sendPwd_entry hid hwell hfuel)) ?_ (fun _ _ _ => trivial) fun _ _ _ => trivial
    intro _ p' v' hpost
    obtain ⟨⟨hsame, _, hrest⟩, hwritten⟩ := hpost
    obtain ⟨use', alpha', hperm, hwell', -⟩ := hrest
    exact rewrites_of_current hwell hwell' hperm hin (hchunk hin p' hsame) hwritten
  have hmode : ∀ {method : Byte}, (∀ e, ¬ action.Writes t p v e) →
      wp (optCallbackSort method) (fun _ p' _ => action.Rewrites t p v p') (fun _ _ => True)
        (fun _ _ => True) p v := by
    intro method hnone
    refine wp_mono (wp_sameOff (wp_optCallbackSort hwell method)) ?_ (fun _ _ _ => trivial)
      fun _ _ _ => trivial
    intro _ p' v' hpost
    obtain ⟨hsame, _, _, hrest⟩ := hpost
    obtain ⟨use', alpha', hperm, hwell', -⟩ := hrest
    refine rewrites_of_same hwell hwell' hperm.subset (fun id hid => ?_) hnone
    refine readEntry_of_header hsame (hwell'.threadedUse.bound id hid) fun x hx => ?_
    rw [show x = 0 from hx]
    decide
  cases action with
  | addPwd name data usrName => exact hlost (wp_addPwd_rewrites hwell hfuel hfits _ _ _)
  | deletePwd confirmed =>
      exact hlost (wp_deletePwd_rewrites hwell (hmem trivial) hmany hmethod confirmed)
  | changeName typing =>
      rw [MenuAction.run]
      have hin := hmem trivial
      have hid := hwell.threadedUse.bound _ hin
      exact wp_current_rewrites hwell hin (wp_optCallbackChangeName hwell hfuel hid typing)
        (hchunk hin) (hlost (wp_changeName_entry hid hwell hfuel typing))
  | changePwd typing =>
      rw [MenuAction.run]
      have hin := hmem trivial
      have hid := hwell.threadedUse.bound _ hin
      exact wp_current_rewrites (H := fun _ _ => False) hwell hin (wp_edit hwell hid
        (wp_optCallbackChangePwd hid typing)) (hedit hin) (hlost (wp_changePwd_entry hid typing))
  | changeUsrName typing =>
      rw [MenuAction.run]
      have hin := hmem trivial
      have hid := hwell.threadedUse.bound _ hin
      exact wp_current_rewrites (H := fun _ _ => False) hwell hin (wp_edit hwell hid
        (wp_optCallbackChangeUsrName hid typing)) (hedit hin)
        (hlost (wp_changeUsrName_entry hid typing))
  | regeneratePwd drawings confirmed =>
      rw [MenuAction.run]
      have hin := hmem trivial
      have hid := hwell.threadedUse.bound _ hin
      exact wp_current_rewrites hwell hin (wp_edit hwell hid
        (wp_optCallbackRegeneratePwd hid confirmed)) (hedit hin)
        (wp_regeneratePwd_entry hid confirmed)
  | sendPwd =>
      rw [MenuAction.run, wp_bind]
      exact wp_imp (hsend (hmem trivial)) fun _ _ _ h => (wp_pure _).mpr h
  | sendUsr =>
      rw [MenuAction.run, wp_bind]
      refine wp_mono (@wp_optCallbackSendUsr t p v fun _ _ => True) ?_ (fun _ _ _ => trivial)
        fun _ _ _ => trivial
      intro _ p' v' hpost
      obtain ⟨hp, hv⟩ := hpost
      subst hp hv
      exact (wp_pure _).mpr (rewrites_of_same hwell hwell (List.Subset.refl _) (fun _ _ => rfl)
        fun _ => id)
  | sendBoth =>
      rw [MenuAction.run, optCallbackSendBoth, wp_bind, wp_bind]
      refine wp_mono (@wp_optCallbackSendUsr t p v fun _ _ => True) ?_ (fun _ _ _ => trivial)
        fun _ _ _ => trivial
      intro _ p' v' hpost
      obtain ⟨hp, hv⟩ := hpost
      subst hp hv
      rw [wp_bind]
      refine wp_imp (hsend (hmem trivial)) fun _ _ _ h => ?_
      simp only [wp_pure]
      exact ⟨h.entries, h.written⟩
  | noSort => exact hmode fun _ => id
  | sortUse => exact hmode fun _ => id
  | sortAlpha => exact hmode fun _ => id

end PasswordWallet
