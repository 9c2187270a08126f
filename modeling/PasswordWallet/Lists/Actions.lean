import PasswordWallet.Lists.Delete
import PasswordWallet.Lists.Walk
import PasswordWallet.Options.CallbackPassword

/-!
# What the menu actions do to the lists

The edits of a secret write nothing that the lists are made of.  A new name and a
new counter change a key of one order, which the action sorts; the keys of the
other one stay.  In each case the lists keep their passwords (`Rearranged`).
-/

namespace PasswordWallet

open PowerLoss

variable {t : Target} {pwdId fuel : ℕ} {p p' : Image} {v v' : Ram} {use alpha : List ℕ}
  {R : Set ℕ} {H : Image → Ram → Prop}

/-! ## Rearranged stores -/

/-- The same passwords, in lists that are in order if they were. -/
def Rearranged (t : Target) (use alpha : List ℕ) (p p' : Image) (v' : Ram) : Prop :=
  ∃ use' alpha', use'.Perm use ∧ WellFormed t p' v' use' alpha' ∧
    (Sorted t use alpha p → Sorted t use' alpha' p')

/-- The bytes that the keys are read from. -/
def keyRegion (t : Target) : Set ℕ :=
  {x | ∃ id < t.addressing.capacity, x ∈ burst (535 + 170 * id + 8) 34}

theorem SameOff.chunkByte_of_disjoint {id i : ℕ} (h : SameOff R p p')
    (hkeys : ∀ x ∈ R, x ∉ keyRegion t) (hid : id < t.addressing.capacity) (hi : 8 ≤ i)
    (hi' : i < 42) : p'.chunkByte id i = p.chunkByte id i := by
  have := lt_of_lt_capacity hid
  have hsize : framByteSize = 131072 := rfl
  refine h.byte fun hmem => hkeys _ hmem ⟨id, hid, ?_⟩
  rw [mem_burst (by omega), Nat.mod_eq_of_lt (by omega)]
  omega

theorem SameOff.readKey_of_disjoint {K : Type} {o : PwdOrder K} {link id : ℕ}
    (h : SameOff R p p') (hat : o.At t link) (hkeys : ∀ x ∈ R, x ∉ keyRegion t)
    (hid : id < t.addressing.capacity) : o.readKey id p' = o.readKey id p :=
  hat.readKey_congr hid fun _ hi hi' => h.chunkByte_of_disjoint hkeys hid hi hi'

/-- Writing neither to the lists nor to the keys. -/
theorem WellFormed.rearranged (h : WellFormed t p v use alpha) (hsame : SameOff R p p')
    (hquiet : Quiet t R) (hkeys : ∀ x ∈ R, x ∉ keyRegion t) (hnum : v'.numPwd = v.numPwd) :
    Rearranged t use alpha p p' v' := by
  refine ⟨use, alpha, .refl _, ?_, fun hsorted => ⟨?_, ?_⟩⟩
  · exact (h.listed.of_quiet hsame hquiet).wellFormed (fun _ _ => rfl) h.perm
      (hnum.trans h.numPwd)
  · exact Ordered.congr hsorted.use fun id hid =>
      hsame.readKey_of_disjoint (orderUse_at t) hkeys (h.threadedUse.bound id hid)
  · exact Ordered.congr hsorted.alpha fun id hid =>
      hsame.readKey_of_disjoint (orderAlpha_at t) hkeys (h.threadedAlpha.bound id hid)

/-! ## Edits -/

/-- The bytes of the secrets of a chunk, and the pool. -/
def secretsRegion (pwdId : ℕ) : Set ℕ := drawing (burst (535 + 170 * pwdId + 42) 128)

theorem secretsRegion_subset : secretsRegion pwdId ⊆ fieldsRegion pwdId :=
  have hsub : burst (535 + 170 * pwdId + 8 + 34) 128 ⊆ burst (535 + 170 * pwdId + 8) 162 :=
    burst_subset (by decide)
  Set.union_subset_union_right _ hsub

theorem quiet_edit (hid : pwdId < 767) : Quiet t (secretsRegion pwdId ∪ backupRegion) :=
  ((quiet_fields hid).mono secretsRegion_subset).union
    (quiet_header fun _ hx => Or.inr (Or.inr hx))

theorem keys_edit (hid : pwdId < 767) :
    ∀ x ∈ secretsRegion pwdId ∪ backupRegion, x ∉ keyRegion t := by
  have hsize : framByteSize = 131072 := rfl
  rintro x hx ⟨id, hid', hmem⟩
  have := lt_of_lt_capacity hid'
  rw [mem_burst (by omega)] at hmem
  rcases hx with (hx | hx) | hx
  · have := hx.2
    omega
  · rw [mem_burst (by omega)] at hx
    omega
  · have := hx.2
    omega

theorem wp_whenTyped {size : ℕ} {typing : Typing size} {text : List Byte}
    {edit : Vector Byte size → Dev Unit} {Q : Unit → Image → Ram → Prop}
    {C : Step Write → Image → Prop} (hnone : typing text = none → Q () p v)
    (hsome : ∀ typed, typing text = some typed → wp (edit typed) Q H C p v) :
    wp (whenTyped typing text edit) Q H C p v := by
  unfold whenTyped
  cases htyped : typing text with
  | none => exact (wp_pure _).mpr (hnone htyped)
  | some typed => exact hsome typed htyped

/-- An edit writes to the secrets and the backup section only. -/
theorem wp_protectedEdit {edit : ℕ → Dev Unit}
    (hid : v.currentPasswordId < t.addressing.capacity)
    (hedit : ∀ p, wp (edit v.currentPasswordId) (fun _ _ v' => Drawn v v') H
      (fun step _ => step.write.Within (secretsRegion v.currentPasswordId)) p v) :
    wp (protectedEdit t edit) (fun _ _ v' => Drawn v v') H
      (fun step _ => step.write.Within (secretsRegion v.currentPasswordId ∪ backupRegion)) p v := by
  have hlt := lt_of_lt_capacity hid
  rw [protectedEdit, wp_bind, wp_ram, wp_bind]
  refine wp_mono (wp_backupSave (Addressing.plain_of_lt hid) (by omega)) ?_ (fun _ _ => False.elim)
    fun _ _ h => h.1.mono Set.subset_union_right
  intro _ p₁ v₁ ⟨hv₁, _⟩
  subst hv₁
  rw [wp_bind]
  refine wp_mono (hedit p₁) ?_ (fun _ _ => id) fun _ _ h => h.mono Set.subset_union_left
  intro _ p₂ v₂ hdrawn
  refine wp_mono wp_backupFree ?_ (fun _ _ => False.elim) fun _ _ h =>
    h.1.mono Set.subset_union_right
  exact fun _ _ _ h => h.1 ▸ hdrawn

/-- What an edit that writes to the secrets and the backup section leaves. -/
theorem wp_edit {m : Dev Unit} (h : WellFormed t p v use alpha)
    (hid : v.currentPasswordId < t.addressing.capacity)
    (hwrites : wp m (fun _ _ v' => Drawn v v') H
      (fun step _ => step.write.Within (secretsRegion v.currentPasswordId ∪ backupRegion)) p v) :
    wp m (fun _ p' v' => Drawn v v' ∧ Rearranged t use alpha p p' v') H
      (fun step _ => step.write.Within (secretsRegion v.currentPasswordId ∪ backupRegion)) p v := by
  have hlt := lt_of_lt_capacity hid
  refine wp_mono (wp_sameOff hwrites) (fun _ p' v' ⟨hsame, hdrawn⟩ => ?_) (fun _ _ => id)
    fun _ _ h => h.1
  exact ⟨hdrawn, h.rearranged hsame (quiet_edit hlt) (keys_edit hlt) hdrawn.numPwd⟩

theorem wp_editData {key : Block} (hid : pwdId < t.addressing.capacity) (data : List Byte) :
    wp (passwordSetData t pwdId data key) (fun _ _ v' => Drawn v v') H
      (fun step _ => step.write.Within (secretsRegion pwdId)) p v :=
  wp_mono (wp_passwordSetData (Addressing.plain_of_lt hid)) (fun _ _ _ h => h.1)
    (fun _ _ => False.elim) fun _ _ h => h.mono
      (Set.union_subset_union_right _ (burst_subset (k := 0) (by decide)))

theorem wp_editUsrName {key : Block} (hid : pwdId < t.addressing.capacity) (usr : List Byte) :
    wp (passwordSetUsrName t pwdId usr key) (fun _ _ v' => Drawn v v') H
      (fun step _ => step.write.Within (secretsRegion pwdId)) p v := by
  have hsub : burst (535 + 170 * pwdId + 42 + 48) 80 ⊆ burst (535 + 170 * pwdId + 42) 128 :=
    burst_subset (by decide)
  exact wp_mono (wp_passwordSetUsrName (Addressing.plain_of_lt hid)) (fun _ _ _ h => h.1)
    (fun _ _ => False.elim) fun _ _ h => h.mono (Set.union_subset_union_right _ hsub)

section Current

variable (hid : v.currentPasswordId < t.addressing.capacity)
include hid

theorem wp_optCallbackChangePwd (typing : Typing 32) :
    wp (optCallbackChangePwd t typing) (fun _ _ v' => Drawn v v') H
      (fun step _ => step.write.Within (secretsRegion v.currentPasswordId ∪ backupRegion)) p v := by
  rw [optCallbackChangePwd, wp_bind, wp_ram, wp_bind, wp_readImage]
  refine wp_whenTyped (fun _ => .refl v) fun pwd _ => wp_protectedEdit hid fun p => ?_
  rw [underKey, wp_bind, wp_ram]
  exact wp_editData hid _

theorem wp_optCallbackChangeUsrName (typing : Typing 64) :
    wp (optCallbackChangeUsrName t typing) (fun _ _ v' => Drawn v v') H
      (fun step _ => step.write.Within (secretsRegion v.currentPasswordId ∪ backupRegion)) p v := by
  rw [optCallbackChangeUsrName, wp_bind, wp_ram, wp_bind, wp_readImage]
  refine wp_whenTyped (fun _ => .refl v) fun usr _ => wp_protectedEdit hid fun p => ?_
  rw [underKey, wp_bind, wp_ram]
  exact wp_editUsrName hid _

/-- Drawing printable characters may take for ever. -/
theorem wp_optCallbackRegeneratePwd (confirmed : Bool) :
    wp (optCallbackRegeneratePwd t fuel confirmed) (fun _ _ v' => Drawn v v')
      (fun _ _ => confirmed = true)
      (fun step _ => step.write.Within (secretsRegion v.currentPasswordId ∪ backupRegion)) p v := by
  rw [optCallbackRegeneratePwd, wp_ite, wp_pure]
  refine ⟨fun hconfirmed => wp_protectedEdit hid fun p => ?_, fun _ => .refl v⟩
  rw [passwordRegenerate, wp_bind]
  refine wp_mono (wp_randomFill (fun _ _ => wp_randomRequestPrintable fuel) 32) ?_
    (fun _ _ _ => hconfirmed) fun _ _ h => h.mono Set.subset_union_left
  intro newPwd p₁ v₁ ⟨_, hdrawn⟩
  rw [wp_bind, wp_ram]
  exact wp_imp (wp_editData hid newPwd) fun _ _ _ h => hdrawn.trans h

end Current

/-! ## Names and counters -/

theorem pwdRegion_of_fields : fieldsRegion pwdId ⊆ pwdRegion t pwdId :=
  fieldsRegion_subset.trans Set.subset_union_right

theorem pwdRegion_of_order {link : ℕ} (hlink : link = 0 ∨ link = 4) :
    orderRegion t link ⊆ pwdRegion t pwdId :=
  (orderRegion_subset hlink).trans Set.subset_union_left

section Sorting

variable (h : WellFormed t p v use alpha) (hfuel : sortTurns ≤ fuel)
include h hfuel

/-- Sorting one order puts it in order and leaves the other one as it is. -/
theorem wp_sortUse :
    wp (pwdListSortUse t fuel)
      (fun _ p' v' => v' = v ∧ ∃ use', use'.Perm use ∧ WellFormed t p' v' use' alpha ∧
        use'.Pairwise (Ordered (orderUse t) fun id => (orderUse t).readKey id p') ∧
        ∀ id < t.addressing.capacity, (orderAlpha t).readKey id p' = (orderAlpha t).readKey id p)
      (fun _ _ => False) (fun step _ => step.write.Within (orderRegion t 0)) p v := by
  have hnum := h.numPwd
  refine wp_mono (wp_pwdListSortUse h.listed hfuel h.use_ne_nil) ?_ (fun _ _ => id) fun _ _ h => h.1
  intro _ p' v' hpost
  obtain ⟨rfl, hsame, use', hperm, hlisted, hsorted⟩ := hpost
  have hlist := hsame.mono (orderRegion_subset (Or.inl rfl))
  refine ⟨rfl, use', hperm, ?_, ?_, fun id hid => hlist.readKey_of_list (orderAlpha_at t) hid⟩
  · exact h.of_sortedUse hsame hperm hlisted.threadedUse
  · exact Ordered.congr (hsorted fun hlt => by rwa [hnum] at hlt) fun id hid =>
      hlist.readKey_of_list (orderUse_at t) (hlisted.threadedUse.bound id hid)

theorem wp_sortAlpha :
    wp (pwdListSortAlpha t fuel)
      (fun _ p' v' => v' = v ∧ ∃ alpha', WellFormed t p' v' use alpha' ∧
        alpha'.Pairwise (Ordered (orderAlpha t) fun id => (orderAlpha t).readKey id p') ∧
        ∀ id < t.addressing.capacity, (orderUse t).readKey id p' = (orderUse t).readKey id p)
      (fun _ _ => False) (fun step _ => step.write.Within (orderRegion t 4)) p v := by
  have hnum := h.numPwd
  refine wp_mono (wp_pwdListSortAlpha h.listed hfuel h.alpha_ne_nil) ?_ (fun _ _ => id)
    fun _ _ h => h.1
  intro _ p' v' hpost
  obtain ⟨rfl, hsame, alpha', hperm, hlisted, hsorted⟩ := hpost
  have hlist := hsame.mono (orderRegion_subset (Or.inr rfl))
  refine ⟨rfl, alpha', ?_, ?_, fun id hid => hlist.readKey_of_list (orderUse_at t) hid⟩
  · exact h.of_sortedAlpha hsame hperm hlisted.threadedAlpha
  · exact Ordered.congr (hsorted fun hlt => by rwa [hnum, ← h.perm.length_eq] at hlt) fun id hid =>
      hlist.readKey_of_list (orderAlpha_at t) (hlisted.threadedAlpha.bound id hid)

theorem wp_sortUse_rearranged :
    wp (pwdListSortUse t fuel) (fun _ p' v' => v' = v ∧ Rearranged t use alpha p p' v')
      (fun _ _ => False) (fun step _ => step.write.Within (orderRegion t 0)) p v := by
  refine wp_imp (wp_sortUse h hfuel) fun _ p' v' ⟨hv, use', hperm, hwell, hsorted, hkeys⟩ => ?_
  exact ⟨hv, use', alpha, hperm, hwell, fun hsorted' => ⟨hsorted, Ordered.congr hsorted'.alpha
    fun id hid => hkeys id (h.threadedAlpha.bound id hid)⟩⟩

theorem wp_sortAlpha_rearranged :
    wp (pwdListSortAlpha t fuel) (fun _ p' v' => v' = v ∧ Rearranged t use alpha p p' v')
      (fun _ _ => False) (fun step _ => step.write.Within (orderRegion t 4)) p v := by
  refine wp_imp (wp_sortAlpha h hfuel) fun _ p' v' ⟨hv, alpha', hwell, hsorted, hkeys⟩ => ?_
  exact ⟨hv, use, alpha', .refl _, hwell, fun hsorted' => ⟨Ordered.congr hsorted'.use
    fun id hid => hkeys id (h.threadedUse.bound id hid), hsorted⟩⟩

variable (hid : v.currentPasswordId < t.addressing.capacity)
include hid

/-- A new name changes no counter, and the order by name is sorted again. -/
theorem wp_optCallbackChangeName (typing : Typing 32) :
    wp (optCallbackChangeName t fuel typing)
      (fun _ p' v' => v' = v ∧ Rearranged t use alpha p p' v')
      (fun _ _ => False) (fun step _ => step.write.Within (pwdRegion t v.currentPasswordId))
      p v := by
  have hlt := lt_of_lt_capacity hid
  have hsub : drawing (burst (535 + 170 * v.currentPasswordId + 10) 32) ⊆
      fieldsRegion v.currentPasswordId := drawing_burst_subset (by decide) (by decide)
  rw [optCallbackChangeName, wp_bind, wp_ram, wp_bind, wp_readImage]
  refine wp_whenTyped (fun _ => ⟨rfl, use, alpha, .refl _, h, fun hsorted => hsorted⟩)
    fun name _ => ?_
  rw [wp_bind]
  refine wp_mono (wp_passwordSetName hid) ?_ (fun _ _ => id)
    fun _ _ h => h.mono (hsub.trans pwdRegion_of_fields)
  intro _ p₁ v₁ ⟨hv₁, hsame₁, _⟩
  subst hv₁
  have h₁ := h.of_quiet hsame₁ ((quiet_fields hlt).mono hsub)
  refine wp_mono (wp_sortAlpha h₁ hfuel) ?_ (fun _ _ => id)
    fun _ _ h => h.mono (pwdRegion_of_order (Or.inr rfl))
  intro _ p₂ v₂ ⟨hv₂, alpha', hwell, hsorted, hkeys⟩
  refine ⟨hv₂, use, alpha', .refl _, hwell, fun hsorted' => ⟨?_, hsorted⟩⟩
  refine Ordered.congr hsorted'.use fun id hmem => ?_
  have hbound := h.threadedUse.bound id hmem
  refine (hkeys id hbound).trans (passwordReadCounter_congr (Addressing.plain_of_lt hbound) ?_)
  exact fun i hi hi' => chunkByte_of_field (lt_of_lt_capacity hbound) hlt hsame₁ (by decide)
    (by omega) (by omega)

/-- A new counter changes no name, and the order by use is sorted again; the
counter may have gone round to 0. -/
theorem wp_optCallbackSendPwd :
    wp (optCallbackSendPwd t fuel) (fun _ p' v' => v' = v ∧ Rearranged t use alpha p p' v')
      (fun _ _ => False) (fun step _ => step.write.Within (pwdRegion t v.currentPasswordId))
      p v := by
  have hlt := lt_of_lt_capacity hid
  have hsub : drawing (burst (535 + 170 * v.currentPasswordId + 8) 2) ⊆
      fieldsRegion v.currentPasswordId := drawing_burst_subset (by decide) (by decide)
  rw [optCallbackSendPwd]
  simp only [wp_bind, wp_ram, wp_readImage, passwordIncrementCounter]
  refine wp_mono (wp_passwordSetCounter hid (Nat.mod_lt _ (by decide))) ?_ (fun _ _ => id)
    fun _ _ h => h.mono (hsub.trans pwdRegion_of_fields)
  intro _ p₁ v₁ hpost
  obtain ⟨hv₁, hsame₁, -⟩ := hpost
  subst hv₁
  have h₁ := h.of_quiet hsame₁ ((quiet_fields hlt).mono hsub)
  refine wp_mono (wp_sortUse h₁ hfuel) ?_ (fun _ _ => id)
    fun _ _ h => h.mono (pwdRegion_of_order (Or.inl rfl))
  intro _ p₂ v₂ hpost
  obtain ⟨hv₂, use', hperm, hwell, hsorted, hkeys⟩ := hpost
  refine (wp_pure _).mpr ⟨hv₂, use', alpha, hperm, hwell, fun hsorted' => ⟨hsorted, ?_⟩⟩
  refine Ordered.congr hsorted'.alpha fun id hmem => ?_
  have hbound := h.threadedAlpha.bound id hmem
  refine (hkeys id hbound).trans (congrArg upper
    (passwordReadName_congr (Addressing.plain_of_lt hbound) ?_))
  exact fun i hi hi' => chunkByte_of_field (lt_of_lt_capacity hbound) hlt hsame₁ (by decide)
    (by omega) (by omega)

end Sorting

/-! ## Adding and deleting -/

/-- What is left of lists in order is in order. -/
theorem Sorted.erase (h : Sorted t use alpha p) (hwell : WellFormed t p v use alpha)
    (hsame : SameOff (pwdRegion t pwdId) p p') (hpwd : pwdId < 767) :
    Sorted t (use.erase pwdId) (alpha.erase pwdId) p' := by
  have hkeys : ∀ {K : Type} {o : PwdOrder K} {link : ℕ}, o.At t link →
      ∀ {l : List ℕ}, Threaded t o l p → l.Pairwise (Ordered o fun id => o.readKey id p) →
      (l.erase pwdId).Pairwise (Ordered o fun id => o.readKey id p') := by
    intro K o link hat l hl hordered
    refine Ordered.congr (hordered.sublist List.erase_sublist) fun id hmem => ?_
    obtain ⟨hne, hid⟩ := hl.nodup.mem_erase_iff.mp hmem
    exact hat.readKey_congr (hl.bound id hid) fun i hi hi' =>
      hsame.chunkByte_of_pwd (hl.bound id hid) hpwd hne hi (by omega)
  exact ⟨hkeys (orderUse_at t) hwell.threadedUse h.use,
    hkeys (orderAlpha_at t) hwell.threadedAlpha h.alpha⟩

/-- With the last number of passwords that fits nothing is added. -/
theorem wp_optCallbackAddPwd (h : WellFormed t p v use alpha) (hfuel : sortTurns ≤ fuel)
    (hreach : t.Reaches v) (name data : Vector Byte 32) (usrName : Vector Byte 64) :
    wp (optCallbackAddPwd t fuel name data usrName)
      (fun _ p' v' => v'.currentPasswordId = v.currentPasswordId ∧
        v'.optionsFlag = v.optionsFlag ∧ ∃ use' alpha', WellFormed t p' v' use' alpha' ∧
          (Sorted t use alpha p → Sorted t use' alpha' p') ∧
          (use.length = 767 ∧ use' = use ∨
            ∃ pwdId, (∀ other < pwdId, other ∈ use) ∧ use'.Perm (use ++ [pwdId])))
      (fun _ _ => False) (fun step _ => ∃ pwdId < 767, step.write.Within (pwdRegion t pwdId))
      p v := by
  have hlength : use.length < 768 := h.threadedUse.length_lt
  rw [optCallbackAddPwd, wp_bind, wp_ram, wp_ite, wp_pure]
  refine ⟨fun hfull => ⟨rfl, rfl, use, alpha, h, fun hsorted => hsorted,
    Or.inl ⟨h.numPwd.symm.trans hfull, rfl⟩⟩, fun hroom => ?_⟩
  have hroom : use.length < 767 := by
    rw [h.numPwd] at hroom
    simp at hroom
    omega
  rw [wp_bind]
  refine wp_mono (wp_pwdListAddPwd h hfuel (h.length_lt_capacity hreach hroom) (by simp) (by simp))
    ?_ (fun _ _ => id) ?_
  · intro _ p' v' ⟨_, pwdId, _, _, hlowest, hadded⟩
    obtain ⟨use', alpha', huse, -, hwell, hsorted⟩ := hadded.lists
    exact (wp_pure _).mpr ⟨hadded.ram.currentPasswordId, hadded.ram.optionsFlag, use', alpha',
      hwell, fun _ => hsorted, Or.inr ⟨pwdId, hlowest, huse⟩⟩
  · exact fun _ _ ⟨pwdId, hlt, _, hcut, _⟩ => ⟨pwdId, hlt, hcut.1⟩

/-- With a free chunk there is one password more. -/
theorem exists_addPwd (h : WellFormed t p v use alpha) (hfuel : sortTurns ≤ fuel)
    (hreach : t.Reaches v) (hroom : v.numPwd < 767) (name data : Vector Byte 32)
    (usrName : Vector Byte 64) :
    ∃ p' v' use' alpha', Completes (optCallbackAddPwd t fuel name data usrName) p v () p' v' ∧
      WellFormed t p' v' use' alpha' ∧ v'.numPwd = v.numPwd + 1 := by
  obtain ⟨_, p', v', hrun, -, -, use', alpha', hwell, -, hadded⟩ :=
    exists_completes (wp_optCallbackAddPwd h hfuel hreach name data usrName)
  refine ⟨p', v', use', alpha', hrun, hwell, ?_⟩
  rcases hadded with ⟨hfull, -⟩ | ⟨pwdId, -, hperm⟩
  · exact absurd (h.numPwd.trans hfull) hroom.ne
  · rw [hwell.numPwd, hperm.length_eq, List.length_append, List.length_singleton, h.numPwd]

/-- The current password is one of the list, or there is none. -/
def CurrentIn (use : List ℕ) (v : Ram) : Prop :=
  (use = [] ∧ v.currentPasswordId = 0) ∨ v.currentPasswordId ∈ use

theorem wp_prevOfDeleted (h : WellFormed t p v use alpha) (hmem : v.currentPasswordId ∈ use)
    (hfuel : 768 ≤ fuel) (hmethod : pwdListGetSortingMethod v.optionsFlag ≤ pwdSortingAlpha)
    {C : Step Write → Image → Prop} :
    wp (prevOfDeleted t fuel)
      (fun prevPwd p' v' => p' = p ∧ v' = v ∧
        ((use.erase v.currentPasswordId = [] ∧ prevPwd = 0) ∨
          prevPwd ∈ use.erase v.currentPasswordId))
      (fun _ _ => False) C p v := by
  have hnum := h.numPwd
  rw [prevOfDeleted, wp_bind, wp_ram, wp_ite, wp_pure]
  refine ⟨fun hmany => ?_, fun hfew => ⟨rfl, rfl, Or.inl ⟨?_, rfl⟩⟩⟩
  · obtain ⟨prev, hprev, hne, hget⟩ := pwdListGetPrevPwdId_other h hmem (by omega) hfuel hmethod
    rw [wp_bind, wp_readImage, hget, orHang, wp_pure]
    exact ⟨rfl, rfl, Or.inr ((h.threadedUse.nodup.mem_erase_iff).mpr ⟨hne, hprev⟩)⟩
  · have hlength := List.length_erase_of_mem hmem
    exact List.length_eq_zero_iff.mp (by omega)

/-- Deleting the current password makes another one the current one. -/
theorem wp_optCallbackDeletePwd (h : WellFormed t p v use alpha)
    (hmem : v.currentPasswordId ∈ use) (hfuel : 768 ≤ fuel)
    (hmethod : pwdListGetSortingMethod v.optionsFlag ≤ pwdSortingAlpha) (confirmed : Bool) :
    wp (optCallbackDeletePwd t fuel confirmed)
      (fun _ p' v' => v'.optionsFlag = v.optionsFlag ∧ ∃ use' alpha',
        WellFormed t p' v' use' alpha' ∧ (Sorted t use alpha p → Sorted t use' alpha' p') ∧
        CurrentIn use' v')
      (fun _ _ => False) (fun step _ => step.write.Within (pwdRegion t v.currentPasswordId))
      p v := by
  have hlt := lt_of_lt_capacity (h.threadedUse.bound _ hmem)
  rw [optCallbackDeletePwd, wp_ite, wp_pure]
  refine ⟨fun _ => ?_, fun _ => ⟨rfl, use, alpha, h, fun hsorted => hsorted, Or.inr hmem⟩⟩
  rw [deleteCurrent, wp_bind]
  refine wp_imp (wp_prevOfDeleted h hmem hfuel hmethod) ?_
  rintro prevPwd _ _ ⟨rfl, rfl, hprev⟩
  rw [wp_bind, wp_ram, wp_bind]
  refine wp_mono (wp_pwdListDeletePwd h hmem) ?_ (fun _ _ => id) fun _ _ h => h.1.1
  intro _ p₁ v₁ ⟨hsame, hv₁, hwell, _⟩
  rw [wp_modifyRam]
  refine ⟨by rw [hv₁], _, _, ⟨hwell.threadedUse, hwell.threadedAlpha, hwell.mem_use, hwell.perm,
    hwell.numPwd, hwell.stored⟩, fun hsorted => hsorted.erase h hsame hlt, ?_⟩
  exact hprev

/-! ## Sending and sorting modes -/

theorem wp_optCallbackSendUsr {C : Step Write → Image → Prop} :
    wp (optCallbackSendUsr t) (fun _ p' v' => p' = p ∧ v' = v) (fun _ _ => False) C p v := by
  rw [optCallbackSendUsr]
  simp only [wp_bind, wp_ram, wp_readImage, wp_pure]
  exact ⟨trivial, trivial⟩

theorem wp_optCallbackSendBoth (h : WellFormed t p v use alpha) (hfuel : sortTurns ≤ fuel)
    (hid : v.currentPasswordId < t.addressing.capacity) :
    wp (optCallbackSendBoth t fuel) (fun _ p' v' => v' = v ∧ Rearranged t use alpha p p' v')
      (fun _ _ => False) (fun step _ => step.write.Within (pwdRegion t v.currentPasswordId))
      p v := by
  rw [optCallbackSendBoth, wp_bind]
  refine wp_imp wp_optCallbackSendUsr ?_
  rintro usr _ _ ⟨rfl, rfl⟩
  rw [wp_bind]
  exact wp_imp (wp_optCallbackSendPwd h hfuel hid) fun _ _ _ h => (wp_pure _).mpr h

/-- The byte of the options. -/
def optionsRegion : Set ℕ := {0}

/-- A sorting mode is a flag, and no list changes. -/
theorem wp_optCallbackSort (h : WellFormed t p v use alpha) (method : Byte) :
    wp (optCallbackSort method)
      (fun _ p' v' => v'.currentPasswordId = v.currentPasswordId ∧
        v'.optionsFlag = (v.optionsFlag &&& ~~~(3 : Byte)) ||| method ∧
        Rearranged t use alpha p p' v')
      (fun _ _ => False) (fun step _ => step.write.Within optionsRegion) p v := by
  rw [optCallbackSort, wp_bind, wp_ram, updateOptFlags, wp_bind, wp_modifyRam, wp_framWriteByte]
  have hwithin : (Write.fram (offsetOptionsFlag % framByteSize)
      ((v.optionsFlag &&& ~~~(3 : Byte)) ||| method)).Within optionsRegion := rfl
  refine ⟨hwithin, rfl, rfl, ?_⟩
  refine h.rearranged (hwithin.sameOff p) (quiet_header fun x hx => Or.inl hx) ?_ rfl
  rintro x hx ⟨id, hid, hmem⟩
  have := lt_of_lt_capacity hid
  rw [mem_burst (by simp only [framByteSize]; omega)] at hmem
  have : x = 0 := hx
  omega

end PasswordWallet
