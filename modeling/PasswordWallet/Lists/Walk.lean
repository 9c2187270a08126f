import Mathlib.Data.Nat.Find
import Mathlib.Logic.Function.Iterate
import PasswordWallet.Lists.Add

/-!
# Walking through the passwords

The menus go from one password to the next or the previous one, in the order of
the sorting mode.  In a sorted mode they follow the links and start again at the
other end; without sorting they scan the memory map.

Going to the next password from the first one on reaches every password
(`Visited`), and the previous one of a password is another one when there is one.
-/

namespace PasswordWallet

open PowerLoss LinkedList

variable {t : Target} {K : Type} {o : PwdOrder K} {link pwdId fuel : ℕ} {p : Image} {v : Ram}
  {l use alpha : List ℕ}

/-- The password is reached from the first one by going to the next one again and
again. -/
def Visited (t : Target) (optionsFlag : Byte) (p : Image) (pwdId : ℕ) : Prop :=
  ∃ n, (fun id => pwdListGetNextPwdId t optionsFlag id p)^[n]
    (pwdListGetFirstPwdId t optionsFlag p) = pwdId

/-! ## Along the links -/

theorem getNextPwdIdSorted_mid {l₁ l₂ : List ℕ} {next : ℕ}
    (h : Threaded t o (l₁ ++ pwdId :: next :: l₂) p) : getNextPwdIdSorted o pwdId p = next := by
  have hne : next ≠ maximumNumberOfPwd := fun heq => h.notMem_end (heq ▸ by simp)
  have hnext : o.readNext pwdId p = next :=
    (readNext_eq (h.bound pwdId (by simp))).trans (linked_append.mp h.linked).2.2.1
  rw [getNextPwdIdSorted, hnext, if_neg hne]

/-- Every password of a list is reached from its head. -/
theorem exists_iterate_next (h : Threaded t o l p) (hmem : pwdId ∈ l) :
    ∃ n, (fun id => getNextPwdIdSorted o id p)^[n] (getFirstPwdIdSorted o p) = pwdId := by
  obtain ⟨l₁, l₂, rfl⟩ := List.append_of_mem hmem
  refine ⟨l₁.length, ?_⟩
  -- by induction on the passwords in front of the one looked for, from the back
  induction l₁ using List.reverseRecOn generalizing pwdId l₂ with
  | nil => exact h.first
  | append_singleton front last ih =>
      have hsplit : front ++ [last] ++ pwdId :: l₂ = front ++ last :: pwdId :: l₂ := by simp
      rw [hsplit] at h
      have hlast := ih (pwdId :: l₂) h (by simp)
      rw [List.length_append, List.length_singleton, Function.iterate_succ_apply', hlast]
      exact getNextPwdIdSorted_mid h

/-- The previous password, from the first one on the last one. -/
theorem getPrevPwdIdSorted_other (h : Threaded t o l p) (hmem : pwdId ∈ l) (hfew : 2 ≤ l.length)
    (hfuel : l.length < fuel) :
    ∃ prev ∈ l, prev ≠ pwdId ∧ getPrevPwdIdSorted o fuel pwdId p = some prev := by
  obtain ⟨l₁, l₂, rfl⟩ := List.append_of_mem hmem
  have hnodup := h.nodup
  have hprev : o.readPrev pwdId p = l₁.getLastD maximumNumberOfPwd :=
    (readPrev_eq (h.bound pwdId (by simp))).trans (linked_append.mp h.linked).2.1
  rw [getPrevPwdIdSorted, hprev]
  rcases List.eq_nil_or_concat l₁ with rfl | ⟨front, last, rfl⟩
  · rcases List.eq_nil_or_concat l₂ with rfl | ⟨front, last, rfl⟩
    · exact absurd hfew (by simp)
    · rw [List.concat_eq_append] at *
      have hwhole : Threaded t o ([] ++ pwdId :: (front ++ [last])) p := h
      have hlast := lastPwdId_eq hwhole hfuel
      refine ⟨last, by simp, fun heq => ?_, ?_⟩
      · subst heq
        simp at hnodup
      · rw [List.getLastD_nil, if_pos rfl]
        refine hlast.trans (congrArg some ?_)
        exact getLastD_append (pwdId :: front) [last] _
  · rw [List.concat_eq_append] at *
    have hne : last ≠ maximumNumberOfPwd := fun heq => h.notMem_end (heq ▸ by simp)
    refine ⟨last, by simp, fun heq => ?_, ?_⟩
    · subst heq
      rw [List.append_assoc] at hnodup
      have hpair : (last :: last :: l₂).Nodup := (List.nodup_append.mp hnodup).2.1
      simp at hpair
    · rw [getLastD_append, List.getLastD_cons, List.getLastD_nil, if_neg hne]

/-! ## Along the memory map -/

/-- The bits of the map. -/
abbrev Used (p : Image) (id : ℕ) : Prop := p.used id = true

/-- What the search in one byte finds: where it jumps to `nothingFound` there is
nothing behind either. -/
theorem firstEntryInByte_first (i : ℕ) {j count : ℕ} (h : j + count ≤ 8) :
    (firstEntryInByte (p.byte (offsetMemoryMap + i)) i j count = none ∧
      FirstIn (Used p) (i * 8 + j) (i * 8 + (j + count)) none) ∨
    ∃ found, firstEntryInByte (p.byte (offsetMemoryMap + i)) i j count = some found ∧
      ∀ high, i * 8 + (j + count) ≤ high → FirstIn (Used p) (i * 8 + j) high found := by
  induction count generalizing j with
  | zero => exact Or.inl ⟨rfl, fun id hlow hhigh _ => absurd hlow (by omega)⟩
  | succ count ih =>
      rw [firstEntryInByte]
      split
      · exact Or.inr ⟨none, rfl, fun high _ id hlow _ hid => absurd hid (by omega)⟩
      · next hid =>
          rw [getLsbD_byte i (by omega)]
          split
          · next hused =>
              exact Or.inr ⟨some _, rfl, fun high hhigh =>
                .here (by omega) (by omega) hused⟩
          · next hfree =>
              rcases ih (j := j + 1) (by omega) with ⟨hnone, hfirst⟩ | ⟨found, hsome, hfirst⟩
              · refine Or.inl ⟨hnone, .step hfree ?_⟩
                rwa [← Nat.add_assoc, show j + 1 + count = j + (count + 1) by omega] at hfirst
              · exact Or.inr ⟨found, hsome, fun high hhigh =>
                  .step hfree (hfirst high (by omega))⟩

/-- The scan from `index` on finds the first used id that is not below it. -/
theorem firstEntryScan_first {index i count : ℕ} (hi : index / 8 ≤ i) :
    FirstIn (Used p) (max index (i * 8)) ((i + count) * 8) (firstEntryScan p index i count) := by
  induction count generalizing i with
  | zero => exact fun id hlow hhigh _ => absurd hlow (by omega)
  | succ count ih =>
      rw [firstEntryScan]
      have hj : ∀ j, j = (if i = index / 8 then index % 8 else 0) →
          i * 8 + j = max index (i * 8) ∧ j ≤ 8 := by
        intro j hj
        split at hj <;> omega
      obtain ⟨hlow, hle⟩ := hj _ rfl
      rcases firstEntryInByte_first (p := p) i (show _ + (8 - _) ≤ 8 from
          (Nat.add_sub_cancel' hle).le) with ⟨hnone, hfirst⟩ | ⟨found, hsome, hfirst⟩
      · simp only [hnone]
        rw [hlow, Nat.add_sub_cancel' hle] at hfirst
        have hrest := ih (i := i + 1) (by omega)
        rw [show i + 1 + count = i + (count + 1) by omega] at hrest
        refine hfirst.of_none ?_ (by omega)
        rwa [show max index ((i + 1) * 8) = i * 8 + 8 by omega] at hrest
      · simp only [hsome]
        rw [hlow] at hfirst
        exact hfirst _ (by omega)

/-- The search finds the first used id from `index` on. -/
theorem getFirstEntryFrom_eq {index : ℕ} (hused : Used p pwdId) (hid : pwdId < maximumNumberOfPwd)
    (hle : index ≤ pwdId) (hfirst : ∀ other, index ≤ other → other < pwdId → ¬ Used p other) :
    getFirstEntryFrom index p = pwdId := by
  have hscan : FirstIn (Used p) (max index (index / 8 * 8))
      ((index / 8 + (sizeMemoryMap - index / 8)) * 8)
      (firstEntryScan p index (index / 8) (sizeMemoryMap - index / 8)) :=
    firstEntryScan_first le_rfl
  have hrows : index / 8 + (sizeMemoryMap - index / 8) = sizeMemoryMap := by
    simp at hid ⊢
    omega
  rw [hrows, show max index (index / 8 * 8) = index by omega] at hscan
  rw [getFirstEntryFrom]
  cases hfound : firstEntryScan p index (index / 8) (sizeMemoryMap - index / 8) with
  | none =>
      rw [hfound] at hscan
      exact absurd hused (hscan pwdId hle (by simp at hid ⊢; omega) hid)
  | some id =>
      rw [hfound] at hscan
      obtain ⟨hlow, -, -, hused', hfirst'⟩ := hscan
      rcases Nat.lt_trichotomy id pwdId with hlt | heq | hgt
      · exact absurd hused' (hfirst id hlow hlt)
      · exact heq
      · exact absurd hused (hfirst' pwdId hle hgt)

/-- Without sorting every used id is reached, in ascending order. -/
theorem exists_iterate_nextSortNone (hused : Used p pwdId) (hid : pwdId < maximumNumberOfPwd) :
    ∃ n, (fun id => pwdListGetNextPwdIdSortNone id p)^[n] (pwdListGetFirstPwdIdSortNone p) =
      pwdId := by
  induction pwdId using Nat.strong_induction_on with
  | _ pwdId ih =>
      by_cases hbelow : ∃ id < pwdId, Used p id
      · -- the used id right below it leads to it
        obtain ⟨below, hlt, hbelow⟩ := hbelow
        have hle : below ≤ pwdId - 1 := by omega
        have hprev := Nat.findGreatest_spec hle hbelow
        have hbound := Nat.findGreatest_le (P := Used p) (pwdId - 1)
        obtain ⟨n, hn⟩ := ih _ (by omega) hprev (by omega)
        refine ⟨n + 1, ?_⟩
        rw [Function.iterate_succ_apply', hn]
        refine getFirstEntryFrom_eq hused hid (by omega) fun other hlow hhigh => ?_
        exact Nat.findGreatest_is_greatest (P := Used p) (n := pwdId - 1) (by omega) (by omega)
      · push Not at hbelow
        exact ⟨0, getFirstEntryFrom_eq hused hid (Nat.zero_le _) fun other _ => hbelow other⟩

/-! ## Every password is visited -/

theorem sortingMethod_cases {optionsFlag : Byte}
    (hmethod : pwdListGetSortingMethod optionsFlag ≤ pwdSortingAlpha) :
    pwdListGetSortingMethod optionsFlag = pwdSortingNone ∨
      pwdListGetSortingMethod optionsFlag = pwdSortingUse ∨
      pwdListGetSortingMethod optionsFlag = pwdSortingAlpha := by
  simp only [pwdSortingNone, pwdSortingUse, pwdSortingAlpha] at hmethod ⊢
  omega

/-- In each sorting mode a password that is used and in both lists is visited. -/
theorem visited_of_threaded {optionsFlag : Byte} (huse : Threaded t (orderUse t) use p)
    (halpha : Threaded t (orderAlpha t) alpha p) (hused : p.used pwdId = true)
    (hmem : pwdId ∈ use) (hmem' : pwdId ∈ alpha)
    (hmethod : pwdListGetSortingMethod optionsFlag ≤ pwdSortingAlpha) :
    Visited t optionsFlag p pwdId := by
  have hid : pwdId < maximumNumberOfPwd :=
    (lt_of_lt_capacity (huse.bound pwdId hmem)).trans (by decide)
  unfold Visited pwdListGetNextPwdId pwdListGetFirstPwdId
  rcases sortingMethod_cases hmethod with hnone | hsorted | hsorted
  · simp only [hnone, if_true]
    exact exists_iterate_nextSortNone hused hid
  · simp only [hsorted, if_true, show ¬ pwdSortingUse = pwdSortingNone by decide, if_false]
    exact exists_iterate_next huse hmem
  · simp only [hsorted, if_true, show ¬ pwdSortingAlpha = pwdSortingNone by decide,
      show ¬ pwdSortingAlpha = pwdSortingUse by decide, if_false]
    exact exists_iterate_next halpha hmem'

/-! ## The previous password -/

/-- What the downward search knows once it has looked at the ids from `low` on:
none of the used ones is below `pwdId`, and `found` is the last of them. -/
structure LastFound (p : Image) (pwdId low found : ℕ) : Prop where
  above : ∀ id, low ≤ id → id < maximumNumberOfPwd → Used p id →
    pwdId ≤ id ∧ id ≤ found ∧ found ≠ maximumNumberOfPwd
  used : found ≠ maximumNumberOfPwd → low ≤ found ∧ found < maximumNumberOfPwd ∧ Used p found

/-- What the downward search yields when it stops: the last used id below `pwdId`. -/
def FoundBelow (p : Image) (pwdId found : ℕ) : Prop :=
  found < pwdId ∧ found < maximumNumberOfPwd ∧ Used p found ∧
    ∀ id, found < id → id < pwdId → id < maximumNumberOfPwd → ¬ Used p id

/-- A free id is passed by. -/
theorem LastFound.free {low found : ℕ} (h : LastFound p pwdId (low + 1) found)
    (hfree : ¬ Used p low) : LastFound p pwdId low found where
  above id hle hid hused := by
    have hne : id ≠ low := fun heq => hfree (heq ▸ hused)
    exact h.above id (by omega) hid hused
  used hne := ⟨by have := (h.used hne).1; omega, (h.used hne).2⟩

/-- The first used id that is met is the last of all. -/
theorem LastFound.here {low found : ℕ} (h : LastFound p pwdId (low + 1) found)
    (hlow : low < maximumNumberOfPwd) (hused : Used p low) (hle : pwdId ≤ low) :
    LastFound p pwdId low (if found = maximumNumberOfPwd then low else found) := by
  by_cases hfound : found = maximumNumberOfPwd
  · rw [if_pos hfound]
    refine ⟨fun id hge hid hused' => ?_, fun _ => ⟨le_rfl, hlow, hused⟩⟩
    have hid : ¬ low + 1 ≤ id := fun hlt => (h.above id hlt hid hused').2.2 hfound
    exact ⟨by omega, by omega, by omega⟩
  · rw [if_neg hfound]
    obtain ⟨hge, hlt, husedFound⟩ := h.used hfound
    refine ⟨fun id hge' hid hused' => ?_, fun _ => ⟨by omega, hlt, husedFound⟩⟩
    rcases Nat.lt_or_ge low id with hlt' | hle'
    · exact h.above id hlt' hid hused'
    · exact ⟨by omega, by omega, hfound⟩

theorem prevEntryInByte_spec {i j found : ℕ} (hj : j ≤ 8)
    (hrow : i * 8 + j ≤ maximumNumberOfPwd) (h : LastFound p pwdId (i * 8 + j) found) :
    (∃ found', prevEntryInByte (p.byte (offsetMemoryMap + i)) i pwdId j found = .ok found' ∧
      LastFound p pwdId (i * 8) found') ∨
    ∃ found', prevEntryInByte (p.byte (offsetMemoryMap + i)) i pwdId j found = .error found' ∧
      FoundBelow p pwdId found' := by
  induction j generalizing found with
  | zero => exact Or.inl ⟨found, rfl, h⟩
  | succ j ih =>
      rw [prevEntryInByte, getLsbD_byte i (by omega)]
      split
      · next hused =>
          split
          · next hlt =>
              refine Or.inr ⟨_, rfl, hlt, by omega, hused, fun id hlow hhigh hid husedId => ?_⟩
              exact absurd (h.above id (by omega) hid husedId).1 (by omega)
          · next hge =>
              have hlast : LastFound p pwdId (i * 8 + j) _ :=
                LastFound.here h (by omega) hused (by omega)
              exact ih (by omega) (by omega) hlast
      · next hfree => exact ih (by omega) (by omega) (h.free hfree)

theorem prevEntryScan_spec {i found : ℕ} (hrow : i * 8 ≤ maximumNumberOfPwd)
    (h : LastFound p pwdId (i * 8) found) :
    FoundBelow p pwdId (prevEntryScan p pwdId i found) ∨
      LastFound p pwdId 0 (prevEntryScan p pwdId i found) := by
  induction i generalizing found with
  | zero => exact Or.inr h
  | succ i ih =>
      have hbits : (if i = (maximumNumberOfPwd - 1) / 8 then (maximumNumberOfPwd - 1) % 8 + 1
          else 8) = 8 := by simp
      rw [prevEntryScan]
      simp only [hbits]
      have hlast : LastFound p pwdId (i * 8 + 8) found := (Nat.succ_mul i 8) ▸ h
      rcases prevEntryInByte_spec le_rfl (by omega) hlast with
        ⟨found', hok, hlast⟩ | ⟨found', herror, hbelow⟩
      · rw [hok]
        exact ih (by omega) hlast
      · rw [herror]
        exact Or.inl hbelow

/-- Where another id is used, the previous one is another one. -/
theorem pwdListGetPrevPwdIdSortNone_other {other : ℕ} (hused : Used p other)
    (hid : other < maximumNumberOfPwd) (hne : other ≠ pwdId) :
    Used p (pwdListGetPrevPwdIdSortNone pwdId p) ∧
      pwdListGetPrevPwdIdSortNone pwdId p < maximumNumberOfPwd ∧
      pwdListGetPrevPwdIdSortNone pwdId p ≠ pwdId := by
  have hrows : ((maximumNumberOfPwd - 1) / 8 + 1) * 8 = maximumNumberOfPwd := by simp
  have hstart : LastFound p pwdId (((maximumNumberOfPwd - 1) / 8 + 1) * 8) maximumNumberOfPwd :=
    ⟨fun id hle hlt _ => absurd hle (by omega), fun hne => absurd rfl hne⟩
  rcases prevEntryScan_spec hrows.le hstart with ⟨hlt, hbound, hfound, -⟩ | hlast
  · exact ⟨hfound, hbound, hlt.ne⟩
  · obtain ⟨hpwd, hle, hfound⟩ := hlast.above other (Nat.zero_le _) hid hused
    obtain ⟨-, hbound, husedFound⟩ := hlast.used hfound
    exact ⟨husedFound, hbound, fun heq => hne (by
      rw [pwdListGetPrevPwdIdSortNone] at heq
      omega)⟩

/-- In each sorting mode the previous password is a used one, and another one
where there are two. -/
theorem pwdListGetPrevPwdId_other {optionsFlag : Byte} (h : WellFormed t p v use alpha)
    (hmem : pwdId ∈ use) (hfew : 2 ≤ use.length) (hfuel : 768 ≤ fuel)
    (hmethod : pwdListGetSortingMethod optionsFlag ≤ pwdSortingAlpha) :
    ∃ prev ∈ use, prev ≠ pwdId ∧ pwdListGetPrevPwdId t optionsFlag fuel pwdId p = some prev := by
  have hlength := h.threadedUse.length_lt
  rw [pwdListGetPrevPwdId]
  rcases sortingMethod_cases hmethod with hnone | hsorted | hsorted
  · rw [if_pos hnone]
    -- there is another password in the list
    obtain ⟨other, hother, hne⟩ : ∃ other ∈ use, other ≠ pwdId := by
      by_contra! hall
      have hsub : use ⊆ [pwdId] := fun id hid => by simp [hall id hid]
      have := (h.threadedUse.nodup.subperm hsub).length_le
      simp at this
      omega
    have hlt : ∀ {id}, id < maximumNumberOfPwd → id < 8 * sizeMemoryMap := fun hid => by
      simp at hid ⊢
      omega
    have hbound : other < maximumNumberOfPwd :=
      (lt_of_lt_capacity (h.threadedUse.bound other hother)).trans (by decide)
    obtain ⟨hused, hid, hne'⟩ := pwdListGetPrevPwdIdSortNone_other
      ((h.mem_use other (hlt hbound)).mpr hother) hbound hne
    exact ⟨_, (h.mem_use _ (hlt hid)).mp hused, hne', rfl⟩
  · rw [if_neg (by rw [hsorted]; decide), if_pos hsorted]
    exact getPrevPwdIdSorted_other h.threadedUse hmem hfew (by omega)
  · rw [if_neg (by rw [hsorted]; decide), if_neg (by rw [hsorted]; decide), if_pos hsorted]
    have hlength : alpha.length < fuel := by
      rw [h.perm.length_eq]
      omega
    obtain ⟨prev, hprev, hrest⟩ := getPrevPwdIdSorted_other h.threadedAlpha
      (h.perm.symm.subset hmem) (h.perm.length_eq ▸ hfew) hlength
    exact ⟨prev, h.perm.subset hprev, hrest⟩

end PasswordWallet
