import Mathlib.Data.List.GetD
import PasswordWallet.LinkedList.Round
import PasswordWallet.Lists.Walk

/-!
# Browsing reaches every password

In each sorting mode `pwd_list_get_next_pwd_id` goes round all the used ids, and
`pwd_list_get_prev_pwd_id` goes round them the other way: along the links of one of
the two lists, or without sorting along the memory map, in ascending order.
-/

namespace PasswordWallet

open PowerLoss LinkedList

variable {t : Target} {K : Type} {o : PwdOrder K} {fuel : ℕ} {p : Image} {v : Ram}
  {l use alpha : List ℕ}

/-! ## Along the links -/

theorem Threaded.round (h : Threaded t o l p) (hne : l ≠ []) (hfuel : l.length < fuel) :
    Round l (getFirstPwdIdSorted o p) (fun id => getNextPwdIdSorted o id p)
      fun id => getPrevPwdIdSorted o fuel id p := by
  have hpos : 0 < l.length := List.length_pos_iff.mpr hne
  have hbound : ∀ i (hi : i < l.length), l[i] < t.addressing.capacity := fun i hi =>
    h.bound _ (List.getElem_mem hi)
  have hend : ∀ i (hi : i < l.length), l[i] ≠ maximumNumberOfPwd := fun i hi heq =>
    h.notMem_end (heq ▸ List.getElem_mem hi)
  have hfirst : getFirstPwdIdSorted o p = l[0] := by
    obtain ⟨first, rest, rfl⟩ := List.exists_cons_of_ne_nil hne
    exact h.first
  have hnext : ∀ i (hi : i < l.length), o.readNext l[i] p = l.getD (i + 1) maximumNumberOfPwd :=
    fun i hi => (readNext_eq (hbound i hi)).trans (h.linked.next_getElem i hi)
  refine ⟨h.nodup, ?_, fun i hi => ?_, fun i hi hlast => ?_, fun i hi => ?_, fun i hi hlast => ?_⟩
  · rw [hfirst, List.head?_eq_getElem?, List.getElem?_eq_getElem hpos]
  · rw [getNextPwdIdSorted, hnext i (by omega), List.getD_eq_getElem _ _ hi, if_neg (hend _ hi)]
  · rw [getNextPwdIdSorted, hnext i hi, List.getD_eq_default _ _ hlast.ge, if_pos rfl]
  · have hprev : o.readPrev l[i + 1] p = l[i] :=
      (readPrev_eq (hbound _ hi)).trans (h.linked.prev_getElem i hi)
    rw [getPrevPwdIdSorted, hprev, if_neg (hend i (by omega))]
  · rw [getPrevPwdIdSorted_first h hne hfuel]
    obtain rfl : i = l.length - 1 := by omega
    rw [← List.getLast_eq_getElem hne, List.getLastD_eq_getLast?, List.getLast?_eq_some_getLast hne,
      Option.getD_some]

/-! ## Along the memory map -/

/-- The used ids, in ascending order. -/
def usedIds (p : Image) : List ℕ := (List.range maximumNumberOfPwd).filter p.used

theorem mem_usedIds {id : ℕ} : id ∈ usedIds p ↔ id < maximumNumberOfPwd ∧ Used p id := by
  rw [usedIds, List.mem_filter, List.mem_range]

theorem sortedLT_usedIds : (usedIds p).SortedLT :=
  (List.pairwise_lt_range.sublist List.filter_sublist).sortedLT

/-- With nothing used from `index` on, the search starts again at the first id. -/
theorem getFirstEntryFrom_zero :
    getFirstEntryFrom 0 p = (firstEntryScan p 0 0 sizeMemoryMap).getD 0 := by
  rw [getFirstEntryFrom, Nat.zero_div, Nat.sub_zero]
  cases firstEntryScan p 0 0 sizeMemoryMap <;> rfl

theorem getFirstEntryFrom_wrap {index : ℕ} (hindex : index ≠ 0)
    (hnone : ∀ id, index ≤ id → id < maximumNumberOfPwd → ¬ Used p id) :
    getFirstEntryFrom index p = getFirstEntryFrom 0 p := by
  have hscan : FirstIn (Used p) (max index (index / 8 * 8))
      ((index / 8 + (sizeMemoryMap - index / 8)) * 8)
      (firstEntryScan p index (index / 8) (sizeMemoryMap - index / 8)) :=
    firstEntryScan_first le_rfl
  rw [getFirstEntryFrom]
  cases hfound : firstEntryScan p index (index / 8) (sizeMemoryMap - index / 8) with
  | some id =>
      rw [hfound] at hscan
      obtain ⟨hlow, -, hid, hused, -⟩ := hscan
      exact absurd hused (hnone id (by omega) hid)
  | none =>
      rw [getFirstEntryFrom_zero]
      exact if_pos hindex

/-- The downward search from `pwdId` yields the used id right below it, or the last
one of all where there is none below. -/
theorem prevSortNone_spec (pwdId : ℕ) :
    FoundBelow p pwdId (pwdListGetPrevPwdIdSortNone pwdId p) ∨
      LastFound p pwdId 0 (pwdListGetPrevPwdIdSortNone pwdId p) := by
  have hrows : ((maximumNumberOfPwd - 1) / 8 + 1) * 8 = maximumNumberOfPwd := by simp
  exact prevEntryScan_spec hrows.le
    ⟨fun id hle hlt _ => absurd hle (by omega), fun hne => absurd rfl hne⟩

theorem prevSortNone_eq {id below : ℕ} (hlt : below < id) (hid : below < maximumNumberOfPwd)
    (hused : Used p below)
    (hgap : ∀ other, below < other → other < id → other < maximumNumberOfPwd → ¬ Used p other) :
    pwdListGetPrevPwdIdSortNone id p = below := by
  rcases prevSortNone_spec (p := p) id with ⟨hbelow, hbound, hfound, hgap'⟩ | hlast
  · rcases Nat.lt_trichotomy (pwdListGetPrevPwdIdSortNone id p) below with hless | heq | hgreater
    · exact absurd hused (hgap' _ hless hlt hid)
    · exact heq
    · exact absurd hfound (hgap _ hgreater hbelow hbound)
  · exact absurd (hlast.above _ (Nat.zero_le _) hid hused).1 (by omega)

theorem prevSortNone_wrap {id last : ℕ} (hid : last < maximumNumberOfPwd) (hused : Used p last)
    (hlast : ∀ other < maximumNumberOfPwd, Used p other → id ≤ other ∧ other ≤ last) :
    pwdListGetPrevPwdIdSortNone id p = last := by
  rcases prevSortNone_spec (p := p) id with ⟨hbelow, hbound, hfound, -⟩ | hlastFound
  · have := (hlast _ hbound hfound).1
    omega
  · obtain ⟨-, hle, hne⟩ := hlastFound.above _ (Nat.zero_le _) hid hused
    obtain ⟨-, hbound, hfound⟩ := hlastFound.used hne
    exact le_antisymm (hlast _ hbound hfound).2 hle

theorem round_sortNone (hne : usedIds p ≠ []) :
    Round (usedIds p) (pwdListGetFirstPwdIdSortNone p)
      (fun id => pwdListGetNextPwdIdSortNone id p)
      fun id => some (pwdListGetPrevPwdIdSortNone id p) := by
  have hpos : 0 < (usedIds p).length := List.length_pos_iff.mpr hne
  have hsorted := sortedLT_usedIds (p := p)
  have hused : ∀ i (hi : i < (usedIds p).length),
      (usedIds p)[i] < maximumNumberOfPwd ∧ Used p (usedIds p)[i] := fun i hi =>
    mem_usedIds.mp (List.getElem_mem hi)
  have hfirst : pwdListGetFirstPwdIdSortNone p = (usedIds p)[0] := by
    refine getFirstEntryFrom_eq (hused 0 hpos).2 (hused 0 hpos).1 (Nat.zero_le _)
      fun other _ hlt hother => ?_
    have hle := first_le hsorted hpos (mem_usedIds.mpr ⟨by have := hused 0 hpos; omega, hother⟩)
    omega
  refine ⟨hsorted.nodup, ?_, fun i hi => ?_, fun i hi hlast => ?_, fun i hi => ?_,
    fun i hi hlast => ?_⟩
  · rw [hfirst, List.head?_eq_getElem?, List.getElem?_eq_getElem hpos]
  · have hlt : (usedIds p)[i] < (usedIds p)[i + 1] :=
      hsorted.strictMono_get (show (⟨i, by omega⟩ : Fin _) < ⟨i + 1, hi⟩ from Nat.lt_succ_self i)
    refine getFirstEntryFrom_eq (hused _ hi).2 (hused _ hi).1 hlt fun other hlow hhigh hother => ?_
    exact notMem_between hsorted hi hlow hhigh
      (mem_usedIds.mpr ⟨hhigh.trans (hused _ hi).1, hother⟩)
  · refine getFirstEntryFrom_wrap (Nat.succ_ne_zero _) fun id hlow hid hother => ?_
    have hle := le_last hsorted hi hlast (mem_usedIds.mpr ⟨hid, hother⟩)
    omega
  · have hlt : (usedIds p)[i] < (usedIds p)[i + 1] :=
      hsorted.strictMono_get (show (⟨i, by omega⟩ : Fin _) < ⟨i + 1, hi⟩ from Nat.lt_succ_self i)
    refine congrArg some (prevSortNone_eq hlt (hused i _).1 (hused i _).2
      fun other hlow hhigh hid hother => ?_)
    exact notMem_between hsorted hi hlow hhigh (mem_usedIds.mpr ⟨hid, hother⟩)
  · refine congrArg some (prevSortNone_wrap (hused i hi).1 (hused i hi).2
      fun other hid hother => ⟨?_, le_last hsorted hi hlast (mem_usedIds.mpr ⟨hid, hother⟩)⟩)
    rw [hfirst]
    exact first_le hsorted hpos (mem_usedIds.mpr ⟨hid, hother⟩)

/-! ## In each mode -/

/-- In each sorting mode the next password goes round all the used ids, from the
first one on, and the previous one goes the other way. -/
theorem browsing_round (h : WellFormed t p v use alpha) (hne : v.numPwd ≠ 0) (hfuel : 768 ≤ fuel)
    {optionsFlag : Byte} (hmethod : pwdListGetSortingMethod optionsFlag ≤ pwdSortingAlpha) :
    ∃ l : List ℕ, l.Nodup ∧ l.length = v.numPwd ∧
      (∀ id, id ∈ l ↔ id < maximumNumberOfPwd ∧ p.used id = true) ∧
      (∀ i (hi : i < l.length), (fun id => pwdListGetNextPwdId t optionsFlag id p)^[i]
        (pwdListGetFirstPwdId t optionsFlag p) = l[i]) ∧
      (fun id => pwdListGetNextPwdId t optionsFlag id p)^[v.numPwd]
        (pwdListGetFirstPwdId t optionsFlag p) = pwdListGetFirstPwdId t optionsFlag p ∧
      (∀ id ∈ l, pwdListGetNextPwdId t optionsFlag id p ∈ l ∧
        pwdListGetPrevPwdId t optionsFlag fuel (pwdListGetNextPwdId t optionsFlag id p) p =
          some id ∧
        ∃ before ∈ l, pwdListGetPrevPwdId t optionsFlag fuel id p = some before ∧
          pwdListGetNextPwdId t optionsFlag before p = id) ∧
      (pwdListGetSortingMethod optionsFlag = pwdSortingNone → l.SortedLT) := by
  have huse : use ≠ [] := fun hnil => hne (by rw [h.numPwd, hnil]; rfl)
  have halpha : alpha ≠ [] := fun hnil => huse (hnil ▸ h.perm).nil_eq.symm
  have hlength := h.threadedUse.length_lt
  have hlength' := h.perm.length_eq
  -- one list, round which the passwords are in this mode
  obtain ⟨l, hperm, hround, hascending⟩ : ∃ l : List ℕ, l.Perm use ∧
      Round l (pwdListGetFirstPwdId t optionsFlag p)
        (fun id => pwdListGetNextPwdId t optionsFlag id p)
        (fun id => pwdListGetPrevPwdId t optionsFlag fuel id p) ∧
      (pwdListGetSortingMethod optionsFlag = pwdSortingNone → l.SortedLT) := by
    unfold pwdListGetFirstPwdId pwdListGetNextPwdId pwdListGetPrevPwdId
    rcases sortingMethod_cases hmethod with hnone | hsorted | hsorted
    · simp only [hnone, if_true]
      have hperm : (usedIds p).Perm use := by
        refine (List.perm_ext_iff_of_nodup sortedLT_usedIds.nodup h.threadedUse.nodup).mpr ?_
        exact fun id => mem_usedIds.trans h.mem_use_iff.symm
      have hnonempty : usedIds p ≠ [] := fun hnil => huse (hnil ▸ hperm).nil_eq.symm
      exact ⟨usedIds p, hperm, round_sortNone hnonempty, fun _ => sortedLT_usedIds⟩
    · simp only [hsorted, if_true, show ¬ pwdSortingUse = pwdSortingNone by decide, if_false]
      exact ⟨use, .refl _, h.threadedUse.round huse (by omega), False.elim⟩
    · simp only [hsorted, if_true, show ¬ pwdSortingAlpha = pwdSortingNone by decide,
        show ¬ pwdSortingAlpha = pwdSortingUse by decide, if_false]
      exact ⟨alpha, h.perm, h.threadedAlpha.round halpha (by omega), False.elim⟩
  have hcount : l.length = v.numPwd := hperm.length_eq.trans h.numPwd.symm
  refine ⟨l, hround.nodup, hcount, fun id => hperm.mem_iff.trans h.mem_use_iff,
    hround.iterate_next, hcount ▸ hround.iterate_length, fun id hid => ?_, hascending⟩
  exact ⟨hround.next_mem hid, hround.prev_next hid, hround.next_prev hid⟩

/-- Sorted by name, of two passwords each is the next one and the previous one of the
other. -/
theorem browsing_round_two :
    ∃ l : List ℕ, l.length = 2 ∧
      (fun id => pwdListGetNextPwdId ⟨.exact, .xorKey⟩ 2 id .twoPwds)^[2]
        (pwdListGetFirstPwdId ⟨.exact, .xorKey⟩ 2 .twoPwds) =
          pwdListGetFirstPwdId ⟨.exact, .xorKey⟩ 2 .twoPwds ∧
      ∀ id ∈ l, pwdListGetPrevPwdId ⟨.exact, .xorKey⟩ 2 768
        (pwdListGetNextPwdId ⟨.exact, .xorKey⟩ 2 id .twoPwds) .twoPwds = some id := by
  have hmethod : pwdListGetSortingMethod 2 ≤ pwdSortingAlpha := by decide
  have hnum : Ram.twoPwds.numPwd ≠ 0 := by decide
  obtain ⟨l, -, hlength, -, -, hreturn, hinverse, -⟩ :=
    browsing_round wellFormed_twoPwds hnum (le_refl 768) hmethod
  exact ⟨l, hlength, hreturn, fun id hid => (hinverse id hid).2.1⟩

end PasswordWallet
