import PasswordWallet.Graphics.TypeString
import PasswordWallet.Lists.Store
import PasswordWallet.PowerLoss.Recording

/-!
# What the sort by name reads of the names

`pwd_list_sort_alpha` copies the names it compares to two arrays of 32 characters,
`nameCurrent` and `namePrev`, where `upper` and `strcmp` find their ends only by a
zero.  Here it is written with the places of the arrays that the two access; it
records `pwdListSortAlpha` (`pwdListSortAlphaAccesses_records`).

If all names of the list end in their 32 bytes, every access is inside
(`wp_sortAlpha_inside`).
-/

namespace PasswordWallet

open PowerLoss LinkedList

/-! ## The accesses -/

/-- `upper` goes on up to the first zero. -/
def upperAccesses (str : List Byte) : List ℕ := List.range (strlen str + 1)

/-- `strcmp` goes on up to the first difference, or the common end. -/
def strcmpAccesses : ℕ → List Byte → List Byte → List ℕ
  | i, c :: s1, d :: s2 => if c ≠ d ∨ c = 0 then [i] else i :: strcmpAccesses (i + 1) s1 s2
  | i, _, _ => [i]

section Model

variable (t : Target)

/-- The inner loop; it yields the first password, the sorting position and the
accesses. -/
def sortAlphaInner (current : ℕ) (nameCurrent : List Byte) :
    ℕ → ℕ → ℕ → List Byte → ℕ → List ℕ → Dev (ℕ × ℕ × List ℕ)
  | 0, _, _, _, _, _ => Program.hang
  | fuel + 1, first, prev, namePrev, sortingPosition, accesses =>
      if prev ≠ maximumNumberOfPwd then
        let accesses := accesses ++ strcmpAccesses 0 nameCurrent namePrev
        if strcmpLt nameCurrent namePrev then do
          let first ← Program.group (swapWithPrev (orderAlpha t) first prev current)
          let nextPrev ← readImage (passwordReadPrevPwdAlpha t current)
          -- the `break`: there is no name to read, and the loop ends
          if nextPrev = maximumNumberOfPwd then
            sortAlphaInner current nameCurrent fuel first nextPrev namePrev prev accesses
          else do
            let name ← readImage (passwordReadName t nextPrev)
            sortAlphaInner current nameCurrent fuel first nextPrev (upper name) prev
              (accesses ++ upperAccesses name)
        else pure (first, sortingPosition, accesses)
      else pure (first, sortingPosition, accesses)

/-- The outer loop. -/
def sortAlphaOuter (turns : ℕ) : ℕ → ℕ → ℕ → List ℕ → Dev (List ℕ)
  | 0, _, _, _ => Program.hang
  | fuel + 1, first, current, accesses =>
      if current ≠ maximumNumberOfPwd then do
        let prev ← readImage (passwordReadPrevPwdAlpha t current)
        let nameCurrent ← readImage (passwordReadName t current)
        let namePrev ← readImage (passwordReadName t prev)
        let (first, sortingPosition, accesses) ← sortAlphaInner t current (upper nameCurrent) turns
          first prev (upper namePrev) current
          (accesses ++ upperAccesses nameCurrent ++ upperAccesses namePrev)
        let current ← readImage (passwordReadNextPwdAlpha t sortingPosition)
        sortAlphaOuter turns fuel first current accesses
      else pure accesses

/-- `pwd_list_sort_alpha`, with the places of the arrays that are accessed. -/
def pwdListSortAlphaAccesses (fuel : ℕ) : Dev (List ℕ) := do
  let v ← Program.ram
  if v.numPwd < 2 then pure []
  else do
    let first ← readImage (getFirstPwdIdSorted (orderAlpha t))
    let current ← readImage (passwordReadNextPwdAlpha t first)
    sortAlphaOuter t fuel fuel first current []

end Model

variable {t : Target} {p p' : Image} {v v' : Ram} {fuel turns first prev pos current : ℕ}
  {namePrev nameCurrent : List Byte} {accesses : List ℕ}

/-! ## The sort that is recorded -/

/-- A reading of the recording program, and of the recorded one. -/
theorem records_readImage_left {α β γ : Type} {f : β → α} {read : Image → γ} {m' : γ → Dev β}
    {m : Dev α} (h : Records f (m' (read p)) m p v) : Records f (readImage read >>= m') m p v :=
  (records_congr (bind_readImage read m') rfl).mpr h

theorem records_readImage_right {α β γ : Type} {f : β → α} {read : Image → γ} {m' : Dev β}
    {m : γ → Dev α} (h : Records f m' (m (read p)) p v) : Records f m' (readImage read >>= m) p v :=
  (records_congr rfl (bind_readImage read m)).mpr h

theorem sortAlphaInner_records
    (hname : prev ≠ maximumNumberOfPwd → namePrev = upper (passwordReadName t prev p)) :
    Records (fun res => (res.1, res.2.1))
      (sortAlphaInner t current nameCurrent fuel first prev namePrev pos accesses)
      (sortInner (orderAlpha t) current nameCurrent fuel first prev pos) p v := by
  induction fuel generalizing first prev namePrev pos accesses p v with
  | zero => exact records_hang
  | succ fuel ih =>
      rw [sortAlphaInner, sortInner]
      by_cases hend : prev = maximumNumberOfPwd
      · rw [if_neg (not_not.mpr hend), if_neg (not_not.mpr hend)]
        exact records_pure
      · rw [if_pos hend, if_pos hend]
        refine records_readImage_right ?_
        rw [hname hend]
        show Records _ (if strcmpLt nameCurrent (upper (passwordReadName t prev p)) then _ else _)
          (if strcmpLt nameCurrent (upper (passwordReadName t prev p)) then _ else _) p v
        split_ifs with hbefore
        · refine records_bind records_refl fun first' p₁ v₁ _ => ?_
          refine records_readImage_left (records_readImage_right ?_)
          show Records _ (if passwordReadPrevPwdAlpha t current p₁ = maximumNumberOfPwd then _
              else _) (sortInner (orderAlpha t) current nameCurrent fuel first'
              (passwordReadPrevPwdAlpha t current p₁) prev) p₁ v₁
          split_ifs with hfirst
          · exact ih fun hne => absurd hfirst hne
          · exact records_readImage_left (ih fun _ => rfl)
        · exact records_pure

theorem sortAlphaOuter_records :
    Records (fun _ => ()) (sortAlphaOuter t turns fuel first current accesses)
      (sortOuter (orderAlpha t) turns fuel first current) p v := by
  induction fuel generalizing first current accesses p v with
  | zero => exact records_hang
  | succ fuel ih =>
      rw [sortAlphaOuter, sortOuter]
      split_ifs with hend
      · refine records_readImage_left (records_readImage_left (records_readImage_left ?_))
        refine records_readImage_right (records_readImage_right ?_)
        refine records_bind (sortAlphaInner_records fun _ => rfl) fun res p₁ v₁ _ => ?_
        exact records_readImage_left (records_readImage_right ih)
      · exact records_pure

/-- With the accesses or without, the sort does the same. -/
theorem pwdListSortAlphaAccesses_records :
    Records (fun _ => ()) (pwdListSortAlphaAccesses t fuel) (pwdListSortAlpha t fuel) p v := by
  rw [pwdListSortAlphaAccesses, pwdListSortAlpha, pwdListSort]
  refine records_bind records_refl fun v' p₁ v₁ _ => ?_
  show Records _ (if v'.numPwd < 2 then _ else _) (if v'.numPwd < 2 then _ else _) p₁ v₁
  split_ifs with hfew
  · exact records_pure
  · refine records_readImage_left (records_readImage_left ?_)
    exact records_readImage_right (records_readImage_right sortAlphaOuter_records)

/-! ## Strings with an end -/

theorem strlen_lt_iff {str : List Byte} : strlen str < str.length ↔ 0 ∈ str := by
  induction str with
  | nil => simp [strlen]
  | cons c str ih =>
      rw [strlen]
      split_ifs with hzero
      · simp [hzero]
      · rw [List.length_cons, Nat.add_lt_add_iff_right, ih, List.mem_cons,
          or_iff_right (Ne.symm hzero)]

theorem length_upper (str : List Byte) : (upper str).length = str.length := by
  induction str with
  | nil => rfl
  | cons c str ih =>
      rw [upper]
      split_ifs with hzero
      · rfl
      all_goals rw [List.length_cons, List.length_cons, ih]

theorem zero_mem_upper {str : List Byte} : 0 ∈ upper str ↔ 0 ∈ str := by
  induction str with
  | nil => rfl
  | cons c str ih =>
      rw [upper]
      split_ifs with hzero hlower
      · rfl
      · have hne : (0 : Byte) ≠ c - 32 := by
          intro heq
          have hc : c = 32 := by bv_omega
          rw [hc] at hlower
          exact absurd hlower.1 (by decide)
        rw [List.mem_cons, List.mem_cons, or_iff_right hne, or_iff_right (Ne.symm hzero), ih]
      · rw [List.mem_cons, List.mem_cons, or_iff_right (Ne.symm hzero),
          or_iff_right (Ne.symm hzero), ih]

theorem mem_upperAccesses {str : List Byte} (hend : 0 ∈ str) :
    ∀ i ∈ upperAccesses str, i < str.length := by
  intro i hi
  have hlt := strlen_lt_iff.mpr hend
  have := List.mem_range.mp hi
  omega

/-- One of the two strings has an end, which is where `strcmp` stops at the latest. -/
theorem mem_strcmpAccesses {i : ℕ} {s1 s2 : List Byte} (hend : 0 ∈ s1) :
    ∀ j ∈ strcmpAccesses i s1 s2, j < i + s1.length := by
  induction s1 generalizing i s2 with
  | nil => exact absurd hend List.not_mem_nil
  | cons c s1 ih =>
      have hhere : i < i + (c :: s1).length := by simp
      cases s2 with
      | nil => exact fun j hj => List.mem_singleton.mp hj ▸ hhere
      | cons d s2 =>
          rw [strcmpAccesses]
          split_ifs with hstop
          · exact fun j hj => List.mem_singleton.mp hj ▸ hhere
          · have hzero : (0 : Byte) ≠ c := fun heq => hstop (Or.inr heq.symm)
            intro j hj
            rcases List.mem_cons.mp hj with rfl | hj
            · exact hhere
            · have := ih (List.mem_of_ne_of_mem hzero hend) j hj
              rw [List.length_cons]
              omega

/-! ## The arrays -/

theorem length_passwordReadName (id : ℕ) : (passwordReadName t id p).length = 32 := by
  simp [passwordReadName]

/-- All accesses are inside the arrays. -/
def InArrays (accesses : List ℕ) : Prop := ∀ i ∈ accesses, i < 32

theorem InArrays.append {more : List ℕ} (h : InArrays accesses) (hmore : InArrays more) :
    InArrays (accesses ++ more) := fun i hi =>
  (List.mem_append.mp hi).elim (h i) (hmore i)

theorem inArrays_upper {id : ℕ} (h : 0 ∈ (orderAlpha t).readKey id p) :
    InArrays (upperAccesses (passwordReadName t id p)) := by
  intro i hi
  have hlt := mem_upperAccesses (zero_mem_upper.mp h) i hi
  rwa [length_passwordReadName] at hlt

variable {front back rest : List ℕ}

theorem wp_sortAlphaInner_inside (h : Threaded t (orderAlpha t) (front ++ current :: back) p)
    (hnames : ∀ id ∈ front ++ current :: back, 0 ∈ (orderAlpha t).readKey id p)
    (hend : 0 ∈ nameCurrent) (hlength : nameCurrent.length = 32)
    (hfirst : first = (front ++ current :: back).headD 0)
    (hprev : prev = front.getLastD maximumNumberOfPwd) (haccesses : InArrays accesses) :
    wp (sortAlphaInner t current nameCurrent fuel first prev namePrev pos accesses)
      (fun res _ _ => InArrays res.2.2) (fun _ _ => True) (fun _ _ => True) p v := by
  induction fuel generalizing front back first prev namePrev pos accesses p v with
  | zero => exact wp_hang.mpr trivial
  | succ fuel ih =>
      rw [sortAlphaInner]
      rcases List.eq_nil_or_concat front with rfl | ⟨front, last, rfl⟩
      · rw [hprev, if_neg (by simp)]
        exact (wp_pure _).mpr haccesses
      · rw [List.concat_eq_append] at *
        rw [getLastD_append] at hprev
        obtain rfl : prev = last := hprev
        have hne : prev ≠ maximumNumberOfPwd := fun heq => h.notMem_end (heq ▸ by simp)
        have hcompared : InArrays (accesses ++ strcmpAccesses 0 nameCurrent namePrev) := by
          refine haccesses.append fun i hi => ?_
          have hlt := mem_strcmpAccesses hend i hi
          omega
        rw [if_pos hne]
        show wp (if strcmpLt nameCurrent namePrev then _ else _) _ _ _ p v
        split_ifs with hbefore
        · have hsplit : front ++ [prev] ++ current :: back = front ++ prev :: current :: back := by
            simp
          rw [hsplit] at h hnames hfirst
          have hswapped : (front ++ current :: prev :: back).Perm
              (front ++ prev :: current :: back) := .append_left front (.swap ..)
          rw [wp_bind, hfirst]
          refine wp_mono (wp_swapWithPrev_group (orderAlpha_at t) h fun _ => id) ?_
            (fun _ _ _ => trivial) fun _ _ _ => trivial
          intro first₁ p₁ v₁ ⟨_, hsame, hthreaded, hfirst₁, _⟩
          have hnext : passwordReadPrevPwdAlpha t current p₁ =
              front.getLastD maximumNumberOfPwd := by
            show (orderAlpha t).readPrev current p₁ = _
            rw [readPrev_eq (h.bound current (by simp))]
            exact (linked_append.mp hthreaded.linked).2.1
          have hnames₁ : ∀ id ∈ front ++ current :: prev :: back,
              0 ∈ (orderAlpha t).readKey id p₁ := by
            intro id hid
            rw [hsame.readKey (Or.inr rfl) (orderAlpha_at t) (hthreaded.bound id hid)]
            exact hnames id (hswapped.mem_iff.mp hid)
          rw [wp_bind, wp_readImage]
          split_ifs with hlast
          · exact ih hthreaded hnames₁ hfirst₁ hnext hcompared
          · rw [wp_bind, wp_readImage]
            refine ih hthreaded hnames₁ hfirst₁ hnext (hcompared.append (inArrays_upper ?_))
            rw [hnext] at hlast ⊢
            rcases List.eq_nil_or_concat front with rfl | ⟨front, next, rfl⟩
            · exact absurd rfl hlast
            · rw [List.concat_eq_append, getLastD_append]
              exact hnames₁ next (by simp)
        · exact (wp_pure _).mpr hcompared

theorem wp_sortAlphaOuter_inside (hturns : 767 ≤ turns)
    (h : Threaded t (orderAlpha t) (front ++ rest) p) (hfront : front ≠ [])
    (hnames : ∀ id ∈ front ++ rest, 0 ∈ (orderAlpha t).readKey id p)
    (hfirst : first = (front ++ rest).headD 0) (hcurrent : current = rest.headD maximumNumberOfPwd)
    (haccesses : InArrays accesses) :
    wp (sortAlphaOuter t turns fuel first current accesses) (fun res _ _ => InArrays res)
      (fun _ _ => True) (fun _ _ => True) p v := by
  induction fuel generalizing front rest first current accesses p v with
  | zero => exact wp_hang.mpr trivial
  | succ fuel ih =>
      rw [sortAlphaOuter]
      cases rest with
      | nil =>
          rw [hcurrent, if_neg (by simp)]
          exact (wp_pure _).mpr haccesses
      | cons id back =>
          obtain rfl : current = id := hcurrent
          have hlt := h.bound current (by simp)
          have hne : current ≠ maximumNumberOfPwd := fun heq => h.notMem_end (heq ▸ by simp)
          have hkept : SortKept t (orderAlpha t) (fun id => (orderAlpha t).readKey id p)
              {id | id ∈ front ++ current :: back} (links t (orderAlpha t) p) p :=
            ⟨fun _ _ => rfl, Links.AgreeOff.refl _ _⟩
          have hprev : passwordReadPrevPwdAlpha t current p =
              front.getLastD maximumNumberOfPwd := by
            show (orderAlpha t).readPrev current p = _
            rw [readPrev_eq hlt]
            exact (linked_append.mp h.linked).2.1
          have hlast : front.getLastD maximumNumberOfPwd ∈ front := by
            obtain ⟨before, last, rfl⟩ := List.eq_nil_or_concat front |>.resolve_left hfront
            rw [List.concat_eq_append, getLastD_append]
            simp
          have hread : InArrays (accesses ++ upperAccesses (passwordReadName t current p) ++
              upperAccesses (passwordReadName t (front.getLastD maximumNumberOfPwd) p)) :=
            (haccesses.append (inArrays_upper (hnames current (by simp)))).append
              (inArrays_upper (hnames _ (List.mem_append_left _ hlast)))
          have hlength : front.length < turns := by
            have hbig := h.length_lt
            simp only [List.length_append, List.length_cons] at hbig
            omega
          rw [if_pos hne]
          simp only [wp_bind, wp_readImage, hprev]
          -- the accesses of the inner loop, and what it leaves
          have hrecords := fun acc => @sortAlphaInner_records t p v turns first
            (front.getLastD maximumNumberOfPwd) current current _
            (upper (passwordReadName t current p)) acc fun _ => rfl
          refine wp_mono (wp_and (wp_sortAlphaInner_inside h hnames (hnames current (by simp))
            ((length_upper _).trans (length_passwordReadName _)) hfirst rfl hread)
            ((hrecords _).wp_iff.mpr (wp_sortInner (orderAlpha_at t) hlength h (fun _ => id) hkept
              hfirst rfl))) ?_ (fun _ _ _ => trivial) fun _ _ _ => trivial
          intro res p₁ v₁ hpost
          obtain ⟨haccesses₁, _, hkept₁, before, after, hsplit, hthreaded, hres, _⟩ := hpost
          subst hsplit
          obtain ⟨first₁, pos₁, accesses₁⟩ := res
          obtain ⟨hfirst₁, hpos₁⟩ := Prod.mk.inj hres
          have hperm : (before ++ current :: (after ++ back)).Perm
              (before ++ after ++ current :: back) := by
            rw [List.append_assoc]
            exact .append_left before List.perm_middle.symm
          have hnames₁ : ∀ id ∈ before ++ current :: (after ++ back),
              0 ∈ (orderAlpha t).readKey id p₁ := by
            intro id hid
            rw [hkept₁.keys id (hthreaded.bound id hid)]
            exact hnames id (hperm.mem_iff.mp hid)
          have hnext := (linked_append.mp hthreaded.linked).2.2
          -- the next turn, behind the sorting position
          have hturn : ∀ front' rest', front' ++ rest' = before ++ current :: (after ++ back) →
              front' ≠ [] →
              (orderAlpha t).readNext (after.headD current) p₁ = rest'.headD maximumNumberOfPwd →
              wp (sortAlphaOuter t turns fuel first₁
                  ((orderAlpha t).readNext (after.headD current) p₁) accesses₁)
                (fun res _ _ => InArrays res) (fun _ _ => True) (fun _ _ => True) p₁ v₁ := by
            intro front' rest' hsplit hne' hnext'
            rw [← hsplit] at hthreaded hnames₁ hfirst₁
            exact ih hthreaded hne' hnames₁ hfirst₁ hnext' haccesses₁
          rw [hpos₁]
          cases after with
          | nil =>
              refine hturn (before ++ [current]) back (by simp) (by simp) ?_
              rw [List.headD_nil, readNext_eq hlt]
              exact hnext.1
          | cons last after =>
              refine hturn (before ++ [current, last]) (after ++ back) (by simp) (by simp) ?_
              rw [List.headD_cons, readNext_eq (h.bound last (by simp))]
              exact hnext.2.2.1

/-- If the names of the list end, every access is in the arrays. -/
theorem wp_sortAlpha_inside {l : List ℕ} (hfuel : sortTurns ≤ fuel)
    (h : Threaded t (orderAlpha t) l p) (hne : 2 ≤ v.numPwd → l ≠ [])
    (hnames : ∀ id ∈ l, 0 ∈ passwordReadName t id p) :
    wp (pwdListSortAlphaAccesses t fuel) (fun accesses _ _ => InArrays accesses)
      (fun _ _ => False) (fun _ _ => True) p v := by
  -- it ends, as the sort does
  have hends : wp (pwdListSortAlphaAccesses t fuel) (fun _ _ _ => True) (fun _ _ => False)
      (fun _ _ => True) p v :=
    pwdListSortAlphaAccesses_records.wp_iff.mpr (wp_mono (wp_pwdListSort (orderAlpha_at t) hfuel h
      hne) (fun _ _ _ _ => trivial) (fun _ _ => id) fun _ _ _ => trivial)
  have hinside : wp (pwdListSortAlphaAccesses t fuel) (fun accesses _ _ => InArrays accesses)
      (fun _ _ => True) (fun _ _ => True) p v := by
    have hnothing : InArrays [] := fun _ hi => absurd hi List.not_mem_nil
    rw [pwdListSortAlphaAccesses, wp_bind, wp_ram, wp_ite]
    refine ⟨fun _ => (wp_pure _).mpr hnothing, fun hmany => ?_⟩
    cases l with
    | nil => exact absurd rfl (hne (by omega))
    | cons first rest =>
        have hfirst : getFirstPwdIdSorted (orderAlpha t) p = first := h.first
        have hnext : passwordReadNextPwdAlpha t first p = rest.headD maximumNumberOfPwd := by
          show (orderAlpha t).readNext first p = _
          rw [readNext_eq (h.bound first (by simp))]
          exact h.linked.2.1
        have hstart : Threaded t (orderAlpha t) ([first] ++ rest) p := h
        rw [wp_bind, wp_readImage, wp_bind, wp_readImage, hfirst, hnext]
        refine wp_sortAlphaOuter_inside ?_ hstart (by simp) ?_ rfl rfl hnothing
        · simp only [sortTurns] at hfuel
          omega
        · exact fun id hid => zero_mem_upper.mpr (hnames id hid)
  exact wp_mono (wp_and hinside hends) (fun _ _ _ h => h.1) (fun _ _ h => h.2) fun _ _ _ => trivial

end PasswordWallet
