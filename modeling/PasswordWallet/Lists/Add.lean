import PasswordWallet.Lists.Entry

/-!
# Adding a password

`pwd_list_add_pwd` takes the first free chunk, puts it behind the last password
of both orders, fills it, writes the count and sorts both lists.  Where there is
no password the heads already say 0, which is the first free chunk.
-/

namespace PasswordWallet

open PowerLoss LinkedList

variable {t : Target} {K K' : Type} {o : PwdOrder K} {o' : PwdOrder K'} {link link' pwdId val : ℕ}
  {p p' : Image} {v : Ram} {l l₁ l₂ use alpha : List ℕ} {H : Image → Ram → Prop}

/-! ## The free chunk -/

theorem exists_free {bound : ℕ} (hlength : use.length < bound) : ∃ id < bound, id ∉ use := by
  by_contra! hall
  have hsub : List.range bound ⊆ use := fun id hid => hall id (List.mem_range.mp hid)
  have hle := (List.nodup_range.subperm hsub).length_le
  rw [List.length_range] at hle
  omega

/-- Where the menu offers to add a password there is room for it. -/
theorem WellFormed.length_lt_of_room (h : WellFormed t p v use alpha)
    (hroom : v.numPwd ≠ maximumNumberOfPwd - 1) : use.length < 767 := by
  have hlt := h.threadedUse.length_lt
  have hmax : maximumNumberOfPwd - 1 = 767 := by decide
  rw [h.numPwd, hmax] at hroom
  omega

/-- The next password goes to a chunk that lies where its number says. -/
def Target.Reaches (t : Target) (v : Ram) : Prop :=
  t.addressing = .exact ∨ v.numPwd < t.addressing.capacity

theorem WellFormed.length_lt_capacity (h : WellFormed t p v use alpha) (hreach : t.Reaches v)
    (hroom : use.length < 767) : use.length < t.addressing.capacity := by
  rcases hreach with hexact | hlt
  · rwa [hexact]
  · rwa [h.numPwd] at hlt

/-- With room left, the search for a free chunk finds the lowest unused id. -/
theorem freeScan_lowest (h : WellFormed t p v use alpha)
    (hroom : use.length < t.addressing.capacity) :
    ∃ pwdId < t.addressing.capacity, freeScan p 0 sizeMemoryMap = some pwdId ∧ pwdId ∉ use ∧
      ∀ other < pwdId, other ∈ use := by
  have hcapacity := t.addressing.capacity_le
  obtain ⟨free, hfree, hunused⟩ := exists_free hroom
  have hused : ∀ id < 767, p.used id = false ↔ id ∉ use := fun id hid => by
    rw [← h.mem_use id (by simp only [sizeMemoryMap]; omega), Bool.not_eq_true]
  have hscan := freeScan_first (p := p) 0 sizeMemoryMap
  cases hfound : freeScan p 0 sizeMemoryMap with
  | none =>
      rw [hfound] at hscan
      exact absurd ((hused free (by omega)).mpr hunused)
        (hscan free (Nat.zero_le _) (by simp; omega) (by simp; omega))
  | some found =>
      rw [hfound] at hscan
      obtain ⟨-, -, -, hzero, hfirst⟩ := hscan
      have hle : found ≤ free := by
        by_contra! hlt
        exact hfirst free (by omega) hlt ((hused free (by omega)).mpr hunused)
      refine ⟨found, by omega, rfl, (hused found (by omega)).mp hzero, fun other hother => ?_⟩
      by_contra! hnot
      exact hfirst other (by omega) hother ((hused other (by omega)).mpr hnot)

/-- When every chunk is used there is none to be found. -/
theorem freeScan_full (h : ∀ id < maximumNumberOfPwd, p.used id = true) :
    freeScan p 0 sizeMemoryMap = none := by
  have hscan := freeScan_first (p := p) 0 sizeMemoryMap
  cases hfound : freeScan p 0 sizeMemoryMap with
  | none => rfl
  | some found =>
      rw [hfound] at hscan
      obtain ⟨-, -, hlt, hfree, -⟩ := hscan
      rw [h found hlt] at hfree
      exact absurd hfree (by decide)

/-! ## The last password -/

/-- Following the links from anywhere in a list leads to its last password. -/
theorem lastPwdId_eq {fuel : ℕ} (h : Threaded t o (l₁ ++ l₂) p) (hfuel : l₂.length < fuel) :
    lastPwdId o p fuel (l₁.getLastD maximumNumberOfPwd) (l₂.headD maximumNumberOfPwd) =
      some ((l₁ ++ l₂).getLastD maximumNumberOfPwd) := by
  induction fuel generalizing l₁ l₂ with
  | zero => exact absurd hfuel (Nat.not_lt_zero _)
  | succ fuel ih =>
      rw [lastPwdId]
      cases l₂ with
      | nil => simp
      | cons id rest =>
          have hne : id ≠ maximumNumberOfPwd := fun heq => h.notMem_end (heq ▸ by simp)
          have hnext : o.readNext id p = rest.headD maximumNumberOfPwd :=
            (readNext_eq (h.bound id (by simp))).trans (linked_append.mp h.linked).2.2.1
          have hsplit : l₁ ++ id :: rest = (l₁ ++ [id]) ++ rest := by simp
          rw [hsplit] at h ⊢
          have hrest := ih h (by simpa using hfuel)
          rw [getLastD_append, List.getLastD_cons, List.getLastD_nil] at hrest
          rw [List.headD_cons, if_pos hne, hnext, hrest]

theorem getPrevPwdIdSorted_first {fuel : ℕ} (h : Threaded t o l p) (hne : l ≠ [])
    (hfuel : l.length < fuel) :
    getPrevPwdIdSorted o fuel (getFirstPwdIdSorted o p) p =
      some (l.getLastD maximumNumberOfPwd) := by
  cases l with
  | nil => exact absurd rfl hne
  | cons first rest =>
      have hfirst : getFirstPwdIdSorted o p = first := h.first
      have hprev : o.readPrev first p = maximumNumberOfPwd :=
        (readPrev_eq (h.bound first (by simp))).trans h.linked.1
      have hwhole : Threaded t o ([] ++ first :: rest) p := h
      have hlast := lastPwdId_eq hwhole hfuel
      rw [getPrevPwdIdSorted, hfirst, hprev, if_pos rfl]
      exact hlast

/-! ## Linking the new password -/

section Setters

variable (hat : o.At t link) (hat' : o'.At t link') (hne : link' ≠ link)
include hat hat' hne

/-- Rewiring one order changes no link of the other one. -/
theorem links_of_order (hsame : SameOff (orderRegion t link') p p') :
    links t o p' = links t o p ∧ p'.word o.offsetFirst = p.word o.offsetFirst := by
  have hlink := hat.link_cases
  have hlink' := hat'.link_cases
  have hsize : framByteSize = 131072 := rfl
  have hword : ∀ addr, addr + 2 ≤ framByteSize →
      (∀ x, addr ≤ x → x < addr + 2 → x ∉ orderRegion t link') → p'.word addr = p.word addr :=
    fun addr hfit hout => hsame.word fun x hx => by
      rw [mem_burst hfit] at hx
      exact hout x hx.1 hx.2
  have hfield : ∀ id < t.addressing.capacity, ∀ field, link ≤ field → field ≤ link + 2 →
      p'.word (535 + 170 * id + field) = p.word (535 + 170 * id + field) := by
    intro id hid field hlow hhigh
    have := lt_of_lt_capacity hid
    refine hword _ (by omega) ?_
    rintro x hx hx' (⟨other, hother, hmem⟩ | hmem)
    · have := lt_of_lt_capacity hother
      rw [mem_burst (by omega)] at hmem
      omega
    · rw [mem_burst (by omega)] at hmem
      omega
  refine ⟨Links.ext (funext fun id => ?_) (funext fun id => ?_), ?_⟩
  · by_cases hid : id < t.addressing.capacity
    · rw [next_links hat hid, next_links hat hid, hfield id hid _ (by omega) (by omega)]
    · simp [links, hid]
  · by_cases hid : id < t.addressing.capacity
    · rw [prev_links hat hid, prev_links hat hid, hfield id hid _ (by omega) (by omega)]
    · simp [links, hid]
  · rw [hat.first]
    refine hword _ (by omega) ?_
    rintro x hx hx' (⟨other, hother, hmem⟩ | hmem)
    · rw [mem_burst (by have := lt_of_lt_capacity hother; omega)] at hmem
      omega
    · rw [mem_burst (by omega)] at hmem
      omega

end Setters

/-- The links and the heads of both orders. -/
structure Wired (t : Target) (linksUse linksAlpha : Links ℕ) (firstUse firstAlpha : ℕ)
    (p : Image) : Prop where
  use : links t (orderUse t) p = linksUse
  alpha : links t (orderAlpha t) p = linksAlpha
  firstUse : p.word (orderUse t).offsetFirst = firstUse
  firstAlpha : p.word (orderAlpha t).offsetFirst = firstAlpha

/-- The bytes of the links of both orders. -/
def ordersRegion (t : Target) : Set ℕ := linkRegion t 0 ∪ linkRegion t 4

theorem ordersRegion_subset : ordersRegion t ⊆ orderRegion t 0 ∪ orderRegion t 4 :=
  Set.union_subset_union Set.subset_union_left Set.subset_union_left

theorem ordersRegion_bounds : ∀ x ∈ ordersRegion t, 535 ≤ x := by
  have hlink : ∀ {link x : ℕ}, link = 0 ∨ link = 4 → x ∈ linkRegion t link → 535 ≤ x := by
    intro link x hlink ⟨id, hid, hx⟩
    have := lt_of_lt_capacity hid
    rw [mem_burst (by simp only [framByteSize]; omega)] at hx
    omega
  exact fun x hx => hx.elim (hlink (Or.inl rfl)) (hlink (Or.inr rfl))

section Wired

variable {linksUse linksAlpha : Links ℕ} {firstUse firstAlpha id : ℕ}
  (h : Wired t linksUse linksAlpha firstUse firstAlpha p)
include h

/-- What a setter does to the links and the head of the use order is all it does. -/
theorem Wired.of_use {m : Dev Unit} {s : Links ℕ}
    (hset : wp m (fun _ p' v' => v' = v ∧ links t (orderUse t) p' = s ∧
        p'.word (orderUse t).offsetFirst = p.word (orderUse t).offsetFirst)
      (fun _ _ => False) (fun step _ => step.write.Within (linkRegion t 0)) p v) :
    wp m (fun _ p' v' => v' = v ∧ Wired t s linksAlpha firstUse firstAlpha p')
      (fun _ _ => False) (fun step _ => step.write.Within (ordersRegion t)) p v := by
  refine wp_mono (wp_sameOff hset) ?_ (fun _ _ => id) fun _ _ h => h.1.mono Set.subset_union_left
  intro _ p' v' ⟨hsame, hv, huse, hfirst⟩
  obtain ⟨halpha, hfirst'⟩ := links_of_order (orderAlpha_at t) (orderUse_at t) (by decide)
    (hsame.mono Set.subset_union_left)
  exact ⟨hv, huse, halpha.trans h.alpha, hfirst.trans h.firstUse, hfirst'.trans h.firstAlpha⟩

theorem Wired.of_alpha {m : Dev Unit} {s : Links ℕ}
    (hset : wp m (fun _ p' v' => v' = v ∧ links t (orderAlpha t) p' = s ∧
        p'.word (orderAlpha t).offsetFirst = p.word (orderAlpha t).offsetFirst)
      (fun _ _ => False) (fun step _ => step.write.Within (linkRegion t 4)) p v) :
    wp m (fun _ p' v' => v' = v ∧ Wired t linksUse s firstUse firstAlpha p')
      (fun _ _ => False) (fun step _ => step.write.Within (ordersRegion t)) p v := by
  refine wp_mono (wp_sameOff hset) ?_ (fun _ _ => id) fun _ _ h => h.1.mono Set.subset_union_right
  intro _ p' v' ⟨hsame, hv, halpha, hfirst⟩
  obtain ⟨huse, hfirst'⟩ := links_of_order (orderUse_at t) (orderAlpha_at t) (by decide)
    (hsame.mono Set.subset_union_left)
  exact ⟨hv, huse.trans h.use, halpha, hfirst'.trans h.firstUse, hfirst.trans h.firstAlpha⟩

end Wired

theorem Threaded.eq_nil_iff (h : Threaded t o l p) :
    l = [] ↔ l.getLastD maximumNumberOfPwd = maximumNumberOfPwd := by
  refine ⟨fun hnil => hnil ▸ rfl, fun hlast => ?_⟩
  rcases List.eq_nil_or_concat l with rfl | ⟨front, last, rfl⟩
  · rfl
  · rw [List.concat_eq_append] at *
    rw [getLastD_append, List.getLastD_cons, List.getLastD_nil] at hlast
    rw [hlast] at h
    exact absurd (by simp) h.notMem_end

section Link

variable {linksUse linksAlpha : Links ℕ} {firstUse firstAlpha fuel : ℕ}

/-- The last passwords of both orders, which point to the new one from then on. -/
theorem wp_linkLast (hid : pwdId < 65536) (hfuel : sortTurns ≤ fuel)
    (huse : Threaded t (orderUse t) use p) (halpha : Threaded t (orderAlpha t) alpha p)
    (hlength : alpha.length = use.length) (hnum : v.numPwd = use.length) :
    wp (linkLast t fuel pwdId)
      (fun prevs p' v' => v' = v ∧
        prevs = (use.getLastD maximumNumberOfPwd, alpha.getLastD maximumNumberOfPwd) ∧
        Wired t ((links t (orderUse t) p).setNextUnless maximumNumberOfPwd prevs.1 pwdId)
          ((links t (orderAlpha t) p).setNextUnless maximumNumberOfPwd prevs.2 pwdId)
          (use.headD 0) (alpha.headD 0) p')
      (fun _ _ => False) (fun step _ => step.write.Within (ordersRegion t)) p v := by
  have hwired : Wired t (links t (orderUse t) p) (links t (orderAlpha t) p) (use.headD 0)
      (alpha.headD 0) p := ⟨rfl, rfl, huse.first, halpha.first⟩
  rw [linkLast, wp_bind, wp_ram, wp_ite]
  refine ⟨fun hmany => ?_, fun hfew => ?_⟩
  · have hne : use ≠ [] := fun hnil => hmany (by rw [hnum, hnil]; rfl)
    have hne' : alpha ≠ [] := fun hnil => hmany (by rw [hnum, ← hlength, hnil]; rfl)
    have hbig := huse.length_lt
    have hbig' := halpha.length_lt
    simp only [sortTurns] at hfuel
    have hturns : use.length < fuel := by omega
    have hturns' : alpha.length < fuel := by omega
    simp only [wp_bind, wp_readImage, getPrevPwdIdSorted_first huse hne hturns,
      getPrevPwdIdSorted_first halpha hne' hturns', orHang, wp_pure]
    have hlast := mt huse.eq_nil_iff.mpr hne
    have hlast' := mt halpha.eq_nil_iff.mpr hne'
    refine wp_imp (hwired.of_use (wp_setNext (orderUse_at t)
      ((idOrEnd_getLastD huse.bound).resolve_left hlast) hid)) ?_
    intro _ p₁ v₁ hpost
    obtain ⟨hv₁, h₁⟩ := hpost
    have hset := wp_setNext (v := v₁) (p := p₁) (orderAlpha_at t)
      ((idOrEnd_getLastD halpha.bound).resolve_left hlast') hid
    rw [h₁.alpha] at hset
    refine wp_imp (h₁.of_alpha hset) ?_
    intro _ p₂ v₂ hpost
    obtain ⟨hv₂, h₂⟩ := hpost
    refine ⟨hv₂.trans hv₁, trivial, ?_⟩
    rw [Links.setNextUnless, Links.setNextUnless, if_pos hlast, if_pos hlast']
    exact h₂
  · have hnil : use = [] := List.length_eq_zero_iff.mp (hnum ▸ not_not.mp hfew)
    have hnil' : alpha = [] := List.length_eq_zero_iff.mp (by rw [hlength, hnil]; rfl)
    subst hnil hnil'
    exact (wp_pure _).mpr ⟨rfl, rfl, hwired⟩

/-- The new password is the last one of both orders. -/
theorem wp_linkNew (hid : pwdId < t.addressing.capacity) (hfuel : sortTurns ≤ fuel)
    (huse : Threaded t (orderUse t) use p) (halpha : Threaded t (orderAlpha t) alpha p)
    (hperm : alpha.Perm use) (hnum : v.numPwd = use.length) (hnew : pwdId ∉ use)
    (hzero : use = [] → pwdId = 0) :
    wp (linkNew t fuel pwdId)
      (fun _ p' v' => v' = v ∧ Threaded t (orderUse t) (use ++ [pwdId]) p' ∧
        Threaded t (orderAlpha t) (alpha ++ [pwdId]) p')
      (fun _ _ => False) (fun step _ => step.write.Within (ordersRegion t)) p v := by
  have hid' : pwdId < 65536 := IdOrEnd.lt (Or.inr hid)
  have hnew' : pwdId ∉ alpha := fun hmem => hnew (hperm.subset hmem)
  rw [linkNew, wp_bind]
  refine wp_imp (wp_linkLast hid' hfuel huse halpha hperm.length_eq hnum) ?_
  rintro _ p₁ v₁ ⟨hv₁, rfl, h₁⟩
  simp only [wp_bind]
  have hset₂ := wp_setPrev (v := v₁) (p := p₁) (orderUse_at t) hid (idOrEnd_getLastD huse.bound).lt
  rw [h₁.use] at hset₂
  refine wp_imp (h₁.of_use hset₂) ?_
  intro _ p₂ v₂ hpost
  obtain ⟨hv₂, h₂⟩ := hpost
  have hend : maximumNumberOfPwd < 65536 := by decide
  have hset₃ := wp_setNext (v := v₂) (p := p₂) (orderUse_at t) hid hend
  rw [h₂.use] at hset₃
  refine wp_imp (h₂.of_use hset₃) ?_
  intro _ p₃ v₃ hpost
  obtain ⟨hv₃, h₃⟩ := hpost
  have hset₄ := wp_setPrev (v := v₃) (p := p₃) (orderAlpha_at t) hid
    (idOrEnd_getLastD halpha.bound).lt
  rw [h₃.alpha] at hset₄
  refine wp_imp (h₃.of_alpha hset₄) ?_
  intro _ p₄ v₄ hpost
  obtain ⟨hv₄, h₄⟩ := hpost
  have hset₅ := wp_setNext (v := v₄) (p := p₄) (orderAlpha_at t) hid hend
  rw [h₄.alpha] at hset₅
  refine wp_imp (h₄.of_alpha hset₅) ?_
  intro _ p₅ v₅ hpost
  obtain ⟨hv₅, h₅⟩ := hpost
  have hthreaded : ∀ {K : Type} {o : PwdOrder K} {l : List ℕ}, Threaded t o l p → pwdId ∉ l →
      links t o p₅ = (links t o p).append maximumNumberOfPwd (l.getLastD maximumNumberOfPwd) pwdId →
      p₅.word o.offsetFirst = l.headD 0 → (l = [] → pwdId = 0) →
      Threaded t o (l ++ [pwdId]) p₅ := by
    intro K o l h hnew hlinks hfirst hzero
    refine ⟨?_, ?_, ?_, ?_⟩
    · rw [hlinks]
      exact h.linked.append h.nodup h.notMem_end hnew
    · rw [hfirst]
      cases l with
      | nil => exact (hzero rfl).symm
      | cons first rest => rfl
    · exact List.nodup_append.mpr ⟨h.nodup, List.nodup_singleton _, by
        rintro id hmem _ hsingle rfl
        exact hnew (List.mem_singleton.mp hsingle ▸ hmem)⟩
    · intro id hmem
      rcases List.mem_append.mp hmem with hmem | hmem
      · exact h.bound id hmem
      · rwa [List.mem_singleton.mp hmem]
  refine ⟨by rw [hv₅, hv₄, hv₃, hv₂, hv₁], hthreaded huse hnew h₅.use h₅.firstUse hzero,
    hthreaded halpha hnew' h₅.alpha h₅.firstAlpha fun hnil => hzero ?_⟩
  exact (hnil ▸ hperm).nil_eq.symm

end Link

/-! ## The whole password -/

section Whole

variable {bits : ℕ → Bool} {count fuel : ℕ} {name : Vector Byte 32} {data usrName : List Byte}

/-- Setting the bit and linking the new password. -/
theorem wp_enter (h : WellFormed t p v use alpha) (hfuel : sortTurns ≤ fuel)
    (hid : pwdId < t.addressing.capacity) (hnew : pwdId ∉ use) (hzero : use = [] → pwdId = 0) :
    wp (do
        setMapBit pwdId
        Program.group (linkNew t fuel pwdId))
      (fun _ p' v' => v' = v ∧ Listed t (use ++ [pwdId]) (alpha ++ [pwdId])
        (fun id => decide (id ∈ use ++ [pwdId])) use.length p')
      (fun _ _ => False) (ListCut t use pwdId) p v := by
  have hlt := lt_of_lt_capacity hid
  have hlisted := h.listed
  have hcount : ∀ {l : List ℕ}, l.length = use.length → 2 ≤ use.length → l ≠ [] := by
    rintro l hl hle rfl
    rw [← hl] at hle
    exact absurd hle (by decide)
  have hbits : ∀ id, (if id = pwdId then true else decide (id ∈ use)) =
      decide (id ∈ use ++ [pwdId]) := fun id => by
    by_cases heq : id = pwdId <;> simp [heq]
  have hkept : ∀ id ∈ use, decide (id ∈ use ++ [pwdId]) = true := fun id hmem => by simp [hmem]
  have hkeptAlpha : use ⊆ alpha := h.perm.symm.subset
  rw [wp_bind]
  refine wp_mono (wp_setMapBit (by simp only [sizeMemoryMap]; omega)) ?_ (fun _ _ => id) ?_
  · intro _ p₁ v₁ ⟨hv₁, hsame₁, hused₁⟩
    have h₁ : Listed t use alpha (fun id => decide (id ∈ use ++ [pwdId])) use.length p₁ :=
      hlisted.of_map hsame₁ fun id hid' => by
        rw [hused₁ id hid', hlisted.used id hid', hbits]
    have hlink : wp (linkNew t fuel pwdId)
        (fun _ p' v' => (Threaded t (orderUse t) (use ++ [pwdId]) p' ∧
          Threaded t (orderAlpha t) (alpha ++ [pwdId]) p') ∧ v' = v₁)
        (fun p' _ => (Threaded t (orderUse t) (use ++ [pwdId]) p' ∧
          Threaded t (orderAlpha t) (alpha ++ [pwdId]) p') ∧ False)
        (fun step _ => step.write.Within (ordersRegion t)) p₁ v₁ :=
      wp_mono (wp_linkNew hid hfuel h₁.threadedUse h₁.threadedAlpha h.perm
        (by rw [hv₁, h.numPwd]) hnew hzero) (fun _ _ _ => And.symm) (fun _ _ => False.elim)
        fun _ _ => id
    refine wp_mono (wp_group_sameOff hlink) ?_ (fun _ _ => id) ?_
    · intro _ p₂ v₂ ⟨hsame₂, ⟨huse₂, halpha₂⟩, hv₂⟩
      exact ⟨hv₂.trans hv₁, h₁.of_orders (hsame₂.mono ordersRegion_subset) huse₂ halpha₂⟩
    · intro step p' ⟨⟨hwithin, hsame⟩, hthreaded⟩
      have hnum := (hsame.count fun x hx => Or.inr (by
        have := ordersRegion_bounds x hx
        omega)).trans h₁.count
      refine ⟨hwithin.mono (ordersRegion_subset.trans ((Set.union_subset
        (orderRegion_subset (Or.inl rfl)) (orderRegion_subset (Or.inr rfl))).trans
        Set.subset_union_left)), fun hcut => standing_of_cut hcut (fun hinner => ?_) fun hfew =>
          h₁.atHead h.perm hkept (hnum ▸ hfew) hsame ordersRegion_bounds⟩
      exact (h₁.of_orders (hsame.mono ordersRegion_subset) (hthreaded hinner).1
        (hthreaded hinner).2).survives (List.subset_append_left ..)
        (List.Subset.trans hkeptAlpha (List.subset_append_left ..)) hkept
        fun _ => ⟨by simp, by simp⟩
  · intro step p' ⟨hwithin, hsame, hused⟩
    refine ⟨hwithin.mono (mapRegion_subset.trans Set.subset_union_left), fun _ => ?_⟩
    have hmapped : Listed t use alpha (fun id => decide (id ∈ use ++ [pwdId])) _ p' :=
      hlisted.of_map hsame fun id hid' => by rw [hused id hid', hlisted.used id hid', hbits]
    exact Or.inl (hmapped.survives (List.Subset.refl _) hkeptAlpha hkept fun hle =>
      ⟨hcount rfl hle, hcount h.perm.length_eq hle⟩)

/-- Counting the new password and sorting both lists. -/
theorem wp_settle (pwdId : ℕ) {kept : List ℕ} (h : Listed t use alpha bits count p)
    (hfuel : sortTurns ≤ fuel) (hperm : alpha.Perm use)
    (hnum : v.numPwd + 1 = use.length) (hkept : kept ⊆ use) (hbits : ∀ id ∈ kept, bits id = true) :
    wp (do
        writeNumPwd fun n => n + 1
        pwdListSortUse t fuel
        pwdListSortAlpha t fuel)
      (fun _ p' v' => v' = { v with numPwd := v.numPwd + 1 } ∧ SameOff (listRegion t) p p' ∧
        ∃ use' alpha', use'.Perm use ∧ alpha'.Perm alpha ∧
          Listed t use' alpha' bits use.length p' ∧ Sorted t use' alpha' p')
      (fun _ _ => False) (ListCut t kept pwdId) p v := by
  have hbig := h.threadedUse.length_lt
  have hne : use ≠ [] := by
    rintro rfl
    exact absurd hnum (Nat.succ_ne_zero _)
  have hne' : ∀ {l : List ℕ}, l.Perm use → l ≠ [] := fun hl hnil =>
    hne (hnil ▸ hl).nil_eq.symm
  have hmod : (v.numPwd + 1) % 65536 = use.length := by omega
  -- whatever the order of the lists, the passwords that were there are in them
  have hsurvives : ∀ {q use' alpha' count'}, Listed t use' alpha' bits count' q → use'.Perm use →
      alpha'.Perm use → Survives t kept q := fun hq huse halpha =>
    hq.survives (List.Subset.trans hkept huse.symm.subset)
      (List.Subset.trans hkept halpha.symm.subset) hbits fun _ => ⟨hne' huse, hne' halpha⟩
  rw [wp_bind]
  refine wp_mono wp_writeNumPwd ?_ (fun _ _ => id) ?_
  · intro _ p₁ v₁ ⟨hv₁, hsame₁, hcount₁⟩
    rw [hmod] at hv₁ hcount₁
    have h₁ := h.of_count hsame₁ hcount₁
    have hnum₁ : v₁.numPwd = use.length := by rw [hv₁]
    rw [wp_bind]
    refine wp_mono (wp_pwdListSortUse h₁ hfuel fun _ => hne) ?_ (fun _ _ => id) ?_
    · intro _ p₂ v₂ ⟨hv₂, hsame₂, use', huse', h₂, hsorted⟩
      refine wp_mono (wp_pwdListSortAlpha h₂ hfuel fun _ => hne' hperm) ?_ (fun _ _ => id) ?_
      · intro _ p₃ v₃ ⟨hv₃, hsame₃, alpha', halpha', h₃, hsorted'⟩
        have hlist₂ := hsame₂.mono (orderRegion_subset (Or.inl rfl))
        have hlist₃ := hsame₃.mono (orderRegion_subset (Or.inr rfl))
        refine ⟨by rw [hv₃, hv₂, hv₁, hnum],
          (hsame₁.mono numRegion_subset).trans (hlist₂.trans hlist₃), use', alpha', huse', halpha',
          h₃, ?_, ?_⟩
        · exact Ordered.congr (hsorted fun hlt => by rwa [hnum₁] at hlt) fun id hid =>
            (hlist₂.trans hlist₃).readKey_of_list (orderUse_at t) (h₂.threadedUse.bound id hid)
        · exact Ordered.congr (hsorted' fun hlt => by rwa [hv₂, hnum₁, ← hperm.length_eq] at hlt)
            fun id hid => hlist₃.readKey_of_list (orderAlpha_at t) (h₃.threadedAlpha.bound id hid)
      · intro step p' ⟨hwithin, hmany, hcount, hlisted⟩
        refine ⟨hwithin.mono ((orderRegion_subset (Or.inr rfl)).trans Set.subset_union_left),
          fun hcut => ?_⟩
        have hinner := hcut.resolve_right (by rw [hcount, ← hnum₁, ← hv₂]; omega)
        obtain ⟨alpha', halpha', hlisted⟩ := hlisted hinner
        exact Or.inl (hsurvives hlisted huse' (halpha'.trans hperm))
    · intro step p' ⟨hwithin, hmany, hcount, hlisted⟩
      refine ⟨hwithin.mono ((orderRegion_subset (Or.inl rfl)).trans Set.subset_union_left),
        fun hcut => ?_⟩
      have hinner := hcut.resolve_right (by rw [hcount, ← hnum₁]; omega)
      obtain ⟨use', huse', hlisted⟩ := hlisted hinner
      exact Or.inl (hsurvives hlisted huse' hperm)
  · intro step p' ⟨hwithin, hsame, _⟩
    exact ⟨hwithin.mono (numRegion_subset.trans Set.subset_union_left), fun _ =>
      Or.inl (hsurvives (h.of_count hsame rfl) (.refl _) hperm)⟩

/-- What adding a password leaves. -/
structure Added (t : Target) (p : Image) (v : Ram) (use alpha : List ℕ) (pwdId : ℕ) (e : Entry)
    (p' : Image) (v' : Ram) : Prop where
  ram : Drawn { v with numPwd := v.numPwd + 1 } v'
  frame : SameOff (pwdRegion t pwdId) p p'
  entry : readEntry t v.key pwdId p' = e
  lists : ∃ use' alpha', use'.Perm (use ++ [pwdId]) ∧ alpha'.Perm (alpha ++ [pwdId]) ∧
    WellFormed t p' v' use' alpha' ∧ Sorted t use' alpha' p'

theorem wp_addInChunk (h : WellFormed t p v use alpha) (hfuel : sortTurns ≤ fuel)
    (hid : pwdId < t.addressing.capacity) (hnew : pwdId ∉ use) (hzero : use = [] → pwdId = 0)
    (hdata : data.length = 32) (husr : usrName.length = 64) :
    wp (addInChunk t fuel pwdId name data usrName)
      (fun _ p' v' => Added t p v use alpha pwdId ⟨name.toList, 0, cleared data, cleared usrName⟩
        p' v')
      (fun _ _ => False)
      (fun step p' => ListCut t use pwdId step p' ∧ SameOff (pwdRegion t pwdId) p p') p v := by
  have hlt := lt_of_lt_capacity hid
  have hadd : wp (addInChunk t fuel pwdId name data usrName)
      (fun _ p' v' => Drawn { v with numPwd := v.numPwd + 1 } v' ∧
        readEntry t v.key pwdId p' = ⟨name.toList, 0, cleared data, cleared usrName⟩ ∧
        ∃ use' alpha', use'.Perm (use ++ [pwdId]) ∧ alpha'.Perm (alpha ++ [pwdId]) ∧
          WellFormed t p' v' use' alpha' ∧ Sorted t use' alpha' p')
      (fun _ _ => False) (ListCut t use pwdId) p v := by
    have henter := wp_enter (v := v) h hfuel hid hnew hzero
    simp only [wp_bind] at henter
    simp only [addInChunk, wp_bind, wp_ram]
    refine wp_imp henter fun _ _ _ hentered => wp_imp hentered fun _ p₁ v₁ hentered => ?_
    obtain ⟨hv₁, h₁⟩ := hentered
    -- filling the chunk is out of sight of the lists
    have hcounter : 0 < 65536 := by decide
    have hfill := wp_sameOff
      (wp_fillChunk (p := p₁) (v := v₁) (t := t) name hid hcounter hdata husr)
    have hfilled := wp_mono hfill (fun _ _ _ => id) (fun _ _ => id)
      fun step p' hcut => show ListCut t use pwdId step p' from
        ⟨hcut.1.mono (fieldsRegion_subset.trans Set.subset_union_right),
        fun _ => Or.inl ((h₁.of_quiet hcut.2 (quiet_fields hlt)).survives
          (List.subset_append_left ..)
          (List.Subset.trans h.perm.symm.subset (List.subset_append_left ..))
          (fun id hmem => by simp [hmem]) fun _ => ⟨by simp, by simp⟩)⟩
    simp only [wp_bind, wp_ram] at hfilled
    refine wp_imp hfilled fun _ _ _ hnamed => wp_imp hnamed fun _ _ _ hnamed =>
      wp_imp hnamed fun _ _ _ hnamed => wp_imp hnamed fun _ p₂ v₂ hnamed => ?_
    obtain ⟨hsame₂, hdrawn₂, -, hentry₂⟩ := hnamed
    have hlength : (use ++ [pwdId]).length = use.length + 1 := by simp
    have hkept : use ⊆ use ++ [pwdId] := List.subset_append_left ..
    have hsettle := wp_settle (v := v₂) pwdId
      (h₁.of_quiet hsame₂ (quiet_fields hlt)) hfuel (h.perm.append_right _)
      (by rw [hdrawn₂.numPwd, hv₁, h.numPwd, hlength]) hkept fun id hmem => by simp [hmem]
    simp only [wp_bind] at hsettle
    refine wp_imp hsettle fun _ _ _ hsettled => wp_imp hsettled fun _ _ _ hsettled =>
      wp_imp hsettled fun _ p₃ v₃ hsettled => ?_
    obtain ⟨hv₃, hsame₃, use', alpha', huse', halpha', h₃, hsorted⟩ := hsettled
    refine ⟨?_, ?_, use', alpha', huse', halpha', ?_, hsorted⟩
    · rw [hv₃, hdrawn₂.numPwd, hv₁]
      exact (hv₁ ▸ hdrawn₂).setNumPwd _
    · rw [hsame₃.readEntry_of_list hid, ← hv₁]
      exact hentry₂
    · refine (huse'.length_eq ▸ h₃).wellFormed (fun id _ => ?_)
        (halpha'.trans ((h.perm.append_right _).trans huse'.symm)) ?_
      · rw [Bool.eq_iff_iff, decide_eq_true_eq, decide_eq_true_eq, huse'.mem_iff]
      · rw [hv₃, hdrawn₂.numPwd, hv₁, h.numPwd, huse'.length_eq, hlength]
  have hframe := wp_sameOff (wp_mono hadd (fun _ _ _ => id) (fun _ _ => id) fun _ _ h => h.1)
  exact wp_mono (wp_and hadd hframe)
    (fun _ _ _ h => ⟨h.1.1, h.2.1, h.1.2.1, h.1.2.2⟩) (fun _ _ h => h.1) fun _ _ h => ⟨h.1, h.2.2⟩

/-- With room left, the password goes to the lowest unused id. -/
theorem wp_pwdListAddPwd (h : WellFormed t p v use alpha) (hfuel : sortTurns ≤ fuel)
    (hroom : use.length < t.addressing.capacity) (hdata : data.length = 32)
    (husr : usrName.length = 64) :
    wp (pwdListAddPwd t fuel name data usrName)
      (fun done p' v' => done = true ∧ ∃ pwdId < 767, pwdId ∉ use ∧
        (∀ other < pwdId, other ∈ use) ∧
        Added t p v use alpha pwdId ⟨name.toList, 0, cleared data, cleared usrName⟩ p' v')
      (fun _ _ => False)
      (fun step p' => ∃ pwdId < 767, pwdId ∉ use ∧ ListCut t use pwdId step p' ∧
        SameOff (pwdRegion t pwdId) p p') p v := by
  obtain ⟨pwdId, hid, hscan, hnew, hlowest⟩ := freeScan_lowest h hroom
  have hlt := lt_of_lt_capacity hid
  have hzero : use = [] → pwdId = 0 := fun hnil => by
    by_contra! hne
    exact absurd (hlowest 0 (by omega)) (by simp [hnil])
  rw [pwdListAddPwd, wp_bind, wp_readImage, hscan]
  show wp (do addInChunk t fuel pwdId name data usrName; pure true) _ _ _ p v
  rw [wp_bind]
  refine wp_mono (wp_addInChunk h hfuel hid hnew hzero hdata husr) (fun _ p' v' hadded => ?_)
    (fun _ _ => id) fun step p' hcut => ⟨pwdId, hlt, hnew, hcut⟩
  exact (wp_pure _).mpr ⟨rfl, pwdId, hlt, hnew, hlowest, hadded⟩

/-- With no free chunk nothing is written. -/
theorem wp_pwdListAddPwd_full (h : ∀ id < maximumNumberOfPwd, p.used id = true) :
    wp (pwdListAddPwd t fuel name data usrName) (fun done p' v' => done = false ∧ p' = p ∧ v' = v)
      (fun _ _ => False) (fun _ _ => False) p v := by
  rw [pwdListAddPwd, wp_bind, wp_readImage, freeScan_full h]
  exact (wp_pure _).mpr ⟨rfl, rfl, rfl⟩

end Whole

end PasswordWallet
