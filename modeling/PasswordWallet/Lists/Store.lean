import PasswordWallet.Lists.Map
import PasswordWallet.Lists.Sort

/-!
# Well-formed stores

A store is well formed when both orders thread the used chunks and the count of
passwords, in memory and in the FRAM, is theirs.

While a password is added or deleted the store is not well formed, but its parts
change one at a time: one of the lists, the map, the count (`Listed`).  What a
power loss leaves between two rewirings is that the other passwords still are in
both lists (`Survives`).
-/

namespace PasswordWallet

open PowerLoss LinkedList

variable {t : Target} {K : Type} {o : PwdOrder K} {link pwdId : ℕ} {p p' : Image} {v : Ram}
  {l l₁ l₂ use alpha kept : List ℕ}

/-! ## Where the lists live -/

/-- The bytes of both lists, of the count and of the memory map. -/
def listRegion (t : Target) : Set ℕ :=
  {x | (1 ≤ x ∧ x < 7) ∨ (263 ≤ x ∧ x < 362) ∨
    ∃ id < t.addressing.capacity, x ∈ burst (535 + 170 * id) 8}

theorem orderRegion_subset (hlink : link = 0 ∨ link = 4) :
    orderRegion t link ⊆ listRegion t := by
  rintro x (⟨id, hid, hx⟩ | hx)
  · have := lt_of_lt_capacity hid
    refine Or.inr (Or.inr ⟨id, hid, ?_⟩)
    rw [mem_burst (by simp only [framByteSize]; omega)] at hx ⊢
    omega
  · rw [mem_burst (by simp only [framByteSize]; omega)] at hx
    exact Or.inl (by omega)

theorem orderRegion_bounds {x : ℕ} (hlink : link = 0 ∨ link = 4) (hx : x ∈ orderRegion t link) :
    x < 5 ∨ 535 ≤ x := by
  rcases hx with ⟨id, hid, hx⟩ | hx
  · have := lt_of_lt_capacity hid
    rw [mem_burst (by simp only [framByteSize]; omega)] at hx
    omega
  · rw [mem_burst (by simp only [framByteSize]; omega)] at hx
    omega

theorem mapRegion_bounds : ∀ x ∈ mapRegion, 5 ≤ x ∧ x < 535 := fun x hx => by
  have := hx.1
  have := hx.2
  omega

theorem mapRegion_subset : mapRegion ⊆ listRegion t := fun _ h => Or.inr (Or.inl h)

/-- The bytes of the count. -/
def numRegion : Set ℕ := burst offsetNumPwd 2

theorem numRegion_subset : numRegion ⊆ listRegion t := fun x h => by
  rw [numRegion, mem_burst (by simp)] at h
  simp at h
  exact Or.inl (by omega)

theorem numRegion_bounds : ∀ x ∈ numRegion, 5 ≤ x ∧ x < 535 := fun x hx => by
  rw [numRegion, mem_burst (by simp)] at hx
  simp at hx
  omega

theorem numRegion_lt {x : ℕ} (hx : x ∈ numRegion) : x < 263 := by
  rw [numRegion, mem_burst (by simp)] at hx
  simp at hx
  omega

/-- The bytes of a chunk behind its links, and the pool. -/
def fieldsRegion (pwdId : ℕ) : Set ℕ := drawing (burst (535 + 170 * pwdId + 8) 162)

/-- What adding or deleting a password may touch. -/
def pwdRegion (t : Target) (pwdId : ℕ) : Set ℕ := listRegion t ∪ drawing (chunkRegion pwdId)

theorem fieldsRegion_subset : fieldsRegion pwdId ⊆ drawing (chunkRegion pwdId) :=
  Set.union_subset_union_right _ (burst_subset (by decide))

theorem drawing_bounds {x : ℕ} (hid : pwdId < 767) (hx : x ∈ drawing (chunkRegion pwdId)) :
    (7 ≤ x ∧ x < 263) ∨ 535 ≤ x := by
  rcases hx with hx | hx
  · exact Or.inl hx
  · rw [mem_chunkRegion hid] at hx
    omega

theorem wp_writeNumPwd {f : ℕ → ℕ} :
    wp (writeNumPwd f)
      (fun _ p' v' => v' = { v with numPwd := f v.numPwd % 65536 } ∧ SameOff numRegion p p' ∧
        p'.word offsetNumPwd = f v.numPwd % 65536)
      (fun _ _ => False)
      (fun step p' => step.write.Within numRegion ∧ SameOff numRegion p p' ∧
        (p'.word offsetNumPwd = tornId (p.word offsetNumPwd) (f v.numPwd % 65536) ∨
          p'.word offsetNumPwd = f v.numPwd % 65536)) p v := by
  rw [writeNumPwd, wp_bind, wp_modifyRam, wp_bind, wp_ram]
  exact wp_passwordWriteId (by simp) (Nat.mod_lt _ (by decide))

/-- The bytes of `R` are not bytes of the lists. -/
def Quiet (t : Target) (R : Set ℕ) : Prop := ∀ x ∈ R, x ∉ listRegion t

theorem Quiet.mono {R R' : Set ℕ} (h : Quiet t R') (hsub : R ⊆ R') : Quiet t R :=
  fun x hx => h x (hsub hx)

theorem Quiet.union {R R' : Set ℕ} (h : Quiet t R) (h' : Quiet t R') : Quiet t (R ∪ R') :=
  fun x hx => hx.elim (h x) (h' x)

/-- Neither the options, the pool nor the backup section is part of the lists. -/
theorem quiet_header {R : Set ℕ}
    (hR : ∀ x ∈ R, x = 0 ∨ (7 ≤ x ∧ x < 263) ∨ (362 ≤ x ∧ x < 535)) : Quiet t R := by
  have hsize : framByteSize = 131072 := rfl
  rintro x hx (hmem | hmem | ⟨id, hid, hmem⟩)
  · have := hR x hx
    omega
  · have := hR x hx
    omega
  · have := hR x hx
    have := lt_of_lt_capacity hid
    rw [mem_burst (by omega)] at hmem
    omega

theorem quiet_fields (hid : pwdId < 767) : Quiet t (fieldsRegion pwdId) := by
  have hsize : framByteSize = 131072 := rfl
  refine (quiet_header fun x hx => Or.inr (Or.inl hx)).union ?_
  rintro x hx (hmem | hmem | ⟨id, hid', hmem⟩)
  · rw [mem_burst (by omega)] at hx
    omega
  · rw [mem_burst (by omega)] at hx
    omega
  · have := lt_of_lt_capacity hid'
    rw [mem_burst (by omega)] at hx hmem
    omega

/-- A list is left alone by what happens outside its links and its head. -/
theorem Threaded.outside {R : Set ℕ} (hat : o.At t link) (h : Threaded t o l p)
    (hsame : SameOff R p p')
    (hlinks : ∀ id ∈ l, ∀ i, link ≤ i → i < link + 4 → 535 + 170 * id + i ∉ R)
    (hhead : ∀ x, 1 + link / 2 ≤ x → x < 3 + link / 2 → x ∉ R) : Threaded t o l p' := by
  have hlink := hat.link_cases
  refine h.frame hat hsame (fun id hid x hx => ?_) fun x hx => ?_
  · have := lt_of_lt_capacity (h.bound id hid)
    rw [mem_burst (by simp only [framByteSize]; omega)] at hx
    have := hlinks id hid (x - (535 + 170 * id)) (by omega) (by omega)
    rwa [Nat.add_sub_cancel' (by omega)] at this
  · rw [mem_burst (by simp only [framByteSize]; omega)] at hx
    exact hhead x (by omega) (by omega)

/-- Rewiring the other order. -/
theorem Threaded.of_order {link' : ℕ} (hat : o.At t link) (h : Threaded t o l p)
    (hlink' : link' = 0 ∨ link' = 4) (hne : link' ≠ link)
    (hsame : SameOff (orderRegion t link') p p') : Threaded t o l p' := by
  have hlink := hat.link_cases
  have hsize : framByteSize = 131072 := rfl
  refine h.outside hat hsame (fun id hid i hlow hhigh => ?_) fun x hlow hhigh => ?_
  · have := lt_of_lt_capacity (h.bound id hid)
    rintro (⟨other, hother, hx⟩ | hx)
    · have := lt_of_lt_capacity hother
      rw [mem_burst (by omega)] at hx
      omega
    · rw [mem_burst (by omega)] at hx
      omega
  · rintro (⟨other, hother, hx⟩ | hx)
    · have := lt_of_lt_capacity hother
      rw [mem_burst (by omega)] at hx
      omega
    · rw [mem_burst (by omega)] at hx
      omega

/-- Writing the header behind the heads, the map or the backup section. -/
theorem Threaded.of_header {R : Set ℕ} (hat : o.At t link) (h : Threaded t o l p)
    (hsame : SameOff R p p') (hR : ∀ x ∈ R, 5 ≤ x ∧ x < 535) : Threaded t o l p' := by
  have hlink := hat.link_cases
  refine h.outside hat hsame (fun id _ i _ _ hmem => ?_) fun x _ hhigh hmem => ?_
  · exact absurd (hR _ hmem).2 (by omega)
  · exact absurd (hR _ hmem).1 (by omega)

/-- Writing to a chunk that is not in the list. -/
theorem Threaded.of_chunk {R : Set ℕ} (hat : o.At t link) (h : Threaded t o l p)
    (hsame : SameOff R p p') (hid : pwdId < 767) (hnew : pwdId ∉ l)
    (hR : R ⊆ drawing (chunkRegion pwdId)) : Threaded t o l p' := by
  have hlink := hat.link_cases
  refine h.outside hat (hsame.mono hR) (fun id hmem i hlow hhigh => ?_) fun x hlow hhigh => ?_
  · refine notMem_drawing (by omega) fun hx => ?_
    rw [mem_chunkRegion hid] at hx
    have : id ≠ pwdId := fun h => hnew (h ▸ hmem)
    omega
  · refine notMem_drawing (by omega) fun hx => ?_
    rw [mem_chunkRegion hid] at hx
    omega

/-- Writing to none of the bytes of the lists. -/
theorem Threaded.of_quiet {R : Set ℕ} (hat : o.At t link) (h : Threaded t o l p)
    (hsame : SameOff R p p') (hR : Quiet t R) : Threaded t o l p' := by
  have hlink := hat.link_cases
  have hsize : framByteSize = 131072 := rfl
  refine h.outside hat hsame (fun id hid i hlow hhigh hx => hR _ hx ?_) fun x hlow hhigh hx =>
    hR x hx (Or.inl (by omega))
  have hid := h.bound id hid
  have := lt_of_lt_capacity hid
  refine Or.inr (Or.inr ⟨id, hid, ?_⟩)
  rw [mem_burst (by omega)]
  omega

/-- From the head on, each id says which one comes next and which one came
before. -/
structure Traverses (o : PwdOrder K) (p : Image) (l : List ℕ) : Prop where
  first : getFirstPwdIdSorted o p = l.headD 0
  next : ∀ i (h : i < l.length), o.readNext l[i] p = l.getD (i + 1) maximumNumberOfPwd
  prev_first : ∀ h : 0 < l.length, o.readPrev l[0] p = maximumNumberOfPwd
  prev : ∀ i (h : i + 1 < l.length), o.readPrev l[i + 1] p = l[i]

theorem Threaded.traverses (h : Threaded t o l p) : Traverses o p l where
  first := h.first
  next i hi := (readNext_eq (h.bound _ (List.getElem_mem hi))).trans (h.linked.next_getElem i hi)
  prev_first hpos := by
    cases l with
    | nil => exact absurd hpos (Nat.lt_irrefl 0)
    | cons first rest => exact (readPrev_eq (h.bound first (by simp))).trans h.linked.1
  prev i hi := (readPrev_eq (h.bound _ (List.getElem_mem hi))).trans (h.linked.prev_getElem i hi)

/-! ## The parts of a store -/

theorem SameOff.count {R : Set ℕ} (h : SameOff R p p') (hR : ∀ x ∈ R, x < 5 ∨ 7 ≤ x) :
    p'.word offsetNumPwd = p.word offsetNumPwd := by
  refine h.word fun x hx hmem => ?_
  rw [mem_burst (by simp)] at hx
  simp at hx
  have := hR x hmem
  omega

/-- What the lists, the map and the stored count of an image are. -/
structure Listed (t : Target) (use alpha : List ℕ) (bits : ℕ → Bool) (count : ℕ) (p : Image) :
    Prop where
  threadedUse : Threaded t (orderUse t) use p
  threadedAlpha : Threaded t (orderAlpha t) alpha p
  used : ∀ id < 8 * sizeMemoryMap, p.used id = bits id
  count : p.word offsetNumPwd = count

section Listed

variable {bits : ℕ → Bool} {count : ℕ} {R : Set ℕ} (h : Listed t use alpha bits count p)
include h

theorem Listed.of_orders {use' alpha' : List ℕ}
    (hsame : SameOff (orderRegion t 0 ∪ orderRegion t 4) p p')
    (huse : Threaded t (orderUse t) use' p') (halpha : Threaded t (orderAlpha t) alpha' p') :
    Listed t use' alpha' bits count p' := by
  have hbounds : ∀ x ∈ orderRegion t 0 ∪ orderRegion t 4, x < 5 ∨ 535 ≤ x := fun x hx =>
    hx.elim (orderRegion_bounds (Or.inl rfl)) (orderRegion_bounds (Or.inr rfl))
  exact {
    threadedUse := huse
    threadedAlpha := halpha
    used := fun id hid => (hsame.used (fun x hlow hhigh hx => by
      have := hbounds x hx
      omega) hid).trans (h.used id hid)
    count := (hsame.count fun x hx => by have := hbounds x hx; omega).trans h.count }

theorem Listed.of_use {use' : List ℕ} (hsame : SameOff (orderRegion t 0) p p')
    (huse : Threaded t (orderUse t) use' p') : Listed t use' alpha bits count p' :=
  h.of_orders (hsame.mono Set.subset_union_left) huse
    (h.threadedAlpha.of_order (orderAlpha_at t) (Or.inl rfl) (by decide) hsame)

theorem Listed.of_alpha {alpha' : List ℕ} (hsame : SameOff (orderRegion t 4) p p')
    (halpha : Threaded t (orderAlpha t) alpha' p') : Listed t use alpha' bits count p' :=
  h.of_orders (hsame.mono Set.subset_union_right)
    (h.threadedUse.of_order (orderUse_at t) (Or.inr rfl) (by decide) hsame) halpha

theorem Listed.of_map {bits' : ℕ → Bool} (hsame : SameOff mapRegion p p')
    (hused : ∀ id < 8 * sizeMemoryMap, p'.used id = bits' id) :
    Listed t use alpha bits' count p' where
  threadedUse := h.threadedUse.of_header (orderUse_at t) hsame mapRegion_bounds
  threadedAlpha := h.threadedAlpha.of_header (orderAlpha_at t) hsame mapRegion_bounds
  used := hused
  count := (hsame.count fun x hx => Or.inr (by have := hx.1; omega)).trans h.count

theorem Listed.of_count {count' : ℕ} (hsame : SameOff numRegion p p')
    (hcount : p'.word offsetNumPwd = count') : Listed t use alpha bits count' p' where
  threadedUse := h.threadedUse.of_header (orderUse_at t) hsame numRegion_bounds
  threadedAlpha := h.threadedAlpha.of_header (orderAlpha_at t) hsame numRegion_bounds
  used id hid := (hsame.used (fun x hlow hhigh hx => by have := numRegion_lt hx; omega) hid).trans
    (h.used id hid)
  count := hcount

theorem Listed.of_quiet (hsame : SameOff R p p') (hR : Quiet t R) :
    Listed t use alpha bits count p' where
  threadedUse := h.threadedUse.of_quiet (orderUse_at t) hsame hR
  threadedAlpha := h.threadedAlpha.of_quiet (orderAlpha_at t) hsame hR
  used id hid := (hsame.used (fun x hlow hhigh hx => by
    exact hR x hx (Or.inr (Or.inl ⟨hlow, hhigh⟩))) hid).trans (h.used id hid)
  count := (hsame.count fun x hx => by
    by_contra! hmem
    exact hR x hx (Or.inl (by omega))).trans h.count

theorem Listed.of_chunk (hsame : SameOff R p p') (hid : pwdId < 767) (huse : pwdId ∉ use)
    (halpha : pwdId ∉ alpha) (hR : R ⊆ drawing (chunkRegion pwdId)) :
    Listed t use alpha bits count p' where
  threadedUse := h.threadedUse.of_chunk (orderUse_at t) hsame hid huse hR
  threadedAlpha := h.threadedAlpha.of_chunk (orderAlpha_at t) hsame hid halpha hR
  used id hid' := (hsame.used (fun x hlow hhigh hx => by have := drawing_bounds hid (hR hx); omega)
    hid').trans (h.used id hid')
  count := (hsame.count fun x hx => by have := drawing_bounds hid (hR hx); omega).trans h.count

end Listed

/-! ## Well-formed stores -/

/-- Both orders thread the used chunks, and the counts are right. -/
structure WellFormed (t : Target) (p : Image) (v : Ram) (use alpha : List ℕ) : Prop where
  threadedUse : Threaded t (orderUse t) use p
  threadedAlpha : Threaded t (orderAlpha t) alpha p
  mem_use : ∀ id < 8 * sizeMemoryMap, p.used id = true ↔ id ∈ use
  perm : alpha.Perm use
  numPwd : v.numPwd = use.length
  stored : p.word offsetNumPwd = use.length

theorem WellFormed.listed (h : WellFormed t p v use alpha) :
    Listed t use alpha (fun id => decide (id ∈ use)) use.length p where
  threadedUse := h.threadedUse
  threadedAlpha := h.threadedAlpha
  used id hid := by rw [Bool.eq_iff_iff, decide_eq_true_eq, h.mem_use id hid]
  count := h.stored

theorem Listed.wellFormed {bits : ℕ → Bool} (h : Listed t use alpha bits use.length p)
    (hbits : ∀ id < 8 * sizeMemoryMap, bits id = decide (id ∈ use)) (hperm : alpha.Perm use)
    (hnum : v.numPwd = use.length) : WellFormed t p v use alpha where
  threadedUse := h.threadedUse
  threadedAlpha := h.threadedAlpha
  mem_use id hid := by rw [h.used id hid, hbits id hid, decide_eq_true_eq]
  perm := hperm
  numPwd := hnum
  stored := h.count

/-- Writes that are quiet leave the store well formed. -/
theorem WellFormed.of_quiet {R : Set ℕ} (h : WellFormed t p v use alpha) (hsame : SameOff R p p')
    (hR : Quiet t R) : WellFormed t p' v use alpha :=
  (h.listed.of_quiet hsame hR).wellFormed (fun _ _ => rfl) h.perm h.numPwd

/-- A store with one of its lists in another order. -/
theorem WellFormed.of_sortedUse {use' : List ℕ} (h : WellFormed t p v use alpha)
    (hsame : SameOff (orderRegion t 0) p p') (hperm : use'.Perm use)
    (hthreaded : Threaded t (orderUse t) use' p') : WellFormed t p' v use' alpha := by
  have hlisted := h.listed.of_use hsame hthreaded
  rw [← hperm.length_eq] at hlisted
  refine hlisted.wellFormed (fun id _ => ?_) (h.perm.trans hperm.symm)
    (h.numPwd.trans hperm.length_eq.symm)
  simp only [hperm.mem_iff]

theorem WellFormed.of_sortedAlpha {alpha' : List ℕ} (h : WellFormed t p v use alpha)
    (hsame : SameOff (orderRegion t 4) p p') (hperm : alpha'.Perm alpha)
    (hthreaded : Threaded t (orderAlpha t) alpha' p') : WellFormed t p' v use alpha' :=
  (h.listed.of_alpha hsame hthreaded).wellFormed (fun _ _ => rfl) (hperm.trans h.perm) h.numPwd

theorem WellFormed.mem_use_iff (h : WellFormed t p v use alpha) {id : ℕ} :
    id ∈ use ↔ id < maximumNumberOfPwd ∧ p.used id = true := by
  constructor
  · intro hid
    have := lt_of_lt_capacity (h.threadedUse.bound id hid)
    exact ⟨this.trans (by decide), (h.mem_use id (by simp; omega)).mpr hid⟩
  · rintro ⟨hlt, hused⟩
    simp only [maximumNumberOfPwd] at hlt
    exact (h.mem_use id (by simp at hlt ⊢; omega)).mp hused

/-- A list is only sorted if it has a password. -/
theorem WellFormed.use_ne_nil (h : WellFormed t p v use alpha) (hmany : 2 ≤ v.numPwd) :
    use ≠ [] := by
  rintro rfl
  rw [h.numPwd] at hmany
  exact absurd hmany (by decide)

theorem WellFormed.alpha_ne_nil (h : WellFormed t p v use alpha) (hmany : 2 ≤ v.numPwd) :
    alpha ≠ [] := by
  rintro rfl
  exact h.use_ne_nil hmany h.perm.nil_eq.symm

/-- The count is the number of bits that are set. -/
theorem WellFormed.numPwd_eq_countP (h : WellFormed t p v use alpha) :
    v.numPwd = (List.range (8 * sizeMemoryMap)).countP p.used := by
  have hfilter : ((List.range (8 * sizeMemoryMap)).filter p.used).Perm use := by
    refine (List.perm_ext_iff_of_nodup (List.nodup_range.filter _) h.threadedUse.nodup).mpr
      fun id => ?_
    rw [List.mem_filter, List.mem_range, h.mem_use_iff]
    refine ⟨fun ⟨hid, hused⟩ => h.mem_use_iff.mp ((h.mem_use id hid).mp hused), fun hid => ?_⟩
    have := hid.1
    exact ⟨by simp at this ⊢; omega, hid.2⟩
  rw [h.numPwd, List.countP_eq_length_filter, hfilter.length_eq]

/-- A fresh device: an erased FRAM, no password, and one of the sorting modes. -/
structure Erased (p : Image) (v : Ram) : Prop where
  fram : ∀ addr, p.fram addr = 0
  numPwd : v.numPwd = 0
  currentPasswordId : v.currentPasswordId = 0
  sortingMethod : pwdListGetSortingMethod v.optionsFlag ≤ pwdSortingAlpha

theorem erased_reset (dwords : ℕ → Vector Byte 4) (stack : Block) :
    Erased .zero (.reset dwords stack) :=
  ⟨fun _ => rfl, rfl, rfl, by show pwdListGetSortingMethod 0 ≤ pwdSortingAlpha; decide⟩

theorem wellFormed_nil (hfram : ∀ x < 535, p.fram x = 0) (hnum : v.numPwd = 0) :
    WellFormed t p v [] [] := by
  have hbyte : ∀ addr < 535, p.byte addr = 0 := fun addr hlt => by
    rw [Image.byte, Nat.mod_eq_of_lt (hlt.trans (by decide))]
    exact hfram addr hlt
  have hword : ∀ addr, addr + 1 < 535 → p.word addr = 0 := fun addr hlt => by
    rw [Image.word, hbyte _ (by omega), hbyte _ hlt]
    rfl
  have hthreaded : ∀ {K : Type} {o : PwdOrder K} {link : ℕ}, o.At t link → Threaded t o [] p :=
    fun {K o link} hat => by
      have hlink := hat.link_cases
      exact ⟨linked_nil, hword _ (by rw [hat.first]; omega), .nil, by simp⟩
  refine ⟨hthreaded (orderUse_at t), hthreaded (orderAlpha_at t), fun id hid => ?_, .refl _, hnum,
    hword _ (by decide)⟩
  simp only [sizeMemoryMap] at hid
  have hmap : offsetMemoryMap = 263 := rfl
  rw [Image.used, hbyte _ (by omega)]
  simp

theorem Erased.wellFormed (h : Erased p v) : WellFormed t p v [] [] :=
  wellFormed_nil (fun x _ => h.fram x) h.numPwd

/-- Two passwords, 0 in front of 1 in both lists, with nothing in them but links. -/
def Image.twoPwds : Image :=
  (((Image.zero.store offsetMemoryMap [3]).store offsetNumPwd [2, 0]).store 535
    [0, 3, 1, 0, 0, 3, 1, 0]).store 705 [0, 0, 0, 3, 0, 0, 0, 3]

def Ram.twoPwds : Ram :=
  { Ram.reset (fun _ => Vector.replicate 4 7) (Vector.replicate 16 0) with numPwd := 2 }

theorem wellFormed_twoPwds :
    WellFormed ⟨.exact, .xorKey⟩ .twoPwds .twoPwds [0, 1] [0, 1] where
  threadedUse := ⟨by simp only [linked_cons, linked_nil]; decide +kernel, by decide +kernel,
    by decide, by decide⟩
  threadedAlpha := ⟨by simp only [linked_cons, linked_nil]; decide +kernel, by decide +kernel,
    by decide, by decide⟩
  mem_use := by decide +kernel
  perm := .refl _
  numPwd := rfl
  stored := by decide +kernel

/-- Both lists are in the order that the stored keys say. -/
structure Sorted (t : Target) (use alpha : List ℕ) (p : Image) : Prop where
  use : use.Pairwise (Ordered (orderUse t) fun id => (orderUse t).readKey id p)
  alpha : alpha.Pairwise (Ordered (orderAlpha t) fun id => (orderAlpha t).readKey id p)

theorem Ordered.congr (h : l.Pairwise (Ordered o fun id => o.readKey id p))
    (hkeys : ∀ id ∈ l, o.readKey id p' = o.readKey id p) :
    l.Pairwise (Ordered o fun id => o.readKey id p') := by
  refine h.imp_of_mem fun {first second} hfirst hsecond hle => ?_
  show o.before (o.readKey second p') (o.readKey first p') = false
  rw [hkeys first hfirst, hkeys second hsecond]
  exact hle

/-- What a chunk has behind its links is not part of the lists. -/
theorem SameOff.chunkByte_of_list {id i : ℕ} (h : SameOff (listRegion t) p p')
    (hid : id < t.addressing.capacity) (hi : 8 ≤ i) (hi' : i < 170) :
    p'.chunkByte id i = p.chunkByte id i := by
  have := lt_of_lt_capacity hid
  have hsize : framByteSize = 131072 := rfl
  refine h.byte ?_
  rw [Nat.mod_eq_of_lt (by omega)]
  rintro (hx | hx | ⟨other, hother, hx⟩)
  · omega
  · omega
  · have := lt_of_lt_capacity hother
    rw [mem_burst (by omega)] at hx
    omega

theorem SameOff.chunkByte_of_pwd {id i : ℕ} (h : SameOff (pwdRegion t pwdId) p p')
    (hid : id < t.addressing.capacity) (hpwd : pwdId < 767) (hne : id ≠ pwdId) (hi : 8 ≤ i)
    (hi' : i < 170) : p'.chunkByte id i = p.chunkByte id i := by
  have hlt := lt_of_lt_capacity hid
  have hsize : framByteSize = 131072 := rfl
  refine h.byte ?_
  rw [Nat.mod_eq_of_lt (by omega)]
  rintro ((hx | hx | ⟨other, hother, hx⟩) | hx)
  · omega
  · omega
  · have := lt_of_lt_capacity hother
    rw [mem_burst (by omega)] at hx
    omega
  · refine notMem_drawing (by omega) (fun hmem => ?_) hx
    rw [mem_chunkRegion hpwd] at hmem
    omega

theorem SameOff.readKey_of_list {id : ℕ} (h : SameOff (listRegion t) p p') (hat : o.At t link)
    (hid : id < t.addressing.capacity) : o.readKey id p' = o.readKey id p :=
  hat.readKey_congr hid fun _ hi hi' => h.chunkByte_of_list hid hi (by omega)

/-- The passwords of a list are used and in both orders, and a count of two or
more is not that of empty lists. -/
def Survives (t : Target) (kept : List ℕ) (p : Image) : Prop :=
  ∃ use alpha, Threaded t (orderUse t) use p ∧ Threaded t (orderAlpha t) alpha p ∧
    (∀ id ∈ kept, p.used id = true ∧ id ∈ use ∧ id ∈ alpha) ∧
    (2 ≤ p.word offsetNumPwd → use ≠ [] ∧ alpha ≠ [])

theorem Listed.survives {bits : ℕ → Bool} {count : ℕ} (h : Listed t use alpha bits count p)
    (huse : kept ⊆ use) (halpha : kept ⊆ alpha) (hbits : ∀ id ∈ kept, bits id = true)
    (hcount : 2 ≤ count → use ≠ [] ∧ alpha ≠ []) : Survives t kept p := by
  refine ⟨use, alpha, h.threadedUse, h.threadedAlpha, fun id hid => ⟨?_, huse hid, halpha hid⟩, ?_⟩
  · have := lt_of_lt_capacity (h.threadedUse.bound id (huse hid))
    rw [h.used id (by simp only [sizeMemoryMap]; omega)]
    exact hbits id hid
  · rwa [h.count]

/-- The passwords of a list are used and at the head of both orders, whatever the
links are. -/
def AtHead (kept : List ℕ) (p : Image) : Prop :=
  ∀ id ∈ kept, p.used id = true ∧ p.word offsetFirstPwdUse = id ∧ p.word offsetFirstPwdAlpha = id

/-- The passwords of a list survive a sort.  With a count below two there is none. -/
def Standing (t : Target) (kept : List ℕ) (p : Image) : Prop :=
  Survives t kept p ∨ (p.word offsetNumPwd < 2 ∧ AtHead kept p)

/-- The only password of a store stays at the head while links are written. -/
theorem Listed.atHead {R : Set ℕ} {bits : ℕ → Bool} {count : ℕ}
    (h : Listed t use alpha bits count p) (hperm : alpha.Perm use)
    (hbits : ∀ id ∈ use, bits id = true) (hfew : use.length < 2) (hsame : SameOff R p p')
    (hR : ∀ x ∈ R, 535 ≤ x) : AtHead use p' := by
  intro id hmem
  have huse : use = [id] := by
    obtain ⟨first, rest, rfl⟩ := List.exists_cons_of_ne_nil (List.ne_nil_of_mem hmem)
    rw [List.length_cons] at hfew
    have hrest : rest = [] := List.length_eq_zero_iff.mp (by omega)
    subst hrest
    rw [List.mem_singleton.mp hmem]
  have halpha : alpha = [id] := List.perm_singleton.mp (huse ▸ hperm)
  have hlt := lt_of_lt_capacity (h.threadedUse.bound id hmem)
  have hword : ∀ addr, addr + 2 ≤ 535 → p'.word addr = p.word addr := fun addr haddr =>
    hsame.word fun x hx hx' => by
      have := hR x hx'
      rw [mem_burst (by simp only [framByteSize]; omega)] at hx
      omega
  refine ⟨?_, (hword _ (by simp)).trans ?_, (hword _ (by simp)).trans ?_⟩
  · rw [hsame.used (fun x hlow hhigh hx => absurd (hR x hx) (by omega))
      (by simp only [sizeMemoryMap]; omega), h.used id (by simp only [sizeMemoryMap]; omega)]
    exact hbits id hmem
  · exact h.threadedUse.first.trans (by rw [huse]; rfl)
  · exact h.threadedAlpha.first.trans (by rw [halpha]; rfl)

theorem standing_of_cut {inner : Bool} (hcut : inner = false ∨ p.word offsetNumPwd < 2)
    (hsurvives : inner = false → Survives t kept p)
    (hfew : p.word offsetNumPwd < 2 → AtHead kept p) : Standing t kept p := by
  by_cases hinner : inner = false
  · exact Or.inl (hsurvives hinner)
  · have hless := hcut.resolve_left hinner
    exact Or.inr ⟨hless, hfew hless⟩

/-- What a power loss outside the groups, or with less than two passwords, leaves
when a password is added or deleted. -/
def ListCut (t : Target) (kept : List ℕ) (pwdId : ℕ) (step : Step Write) (p' : Image) : Prop :=
  step.write.Within (pwdRegion t pwdId) ∧
    (step.inner = false ∨ p'.word offsetNumPwd < 2 → Standing t kept p')

/-! ## Sorting a store -/

section Sorting

variable {bits : ℕ → Bool} {count fuel : ℕ} (h : Listed t use alpha bits count p)
  (hfuel : sortTurns ≤ fuel)
include h hfuel

theorem wp_pwdListSortUse (hne : 2 ≤ v.numPwd → use ≠ []) :
    wp (pwdListSortUse t fuel)
      (fun _ p' v' => v' = v ∧ SameOff (orderRegion t 0) p p' ∧ ∃ use', use'.Perm use ∧
        Listed t use' alpha bits count p' ∧ ((v.numPwd < 2 → use.length < 2) →
          use'.Pairwise (Ordered (orderUse t) fun id => (orderUse t).readKey id p)))
      (fun _ _ => False)
      (fun step p' => step.write.Within (orderRegion t 0) ∧ 2 ≤ v.numPwd ∧
        p'.word offsetNumPwd = count ∧
        (step.inner = false → ∃ use', use'.Perm use ∧ Listed t use' alpha bits count p')) p v := by
  refine wp_mono (wp_pwdListSort (orderUse_at t) hfuel h.threadedUse hne) ?_ (fun _ _ => id) ?_
  · intro _ p' v' hpost
    obtain ⟨hv, hsame, -, use', hperm, hthreaded, hsorted⟩ := hpost
    exact ⟨hv, hsame, use', hperm, h.of_use hsame hthreaded, fun hfew =>
      hsorted hfew ▸ stableSort_pairwise (orderUse_at t) use⟩
  · intro step p' ⟨⟨hmany, hwithin, hcut⟩, hsame⟩
    have hcount := (hsame.count fun x hx => by
      have := orderRegion_bounds (Or.inl rfl) hx
      omega).trans h.count
    refine ⟨hwithin, hmany, hcount, fun hinner => ?_⟩
    obtain ⟨use', hperm, hthreaded⟩ := hcut hinner
    exact ⟨use', hperm, h.of_use hsame hthreaded⟩

theorem wp_pwdListSortAlpha (hne : 2 ≤ v.numPwd → alpha ≠ []) :
    wp (pwdListSortAlpha t fuel)
      (fun _ p' v' => v' = v ∧ SameOff (orderRegion t 4) p p' ∧ ∃ alpha', alpha'.Perm alpha ∧
        Listed t use alpha' bits count p' ∧ ((v.numPwd < 2 → alpha.length < 2) →
          alpha'.Pairwise (Ordered (orderAlpha t) fun id => (orderAlpha t).readKey id p)))
      (fun _ _ => False)
      (fun step p' => step.write.Within (orderRegion t 4) ∧ 2 ≤ v.numPwd ∧
        p'.word offsetNumPwd = count ∧
        (step.inner = false → ∃ alpha', alpha'.Perm alpha ∧ Listed t use alpha' bits count p'))
      p v := by
  refine wp_mono (wp_pwdListSort (orderAlpha_at t) hfuel h.threadedAlpha hne) ?_ (fun _ _ => id) ?_
  · intro _ p' v' hpost
    obtain ⟨hv, hsame, -, alpha', hperm, hthreaded, hsorted⟩ := hpost
    exact ⟨hv, hsame, alpha', hperm, h.of_alpha hsame hthreaded, fun hfew =>
      hsorted hfew ▸ stableSort_pairwise (orderAlpha_at t) alpha⟩
  · intro step p' ⟨⟨hmany, hwithin, hcut⟩, hsame⟩
    have hcount := (hsame.count fun x hx => by
      have := orderRegion_bounds (Or.inr rfl) hx
      omega).trans h.count
    refine ⟨hwithin, hmany, hcount, fun hinner => ?_⟩
    obtain ⟨alpha', hperm, hthreaded⟩ := hcut hinner
    exact ⟨alpha', hperm, h.of_alpha hsame hthreaded⟩

end Sorting

end PasswordWallet
