import PasswordWallet.Lists.Store

/-!
# Deleting a password

`pwd_list_delete_pwd` takes the password out of one order, then out of the other
one, clears its bit, writes the count and erases the chunk.  The other passwords
stay in both lists, in the order they had.
-/

namespace PasswordWallet

open PowerLoss LinkedList

variable {t : Target} {K : Type} {o : PwdOrder K} {link pwdId : ℕ} {p p' : Image} {v : Ram}
  {l₁ l₂ use₁ use₂ alpha₁ alpha₂ : List ℕ}

/-! ## One order -/

/-- The head takes the place of a link where the password is the first one. -/
theorem wp_unlink (hat : o.At t link) (h : Threaded t o (l₁ ++ pwdId :: l₂) p) :
    wp (unlink o (l₁.getLastD maximumNumberOfPwd) (l₂.headD maximumNumberOfPwd))
      (fun _ p' v' => v' = v ∧ Threaded t o (l₁ ++ l₂) p')
      (fun _ _ => False) (fun step _ => step.write.Within (orderRegion t link)) p v := by
  have hbound₁ : ∀ id ∈ l₁, id < t.addressing.capacity := fun id hid => h.bound id (by simp [hid])
  have hbound₂ : ∀ id ∈ l₂, id < t.addressing.capacity := fun id hid => h.bound id (by simp [hid])
  obtain ⟨hprev, hnext, hlinked⟩ := h.linked.unlink h.nodup h.notMem_end
  have hsub : (l₁ ++ l₂).Sublist (l₁ ++ pwdId :: l₂) :=
    .append_left (List.sublist_cons_self ..) l₁
  rw [hprev, hnext, Links.unlink] at hlinked
  have hthreaded : ∀ {p'}, Linked (links t o p') maximumNumberOfPwd (l₁ ++ l₂) maximumNumberOfPwd →
      p'.word o.offsetFirst = (l₁ ++ l₂).headD 0 → Threaded t o (l₁ ++ l₂) p' :=
    fun hlinked hfirst => ⟨hlinked, hfirst, h.nodup.sublist hsub,
      fun id hid => h.bound id (hsub.subset hid)⟩
  rw [unlink, wp_bind]
  refine wp_imp (wp_unlessEnd_setPrev hat (idOrEnd_headD hbound₂) (idOrEnd_getLastD hbound₁).lt) ?_
  rintro _ p₁ v₁ ⟨hv₁, hlinks₁, hfirst₁⟩
  rw [← hlinks₁] at hlinked
  rw [unlinkFirst]
  rcases List.eq_nil_or_concat l₁ with rfl | ⟨front, last, rfl⟩
  · -- the password is the first one, so the head moves to the next one
    rw [List.getLastD_nil, Links.setNextUnless, if_neg (by simp)] at hlinked
    rw [List.getLastD_nil, if_pos rfl]
    have hhead : ∀ {p' v'} {first : ℕ}, first = l₂.headD 0 →
        (v' = v₁ ∧ p'.word o.offsetFirst = first ∧ links t o p' = links t o p₁) →
        v' = v ∧ Threaded t o ([] ++ l₂) p' := fun hfirst h =>
      ⟨h.1.trans hv₁, hthreaded (h.2.2 ▸ hlinked) (h.2.1.trans hfirst)⟩
    cases l₂ with
    | nil =>
        rw [List.headD_nil, if_neg (by simp)]
        exact wp_imp (wp_setFirst hat (by decide)) fun _ _ _ h => hhead rfl h
    | cons next rest =>
        have hne : next ≠ maximumNumberOfPwd := fun heq => h.notMem_end (heq ▸ by simp)
        rw [List.headD_cons, if_pos hne]
        exact wp_imp (wp_setFirst hat (IdOrEnd.lt (Or.inr (hbound₂ next (by simp)))))
          fun _ _ _ h => hhead rfl h
  · rw [List.concat_eq_append] at *
    have hlast := hbound₁ last (by simp)
    have hne : last ≠ maximumNumberOfPwd := fun heq => h.notMem_end (heq ▸ by simp)
    rw [getLastD_append, List.getLastD_cons, List.getLastD_nil] at hlinked ⊢
    rw [Links.setNextUnless, if_pos hne] at hlinked
    rw [if_neg hne]
    refine wp_imp (wp_linkOrder (wp_setNext hat hlast (idOrEnd_headD hbound₂).lt)) ?_
    rintro _ p₂ v₂ ⟨hv₂, hlinks₂, hfirst₂⟩
    refine ⟨hv₂.trans hv₁, hthreaded (hlinks₂ ▸ hlinked) ?_⟩
    rw [hfirst₂, hfirst₁, h.first]
    cases front <;> rfl

/-- Taking a password out of one order, as one group. -/
theorem wp_unlink_group (hat : o.At t link) (h : Threaded t o (l₁ ++ pwdId :: l₂) p) :
    wp (Program.group
        (unlink o (l₁.getLastD maximumNumberOfPwd) (l₂.headD maximumNumberOfPwd)))
      (fun _ p' v' => v' = v ∧ SameOff (orderRegion t link) p p' ∧ Threaded t o (l₁ ++ l₂) p')
      (fun _ _ => False)
      (fun step p' => (step.write.Within (orderRegion t link) ∧ SameOff (orderRegion t link) p p') ∧
        (step.inner = false → Threaded t o (l₁ ++ l₂) p')) p v := by
  have hunlink : wp (unlink o (l₁.getLastD maximumNumberOfPwd) (l₂.headD maximumNumberOfPwd))
      (fun _ p' v' => Threaded t o (l₁ ++ l₂) p' ∧ v' = v)
      (fun p' _ => Threaded t o (l₁ ++ l₂) p' ∧ False)
      (fun step _ => step.write.Within (orderRegion t link)) p v :=
    wp_mono (wp_unlink hat h) (fun _ _ _ => And.symm) (fun _ _ => False.elim) fun _ _ => id
  exact wp_imp (wp_group_sameOff hunlink) fun _ _ _ h => ⟨h.2.2, h.1, h.2.1⟩

/-! ## The whole password -/

theorem chunk_subset : chunkRegion pwdId ⊆ drawing (chunkRegion pwdId) := Set.subset_union_right

theorem erase_middle (hnodup : (l₁ ++ pwdId :: l₂).Nodup) :
    (l₁ ++ pwdId :: l₂).erase pwdId = l₁ ++ l₂ := by
  have hnot : pwdId ∉ l₁ := fun hmem =>
    (List.nodup_append.mp hnodup).2.2 pwdId hmem pwdId (by simp) rfl
  rw [List.erase_append_right _ hnot, List.erase_cons_head]

section Whole

variable {use alpha : List ℕ} {bits : ℕ → Bool} {count : ℕ}

/-- Taking the password out of both lists. -/
theorem wp_unlinkBoth
    (h : Listed t (use₁ ++ pwdId :: use₂) (alpha₁ ++ pwdId :: alpha₂) bits count p)
    (hperm : (alpha₁ ++ alpha₂).Perm (use₁ ++ use₂))
    (hbits : ∀ id ∈ use₁ ++ use₂, bits id = true) (hstored : count = (use₁ ++ use₂).length + 1) :
    wp (do
        Program.group (unlink (orderUse t) (use₁.getLastD maximumNumberOfPwd)
          (use₂.headD maximumNumberOfPwd))
        Program.group (unlink (orderAlpha t) (alpha₁.getLastD maximumNumberOfPwd)
          (alpha₂.headD maximumNumberOfPwd)))
      (fun _ p' v' => v' = v ∧ Listed t (use₁ ++ use₂) (alpha₁ ++ alpha₂) bits count p')
      (fun _ _ => False) (ListCut t (use₁ ++ use₂) pwdId) p v := by
  have hsub : ∀ {l₁ l₂ : List ℕ}, l₁ ++ l₂ ⊆ l₁ ++ pwdId :: l₂ := fun {l₁ l₂} =>
    (List.Sublist.append_left (List.sublist_cons_self ..) l₁).subset
  have hcount : 2 ≤ count → use₁ ++ use₂ ≠ [] := fun hle hnil => by
    rw [hstored, hnil] at hle
    exact absurd hle (by decide)
  have hfew : ∀ {q : Image}, q.word offsetNumPwd = count → q.word offsetNumPwd < 2 →
      AtHead (use₁ ++ use₂) q := fun hq hlt => by
    have hnil : use₁ ++ use₂ = [] := List.length_eq_zero_iff.mp (by omega)
    rw [hnil]
    exact fun _ hmem => absurd hmem (List.not_mem_nil)
  rw [wp_bind]
  refine wp_mono (wp_unlink_group (orderUse_at t) h.threadedUse) ?_ (fun _ _ => id) ?_
  · intro _ p₁ v₁ ⟨hv₁, hsame₁, huse⟩
    have h₁ := h.of_use hsame₁ huse
    refine wp_mono (wp_unlink_group (orderAlpha_at t) h₁.threadedAlpha) ?_ (fun _ _ => id) ?_
    · intro _ p₂ v₂ ⟨hv₂, hsame₂, halpha⟩
      exact ⟨hv₂.trans hv₁, h₁.of_alpha hsame₂ halpha⟩
    · intro step p' ⟨⟨hwithin, hsame⟩, halpha⟩
      have hnum := hsame.count fun x hx => by
        have := orderRegion_bounds (Or.inr rfl) hx
        omega
      refine ⟨hwithin.mono ((orderRegion_subset (Or.inr rfl)).trans Set.subset_union_left),
        fun hcut => standing_of_cut hcut (fun hinner => ?_) (hfew (hnum.trans h₁.count))⟩
      exact (h₁.of_alpha hsame (halpha hinner)).survives (List.Subset.refl _) hperm.symm.subset
        hbits fun hle => ⟨hcount hle, fun hnil => hcount hle (hnil ▸ hperm).nil_eq.symm⟩
  · intro step p' ⟨⟨hwithin, hsame⟩, huse⟩
    have hnum := hsame.count fun x hx => by
      have := orderRegion_bounds (Or.inl rfl) hx
      omega
    refine ⟨hwithin.mono ((orderRegion_subset (Or.inl rfl)).trans Set.subset_union_left),
      fun hcut => standing_of_cut hcut (fun hinner => ?_) (hfew (hnum.trans h.count))⟩
    exact (h.of_use hsame (huse hinner)).survives (List.Subset.refl _)
      (List.Subset.trans hperm.symm.subset hsub) hbits fun hle => ⟨hcount hle, by simp⟩

/-- Clearing the bit, storing the count and erasing the chunk touch neither
list. -/
theorem wp_forget (h : Listed t use alpha bits count p) (hid : pwdId < t.addressing.capacity)
    (huse : pwdId ∉ use) (hperm : alpha.Perm use) (hbits : ∀ id ∈ use, bits id = true)
    (hcount : 2 ≤ count → use ≠ []) (hnum : v.numPwd = use.length + 1)
    (hstored : count = use.length + 1) :
    wp (do
        clearMapBit pwdId
        writeNumPwd fun n => n + 65535
        framSet (pwdAddr t.addressing pwdId 0) 0 sizeOfPwdBlock)
      (fun _ p' v' => v' = { v with numPwd := use.length } ∧
        Listed t use alpha (fun id => if id = pwdId then false else bits id) use.length p' ∧
        ∀ i < 170, p'.chunkByte pwdId i = 0)
      (fun _ _ => False) (ListCut t use pwdId) p v := by
  have hlt := lt_of_lt_capacity hid
  have halpha : pwdId ∉ alpha := fun hmem => huse (hperm.subset hmem)
  have hlength : use.length < 768 := h.threadedUse.length_lt
  have hbits' : ∀ id ∈ use, (if id = pwdId then false else bits id) = true := fun id hmem => by
    have hne : id ≠ pwdId := fun heq => huse (heq ▸ hmem)
    rw [if_neg hne]
    exact hbits id hmem
  -- every image on the way has these two lists, and this map from the second write on
  have hsurvives : ∀ {q count'}, Listed t use alpha (fun id => if id = pwdId then false else
      bits id) count' q → (2 ≤ count' → use ≠ []) → Standing t use q := fun hq hle =>
    Or.inl (hq.survives (List.Subset.refl _) hperm.symm.subset hbits' fun h => ⟨hle h, fun hnil =>
      hle h (hnil ▸ hperm).nil_eq.symm⟩)
  rw [wp_bind]
  refine wp_mono (wp_clearMapBit (by simp only [sizeMemoryMap]; omega)) ?_ (fun _ _ => id) ?_
  · intro _ p₁ v₁ hpost
    obtain ⟨hv₁, hsame₁, hused₁⟩ := hpost
    have h₁ : Listed t use alpha (fun id => if id = pwdId then false else bits id) count p₁ :=
      h.of_map hsame₁ fun id hid' => by rw [hused₁ id hid', h.used id hid']
    have hnum₁ : (v₁.numPwd + 65535) % 65536 = use.length := by
      rw [hv₁, hnum]
      omega
    rw [wp_bind]
    refine wp_mono wp_writeNumPwd ?_ (fun _ _ => id) ?_
    · intro _ p₂ v₂ hpost
      obtain ⟨hv₂, hsame₂, hcount₂⟩ := hpost
      rw [hnum₁] at hv₂ hcount₂
      have h₂ := h₁.of_count hsame₂ hcount₂
      rw [framSet, pwdAddr_eq hid (by decide), Nat.add_zero, show sizeOfPwdBlock = 170 from rfl]
      have hzeros : burst (535 + 170 * pwdId) (List.replicate 170 (0 : Byte)).length ⊆
          chunkRegion pwdId := by
        rw [List.length_replicate]
        exact Set.Subset.rfl
      have hwithin := wp_framWriteBytes_within (p := p₂) (v := v₂) hzeros
      refine wp_mono (wp_sameOff hwithin) ?_ (fun _ _ => id) ?_
      · intro _ p₃ v₃ hpost
        obtain ⟨hsame₃, hp₃, hv₃⟩ := hpost
        refine ⟨by rw [hv₃, hv₂, hv₁], h₂.of_chunk hsame₃ hlt huse halpha Set.subset_union_right,
          fun i hi => ?_⟩
        have hlength₃ : (List.replicate 170 (0 : Byte)).length = 170 := List.length_replicate
        rw [Image.chunkByte, hp₃, Image.byte_store_getElem (by
          rw [hlength₃, framByteSize]; omega) (by rw [hlength₃]; exact hi), List.getElem_replicate]
      · intro step p' hcut
        obtain ⟨hwithin, hsame⟩ := hcut
        refine ⟨hwithin.mono (chunk_subset.trans Set.subset_union_right), fun _ => ?_⟩
        refine hsurvives (h₂.of_chunk hsame hlt huse halpha Set.subset_union_right) fun hle => ?_
        rintro rfl
        simp at hle
    · intro step p' hcut
      obtain ⟨hwithin, hsame, htorn⟩ := hcut
      rw [hnum₁, h₁.count, hstored] at htorn
      refine ⟨hwithin.mono (numRegion_subset.trans Set.subset_union_left), fun _ =>
        hsurvives (h₁.of_count hsame rfl) fun hle => ?_⟩
      rintro rfl
      rcases htorn with htorn | htorn
      · rw [htorn] at hle
        exact absurd hle (by decide)
      · rw [htorn] at hle
        exact absurd hle (by decide)
  · intro step p' hcut
    obtain ⟨hwithin, hsame, hused⟩ := hcut
    refine ⟨hwithin.mono (mapRegion_subset.trans Set.subset_union_left), fun _ =>
      hsurvives (h.of_map hsame fun id hid' => ?_) hcount⟩
    rw [hused id hid', h.used id hid']

/-- The password is gone from a well-formed store, which is one still. -/
theorem wp_pwdListDeletePwd (h : WellFormed t p v use alpha) (hused : pwdId ∈ use) :
    wp (pwdListDeletePwd t pwdId)
      (fun _ p' v' => SameOff (pwdRegion t pwdId) p p' ∧
        v' = { v with numPwd := v.numPwd - 1 } ∧
        WellFormed t p' v' (use.erase pwdId) (alpha.erase pwdId) ∧
        ∀ i < 170, p'.chunkByte pwdId i = 0)
      (fun _ _ => False)
      (fun step p' => ListCut t (use.erase pwdId) pwdId step p' ∧
        SameOff (pwdRegion t pwdId) p p') p v := by
  obtain ⟨use₁, use₂, rfl⟩ := List.append_of_mem hused
  obtain ⟨alpha₁, alpha₂, rfl⟩ := List.append_of_mem (h.perm.symm.subset hused)
  have hid := h.threadedUse.bound pwdId hused
  have hperm : (alpha₁ ++ alpha₂).Perm (use₁ ++ use₂) := by
    have := h.perm.erase pwdId
    rwa [erase_middle h.threadedUse.nodup, erase_middle h.threadedAlpha.nodup] at this
  have hnotMem : pwdId ∉ use₁ ++ use₂ := (List.nodup_middle.mp h.threadedUse.nodup).notMem
  have hlength : (use₁ ++ pwdId :: use₂).length = (use₁ ++ use₂).length + 1 := by
    simp only [List.length_append, List.length_cons]
    omega
  have hbits : ∀ id ∈ use₁ ++ use₂, decide (id ∈ use₁ ++ pwdId :: use₂) = true := fun id hmem => by
    rw [decide_eq_true_eq]
    exact (List.Sublist.append_left (List.sublist_cons_self ..) use₁).subset hmem
  have hcount : 2 ≤ (use₁ ++ pwdId :: use₂).length → use₁ ++ use₂ ≠ [] := fun hle hnil => by
    rw [hlength, hnil] at hle
    exact absurd hle (by decide)
  have hdelete : wp (pwdListDeletePwd t pwdId)
      (fun _ p' v' => v' = { v with numPwd := v.numPwd - 1 } ∧
        WellFormed t p' v' (use₁ ++ use₂) (alpha₁ ++ alpha₂) ∧
        ∀ i < 170, p'.chunkByte pwdId i = 0)
      (fun _ _ => False) (ListCut t (use₁ ++ use₂) pwdId) p v := by
    have huse := linked_append.mp h.threadedUse.linked
    have halpha := linked_append.mp h.threadedAlpha.linked
    rw [pwdListDeletePwd]
    simp only [wp_bind, wp_readImage]
    rw [show passwordReadPrevPwdUse t pwdId p = use₁.getLastD maximumNumberOfPwd from
        (readPrev_eq (o := orderUse t) hid).trans huse.2.1,
      show passwordReadNextPwdUse t pwdId p = use₂.headD maximumNumberOfPwd from
        (readNext_eq (o := orderUse t) hid).trans huse.2.2.1,
      show passwordReadPrevPwdAlpha t pwdId p = alpha₁.getLastD maximumNumberOfPwd from
        (readPrev_eq (o := orderAlpha t) hid).trans halpha.2.1,
      show passwordReadNextPwdAlpha t pwdId p = alpha₂.headD maximumNumberOfPwd from
        (readNext_eq (o := orderAlpha t) hid).trans halpha.2.2.1]
    have hboth := wp_unlinkBoth (v := v) h.listed hperm hbits hlength
    rw [wp_bind] at hboth
    refine wp_imp hboth fun _ p₁ v₁ hunlinked => wp_imp hunlinked fun _ p₂ v₂ hunlinked => ?_
    obtain ⟨hv₂, hlisted⟩ := hunlinked
    have hforget := wp_forget (v := v₂) hlisted hid hnotMem hperm hbits hcount
      (by rw [hv₂, h.numPwd, hlength]) hlength
    simp only [wp_bind] at hforget
    refine wp_imp hforget fun _ p₃ v₃ hforgotten => wp_imp hforgotten
      fun _ p₄ v₄ hforgotten => wp_imp hforgotten fun _ p₅ v₅ hforgotten => ?_
    obtain ⟨hv₅, hlisted₅, hzero⟩ := hforgotten
    refine ⟨?_, hlisted₅.wellFormed (fun id _ => ?_) hperm (by rw [hv₅]), hzero⟩
    · rw [hv₅, hv₂, h.numPwd, hlength, Nat.add_sub_cancel]
    · by_cases heq : id = pwdId
      · rw [if_pos heq, heq, decide_eq_false hnotMem]
      · rw [if_neg heq]
        simp [heq]
  have hframe := wp_sameOff (wp_mono hdelete (fun _ _ _ => id) (fun _ _ => id) fun _ _ h => h.1)
  rw [erase_middle h.threadedUse.nodup, erase_middle h.threadedAlpha.nodup]
  exact wp_mono (wp_and hdelete hframe) (fun _ _ _ h => ⟨h.2.1, h.1⟩) (fun _ _ h => h.1)
    fun _ _ h => ⟨h.1, h.2.2⟩

end Whole

end PasswordWallet
