import PasswordWallet.LinkedList.StableSort
import PasswordWallet.Lists.Links

/-!
# Sorting a password list

`pwd_list_sort_use` and `pwd_list_sort_alpha` are the same insertion sort.  The
inner loop moves one password towards the head by swaps of neighbours; the outer
loop goes on behind the place where the last swap took place, and so may look
again at passwords that are in order already.

Each swap keeps the links threading a list of the same passwords
(`wp_swapWithPrev`), which is what a power loss between two swaps can leave.
The list in front of the current password is sorted, and stays so
(`wp_sortInner`, `wp_sortOuter`); a turn of the outer loop either takes a new
password into the sorted part or goes over one of its passwords again, which
bounds the number of turns.  Only neighbours strictly out of order are swapped, so
the list that is left is the stable sort of the list there was (`stableSort`).
-/

namespace PasswordWallet

open PowerLoss LinkedList

variable {t : Target} {K : Type} {o : PwdOrder K} {link : ℕ} {p p' : Image} {v : Ram}

/-! ## Swaps -/

section Swap

variable (hat : o.At t link)
include hat

theorem wp_swapNeighbours {lower upper : ℕ} (hlower : lower < t.addressing.capacity)
    (hupper : upper < t.addressing.capacity) (hprev : IdOrEnd t ((links t o p).prev lower))
    (hnext : IdOrEnd t ((links t o p).next upper)) :
    wp (swapNeighbours o lower upper)
      (fun _ p' v' => v' = v ∧ links t o p' = (links t o p).swap maximumNumberOfPwd lower upper ∧
        p'.word o.offsetFirst = p.word o.offsetFirst)
      (fun _ _ => False) (fun step _ => step.write.Within (orderRegion t link)) p v := by
  have hid : ∀ {id}, id < t.addressing.capacity → id < 65536 := fun h => IdOrEnd.lt (Or.inr h)
  simp only [swapNeighbours, wp_bind, wp_readImage, readPrev_eq hlower, readNext_eq hupper]
  refine wp_imp (wp_linkOrder (wp_setPrev hat hlower (hid hupper))) ?_
  rintro _ p₁ v₁ ⟨hv₁, hlinks₁, hfirst₁⟩
  refine wp_imp (wp_linkOrder (wp_setNext hat hlower hnext.lt)) ?_
  rintro _ p₂ v₂ ⟨hv₂, hlinks₂, hfirst₂⟩
  refine wp_imp (wp_linkOrder (wp_setPrev hat hupper hprev.lt)) ?_
  rintro _ p₃ v₃ ⟨hv₃, hlinks₃, hfirst₃⟩
  refine wp_imp (wp_linkOrder (wp_setNext hat hupper (hid hlower))) ?_
  rintro _ p₄ v₄ ⟨hv₄, hlinks₄, hfirst₄⟩
  refine wp_imp (wp_unlessEnd_setNext hat hprev (hid hupper)) ?_
  rintro _ p₅ v₅ ⟨hv₅, hlinks₅, hfirst₅⟩
  refine wp_imp (wp_unlessEnd_setPrev hat hnext (hid hlower)) ?_
  rintro _ p₆ v₆ ⟨hv₆, hlinks₆, hfirst₆⟩
  refine ⟨by rw [hv₆, hv₅, hv₄, hv₃, hv₂, hv₁], ?_, ?_⟩
  · rw [hlinks₆, hlinks₅, hlinks₄, hlinks₃, hlinks₂, hlinks₁, Links.swap]
  · rw [hfirst₆, hfirst₅, hfirst₄, hfirst₃, hfirst₂, hfirst₁]

/-- A swap of two neighbours, with the head moved if need be. -/
theorem wp_swapWithPrev {l₁ l₂ : List ℕ} {prev current : ℕ} {S : Set ℕ}
    (h : Threaded t o (l₁ ++ prev :: current :: l₂) p)
    (hS : ∀ id ∈ l₁ ++ prev :: current :: l₂, id ∈ S) :
    wp (swapWithPrev o ((l₁ ++ prev :: current :: l₂).headD 0) prev current)
      (fun first p' v' => v' = v ∧ Threaded t o (l₁ ++ current :: prev :: l₂) p' ∧
        first = (l₁ ++ current :: prev :: l₂).headD 0 ∧
        (links t o p).AgreeOff S (links t o p'))
      (fun _ _ => False) (fun step _ => step.write.Within (orderRegion t link)) p v := by
  have hprev := h.bound prev (by simp)
  have hcurrent := h.bound current (by simp)
  obtain ⟨-, hbefore, -, -, hafter, -⟩ := linked_append.mp h.linked
  have hnodup : (l₁ ++ current :: prev :: l₂).Nodup :=
    (List.Perm.append_left l₁ (.swap ..)).nodup_iff.mp h.nodup
  have hbound : ∀ id ∈ l₁ ++ current :: prev :: l₂, id < t.addressing.capacity := fun id hid =>
    h.bound id ((List.Perm.append_left l₁ (.swap ..)).mem_iff.mp hid)
  -- the head is the one of the swapped list before the swap is done
  have hfirst : wp (updateFirst o ((l₁ ++ prev :: current :: l₂).headD 0) prev current)
      (fun first p' v' => v' = v ∧ links t o p' = links t o p ∧
        p'.word o.offsetFirst = (l₁ ++ current :: prev :: l₂).headD 0 ∧
        first = (l₁ ++ current :: prev :: l₂).headD 0)
      (fun _ _ => False) (fun step _ => step.write.Within (orderRegion t link)) p v := by
    rw [updateFirst, wp_ite, wp_bind, wp_pure]
    cases l₁ with
    | nil =>
        refine ⟨fun _ => ?_, fun hne => absurd rfl hne⟩
        refine wp_imp (wp_setFirst hat (IdOrEnd.lt (Or.inr hcurrent))) ?_
        rintro _ p' v' ⟨hv, hword, hlinks⟩
        exact (wp_pure _).mpr ⟨hv, hlinks, hword, rfl⟩
    | cons first rest =>
        have hne : prev ≠ first := by
          rintro rfl
          simpa using h.nodup
        exact ⟨fun heq => absurd heq hne, fun _ => ⟨rfl, rfl, h.first, rfl⟩⟩
  rw [swapWithPrev, wp_bind]
  refine wp_imp hfirst ?_
  rintro first p₁ v₁ ⟨hv₁, hlinks₁, hword₁, rfl⟩
  rw [wp_bind]
  refine wp_imp (wp_swapNeighbours hat hprev hcurrent ?_ ?_) ?_
  · rw [hlinks₁, hbefore]
    exact idOrEnd_getLastD fun id hid => h.bound id (by simp [hid])
  · rw [hlinks₁, hafter]
    exact idOrEnd_headD fun id hid => h.bound id (by simp [hid])
  · rintro _ p₂ v₂ ⟨hv₂, hlinks₂, hword₂⟩
    rw [hlinks₁] at hlinks₂
    refine (wp_pure _).mpr ⟨hv₂.trans hv₁, ⟨?_, hword₂.trans hword₁, hnodup, hbound⟩, rfl, ?_⟩
    · rw [hlinks₂]
      exact h.linked.swap h.nodup h.notMem_end
    · rw [hlinks₂]
      exact h.linked.swap_agreeOff hS

end Swap

/-! ## The inner loop -/

/-- The bytes of a chunk behind the links are in no order. -/
theorem chunkByte_notMem_order {id i : ℕ} (hlink : link = 0 ∨ link = 4) (hid : id < 767)
    (hlow : 8 ≤ i) (hhigh : i < 170) :
    (535 + 170 * id + i) % framByteSize ∉ orderRegion t link := by
  have hsize : framByteSize = 131072 := rfl
  rw [Nat.mod_eq_of_lt (by omega)]
  rintro (⟨other, hother, hx⟩ | hx)
  · have := lt_of_lt_capacity hother
    rw [mem_burst (by omega)] at hx
    omega
  · rw [mem_burst (by omega)] at hx
    omega

/-- Rewiring an order changes no key. -/
theorem SameOff.readKey {link' id : ℕ} (h : SameOff (orderRegion t link') p p')
    (hlink' : link' = 0 ∨ link' = 4) (hat : o.At t link) (hid : id < t.addressing.capacity) :
    o.readKey id p' = o.readKey id p :=
  hat.readKey_congr hid fun _ hlow hhigh =>
    h.byte (chunkByte_notMem_order hlink' (lt_of_lt_capacity hid) hlow (by omega))

/-- What a power loss between two swaps leaves. -/
def SortCut (t : Target) (o : PwdOrder K) (link : ℕ) (l : List ℕ) (step : Step Write)
    (q : Image) : Prop :=
  step.write.Within (orderRegion t link) ∧
    (step.inner = false → ∃ l', l'.Perm l ∧ Threaded t o l' q)

theorem SortCut.perm {l l' : List ℕ} {step : Step Write} (h : SortCut t o link l step p)
    (hperm : l.Perm l') : SortCut t o link l' step p :=
  ⟨h.1, fun hinner =>
    let ⟨l'', hl'', hthreaded⟩ := h.2 hinner
    ⟨l'', hl''.trans hperm, hthreaded⟩⟩

/-- A swap as one group. -/
theorem wp_swapWithPrev_group {l₁ l₂ : List ℕ} {prev current : ℕ} {S : Set ℕ}
    (hat : o.At t link) (h : Threaded t o (l₁ ++ prev :: current :: l₂) p)
    (hS : ∀ id ∈ l₁ ++ prev :: current :: l₂, id ∈ S) :
    wp (Program.group (swapWithPrev o ((l₁ ++ prev :: current :: l₂).headD 0) prev current))
      (fun first p' v' => v' = v ∧ SameOff (orderRegion t link) p p' ∧
        Threaded t o (l₁ ++ current :: prev :: l₂) p' ∧
        first = (l₁ ++ current :: prev :: l₂).headD 0 ∧
        (links t o p).AgreeOff S (links t o p'))
      (fun _ _ => False) (SortCut t o link (l₁ ++ prev :: current :: l₂)) p v := by
  have hswapped : (l₁ ++ current :: prev :: l₂).Perm (l₁ ++ prev :: current :: l₂) :=
    .append_left l₁ (.swap ..)
  have hswap : wp (swapWithPrev o ((l₁ ++ prev :: current :: l₂).headD 0) prev current)
      (fun first p' v' => Threaded t o (l₁ ++ current :: prev :: l₂) p' ∧
        (v' = v ∧ first = (l₁ ++ current :: prev :: l₂).headD 0 ∧
          (links t o p).AgreeOff S (links t o p')))
      (fun p' _ => Threaded t o (l₁ ++ current :: prev :: l₂) p' ∧ False)
      (fun step _ => step.write.Within (orderRegion t link)) p v :=
    wp_mono (wp_swapWithPrev hat h hS) (fun _ _ _ h => ⟨h.2.1, h.1, h.2.2⟩) (fun _ _ => False.elim)
      fun _ _ => id
  refine wp_mono (wp_group_sameOff hswap) ?_ (fun _ _ => id) ?_
  · exact fun _ _ _ h => ⟨h.2.2.1, h.1, h.2.1, h.2.2.2⟩
  · exact fun _ _ hcut => ⟨hcut.1.1, fun hinner => ⟨_, hswapped, hcut.2 hinner⟩⟩

/-- While a list of ids of `S` is sorted no key changes, and of the links only those
of the ids themselves, which were `s` before. -/
structure SortKept (t : Target) (o : PwdOrder K) (key : ℕ → K) (S : Set ℕ) (s : Links ℕ)
    (p : Image) : Prop where
  keys : ∀ id < t.addressing.capacity, o.readKey id p = key id
  links : s.AgreeOff S (links t o p)

section Loops

variable {key : ℕ → K} {S : Set ℕ} {s : Links ℕ} {fuel first prev pos current : ℕ}
  {front back : List ℕ} (hat : o.At t link)
include hat

/-- The inner loop takes the current password in front of those it comes before. -/
theorem wp_sortInner (hfuel : front.length < fuel)
    (h : Threaded t o (front ++ current :: back) p)
    (hS : ∀ id ∈ front ++ current :: back, id ∈ S) (hkept : SortKept t o key S s p)
    (hfirst : first = (front ++ current :: back).headD 0)
    (hprev : prev = front.getLastD maximumNumberOfPwd) :
    wp (sortInner o current (key current) fuel first prev pos)
      (fun res p' v' => v' = v ∧ SortKept t o key S s p' ∧
        ∃ before after, front = before ++ after ∧
          Threaded t o (before ++ current :: (after ++ back)) p' ∧
          res = ((before ++ current :: (after ++ back)).headD 0, after.headD pos) ∧
          (∀ id ∈ after, o.before (key current) (key id) = true) ∧
          ∀ id ∈ before.getLast?, o.before (key current) (key id) = false)
      (fun _ _ => False) (SortCut t o link (front ++ current :: back)) p v := by
  induction fuel generalizing front back first prev pos p v with
  | zero => exact absurd hfuel (Nat.not_lt_zero _)
  | succ fuel ih =>
      rw [sortInner]
      rcases List.eq_nil_or_concat front with rfl | ⟨front, last, rfl⟩
      · -- the current password is the first one
        rw [hprev, if_neg (by simp), wp_pure, hfirst]
        exact ⟨rfl, hkept, [], [], rfl, h, rfl, by simp, by simp⟩
      · rw [List.concat_eq_append] at *
        rw [getLastD_append] at hprev
        obtain rfl : prev = last := hprev
        have hlast := h.bound prev (by simp)
        have hne : prev ≠ maximumNumberOfPwd := fun heq => h.notMem_end (heq ▸ by simp)
        rw [if_pos hne, wp_bind, wp_readImage, hkept.keys prev hlast]
        cases hbefore : o.before (key current) (key prev) with
        | false =>
            rw [if_neg (by decide), wp_pure]
            exact ⟨rfl, hkept, front ++ [prev], [], by simp, by simpa using h, by simp [hfirst],
              by simp, by simp [hbefore]⟩
        | true =>
            have hsplit : front ++ [prev] ++ current :: back =
                front ++ prev :: current :: back := by simp
            rw [hsplit] at h hS hfirst ⊢
            have hswapped : (front ++ current :: prev :: back).Perm
                (front ++ prev :: current :: back) := .append_left front (.swap ..)
            rw [if_pos rfl, wp_bind]
            simp only [wp_bind, wp_readImage]
            rw [hfirst]
            refine wp_imp (wp_swapWithPrev_group hat h hS) ?_
            rintro first p₁ v₁ ⟨rfl, hsame, hthreaded, rfl, hagree⟩
            have hkept₁ : SortKept t o key S s p₁ :=
              ⟨fun id hid => (hsame.readKey hat.link_cases hat hid).trans (hkept.keys id hid),
                hkept.links.trans hagree⟩
            have hnext : o.readPrev current p₁ = front.getLastD maximumNumberOfPwd := by
              rw [readPrev_eq (h.bound current (by simp))]
              exact (linked_append.mp hthreaded.linked).2.1
            rw [hnext]
            refine wp_mono (ih (by simpa using hfuel) hthreaded
              (fun id hid => hS id (hswapped.mem_iff.mp hid)) hkept₁ rfl rfl) ?_
              (fun _ _ => id) fun _ _ hcut => hcut.perm hswapped
            rintro _ p₂ v₂ ⟨hv, hkept₂, before, after, rfl, hthreaded₂, rfl, hafter, hlast₂⟩
            refine ⟨hv, hkept₂, before, after ++ [prev], by simp, by simpa using hthreaded₂,
              by simp, ?_, hlast₂⟩
            intro id hid
            rcases List.mem_append.mp hid with hid | hid
            · exact hafter id hid
            · rw [List.mem_singleton.mp hid]
              exact hbefore

/-! ## The outer loop -/

/-- The second password does not come before the first. -/
def Ordered (o : PwdOrder K) (key : ℕ → K) (first second : ℕ) : Prop :=
  o.before (key second) (key first) = false

instance (key : ℕ → K) : DecidableRel (Ordered o key) := fun first second =>
  inferInstanceAs (Decidable (o.before (key second) (key first) = false))

/-- The list in order, with the passwords of equal keys in the order they were in. -/
def stableSort (o : PwdOrder K) (key : ℕ → K) (l : List ℕ) : List ℕ :=
  l.insertionSort (Ordered o key)

theorem Ordered.total (first second : ℕ) :
    Ordered o key first second ∨ Ordered o key second first := by
  cases h : o.before (key second) (key first) with
  | false => exact .inl h
  | true => exact .inr (hat.before_asymm h)

omit hat in
theorem stableSort_perm (o : PwdOrder K) (key : ℕ → K) (l : List ℕ) : (stableSort o key l).Perm l :=
  List.perm_insertionSort _ l

theorem stableSort_pairwise (l : List ℕ) : (stableSort o key l).Pairwise (Ordered o key) := by
  have htotal : Std.Total (Ordered o key) := ⟨Ordered.total hat⟩
  have htrans : IsTrans ℕ (Ordered o key) := ⟨fun _ _ _ => hat.before_trans⟩
  exact List.pairwise_insertionSort _ l

omit hat in
theorem stableSort_eq_self {l : List ℕ} (h : l.Pairwise (Ordered o key)) :
    stableSort o key l = l := h.insertionSort_eq

/-- A turn of the outer loop leaves the stable sort what it was. -/
theorem stableSort_move {before after : List ℕ}
    (hafter : ∀ id ∈ after, o.before (key current) (key id) = true) :
    stableSort o key (before ++ current :: (after ++ back)) =
      stableSort o key (before ++ after ++ current :: back) := by
  rw [List.append_assoc]
  exact insertionSort_move (Ordered.total hat) (fun _ _ _ => hat.before_trans) fun id hid h =>
    Bool.false_ne_true (h.symm.trans (hafter id hid))

theorem Ordered.insert {before after : List ℕ}
    (h : (before ++ after).Pairwise (Ordered o key))
    (hbefore : ∀ id ∈ before.getLast?, o.before (key current) (key id) = false)
    (hafter : ∀ id ∈ after, o.before (key current) (key id) = true) :
    (before ++ current :: after).Pairwise (Ordered o key) := by
  obtain ⟨hpairs, hpairs', hcross⟩ := List.pairwise_append.mp h
  have hall : ∀ id ∈ before, Ordered o key id current := by
    rcases List.eq_nil_or_concat before with rfl | ⟨front, last, rfl⟩
    · simp
    · rw [List.concat_eq_append] at *
      have hlast := hbefore last (by simp)
      intro id hid
      rcases List.mem_append.mp hid with hid | hid
      · have := (List.pairwise_append.mp hpairs).2.2 id hid last (by simp)
        exact hat.before_trans this hlast
      · rw [List.mem_singleton.mp hid]
        exact hlast
  refine List.pairwise_append.mpr ⟨hpairs, List.pairwise_cons.mpr ⟨?_, hpairs'⟩, ?_⟩
  · exact fun id hid => hat.before_asymm (hafter id hid)
  · intro id hid other hother
    rcases List.mem_cons.mp hother with rfl | hother
    · exact hall id hid
    · exact hcross id hid other hother

/-- The outer loop, with the sorted passwords split at the current one. -/
theorem wp_sortOuter {turns n : ℕ} {mid rest : List ℕ} (hturns : n ≤ turns)
    (hlength : (front ++ (mid ++ rest)).length ≤ n)
    (hfuel : rest.length * (n + 1) + mid.length < fuel)
    (h : Threaded t o (front ++ (mid ++ rest)) p)
    (hS : ∀ id ∈ front ++ (mid ++ rest), id ∈ S) (hkept : SortKept t o key S s p)
    (hfirst : first = (front ++ (mid ++ rest)).headD 0)
    (hcurrent : current = (mid ++ rest).headD maximumNumberOfPwd)
    (hsorted : (front ++ mid).Pairwise (Ordered o key)) :
    wp (sortOuter o turns fuel first current)
      (fun _ p' v' => v' = v ∧ SortKept t o key S s p' ∧
        Threaded t o (stableSort o key (front ++ (mid ++ rest))) p')
      (fun _ _ => False) (SortCut t o link (front ++ (mid ++ rest))) p v := by
  induction fuel generalizing front mid rest first current p v with
  | zero => exact absurd hfuel (Nat.not_lt_zero _)
  | succ fuel ih =>
      rw [sortOuter]
      cases hsuffix : mid ++ rest with
      | nil =>
          rw [hcurrent, hsuffix, if_neg (by simp), wp_pure]
          obtain ⟨rfl, rfl⟩ := List.append_eq_nil_iff.mp hsuffix
          rw [List.append_nil] at h hsorted ⊢
          rw [List.append_nil] at h
          exact ⟨rfl, hkept, by rwa [stableSort_eq_self hsorted]⟩
      | cons id back =>
          rw [hsuffix] at h hS hfirst hcurrent hlength
          obtain rfl : current = id := hcurrent
          have hlt := h.bound current (by simp)
          have hne : current ≠ maximumNumberOfPwd := fun heq => h.notMem_end (heq ▸ by simp)
          have hprev := (linked_append.mp h.linked).2.1
          rw [if_pos hne]
          simp only [wp_bind, wp_readImage, hkept.keys current hlt, readPrev_eq hlt]
          refine wp_imp (wp_sortInner hat (by simp at hlength; omega) h hS hkept hfirst hprev) ?_
          rintro _ p₁ v₁ ⟨rfl, hkept₁, before, after, rfl, hthreaded, rfl, hafter, hbefore⟩
          have hperm : (before ++ current :: (after ++ back)).Perm
              (before ++ after ++ current :: back) := by
            rw [List.append_assoc]
            exact .append_left before List.perm_middle.symm
          -- the next turn, from the split that this one leaves
          have hturn : ∀ front' mid' rest', front' ++ (mid' ++ rest') =
              before ++ current :: (after ++ back) →
              rest'.length * (n + 1) + mid'.length < fuel →
              o.readNext (after.headD current) p₁ = (mid' ++ rest').headD maximumNumberOfPwd →
              (front' ++ mid').Pairwise (Ordered o key) →
              wp (sortOuter o turns fuel ((before ++ current :: (after ++ back)).headD 0)
                  (o.readNext (after.headD current) p₁))
                (fun _ p' v' => v' = v₁ ∧ SortKept t o key S s p' ∧
                  Threaded t o (stableSort o key (before ++ after ++ current :: back)) p')
                (fun _ _ => False) (SortCut t o link (before ++ after ++ current :: back))
                p₁ v₁ := by
            intro front' mid' rest' hsplit hfuel' hnext hsorted'
            have hmove := @stableSort_move t K o link key current back hat before after hafter
            rw [← hsplit] at hthreaded hperm hmove
            rw [← hmove]
            exact wp_mono (ih (hperm.length_eq ▸ hlength) hfuel' hthreaded
              (fun id hid => hS id (hperm.mem_iff.mp hid)) hkept₁ (by rw [hsplit]) hnext hsorted')
              (fun _ _ _ => id) (fun _ _ => id) fun _ _ hcut => hcut.perm hperm
          have hcurrentNext := (linked_append.mp hthreaded.linked).2.2
          cases mid with
          | cons first' mid' =>
              -- a password that is in order already stays where it is
              obtain ⟨rfl, rfl⟩ : first' = current ∧ mid' ++ rest = back := by
                simpa using hsuffix
              obtain rfl : after = [] := by
                cases after with
                | nil => rfl
                | cons last after =>
                    have hordered := (List.pairwise_append.mp hsorted).2.2 last (by simp) first'
                      (by simp)
                    rw [Ordered, hafter last (by simp)] at hordered
                    exact absurd hordered (by decide)
              refine hturn (before ++ [first']) mid' rest (by simp) (by simp at hfuel; omega) ?_
                (by simpa using hsorted)
              rw [List.headD_nil, readNext_eq hlt]
              exact hcurrentNext.1
          | nil =>
              obtain rfl : rest = current :: back := by simpa using hsuffix
              rw [List.append_nil] at hsorted
              have hsorted := Ordered.insert hat hsorted hbefore hafter
              rw [List.length_cons, Nat.succ_mul, List.length_nil] at hfuel
              cases after with
              | nil =>
                  refine hturn (before ++ [current]) [] back (by simp) (by simp; omega) ?_
                    (by simpa using hsorted)
                  rw [List.headD_nil, readNext_eq hlt]
                  exact hcurrentNext.1
              | cons last after =>
                  refine hturn (before ++ [current, last]) after back (by simp) ?_ ?_
                    (by simpa using hsorted)
                  · simp at hlength
                    omega
                  · rw [List.headD_cons, readNext_eq (h.bound last (by simp))]
                    exact hcurrentNext.2.2.1

end Loops

/-! ## The sort -/

/-- The turns that are enough for every loop over a list. -/
def sortTurns : ℕ := 768 * 768

/-- The sort leaves the stable sort of the list, unless the count says that there is
nothing to sort, and rewires no other password. -/
theorem wp_pwdListSort {l : List ℕ} {fuel : ℕ} (hat : o.At t link) (hfuel : sortTurns ≤ fuel)
    (h : Threaded t o l p) (hne : 2 ≤ v.numPwd → l ≠ []) :
    wp (pwdListSort o fuel)
      (fun _ p' v' => v' = v ∧ SameOff (orderRegion t link) p p' ∧
        (links t o p).AgreeOff {id | id ∈ l} (links t o p') ∧ ∃ l', l'.Perm l ∧
        Threaded t o l' p' ∧ ((v.numPwd < 2 → l.length < 2) →
          l' = stableSort o (fun id => o.readKey id p) l))
      (fun _ _ => False)
      (fun step p' => (2 ≤ v.numPwd ∧ SortCut t o link l step p') ∧
        SameOff (orderRegion t link) p p') p v := by
  have hkept : SortKept t o (fun id => o.readKey id p) {id | id ∈ l} (links t o p) p :=
    ⟨fun _ _ => rfl, Links.AgreeOff.refl _ _⟩
  have hsort : wp (pwdListSort o fuel)
      (fun _ p' v' => v' = v ∧ (links t o p).AgreeOff {id | id ∈ l} (links t o p') ∧
        ∃ l', l'.Perm l ∧ Threaded t o l' p' ∧
        ((v.numPwd < 2 → l.length < 2) → l' = stableSort o (fun id => o.readKey id p) l))
      (fun _ _ => False) (fun step p' => 2 ≤ v.numPwd ∧ SortCut t o link l step p') p v := by
    rw [pwdListSort, wp_bind, wp_ram, wp_ite, wp_pure]
    refine ⟨fun hfew => ⟨rfl, hkept.links, l, .refl l, h, fun hlength => ?_⟩, fun hmany => ?_⟩
    · have := hlength hfew
      match l with
      | [] => rfl
      | [id] => rfl
    · cases l with
      | nil => exact absurd rfl (hne (by omega))
      | cons first rest =>
          have hfirst : getFirstPwdIdSorted o p = first := h.first
          have hlength := h.length_lt
          simp only [wp_bind, wp_readImage, hfirst, readNext_eq (h.bound first (by simp))]
          have hstart : Threaded t o ([first] ++ ([] ++ rest)) p := h
          simp only [List.length_cons, sortTurns] at hlength hfuel
          refine wp_mono (wp_sortOuter (n := 767) hat (by omega) ?_ ?_ hstart (fun _ => id) hkept
            rfl h.linked.2.1 (List.pairwise_singleton _ first)) ?_ (fun _ _ => id)
            fun _ _ hcut => ⟨not_lt.mp hmany, hcut⟩
          · simp only [List.length_append, List.length_cons, List.length_nil]
            omega
          · rw [List.length_nil]
            omega
          · intro _ p' v' hpost
            obtain ⟨hv, hkept', hthreaded⟩ := hpost
            exact ⟨hv, hkept'.links, _, stableSort_perm .., hthreaded, fun _ => rfl⟩
  have hframe := wp_sameOff (wp_mono hsort (fun _ _ _ => id) (fun _ _ => id) fun _ _ h => h.2.1)
  exact wp_mono (wp_and hsort hframe) (fun _ _ _ h => ⟨h.1.1, h.2.1, h.1.2⟩) (fun _ _ h => h.1)
    fun _ _ h => ⟨h.1, h.2.2⟩

end PasswordWallet
