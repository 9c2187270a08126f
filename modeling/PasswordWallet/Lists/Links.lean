import Mathlib.Data.List.Perm.Subperm
import PasswordWallet.LinkedList.Linked
import PasswordWallet.Lists.Orders

/-!
# The links of a password list

The links that an image holds for one of the two orders are `links t o p`, and
the functions that set a link set it there.  An image is `Threaded` by a list of
ids when its links thread the list between two ends, and the head of the order
is the first of them.
-/

namespace PasswordWallet

open PowerLoss LinkedList

variable {t : Target} {K : Type} {o : PwdOrder K} {link pwdId val : ℕ} {p p' : Image} {v : Ram}

/-! ## Words -/

theorem lt_of_lt_capacity (hid : pwdId < t.addressing.capacity) : pwdId < 767 :=
  hid.trans_le t.addressing.capacity_le

/-- Writing an id, or a counter. -/
theorem wp_writeWord {addr : ℕ} (hfit : addr + 2 ≤ framByteSize) (hval : val < 65536) :
    wp (passwordWriteId addr val)
      (fun _ p' v' => v' = v ∧ p'.word addr = val ∧ SameOff (burst addr 2) p p')
      (fun _ _ => False) (fun step _ => step.write.Within (burst addr 2)) p v := by
  exact wp_mono (wp_passwordWriteId hfit hval) (fun _ _ _ h => ⟨h.1, h.2.2, h.2.1⟩)
    (fun _ _ => id) fun _ _ h => h.1

/-- The bytes of a field of two bytes. -/
theorem wp_writeField {field : ℕ} (hid : pwdId < t.addressing.capacity) (hfield : field + 2 ≤ 170)
    (hval : val < 65536) :
    wp (passwordWriteId (pwdAddr t.addressing pwdId field) val)
      (fun _ p' v' => v' = v ∧ p'.word (535 + 170 * pwdId + field) = val ∧
        SameOff (burst (535 + 170 * pwdId + field) 2) p p')
      (fun _ _ => False)
      (fun step _ => step.write.Within (burst (535 + 170 * pwdId + field) 2)) p v := by
  have hlt := lt_of_lt_capacity hid
  rw [pwdAddr_eq hid (by omega)]
  exact wp_writeWord (by simp only [framByteSize]; omega) hval

/-- A word survives what happens elsewhere. -/
theorem SameOff.word_of_disjoint {addr x : ℕ} (h : SameOff (burst x 2) p p')
    (hx : x + 2 ≤ framByteSize) (haddr : addr + 2 ≤ framByteSize)
    (hdisjoint : addr + 2 ≤ x ∨ x + 2 ≤ addr) : p'.word addr = p.word addr := by
  refine h.word fun y hy hmem => ?_
  rw [mem_burst haddr] at hy
  rw [mem_burst hx] at hmem
  omega

/-! ## Links -/

/-- The links of an order that an image holds, for the ids that have a chunk. -/
def links (t : Target) (o : PwdOrder K) (p : Image) : Links ℕ where
  next id := if id < t.addressing.capacity then o.readNext id p else 0
  prev id := if id < t.addressing.capacity then o.readPrev id p else 0

/-- The bytes of the links of an order. -/
def linkRegion (t : Target) (link : ℕ) : Set ℕ :=
  {x | ∃ id < t.addressing.capacity, x ∈ burst (535 + 170 * id + link) 4}

/-- The bytes of the links and of the head. -/
def orderRegion (t : Target) (link : ℕ) : Set ℕ := linkRegion t link ∪ burst (1 + link / 2) 2

theorem wp_linkOrder {m : Dev Unit} {Q : Unit → Image → Ram → Prop} {H : Image → Ram → Prop}
    (h : wp m Q H (fun step _ => step.write.Within (linkRegion t link)) p v) :
    wp m Q H (fun step _ => step.write.Within (orderRegion t link)) p v :=
  wp_mono h (fun _ _ _ => id) (fun _ _ => id) fun _ _ h => h.mono Set.subset_union_left

section Order

variable (hat : o.At t link)
include hat

theorem next_links (hid : pwdId < t.addressing.capacity) :
    (links t o p).next pwdId = p.word (535 + 170 * pwdId + (link + 2)) := by
  have := hat.link_cases
  rw [links]
  simp only [hid, if_true, hat.readNext, pwdAddr_eq hid (show link + 2 < 170 by omega)]

theorem prev_links (hid : pwdId < t.addressing.capacity) :
    (links t o p).prev pwdId = p.word (535 + 170 * pwdId + link) := by
  have := hat.link_cases
  rw [links]
  simp only [hid, if_true, hat.readPrev, pwdAddr_eq hid (show link < 170 by omega)]

/-- Setting one link leaves the others and the head alone. -/
theorem wp_setLink {field : ℕ} (hfield : field = link ∨ field = link + 2)
    (hid : pwdId < t.addressing.capacity) (hval : val < 65536) :
    wp (passwordWriteId (pwdAddr t.addressing pwdId field) val)
      (fun _ p' v' => v' = v ∧ p'.word (535 + 170 * pwdId + field) = val ∧
        (∀ id < t.addressing.capacity, ∀ other, (other = link ∨ other = link + 2) →
          (id ≠ pwdId ∨ other ≠ field) →
          p'.word (535 + 170 * id + other) = p.word (535 + 170 * id + other)) ∧
        p'.word o.offsetFirst = p.word o.offsetFirst)
      (fun _ _ => False) (fun step _ => step.write.Within (linkRegion t link)) p v := by
  have hlink := hat.link_cases
  have hlt := lt_of_lt_capacity hid
  have hsize : framByteSize = 131072 := rfl
  refine wp_mono (wp_writeField hid (by omega) hval) ?_ (fun _ _ => id) fun step _ h =>
    h.mono fun x hx => ⟨pwdId, hid, ?_⟩
  · rintro _ p' v' ⟨hv, hword, hsame⟩
    refine ⟨hv, hword, fun id hid' other hother hne => ?_, ?_⟩
    · have := lt_of_lt_capacity hid'
      exact hsame.word_of_disjoint (by omega) (by omega) (by omega)
    · rw [hat.first]
      exact hsame.word_of_disjoint (by omega) (by omega) (by omega)
  · rw [mem_burst (by omega)] at hx ⊢
    omega

theorem wp_setNext (hid : pwdId < t.addressing.capacity) (hval : val < 65536) :
    wp (o.setNext pwdId val)
      (fun _ p' v' => v' = v ∧ links t o p' = (links t o p).setNext pwdId val ∧
        p'.word o.offsetFirst = p.word o.offsetFirst)
      (fun _ _ => False) (fun step _ => step.write.Within (linkRegion t link)) p v := by
  rw [hat.setNext]
  refine wp_imp (wp_setLink hat (Or.inr rfl) hid hval) ?_
  rintro _ p' v' ⟨hv, hself, hother, hfirst⟩
  refine ⟨hv, Links.ext (funext fun id => ?_) (funext fun id => ?_), hfirst⟩
  · by_cases heq : id = pwdId
    · subst heq
      rw [next_links hat hid, hself, Links.next_setNext_self]
    · rw [Links.next_setNext_of_ne heq]
      by_cases hid' : id < t.addressing.capacity
      · rw [next_links hat hid', next_links hat hid', hother id hid' _ (Or.inr rfl) (Or.inl heq)]
      · simp [links, hid']
  · rw [Links.prev_setNext]
    by_cases hid' : id < t.addressing.capacity
    · rw [prev_links hat hid', prev_links hat hid',
        hother id hid' _ (Or.inl rfl) (Or.inr (by omega))]
    · simp [links, hid']

theorem wp_setPrev (hid : pwdId < t.addressing.capacity) (hval : val < 65536) :
    wp (o.setPrev pwdId val)
      (fun _ p' v' => v' = v ∧ links t o p' = (links t o p).setPrev pwdId val ∧
        p'.word o.offsetFirst = p.word o.offsetFirst)
      (fun _ _ => False) (fun step _ => step.write.Within (linkRegion t link)) p v := by
  rw [hat.setPrev]
  refine wp_imp (wp_setLink hat (Or.inl rfl) hid hval) ?_
  rintro _ p' v' ⟨hv, hself, hother, hfirst⟩
  refine ⟨hv, Links.ext (funext fun id => ?_) (funext fun id => ?_), hfirst⟩
  · rw [Links.next_setPrev]
    by_cases hid' : id < t.addressing.capacity
    · rw [next_links hat hid', next_links hat hid',
        hother id hid' _ (Or.inr rfl) (Or.inr (by omega))]
    · simp [links, hid']
  · by_cases heq : id = pwdId
    · subst heq
      rw [prev_links hat hid, hself, Links.prev_setPrev_self]
    · rw [Links.prev_setPrev_of_ne heq]
      by_cases hid' : id < t.addressing.capacity
      · rw [prev_links hat hid', prev_links hat hid', hother id hid' _ (Or.inl rfl) (Or.inl heq)]
      · simp [links, hid']

/-- Moving the head. -/
theorem wp_setFirst (hval : val < 65536) :
    wp (passwordWriteId o.offsetFirst val)
      (fun _ p' v' => v' = v ∧ p'.word o.offsetFirst = val ∧ links t o p' = links t o p)
      (fun _ _ => False) (fun step _ => step.write.Within (orderRegion t link)) p v := by
  have hlink := hat.link_cases
  have hsize : framByteSize = 131072 := rfl
  rw [hat.first]
  refine wp_mono (wp_writeWord (by omega) hval) ?_ (fun _ _ => id)
    fun step _ h => h.mono fun _ => Or.inr
  rintro _ p' v' ⟨hv, hword, hsame⟩
  refine ⟨hv, hword, Links.ext (funext fun id => ?_) (funext fun id => ?_)⟩
  · by_cases hid : id < t.addressing.capacity
    · have := lt_of_lt_capacity hid
      rw [next_links hat hid, next_links hat hid]
      exact hsame.word_of_disjoint (by omega) (by omega) (by omega)
    · simp [links, hid]
  · by_cases hid : id < t.addressing.capacity
    · have := lt_of_lt_capacity hid
      rw [prev_links hat hid, prev_links hat hid]
      exact hsame.word_of_disjoint (by omega) (by omega) (by omega)
    · simp [links, hid]

end Order

/-! ## Ends -/

/-- An id, or the end of a list. -/
def IdOrEnd (t : Target) (id : ℕ) : Prop := id = maximumNumberOfPwd ∨ id < t.addressing.capacity

theorem IdOrEnd.lt {id : ℕ} (h : IdOrEnd t id) : id < 65536 := by
  rcases h with rfl | h
  · decide
  · exact (lt_of_lt_capacity h).trans (by decide)

theorem idOrEnd_getLastD {l : List ℕ} (h : ∀ id ∈ l, id < t.addressing.capacity) :
    IdOrEnd t (l.getLastD maximumNumberOfPwd) := by
  rcases List.eq_nil_or_concat l with rfl | ⟨front, last, rfl⟩
  · exact Or.inl rfl
  · rw [List.concat_eq_append] at *
    rw [getLastD_append]
    exact Or.inr (h _ (by simp))

theorem idOrEnd_headD {l : List ℕ} (h : ∀ id ∈ l, id < t.addressing.capacity) :
    IdOrEnd t (l.headD maximumNumberOfPwd) := by
  cases l with
  | nil => exact Or.inl rfl
  | cons first rest => exact Or.inr (h _ (by simp))

theorem readPrev_eq (hid : pwdId < t.addressing.capacity) :
    o.readPrev pwdId p = (links t o p).prev pwdId := by
  simp [links, hid]

theorem readNext_eq (hid : pwdId < t.addressing.capacity) :
    o.readNext pwdId p = (links t o p).next pwdId := by
  simp [links, hid]

section Ends

variable (hat : o.At t link)
include hat

theorem wp_unlessEnd_setNext (hid : IdOrEnd t pwdId) (hval : val < 65536) :
    wp (unlessEnd pwdId (o.setNext pwdId val))
      (fun _ p' v' => v' = v ∧
        links t o p' = (links t o p).setNextUnless maximumNumberOfPwd pwdId val ∧
        p'.word o.offsetFirst = p.word o.offsetFirst)
      (fun _ _ => False) (fun step _ => step.write.Within (orderRegion t link)) p v := by
  rw [unlessEnd, wp_ite, wp_pure, Links.setNextUnless]
  refine ⟨fun hne => ?_, fun heq => by rw [if_neg heq]; exact ⟨rfl, rfl, rfl⟩⟩
  rw [if_pos hne]
  exact wp_linkOrder (wp_setNext hat (hid.resolve_left hne) hval)

theorem wp_unlessEnd_setPrev (hid : IdOrEnd t pwdId) (hval : val < 65536) :
    wp (unlessEnd pwdId (o.setPrev pwdId val))
      (fun _ p' v' => v' = v ∧
        links t o p' = (links t o p).setPrevUnless maximumNumberOfPwd pwdId val ∧
        p'.word o.offsetFirst = p.word o.offsetFirst)
      (fun _ _ => False) (fun step _ => step.write.Within (orderRegion t link)) p v := by
  rw [unlessEnd, wp_ite, wp_pure, Links.setPrevUnless]
  refine ⟨fun hne => ?_, fun heq => by rw [if_neg heq]; exact ⟨rfl, rfl, rfl⟩⟩
  rw [if_pos hne]
  exact wp_linkOrder (wp_setPrev hat (hid.resolve_left hne) hval)

end Ends

/-! ## Lists -/

/-- The list of ids that the links of an order thread. -/
structure Threaded (t : Target) (o : PwdOrder K) (l : List ℕ) (p : Image) : Prop where
  linked : Linked (links t o p) maximumNumberOfPwd l maximumNumberOfPwd
  first : p.word o.offsetFirst = l.headD 0
  nodup : l.Nodup
  bound : ∀ id ∈ l, id < t.addressing.capacity

theorem Threaded.notMem_end {l : List ℕ} (h : Threaded t o l p) : maximumNumberOfPwd ∉ l :=
  fun hmem => absurd (lt_of_lt_capacity (h.bound _ hmem)) (by decide)

theorem Threaded.length_lt {l : List ℕ} (h : Threaded t o l p) : l.length < 768 := by
  have hsub : l ⊆ List.range 767 := fun id hid =>
    List.mem_range.mpr (lt_of_lt_capacity (h.bound id hid))
  have := (List.Nodup.subperm h.nodup hsub).length_le
  rw [List.length_range] at this
  omega

/-- A list is threaded by the links of its elements and its head, whatever happens
elsewhere. -/
theorem Threaded.frame {l : List ℕ} {R : Set ℕ} (hat : o.At t link) (h : Threaded t o l p)
    (hsame : SameOff R p p') (hlinks : ∀ id ∈ l, ∀ x ∈ burst (535 + 170 * id + link) 4, x ∉ R)
    (hhead : ∀ x ∈ burst (1 + link / 2) 2, x ∉ R) : Threaded t o l p' := by
  have hlink := hat.link_cases
  have hword : ∀ {id field}, id ∈ l → link ≤ field → field ≤ link + 2 →
      p'.word (535 + 170 * id + field) = p.word (535 + 170 * id + field) := by
    intro id field hid hlow hhigh
    have hlt := lt_of_lt_capacity (h.bound id hid)
    refine hsame.word fun x hx => hlinks id hid x ?_
    rw [mem_burst (by simp only [framByteSize]; omega)] at hx ⊢
    omega
  refine ⟨h.linked.congr (fun id hid => ?_) (fun id hid => ?_), ?_, h.nodup, h.bound⟩
  · rw [next_links hat (h.bound id hid), next_links hat (h.bound id hid),
      hword hid (by omega) le_rfl]
  · rw [prev_links hat (h.bound id hid), prev_links hat (h.bound id hid),
      hword hid le_rfl (by omega)]
  · rw [← h.first, hat.first]
    exact hsame.word hhead

end PasswordWallet
