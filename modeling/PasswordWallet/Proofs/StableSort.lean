import PasswordWallet.Lists.Store

/-!
# The sorts are stable sorts

`pwd_list_sort_use` and `pwd_list_sort_alpha` leave their list as Mathlib's
`List.insertionSort` of the list there was, which keeps passwords of equal keys in their
order (`List.sublist_insertionSort`).  Everything else stays: the other list, the map, the
counts, and of the FRAM every byte but the head of the list and the links of its passwords.
-/

namespace PasswordWallet

open PowerLoss LinkedList

variable {t : Target} {K : Type} {o : PwdOrder K} {link fuel : ℕ} {p p' : Image} {v : Ram}
  {use alpha l : List ℕ}

/-! ## What a sort writes -/

/-- The bytes of the head of a list, and of the links of its passwords. -/
def sortedRegion (link : ℕ) (l : List ℕ) : Set ℕ :=
  {x | ∃ id ∈ l, x ∈ burst (535 + 170 * id + link) 4} ∪ burst (1 + link / 2) 2

/-- A number tells its two bytes. -/
theorem byte_eq_of_word_eq {addr : ℕ} (h : p'.word addr = p.word addr) :
    p'.byte addr = p.byte addr ∧ p'.byte (addr + 1) = p.byte (addr + 1) := by
  have hlow := (p.byte addr).isLt
  have hlow' := (p'.byte addr).isLt
  rw [Image.word, Image.word] at h
  exact ⟨BitVec.eq_of_toNat_eq (by omega), BitVec.eq_of_toNat_eq (by omega)⟩

/-- The links of the other passwords are what they were, byte by byte. -/
theorem sameOff_sortedRegion (hat : o.At t link) (hsame : SameOff (orderRegion t link) p p')
    (hagree : (links t o p).AgreeOff {id | id ∈ l} (links t o p')) :
    SameOff (sortedRegion link l) p p' := by
  refine ⟨fun x hx => ?_, hsame.eeprom, hsame.card⟩
  by_cases hmem : x ∈ orderRegion t link
  · rcases hmem with hmem | hmem
    · obtain ⟨id, hid, hburst⟩ := hmem
      have hother : id ∉ l := fun hl => hx (.inl ⟨id, hl, hburst⟩)
      obtain ⟨hnext, hprev⟩ := hagree id hother
      rw [next_links hat hid, next_links hat hid] at hnext
      rw [prev_links hat hid, prev_links hat hid] at hprev
      obtain ⟨hprev₀, hprev₁⟩ := byte_eq_of_word_eq hprev
      obtain ⟨hnext₀, hnext₁⟩ := byte_eq_of_word_eq hnext
      obtain ⟨i, hi, rfl⟩ := hburst
      match i, hi with
      | 0, _ => exact hprev₀
      | 1, _ => exact hprev₁
      | 2, _ => exact hnext₀
      | 3, _ => exact hnext₁
    · exact absurd (.inr hmem) hx
  · exact hsame.fram x hmem

/-! ## Each of the sorts -/

/-- A sort of a list leaves the stable sort of it. -/
theorem pwdListSort_stable (hat : o.At t link) (hfuel : sortTurns ≤ fuel)
    (h : Threaded t o l p) (hnum : v.numPwd = l.length) :
    ∃ p', Completes (pwdListSort o fuel) p v () p' v ∧
      SameOff (orderRegion t link) p p' ∧ SameOff (sortedRegion link l) p p' ∧
      Threaded t o (stableSort o (fun id => o.readKey id p) l) p' := by
  have hne : 2 ≤ v.numPwd → l ≠ [] := fun hmany hnil => by
    rw [hnum, hnil] at hmany
    exact absurd hmany (by decide)
  have hsort := wp_mono (wp_pwdListSort hat hfuel h hne) (fun _ _ _ => id) (fun _ _ => id)
    fun _ _ _ => show True from trivial
  obtain ⟨_, p', v', hrun, rfl, hsame, hagree, l', -, hthreaded, hsorted⟩ :=
    exists_completes hsort
  have heq := hsorted fun hfew => hnum ▸ hfew
  exact ⟨p', hrun, hsame, sameOff_sortedRegion hat hsame hagree, heq ▸ hthreaded⟩

theorem insertionSort_congr {r s : ℕ → ℕ → Prop} [DecidableRel r] [DecidableRel s]
    (h : ∀ a b, r a b ↔ s a b) (l : List ℕ) : l.insertionSort r = l.insertionSort s := by
  have hmap := List.map_insertionSort r s id l fun a _ b _ => h a b
  rwa [List.map_id, List.map_id] at hmap

/-- Both sorts come to an end, with the stable sort of the list: by decreasing counter, and
by the names in upper case. -/
theorem sorts_stable (hfuel : sortTurns ≤ fuel) (h : WellFormed t p v use alpha) :
    (∃ p', Completes (pwdListSortUse t fuel) p v () p' v ∧
      WellFormed t p' v (use.insertionSort fun first second =>
        passwordReadCounter t second p ≤ passwordReadCounter t first p) alpha ∧
      p'.word offsetFirstPwdUse = (use.insertionSort fun first second =>
        passwordReadCounter t second p ≤ passwordReadCounter t first p).headD 0 ∧
      SameOff (sortedRegion 0 use) p p') ∧
    ∃ p', Completes (pwdListSortAlpha t fuel) p v () p' v ∧
      WellFormed t p' v use (alpha.insertionSort fun first second =>
        strcmpLt (upper (passwordReadName t second p)) (upper (passwordReadName t first p)) =
          false) ∧
      p'.word offsetFirstPwdAlpha = (alpha.insertionSort fun first second =>
        strcmpLt (upper (passwordReadName t second p)) (upper (passwordReadName t first p)) =
          false).headD 0 ∧
      SameOff (sortedRegion 4 alpha) p p' := by
  constructor
  · obtain ⟨p', hrun, hsame, hregion, hthreaded⟩ :=
      pwdListSort_stable (orderUse_at t) hfuel h.threadedUse h.numPwd
    have hsorted : stableSort (orderUse t) (fun id => (orderUse t).readKey id p) use =
        use.insertionSort fun first second =>
          passwordReadCounter t second p ≤ passwordReadCounter t first p :=
      insertionSort_congr (fun first second => by simp [Ordered, orderUse]) use
    rw [hsorted] at hthreaded
    exact ⟨p', hrun, h.of_sortedUse hsame (List.perm_insertionSort _ _) hthreaded,
      hthreaded.first, hregion⟩
  · have hnum : v.numPwd = alpha.length := h.numPwd.trans h.perm.length_eq.symm
    obtain ⟨p', hrun, hsame, hregion, hthreaded⟩ :=
      pwdListSort_stable (orderAlpha_at t) hfuel h.threadedAlpha hnum
    have hsorted : stableSort (orderAlpha t) (fun id => (orderAlpha t).readKey id p) alpha =
        alpha.insertionSort fun first second =>
          strcmpLt (upper (passwordReadName t second p)) (upper (passwordReadName t first p)) =
            false := rfl
    rw [hsorted] at hthreaded
    exact ⟨p', hrun, h.of_sortedAlpha hsame (List.perm_insertionSort _ _) hthreaded,
      hthreaded.first, hregion⟩

/-- Two passwords, of which the second in the order by use is the one used more. -/
private def twoPasswords : Image :=
  let header := (((Image.zero.store offsetFirstPwdUse (wordBytes 0)).store offsetFirstPwdAlpha
    (wordBytes 1)).store offsetNumPwd (wordBytes 2)).store offsetMemoryMap [3]
  (header.store 535 (wordBytes 768 ++ wordBytes 1 ++ wordBytes 1 ++ wordBytes 768)).store 705
    (wordBytes 0 ++ wordBytes 768 ++ wordBytes 768 ++ wordBytes 0 ++ wordBytes 5)

theorem sorts_stable_two :
    let t : Target := ⟨.exact, .xorKey⟩
    ∃ v p', Completes (pwdListSortUse t sortTurns) twoPasswords v () p' v ∧
      p'.word offsetFirstPwdUse = 1 := by
  intro t
  let v : Ram := { Ram.reset (fun _ => Vector.replicate 4 0) zeroIv with numPwd := 2 }
  have hwell : WellFormed t twoPasswords v [0, 1] [1, 0] :=
    { threadedUse := ⟨⟨by decide +kernel, by decide +kernel, by decide +kernel,
        by decide +kernel, trivial⟩, by decide +kernel, by decide, by decide⟩
      threadedAlpha := ⟨⟨by decide +kernel, by decide +kernel, by decide +kernel,
        by decide +kernel, trivial⟩, by decide +kernel, by decide, by decide⟩
      mem_use := by decide +kernel
      perm := by decide
      numPwd := rfl
      stored := by decide +kernel }
  obtain ⟨⟨p', hrun, -, hfirst, -⟩, -⟩ := sorts_stable le_rfl hwell
  exact ⟨v, p', hrun, hfirst.trans (by decide +kernel)⟩

end PasswordWallet
