import PasswordWallet.Proofs.Browsing
import PasswordWallet.Searching.Nearest
import PasswordWallet.States.Browse

/-!
# A letter selects the right password

Along the list by name, the first password under the letter becomes the current one;
without one, the first of those under the next letter that is taken; without one
behind the letter, the current password stays.  The loop goes round the list once.
-/

namespace PasswordWallet

open PowerLoss LinkedList Searching

variable {t : Target} {fuel : ℕ} {letter : Byte} {p : Image} {v₀ v : Ram} {l : List ℕ}

/-- Where a password stands among the letters. -/
def letterKey (t : Target) (p : Image) (id : ℕ) : ℕ := (letterOf (passwordReadName t id p)).toNat

theorem letterKey_le (id : ℕ) : letterKey t p id ≤ 0x5A := by
  have hall : ∀ c : Byte, (letterOf [c]).toNat ≤ 0x5A := by decide +kernel
  have hone : letterOf (passwordReadName t id p) =
      letterOf [(passwordReadName t id p).headD 0] := rfl
  rw [letterKey, hone]
  exact hall _

/-- The state with another current password, if there is one to be selected. -/
def Ram.select (v : Ram) : Option ℕ → Ram
  | none => v
  | some id => { v with currentPasswordId := id }

/-- The difference to the best password so far. -/
def minDifOf (t : Target) (p : Image) (letter : Byte) : Option ℕ → ℕ
  | none => 255
  | some id => letterKey t p id - letter.toNat

/-- The difference that is kept, and what has been selected. -/
structure Kept (t : Target) (p : Image) (v₀ : Ram) (letter : Byte) (front : List ℕ) (minDif : ℕ)
    (v : Ram) : Prop where
  ram : v = v₀.select (nearest (letterKey t p) letter.toNat front)
  minDif : minDif = minDifOf t p letter (nearest (letterKey t p) letter.toNat front)

theorem Kept.nil : Kept t p v₀ letter [] 255 v₀ := ⟨rfl, rfl⟩

/-- The comparison of differences is the one of letters. -/
theorem better_eq (hletter : 0x40 ≤ letter.toNat) {best : Option ℕ}
    (habove : ∀ a ∈ best, letter.toNat < letterKey t p a) (id : ℕ) :
    better (letterKey t p) letter.toNat best id =
      if letter.toNat < letterKey t p id ∧
        letterKey t p id - letter.toNat < minDifOf t p letter best then some id else best := by
  -- the letters are at most 26 apart, so 255 is above every difference
  have hle := letterKey_le (t := t) (p := p) id
  cases best with
  | none =>
      rw [better, minDifOf]
      refine if_congr ?_ rfl rfl
      omega
  | some a =>
      have habove := habove a rfl
      rw [better, minDifOf]
      refine if_congr ?_ rfl rfl
      omega

/-- One more password is seen. -/
theorem Kept.wp_selectBetter {front : List ℕ} {minDif id : ℕ} {C : Step Write → Image → Prop}
    (h : Kept t p v₀ letter front minDif v) (hletter : 0x40 ≤ letter.toNat) :
    wp (selectBetter letter (letterOf (passwordReadName t id p)) id minDif)
      (fun minDif' p' v' => p' = p ∧ Kept t p v₀ letter (front ++ [id]) minDif' v')
      (fun _ _ => False) C p v := by
  -- what has been selected is above the letter, so its difference is no less than 1
  have habove : ∀ a ∈ nearest (letterKey t p) letter.toNat front,
      letter.toNat < letterKey t p a := by
    intro a ha
    rcases @nearest_spec _ _ _ (letterKey t p) letter.toNat front with
      ⟨hnone, -⟩ | ⟨b, hsome, hnearest⟩
    · rw [hnone] at ha
      exact absurd ha (Option.not_mem_none a)
    · rw [hsome] at ha
      exact Option.mem_some_iff.mp ha ▸ hnearest.above
  have hnext := better_eq hletter habove id
  rw [← h.minDif, ← nearest_append] at hnext
  rw [selectBetter, wp_ite, wp_bind, wp_modifyRam, wp_pure, wp_pure]
  change (letter.toNat < letterKey t p id ∧ letterKey t p id - letter.toNat < minDif → _) ∧
    (¬ (letter.toNat < letterKey t p id ∧ letterKey t p id - letter.toNat < minDif) → _)
  refine ⟨fun hmore => ⟨rfl, ?_, ?_⟩, fun hless => ⟨rfl, ?_, ?_⟩⟩
  · rw [hnext, if_pos hmore, h.ram]
    cases nearest (letterKey t p) letter.toNat front <;> rfl
  · rw [hnext, if_pos hmore]
    rfl
  · rw [hnext, if_neg hless]
    exact h.ram
  · rw [hnext, if_neg hless]
    exact h.minDif

/-! ## The loop -/

/-- From a password on, with none under the letter before it. -/
theorem wp_selectFrom (h : Threaded t (orderAlpha t) l p) (hletter : 0x40 ≤ letter.toNat)
    {front rest : List ℕ} {pwdId minDif fuel : ℕ} (hsplit : l = front ++ pwdId :: rest)
    (hfuel : rest.length < fuel) (hnone : ∀ id ∈ front, letterOf (passwordReadName t id p) ≠ letter)
    (hkept : Kept t p v₀ letter front minDif v) {C : Step Write → Image → Prop} :
    wp (selectFrom t letter (getFirstPwdIdSorted (orderAlpha t) p) fuel pwdId minDif)
      (fun _ p' v' => p' = p ∧
        ((∃ front' id rest', l = front' ++ id :: rest' ∧
            letterOf (passwordReadName t id p) = letter ∧
            (∀ other ∈ front', letterOf (passwordReadName t other p) ≠ letter) ∧
            v' = v₀.select (some id)) ∨
          ((∀ id ∈ l, letterOf (passwordReadName t id p) ≠ letter) ∧
            v' = v₀.select (nearest (letterKey t p) letter.toNat l))))
      (fun _ _ => False) C p v := by
  have hne : l ≠ [] := by
    rw [hsplit]
    exact List.append_ne_nil_of_right_ne_nil _ (List.cons_ne_nil _ _)
  have hround : LinkedList.Round l (getFirstPwdIdSorted (orderAlpha t) p)
      (fun id => getNextPwdIdSorted (orderAlpha t) id p)
      fun id => getPrevPwdIdSorted (orderAlpha t) 768 id p := h.round hne h.length_lt
  induction fuel generalizing front rest pwdId minDif v with
  | zero => exact absurd hfuel (Nat.not_lt_zero _)
  | succ fuel ih =>
      have hpos : front.length < l.length := by
        rw [hsplit, List.length_append, List.length_cons]
        omega
      have hget : l[front.length] = pwdId := by simp [hsplit]
      rw [selectFrom, wp_bind, wp_readImage, wp_ite, wp_modifyRam, wp_bind]
      refine ⟨fun hfound => ⟨rfl, Or.inl ⟨front, pwdId, rest, hsplit, hfound, hnone, ?_⟩⟩,
        fun hother => ?_⟩
      · rw [hkept.ram]
        cases nearest (letterKey t p) letter.toNat front <;> rfl
      refine wp_imp (hkept.wp_selectBetter hletter) ?_
      intro minDif' p' v' hpost
      obtain ⟨rfl, hkept'⟩ := hpost
      have hnone' : ∀ id ∈ front ++ [pwdId], letterOf (passwordReadName t id p') ≠ letter := by
        intro id hid
        rcases List.mem_append.mp hid with hid | hid
        · exact hnone id hid
        · exact List.mem_singleton.mp hid ▸ hother
      rw [wp_bind, wp_readImage, wp_ite, wp_pure]
      cases rest with
      | nil =>
          -- the last password is followed by the first one, and the loop ends
          have hlast : getNextPwdIdSorted (orderAlpha t) pwdId p' =
              getFirstPwdIdSorted (orderAlpha t) p' := by
            have hnext := hround.next_last front.length hpos (by simp [hsplit])
            rwa [hget] at hnext
          refine ⟨fun hmore => absurd hlast hmore, fun _ => ⟨rfl, Or.inr ⟨?_, ?_⟩⟩⟩
          · rwa [hsplit]
          · rw [hkept'.ram, hsplit]
      | cons next rest =>
          have hlt : front.length + 1 < l.length := by
            rw [hsplit]
            simp
          have hnext : getNextPwdIdSorted (orderAlpha t) pwdId p' = next := by
            have hnext := hround.next_getElem front.length hlt
            rw [hget] at hnext
            exact hnext.trans (by simp [hsplit])
          -- only the last password is followed by the first one
          have hmore : next ≠ getFirstPwdIdSorted (orderAlpha t) p' := by
            intro heq
            have hzero := hround.getElem_zero (by omega)
            have hindex := (h.nodup.getElem_inj_iff (i := front.length + 1) (j := 0)).mp
              (show l[front.length + 1] = l[0] by
                rw [hzero, ← heq]
                simp [hsplit])
            omega
          rw [hnext]
          refine ⟨fun _ => ?_, fun hend => absurd hmore hend⟩
          refine @ih v' (front ++ [pwdId]) rest next minDif' ?_ ?_ hnone' hkept'
          · rw [hsplit, List.append_assoc]
            rfl
          · rw [List.length_cons] at hfuel
            omega

theorem wp_selectPwdFromLetter {Q : Unit → Image → Ram → Prop} {H : Image → Ram → Prop}
    {C : Step Write → Image → Prop} {first : ℕ}
    (hfirst : getFirstPwdIdSorted (orderAlpha t) p = first)
    (h : wp (selectFrom t letter first fuel first 255) Q H C p v) :
    wp (selectPwdFromLetter t fuel letter) Q H C p v := by
  rw [selectPwdFromLetter, wp_bind, wp_readImage, hfirst]
  exact h

/-- With a letter from `'@'` on, `select_pwd_from_letter` comes to an end and
writes nothing.  The password it selects is the first one under the letter, or else the
first one of those under the nearest letter above it, or else the one that was
selected. -/
theorem letter_selects {l : List ℕ} (h : Threaded t (orderAlpha t) l p) (hne : l ≠ [])
    (hfuel : 768 ≤ fuel) (hlow : 0x40 ≤ letter.toNat) :
    ∃ v', Completes (selectPwdFromLetter t fuel letter) p v () p v' ∧
      ((∃ front id rest, l = front ++ id :: rest ∧ letterOf (passwordReadName t id p) = letter ∧
          (∀ other ∈ front, letterOf (passwordReadName t other p) ≠ letter) ∧
          v' = { v with currentPasswordId := id }) ∨
        (∀ id ∈ l, letterOf (passwordReadName t id p) ≠ letter) ∧
          ((∃ id, FirstNearest (letterKey t p) letter.toNat l id ∧
              v' = { v with currentPasswordId := id }) ∨
            (∀ id ∈ l, letterKey t p id < letter.toNat) ∧ v' = v)) := by
  obtain ⟨first, rest, rfl⟩ := List.exists_cons_of_ne_nil hne
  have hlength := h.length_lt
  rw [List.length_cons] at hlength
  have hfirst : getFirstPwdIdSorted (orderAlpha t) p = first := h.first
  have hfrom := @wp_selectFrom t letter p v v _ h hlow [] rest first 255 fuel rfl (by omega)
    (fun _ hid => absurd hid List.not_mem_nil) Kept.nil fun _ _ => True
  rw [hfirst] at hfrom
  have hloop := wp_selectPwdFromLetter hfirst hfrom
  obtain ⟨_, p', v', hrun, rfl, hselected⟩ := exists_completes hloop
  refine ⟨v', hrun, ?_⟩
  rcases hselected with hfound | ⟨hnone, hram⟩
  · exact Or.inl hfound
  · refine Or.inr ⟨hnone, ?_⟩
    rcases @nearest_spec _ _ _ (letterKey t p') letter.toNat (first :: rest) with
      ⟨hbelow, hle⟩ | ⟨id, hsome, hnearest⟩
    · refine Or.inr ⟨fun id hid => ?_, by rw [hram, hbelow]; rfl⟩
      refine lt_of_le_of_ne (not_lt.mp (hle id hid)) fun heq => hnone id hid ?_
      exact BitVec.eq_of_toNat_eq heq
    · exact Or.inl ⟨id, hnearest, by rw [hram, hsome]; rfl⟩

/-- Two passwords, `"B"` behind `"A"`. -/
def Image.namedPwds : Image := (Image.twoPwds.store 545 [0x41]).store 715 [0x42]

theorem threaded_namedPwds :
    Threaded ⟨.exact, .xorKey⟩ (orderAlpha ⟨.exact, .xorKey⟩) [0, 1] .namedPwds where
  linked := by simp only [linked_cons, linked_nil]; decide +kernel
  first := by decide +kernel
  nodup := by decide
  bound := by decide

/-- The letter of the second of two passwords selects it. -/
theorem letter_selects_second :
    ∃ v', Completes (selectPwdFromLetter ⟨.exact, .xorKey⟩ 768 0x42) .namedPwds .twoPwds ()
      .namedPwds v' ∧ v'.currentPasswordId = 1 := by
  have hlow : 0x40 ≤ (0x42 : Byte).toNat := by decide
  obtain ⟨v', hselect, hselected⟩ := @letter_selects ⟨.exact, .xorKey⟩ 768 0x42 .namedPwds
    .twoPwds [0, 1] threaded_namedPwds (by decide) le_rfl hlow
  have hletters : ∀ id ∈ [0, 1], letterOf (passwordReadName ⟨.exact, .xorKey⟩ id .namedPwds) =
      0x42 ↔ id = 1 := by decide +kernel
  refine ⟨v', hselect, ?_⟩
  rcases hselected with ⟨front, id, rest, hsplit, hletter, -, rfl⟩ | ⟨hnone, -⟩
  · have hmem : id ∈ [0, 1] := hsplit ▸ List.mem_append_right _ (List.mem_cons_self ..)
    exact (hletters id hmem).mp hletter
  · exact absurd ((hletters 1 (by decide)).mpr rfl) (hnone 1 (by decide))

end PasswordWallet
