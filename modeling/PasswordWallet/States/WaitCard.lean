import PasswordWallet.Lists.Walk
import PasswordWallet.Security.Recover

/-!
# From the reset to the main state

`program_init` reads from the FRAM what the RAM caches, `backup_recover` follows,
and `State_Wait_Card.c` then waits for a card whose key passes the check.  Leaving
that state selects the first password and sorts both lists.

The recovery menu that the four buttons open in this state, and what is drawn, are
left out.
-/

namespace PasswordWallet

open PowerLoss

variable (t : Target)

def programInit : Dev Unit := do
  let optionsFlag ← framReadByte offsetOptionsFlag
  let numPwd ← readImage (passwordReadId offsetNumPwd)
  modifyRam fun v => { v with optionsFlag := optionsFlag, numPwd := numPwd }

/-- The key of the card is the one in use from then on, whether or not it passes
the check. -/
def enterKey (key : Block) : Dev Bool := do
  modifyRam fun v => { v with key := key }
  let known ← readImage (encryptionCheckKey t key)
  if known then do
    modifyRam fun v => { v with keyEntered := true }
    pure true
  else pure false

/-- `state_wait_card_transition` when a card is presented, true for `STATE_MAIN`. -/
def stateWaitCardTransition (card : CardSession) : Dev Bool := do
  let v ← Program.ram
  if v.keyEntered then pure true
  else if userAuthenticateCard card then do
    let key ← readImage (userReadKeyFromCard card mifareBlockKey)
    match key with
    | some key => enterKey t key
    | none => pure false
  else pure false

def stateWaitCardEnd (fuel : ℕ) : Dev Unit := do
  let v ← Program.ram
  let first ← readImage (pwdListGetFirstPwdId t v.optionsFlag)
  modifyRam fun v => { v with currentPasswordId := first }
  pwdListSortUse t fuel
  pwdListSortAlpha t fuel

/-- The cards that are presented, up to the first one that unlocks the device. -/
def waitCard : List CardSession → Dev Bool
  | [] => pure false
  | card :: cards => do
      let entered ← stateWaitCardTransition t card
      if entered then pure true else waitCard cards

/-- From the reset on, with the card that `backup_recover` asks for and those that
are presented afterwards. -/
def reboot (fuel : ℕ) (card : CardSession) (cards : List CardSession) : Dev Bool := do
  programInit
  backupRecover t card
  let entered ← waitCard t cards
  if entered then do
    stateWaitCardEnd t fuel
    pure true
  else pure false

/-! ## What it does -/

variable {t} {p : Image} {v : Ram} {fuel : ℕ} {kept : List ℕ}

/-- Waiting for a card changes the key and the flag that it is the right one. -/
theorem wp_waitCard (cards : List CardSession) {C : Step Write → Image → Prop} :
    wp (waitCard t cards) (fun _ p' v' => p' = p ∧ v'.numPwd = v.numPwd)
      (fun _ _ => False) C p v := by
  induction cards generalizing v with
  | nil => exact (wp_pure _).mpr ⟨rfl, rfl⟩
  | cons card cards ih =>
      have hturn : wp (stateWaitCardTransition t card)
          (fun _ p' v' => p' = p ∧ v'.numPwd = v.numPwd) (fun _ _ => False) C p v := by
        rw [stateWaitCardTransition, wp_bind, wp_ram, wp_ite, wp_pure]
        refine ⟨fun _ => ⟨rfl, rfl⟩, fun _ => ?_⟩
        rw [wp_ite, wp_pure, wp_bind, wp_readImage]
        refine ⟨fun _ => ?_, fun _ => ⟨rfl, rfl⟩⟩
        cases userReadKeyFromCard card mifareBlockKey p with
        | none => exact (wp_pure _).mpr ⟨rfl, rfl⟩
        | some key =>
            simp only [enterKey, wp_bind, wp_modifyRam, wp_readImage, wp_ite, wp_pure]
            exact ⟨fun _ => ⟨trivial, trivial⟩, fun _ => ⟨trivial, trivial⟩⟩
      rw [waitCard, wp_bind]
      refine wp_imp hturn ?_
      intro entered p₁ v₁ hpost
      obtain ⟨rfl, hnum⟩ := hpost
      rw [wp_ite, wp_pure]
      refine ⟨fun _ => ⟨rfl, hnum⟩, fun _ => wp_imp ih fun _ p₂ v₂ hrest => ?_⟩
      exact ⟨hrest.1, hrest.2.trans hnum⟩

/-- The passwords at the head of both orders are the first ones in each mode. -/
theorem AtHead.visited (h : AtHead kept p) {id : ℕ} (hmem : id ∈ kept)
    (hid : id < maximumNumberOfPwd) {optionsFlag : Byte}
    (hmethod : pwdListGetSortingMethod optionsFlag ≤ pwdSortingAlpha) :
    Visited t optionsFlag p id := by
  obtain ⟨hused, huse, halpha⟩ := h id hmem
  unfold Visited pwdListGetNextPwdId pwdListGetFirstPwdId
  rcases sortingMethod_cases hmethod with hnone | hsorted | hsorted
  · simp only [hnone, if_true]
    exact exists_iterate_nextSortNone hused hid
  · simp only [hsorted, if_true, show ¬ pwdSortingUse = pwdSortingNone by decide, if_false]
    exact ⟨0, huse⟩
  · simp only [hsorted, if_true, show ¬ pwdSortingAlpha = pwdSortingNone by decide,
      show ¬ pwdSortingAlpha = pwdSortingUse by decide, if_false]
    exact ⟨0, halpha⟩

/-- Passwords that stand are visited in each mode. -/
theorem Standing.visited (h : Standing t kept p) {id : ℕ} (hmem : id ∈ kept)
    (hid : id < maximumNumberOfPwd) {optionsFlag : Byte}
    (hmethod : pwdListGetSortingMethod optionsFlag ≤ pwdSortingAlpha) :
    Visited t optionsFlag p id := by
  rcases h with ⟨use, alpha, huse, halpha, hkept, -⟩ | ⟨-, hhead⟩
  · obtain ⟨hused, hmemUse, hmemAlpha⟩ := hkept id hmem
    exact visited_of_threaded huse halpha hused hmemUse hmemAlpha hmethod
  · exact hhead.visited hmem hid hmethod

/-- Both sorts come to an end on what is left of the lists. -/
theorem wp_stateWaitCardEnd (hfuel : sortTurns ≤ fuel) (h : Standing t kept p)
    (hnum : v.numPwd = p.word offsetNumPwd) :
    wp (stateWaitCardEnd t fuel)
      (fun _ p' _ => SameOff (listRegion t) p p' ∧ Standing t kept p')
      (fun _ _ => False) (fun _ _ => True) p v := by
  simp only [stateWaitCardEnd, wp_bind, wp_ram, wp_readImage, wp_modifyRam]
  rcases h with ⟨use, alpha, huse, halpha, hkept, hcount⟩ | ⟨hfew, hhead⟩
  · have hne : 2 ≤ v.numPwd → use ≠ [] := fun hle => (hcount (hnum ▸ hle)).1
    have hne' : 2 ≤ v.numPwd → alpha ≠ [] := fun hle => (hcount (hnum ▸ hle)).2
    refine wp_mono (wp_pwdListSort (orderUse_at t) hfuel huse hne) ?_ (fun _ _ => id)
      fun _ _ _ => trivial
    intro _ p₁ v₁ hpost
    obtain ⟨hv₁, hsame₁, -, use', huse', hthreaded₁, -⟩ := hpost
    have halpha₁ := halpha.of_order (orderAlpha_at t) (Or.inl rfl) (by decide) hsame₁
    refine wp_mono (wp_pwdListSort (orderAlpha_at t) hfuel halpha₁ (by rwa [hv₁])) ?_
      (fun _ _ => id) fun _ _ _ => trivial
    intro _ p₂ v₂ hpost
    obtain ⟨hv₂, hsame₂, -, alpha', halpha', hthreaded₂, -⟩ := hpost
    have huse₂ := hthreaded₁.of_order (orderUse_at t) (Or.inr rfl) (by decide) hsame₂
    have hboth := (hsame₁.mono Set.subset_union_left).trans (hsame₂.mono Set.subset_union_right)
    have hbounds : ∀ x ∈ orderRegion t 0 ∪ orderRegion t 4, x < 5 ∨ 535 ≤ x := fun x hx =>
      hx.elim (orderRegion_bounds (Or.inl rfl)) (orderRegion_bounds (Or.inr rfl))
    refine ⟨hboth.mono (Set.union_subset (orderRegion_subset (Or.inl rfl))
      (orderRegion_subset (Or.inr rfl))), Or.inl ⟨use', alpha', huse₂, hthreaded₂,
      fun id hmem => ?_, fun hle => ?_⟩⟩
    · obtain ⟨hused, hmemUse, hmemAlpha⟩ := hkept id hmem
      have hlt := lt_of_lt_capacity (huse.bound id hmemUse)
      refine ⟨?_, huse'.mem_iff.mpr hmemUse, halpha'.mem_iff.mpr hmemAlpha⟩
      rw [hboth.used (fun x hlow hhigh hx => by have := hbounds x hx; omega)
        (by simp only [sizeMemoryMap]; omega), hused]
    · rw [hboth.count fun x hx => by have := hbounds x hx; omega] at hle
      obtain ⟨hnil, hnil'⟩ := hcount hle
      exact ⟨fun h => hnil (h ▸ huse').nil_eq.symm, fun h => hnil' (h ▸ halpha').nil_eq.symm⟩
  · have hless : v.numPwd < 2 := hnum ▸ hfew
    simp only [pwdListSortUse, pwdListSortAlpha, pwdListSort, wp_bind, wp_ram, wp_ite, wp_pure]
    exact ⟨fun _ => ⟨fun _ => ⟨.refl _ _, Or.inr ⟨hfew, hhead⟩⟩, fun hmany => absurd hless hmany⟩,
      fun hmany => absurd hless hmany⟩

/-- With nothing to recover, whatever cards are presented, a reset ends in a store
that the passwords stand in. -/
theorem wp_reboot (hfuel : sortTurns ≤ fuel) (h : Standing t kept p)
    (hok : p.backupStatus = backupStatusOk) (card : CardSession) (cards : List CardSession) :
    wp (reboot t fuel card cards)
      (fun _ p' _ => SameOff (listRegion t) p p' ∧ Standing t kept p')
      (fun _ _ => False) (fun _ _ => True) p v := by
  simp only [reboot, programInit, wp_bind, wp_framReadByte, wp_readImage, wp_modifyRam]
  refine wp_backupRecover_ok t card hok ?_
  refine wp_imp (wp_waitCard cards) ?_
  intro entered p₁ v₁ hpost
  obtain ⟨rfl, hnum⟩ := hpost
  rw [wp_ite, wp_pure, wp_bind]
  refine ⟨fun _ => wp_imp (wp_stateWaitCardEnd hfuel h hnum) fun _ p₂ v₂ hstanding => ?_,
    fun _ => ⟨.refl _ _, h⟩⟩
  exact (wp_pure _).mpr hstanding

end PasswordWallet
