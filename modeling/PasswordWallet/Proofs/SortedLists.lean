import PasswordWallet.Lists.Actions

/-!
# The lists stay in order

The menu actions on passwords, in any sequence from an erased store on, leave the
list by use in the order of the counters and the list by name in the order of the
names.  An action that changes a key sorts the list of that key; the others leave
both lists, or take a password out of them.

The actions of the password menu, and the buttons that send, do nothing when
there is no password.  Otherwise the current password is a used one
(`MenuInvariant`).
-/

namespace PasswordWallet

open PowerLoss

/-- The menu actions on passwords, and the choice of the sorting mode. -/
inductive MenuAction
  | addPwd (name data : Vector Byte 32) (usrName : Vector Byte 64)
  | deletePwd (confirmed : Bool)
  | changeName (typing : Typing 32)
  | changePwd (typing : Typing 32)
  | changeUsrName (typing : Typing 64)
  | regeneratePwd (drawings : ℕ) (confirmed : Bool)
  | sendPwd
  | sendUsr
  | sendBoth
  | noSort
  | sortUse
  | sortAlpha

def MenuAction.run (t : Target) (fuel : ℕ) : MenuAction → Dev Unit
  | addPwd name data usrName => optCallbackAddPwd t fuel name data usrName
  | deletePwd confirmed => optCallbackDeletePwd t fuel confirmed
  | changeName typing => optCallbackChangeName t fuel typing
  | changePwd typing => optCallbackChangePwd t typing
  | changeUsrName typing => optCallbackChangeUsrName t typing
  | regeneratePwd drawings confirmed => optCallbackRegeneratePwd t drawings confirmed
  | sendPwd => do
      let _ ← optCallbackSendPwd t fuel
      pure ()
  | sendUsr => do
      let _ ← optCallbackSendUsr t
      pure ()
  | sendBoth => do
      let _ ← optCallbackSendBoth t fuel
      pure ()
  | noSort => optCallbackNoSort
  | sortUse => optCallbackSortUse
  | sortAlpha => optCallbackSortAlpha

/-- The actions that the menus and the buttons offer only when there is a
password. -/
def MenuAction.OnPwd : MenuAction → Prop
  | addPwd _ _ _ | noSort | sortUse | sortAlpha => False
  | _ => True

/-- A password that is added goes to a chunk that lies where its number says. -/
def MenuAction.Fits (t : Target) (v : Ram) : MenuAction → Prop
  | addPwd _ _ _ => t.Reaches v
  | _ => True

theorem MenuAction.fits_of_exact {t : Target} (hexact : t.addressing = .exact) (v : Ram)
    (action : MenuAction) : action.Fits t v := by
  cases action with
  | addPwd name data usrName => exact Or.inl hexact
  | _ => trivial

/-- One action, or another used password becomes the current one, or what else is
in memory changes. -/
inductive MenuStep (t : Target) (fuel : ℕ) : Image × Ram → Image × Ram → Prop
  | run {action : MenuAction} {p p' : Image} {v v' : Ram} :
      (action.OnPwd → v.numPwd ≠ 0) → Completes (action.run t fuel) p v () p' v' →
      MenuStep t fuel (p, v) (p', v')
  | select {p : Image} {v : Ram} {pwdId : ℕ} :
      pwdId < maximumNumberOfPwd → p.used pwdId = true →
      MenuStep t fuel (p, v) (p, { v with currentPasswordId := pwdId })
  | volatile {p : Image} {v v' : Ram} :
      v'.numPwd = v.numPwd → v'.currentPasswordId = v.currentPasswordId →
      pwdListGetSortingMethod v'.optionsFlag ≤ pwdSortingAlpha → MenuStep t fuel (p, v) (p, v')

variable {t : Target} {fuel : ℕ} {p p' : Image} {v v' : Ram} {use alpha : List ℕ}

/-- A well-formed store with both lists in order, one of the three sorting modes,
and a current password that is used if there is one. -/
structure MenuInvariant (t : Target) (p : Image) (v : Ram) : Prop where
  store : ∃ use alpha, WellFormed t p v use alpha ∧ Sorted t use alpha p ∧ CurrentIn use v
  sortingMethod : pwdListGetSortingMethod v.optionsFlag ≤ pwdSortingAlpha

theorem Rearranged.menuInvariant (h : Rearranged t use alpha p p' v')
    (hsorted : Sorted t use alpha p) (hmem : CurrentIn use v')
    (hmethod : pwdListGetSortingMethod v'.optionsFlag ≤ pwdSortingAlpha) :
    MenuInvariant t p' v' := by
  obtain ⟨use', alpha', hperm, hwell, hkept⟩ := h
  refine ⟨⟨use', alpha', hwell, hkept hsorted, ?_⟩, hmethod⟩
  rcases hmem with ⟨hnil, hzero⟩ | hmem
  · exact Or.inl ⟨(hnil ▸ hperm).eq_nil, hzero⟩
  · exact Or.inr (hperm.mem_iff.mpr hmem)

/-- The callbacks set one of the three methods. -/
theorem sortingMethod_set : ∀ flag : Byte, ∀ method ≤ pwdSortingAlpha,
    pwdListGetSortingMethod ((flag &&& ~~~(3 : Byte)) ||| BitVec.ofNat 8 method) ≤
      pwdSortingAlpha := by
  decide +kernel

/-- What an action leaves that writes nothing to the lists or sorts them again. -/
theorem wp_menuAction_rearranged {m : Dev Unit} {H : Image → Ram → Prop} (h : MenuInvariant t p v)
    (hm : ∀ use alpha, WellFormed t p v use alpha →
      wp m (fun _ p' v' => v'.currentPasswordId = v.currentPasswordId ∧
        v'.optionsFlag = v.optionsFlag ∧ Rearranged t use alpha p p' v') H (fun _ _ => True) p v) :
    wp m (fun _ p' v' => MenuInvariant t p' v') H (fun _ _ => True) p v := by
  obtain ⟨⟨use, alpha, hwell, hsorted, hmem⟩, hmethod⟩ := h
  refine wp_mono (hm use alpha hwell) ?_ (fun _ _ => id) fun _ _ _ => trivial
  intro _ p' v' ⟨hcurrent, hflag, hrest⟩
  exact hrest.menuInvariant hsorted (by rwa [CurrentIn, hcurrent]) (by rwa [hflag])

theorem wp_sortingMode {method : ℕ} (h : MenuInvariant t p v) (hmethod : method ≤ pwdSortingAlpha) :
    wp (optCallbackSort (BitVec.ofNat 8 method)) (fun _ p' v' => MenuInvariant t p' v')
      (fun _ _ => False) (fun _ _ => True) p v := by
  obtain ⟨⟨use, alpha, hwell, hsorted, hmem⟩, -⟩ := h
  refine wp_mono (wp_optCallbackSort hwell _) ?_ (fun _ _ => id) fun _ _ _ => trivial
  intro _ p' v' ⟨hcurrent, hflag, hrest⟩
  exact hrest.menuInvariant hsorted (by rwa [CurrentIn, hcurrent])
    (by rw [hflag]; exact sortingMethod_set _ _ hmethod)

/-- Every action keeps the invariant, and all but a new random password come to an
end. -/
theorem wp_menuAction {action : MenuAction} (hfits : action.Fits t v) (hfuel : sortTurns ≤ fuel)
    (h : MenuInvariant t p v) (hpwd : action.OnPwd → v.numPwd ≠ 0) :
    wp (action.run t fuel) (fun _ p' v' => MenuInvariant t p' v')
      (fun _ _ => ∃ drawings, action = .regeneratePwd drawings true) (fun _ _ => True) p v := by
  have hmany : 768 ≤ fuel := le_trans (by decide) hfuel
  -- the current password is used wherever an action needs it
  have hcurrent : ∀ use alpha, WellFormed t p v use alpha → action.OnPwd →
      v.currentPasswordId ∈ use := by
    intro use alpha hwell honPwd
    obtain ⟨use', alpha', hwell', -, hmem⟩ := h.store
    rcases hmem with ⟨hnil, -⟩ | hmem
    · exact absurd (hwell'.numPwd.trans (by rw [hnil]; rfl)) (hpwd honPwd)
    · exact hwell.mem_use_iff.mpr (hwell'.mem_use_iff.mp hmem)
  have hnever : ∀ {m : Dev Unit} {C : Step Write → Image → Prop},
      wp m (fun _ p' v' => MenuInvariant t p' v') (fun _ _ => False) C p v →
      wp m (fun _ p' v' => MenuInvariant t p' v')
        (fun _ _ => ∃ drawings, action = .regeneratePwd drawings true) (fun _ _ => True) p v :=
    fun hm => wp_mono hm (fun _ _ _ => id) (fun _ _ => False.elim) fun _ _ _ => trivial
  cases action with
  | addPwd name data usrName =>
      obtain ⟨⟨use, alpha, hwell, hsorted, hmem⟩, hmethod⟩ := h
      refine wp_mono (wp_optCallbackAddPwd hwell hfuel hfits name data usrName) ?_
        (fun _ _ => False.elim) fun _ _ _ => trivial
      intro _ p' v' ⟨hcur, hflag, use', alpha', hwell', hkept, hentered⟩
      refine ⟨⟨use', alpha', hwell', hkept hsorted, ?_⟩, hflag ▸ hmethod⟩
      rcases hentered with ⟨-, rfl⟩ | ⟨pwdId, hlowest, hperm⟩
      · rwa [CurrentIn, hcur]
      · refine Or.inr (hperm.mem_iff.mpr ?_)
        rw [hcur]
        rcases hmem with ⟨rfl, hzero⟩ | hmem
        · -- the first password goes to the chunk 0, where the current password points
          have : pwdId = 0 := by
            by_contra! hne
            exact absurd (hlowest 0 (by omega)) (by simp)
          simp [hzero, this]
        · simp [hmem]
  | deletePwd confirmed =>
      obtain ⟨⟨use, alpha, hwell, hsorted, hmem⟩, hmethod⟩ := h
      refine wp_mono (wp_optCallbackDeletePwd hwell (hcurrent _ _ hwell trivial) hmany hmethod
        confirmed) ?_ (fun _ _ => False.elim) fun _ _ _ => trivial
      exact fun _ p' v' ⟨hflag, use', alpha', hwell', hkept, hmem'⟩ =>
        ⟨⟨use', alpha', hwell', hkept hsorted, hmem'⟩, hflag ▸ hmethod⟩
  | changeName typing =>
      refine hnever (wp_menuAction_rearranged h fun use alpha hwell => ?_)
      have hid := hwell.threadedUse.bound _ (hcurrent _ _ hwell trivial)
      refine wp_mono (wp_optCallbackChangeName hwell hfuel hid typing) ?_ (fun _ _ => id)
        fun _ _ _ => trivial
      exact fun _ p' v' ⟨hv, hrest⟩ => ⟨by rw [hv], by rw [hv], hrest⟩
  | changePwd typing =>
      refine hnever (wp_menuAction_rearranged h fun use alpha hwell => ?_)
      have hid := hwell.threadedUse.bound _ (hcurrent _ _ hwell trivial)
      refine wp_mono (wp_edit hwell hid (wp_optCallbackChangePwd hid typing)) ?_ (fun _ _ => id)
        fun _ _ _ => trivial
      exact fun _ p' v' ⟨hdrawn, hrest⟩ => ⟨hdrawn.currentPasswordId, hdrawn.optionsFlag, hrest⟩
  | changeUsrName typing =>
      refine hnever (wp_menuAction_rearranged h fun use alpha hwell => ?_)
      have hid := hwell.threadedUse.bound _ (hcurrent _ _ hwell trivial)
      refine wp_mono (wp_edit hwell hid (wp_optCallbackChangeUsrName hid typing)) ?_ (fun _ _ => id)
        fun _ _ _ => trivial
      exact fun _ p' v' ⟨hdrawn, hrest⟩ => ⟨hdrawn.currentPasswordId, hdrawn.optionsFlag, hrest⟩
  | regeneratePwd drawings confirmed =>
      refine wp_mono (wp_menuAction_rearranged (H := fun _ _ => confirmed = true) h
        fun use alpha hwell => ?_) (fun _ _ _ => id) ?_ fun _ _ => id
      · have hid := hwell.threadedUse.bound _ (hcurrent _ _ hwell trivial)
        refine wp_mono (wp_edit hwell hid (wp_optCallbackRegeneratePwd hid confirmed)) ?_
          (fun _ _ => id) fun _ _ _ => trivial
        exact fun _ p' v' ⟨hdrawn, hrest⟩ => ⟨hdrawn.currentPasswordId, hdrawn.optionsFlag, hrest⟩
      · rintro _ _ rfl
        exact ⟨drawings, rfl⟩
  | sendPwd =>
      refine hnever (wp_menuAction_rearranged h fun use alpha hwell => ?_)
      rw [MenuAction.run, wp_bind]
      have hid := hwell.threadedUse.bound _ (hcurrent _ _ hwell trivial)
      refine wp_mono (wp_optCallbackSendPwd hwell hfuel hid) ?_ (fun _ _ => id)
        fun _ _ _ => trivial
      exact fun _ p' v' ⟨hv, hrest⟩ => (wp_pure _).mpr ⟨by rw [hv], by rw [hv], hrest⟩
  | sendUsr =>
      refine hnever (wp_menuAction_rearranged h fun use alpha hwell => ?_)
      rw [MenuAction.run, wp_bind]
      refine wp_imp wp_optCallbackSendUsr ?_
      rintro _ _ _ ⟨rfl, rfl⟩
      exact (wp_pure _).mpr ⟨rfl, rfl, use, alpha, .refl _, hwell, fun hsorted => hsorted⟩
  | sendBoth =>
      refine hnever (wp_menuAction_rearranged h fun use alpha hwell => ?_)
      rw [MenuAction.run, wp_bind]
      have hid := hwell.threadedUse.bound _ (hcurrent _ _ hwell trivial)
      refine wp_mono (wp_optCallbackSendBoth hwell hfuel hid) ?_ (fun _ _ => id)
        fun _ _ _ => trivial
      exact fun _ p' v' ⟨hv, hrest⟩ => (wp_pure _).mpr ⟨by rw [hv], by rw [hv], hrest⟩
  | noSort => exact hnever (wp_sortingMode h (by decide))
  | sortUse => exact hnever (wp_sortingMode h (by decide))
  | sortAlpha => exact hnever (wp_sortingMode h (by decide))

theorem MenuInvariant.select {pwdId : ℕ} (h : MenuInvariant t p v)
    (hid : pwdId < maximumNumberOfPwd) (hused : p.used pwdId = true) :
    MenuInvariant t p { v with currentPasswordId := pwdId } := by
  obtain ⟨⟨use, alpha, hwell, hsorted, -⟩, hmethod⟩ := h
  exact ⟨⟨use, alpha, ⟨hwell.threadedUse, hwell.threadedAlpha, hwell.mem_use, hwell.perm,
    hwell.numPwd, hwell.stored⟩, hsorted, Or.inr (hwell.mem_use_iff.mpr ⟨hid, hused⟩)⟩, hmethod⟩

theorem MenuInvariant.volatile (h : MenuInvariant t p v) (hnum : v'.numPwd = v.numPwd)
    (hcurrent : v'.currentPasswordId = v.currentPasswordId)
    (hmethod : pwdListGetSortingMethod v'.optionsFlag ≤ pwdSortingAlpha) :
    MenuInvariant t p v' := by
  obtain ⟨⟨use, alpha, hwell, hsorted, hmem⟩, -⟩ := h
  exact ⟨⟨use, alpha, ⟨hwell.threadedUse, hwell.threadedAlpha, hwell.mem_use, hwell.perm,
    hnum.trans hwell.numPwd, hwell.stored⟩, hsorted, by rwa [CurrentIn, hcurrent]⟩, hmethod⟩

theorem MenuStep.invariant (hexact : t.addressing = .exact) (hfuel : sortTurns ≤ fuel)
    {s s' : Image × Ram} (hstep : MenuStep t fuel s s') (h : MenuInvariant t s.1 s.2) :
    MenuInvariant t s'.1 s'.2 := by
  cases hstep with
  | run hpwd hrun =>
      have haction := wp_menuAction (MenuAction.fits_of_exact hexact _ _) hfuel h hpwd
      exact wp_completes (Q := fun _ p' v' => MenuInvariant t p' v') haction hrun
  | select hid hused => exact h.select hid hused
  | volatile hnum hcurrent hmethod => exact h.volatile hnum hcurrent hmethod

/-- After any run of menu actions from an erased store the list by use goes down in
the counters, and the list by name goes up in the names, compared in upper case. -/
theorem lists_sorted (hexact : t.addressing = .exact) (hfuel : sortTurns ≤ fuel)
    {p₀ p : Image} {v₀ v : Ram} (h₀ : Erased p₀ v₀)
    (hrun : Relation.ReflTransGen (MenuStep t fuel) (p₀, v₀) (p, v)) :
    (∃ use, Traverses (orderUse t) p use ∧
      (∀ id, id ∈ use ↔ id < maximumNumberOfPwd ∧ p.used id = true) ∧
      use.Pairwise fun first second =>
        passwordReadCounter t second p ≤ passwordReadCounter t first p) ∧
    (∃ alpha, Traverses (orderAlpha t) p alpha ∧
      (∀ id, id ∈ alpha ↔ id < maximumNumberOfPwd ∧ p.used id = true) ∧
      alpha.Pairwise fun first second => strcmpLt (upper (passwordReadName t second p))
        (upper (passwordReadName t first p)) = false) ∧
    ∀ action : MenuAction, (action.OnPwd → v.numPwd ≠ 0) →
      (∀ drawings, action ≠ .regeneratePwd drawings true) →
      ∃ p' v', Completes (action.run t fuel) p v () p' v' := by
  have hinvariant : MenuInvariant t p v := by
    have hall : ∀ s, Relation.ReflTransGen (MenuStep t fuel) (p₀, v₀) s →
        MenuInvariant t s.1 s.2 := by
      intro s hs
      induction hs with
      | refl => exact ⟨⟨[], [], h₀.wellFormed, ⟨.nil, .nil⟩, Or.inl ⟨rfl, h₀.currentPasswordId⟩⟩,
          h₀.sortingMethod⟩
      | tail _ hstep ih => exact hstep.invariant hexact hfuel ih
    exact hall _ hrun
  obtain ⟨use, alpha, hwell, hsorted, -⟩ := hinvariant.store
  refine ⟨⟨use, hwell.threadedUse.traverses, fun id => hwell.mem_use_iff, ?_⟩,
    ⟨alpha, hwell.threadedAlpha.traverses, fun id => ?_, hsorted.alpha⟩,
    fun action hpwd hdraws => ?_⟩
  · refine hsorted.use.imp fun {first second} hle => ?_
    have hle : decide (passwordReadCounter t second p > passwordReadCounter t first p) = false :=
      hle
    exact not_lt.mp (of_decide_eq_false hle)
  · rw [hwell.perm.mem_iff, hwell.mem_use_iff]
  · have haction := wp_menuAction (action.fits_of_exact hexact v) hfuel hinvariant hpwd
    obtain ⟨_, p', v', hcompletes, -⟩ := exists_completes (wp_mono haction (fun _ _ _ => id)
      (fun _ _ ⟨drawings, heq⟩ => hdraws drawings heq) fun _ _ => id)
    exact ⟨p', v', hcompletes⟩

/-- Two passwords are added to an erased store, and one of them is sent. -/
theorem lists_sorted_send :
    let t : Target := ⟨.exact, .xorKey⟩
    let v := Ram.reset (fun _ => Vector.replicate 4 7) (Vector.replicate 16 0)
    let first := MenuAction.addPwd (Vector.replicate 32 66) (Vector.replicate 32 65)
      (Vector.replicate 64 66)
    let second := MenuAction.addPwd (Vector.replicate 32 65) (Vector.replicate 32 67)
      (Vector.replicate 64 68)
    ∃ p₁ v₁ p₂ v₂ p₃ v₃, Completes (first.run t sortTurns) .zero v () p₁ v₁ ∧
      Completes (second.run t sortTurns) p₁ v₁ () p₂ v₂ ∧ v₂.numPwd = 2 ∧
      Completes (MenuAction.sendPwd.run t sortTurns) p₂ v₂ () p₃ v₃ ∧
      (∃ use, Traverses (orderUse t) p₃ use ∧ use.Pairwise fun first second =>
        passwordReadCounter t second p₃ ≤ passwordReadCounter t first p₃) ∧
      ∃ alpha, Traverses (orderAlpha t) p₃ alpha ∧ alpha.Pairwise fun first second =>
        strcmpLt (upper (passwordReadName t second p₃)) (upper (passwordReadName t first p₃)) =
          false := by
  intro t v first second
  have herased : Erased .zero v := erased_reset _ _
  have hfree : ¬ first.OnPwd := id
  have hfree' : ¬ second.OnPwd := id
  have hnum : v.numPwd = 0 := herased.numPwd
  obtain ⟨p₁, v₁, use₁, alpha₁, hfirst, hwell, hone⟩ := exists_addPwd
    (herased.wellFormed (t := t)) (le_refl sortTurns) (Or.inl rfl) (by decide)
    (Vector.replicate 32 66) (Vector.replicate 32 65) (Vector.replicate 64 66)
  obtain ⟨p₂, v₂, -, -, hsecond, -, htwo⟩ := exists_addPwd hwell (le_refl sortTurns) (Or.inl rfl)
    (by omega) (Vector.replicate 32 65) (Vector.replicate 32 67) (Vector.replicate 64 68)
  have hsteps : Relation.ReflTransGen (MenuStep t sortTurns) (.zero, v) (p₂, v₂) :=
    .tail (.single (.run (fun h => absurd h hfree) hfirst)) (.run (fun h => absurd h hfree') hsecond)
  obtain ⟨-, -, hcompletes⟩ := lists_sorted (t := t) rfl le_rfl herased hsteps
  have hsome : v₂.numPwd ≠ 0 := by omega
  obtain ⟨p₃, v₃, hsend⟩ := hcompletes .sendPwd (fun _ => hsome) fun _ => nofun
  obtain ⟨⟨use, htraverses, -, hsorted⟩, ⟨alpha, htraverses', -, hsorted'⟩, -⟩ :=
    lists_sorted (t := t) rfl le_rfl herased (hsteps.tail (.run (fun _ => hsome) hsend))
  exact ⟨p₁, v₁, p₂, v₂, p₃, v₃, hfirst, hsecond, by omega, hsend, ⟨use, htraverses, hsorted⟩,
    alpha, htraverses', hsorted'⟩

end PasswordWallet
