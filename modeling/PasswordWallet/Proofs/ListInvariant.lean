import PasswordWallet.Lists.Actions

/-!
# The lists stay well formed

From an erased FRAM on, every sequence of the operations that touch the store
leaves it well formed: `wp_storeOperation` is one operation, `StoreStep.invariant`
one step, and `lists_wellFormed` says what this means for the links, the map and
the count after any run.
-/

namespace PasswordWallet

open PowerLoss

/-- The operations that touch the store. -/
inductive StoreOperation
  | addPwd (name data : Vector Byte 32) (usrName : Vector Byte 64)
  | deletePwd (pwdId : ℕ)
  | changeName (typing : Typing 32)
  | changePwd (typing : Typing 32)
  | changeUsrName (typing : Typing 64)
  | regeneratePwd (drawings : ℕ) (confirmed : Bool)
  | sendPwd
  | sortUse
  | sortAlpha

def StoreOperation.run (t : Target) (fuel : ℕ) : StoreOperation → Dev Unit
  | addPwd name data usrName => optCallbackAddPwd t fuel name data usrName
  | deletePwd pwdId => pwdListDeletePwd t pwdId
  | changeName typing => optCallbackChangeName t fuel typing
  | changePwd typing => optCallbackChangePwd t typing
  | changeUsrName typing => optCallbackChangeUsrName t typing
  | regeneratePwd drawings confirmed => optCallbackRegeneratePwd t drawings confirmed
  | sendPwd => do
      let _ ← optCallbackSendPwd t fuel
      pure ()
  | sortUse => pwdListSortUse t fuel
  | sortAlpha => pwdListSortAlpha t fuel

/-- Only a used id is deleted. -/
def StoreOperation.Allowed (p : Image) : StoreOperation → Prop
  | deletePwd pwdId => pwdId < maximumNumberOfPwd ∧ p.used pwdId = true
  | _ => True

/-- Drawing a printable character may take for ever. -/
def StoreOperation.Draws : StoreOperation → Prop
  | regeneratePwd _ _ => True
  | _ => False

/-- One operation, or another used password becomes the current one, or what else
is in memory changes. -/
inductive StoreStep (t : Target) (fuel : ℕ) : Image × Ram → Image × Ram → Prop
  | run {op : StoreOperation} {p p' : Image} {v v' : Ram} :
      op.Allowed p → Completes (op.run t fuel) p v () p' v' → StoreStep t fuel (p, v) (p', v')
  | select {p : Image} {v : Ram} {pwdId : ℕ} :
      pwdId < maximumNumberOfPwd → p.used pwdId = true →
      StoreStep t fuel (p, v) (p, { v with currentPasswordId := pwdId })
  | volatile {p : Image} {v v' : Ram} :
      v'.numPwd = v.numPwd → v'.currentPasswordId = v.currentPasswordId →
      StoreStep t fuel (p, v) (p, v')

variable {t : Target} {fuel : ℕ} {p p' : Image} {v v' : Ram} {use alpha : List ℕ}

/-- A well-formed store, and a current password that has a chunk. -/
structure StoreInvariant (t : Target) (p : Image) (v : Ram) : Prop where
  wellFormed : ∃ use alpha, WellFormed t p v use alpha
  currentPasswordId : v.currentPasswordId < 767

theorem Rearranged.storeInvariant (h : Rearranged t use alpha p p' v')
    (hcurrent : v'.currentPasswordId < 767) : StoreInvariant t p' v' :=
  let ⟨use', alpha', _, hwell, _⟩ := h
  ⟨⟨use', alpha', hwell⟩, hcurrent⟩

/-- Every operation keeps the invariant, and all but a new random password come to
an end. -/
theorem wp_storeOperation (hexact : t.addressing = .exact) (hfuel : sortTurns ≤ fuel)
    (h : StoreInvariant t p v) {op : StoreOperation} (hallowed : op.Allowed p) :
    wp (op.run t fuel) (fun _ p' v' => StoreInvariant t p' v') (fun _ _ => op.Draws)
      (fun _ _ => True) p v := by
  obtain ⟨⟨use, alpha, hwell⟩, hcurrent⟩ := h
  have hid : v.currentPasswordId < t.addressing.capacity := by rwa [hexact]
  cases op with
  | addPwd name data usrName =>
      refine wp_mono (wp_optCallbackAddPwd hwell hfuel (Or.inl hexact) name data usrName) ?_
        (fun _ _ => False.elim) fun _ _ _ => trivial
      exact fun _ p' v' ⟨hcur, _, use', alpha', hwell', _⟩ =>
        ⟨⟨use', alpha', hwell'⟩, hcur ▸ hcurrent⟩
  | deletePwd pwdId =>
      refine wp_mono (wp_pwdListDeletePwd hwell (hwell.mem_use_iff.mpr hallowed)) ?_
        (fun _ _ => False.elim) fun _ _ _ => trivial
      exact fun _ p' v' ⟨_, hv, hwell', _⟩ => ⟨⟨_, _, hwell'⟩, by rw [hv]; exact hcurrent⟩
  | changeName typing =>
      refine wp_mono (wp_optCallbackChangeName hwell hfuel hid typing) ?_ (fun _ _ => False.elim)
        fun _ _ _ => trivial
      exact fun _ p' v' ⟨hv, hrest⟩ => hrest.storeInvariant (hv ▸ hcurrent)
  | changePwd typing =>
      refine wp_mono (wp_edit (H := fun _ _ => False) hwell hid
        (wp_optCallbackChangePwd hid typing)) ?_ (fun _ _ => False.elim) fun _ _ _ => trivial
      exact fun _ p' v' ⟨hdrawn, hrest⟩ =>
        hrest.storeInvariant (hdrawn.currentPasswordId ▸ hcurrent)
  | changeUsrName typing =>
      refine wp_mono (wp_edit (H := fun _ _ => False) hwell hid
        (wp_optCallbackChangeUsrName hid typing)) ?_ (fun _ _ => False.elim) fun _ _ _ => trivial
      exact fun _ p' v' ⟨hdrawn, hrest⟩ =>
        hrest.storeInvariant (hdrawn.currentPasswordId ▸ hcurrent)
  | regeneratePwd drawings confirmed =>
      refine wp_mono (wp_edit hwell hid (wp_optCallbackRegeneratePwd hid confirmed)) ?_
        (fun _ _ _ => trivial) fun _ _ _ => trivial
      exact fun _ p' v' ⟨hdrawn, hrest⟩ =>
        hrest.storeInvariant (hdrawn.currentPasswordId ▸ hcurrent)
  | sendPwd =>
      rw [StoreOperation.run, wp_bind]
      refine wp_mono (wp_optCallbackSendPwd hwell hfuel hid) ?_ (fun _ _ => False.elim)
        fun _ _ _ => trivial
      exact fun _ p' v' ⟨hv, hrest⟩ => (wp_pure _).mpr (hrest.storeInvariant (hv ▸ hcurrent))
  | sortUse =>
      refine wp_mono (wp_sortUse_rearranged hwell hfuel) ?_ (fun _ _ => False.elim)
        fun _ _ _ => trivial
      exact fun _ p' v' ⟨hv, hrest⟩ => hrest.storeInvariant (hv ▸ hcurrent)
  | sortAlpha =>
      refine wp_mono (wp_sortAlpha_rearranged hwell hfuel) ?_ (fun _ _ => False.elim)
        fun _ _ _ => trivial
      exact fun _ p' v' ⟨hv, hrest⟩ => hrest.storeInvariant (hv ▸ hcurrent)

theorem StoreStep.invariant (hexact : t.addressing = .exact) (hfuel : sortTurns ≤ fuel)
    {s s' : Image × Ram} (hstep : StoreStep t fuel s s') (h : StoreInvariant t s.1 s.2) :
    StoreInvariant t s'.1 s'.2 := by
  cases hstep with
  | run hallowed hrun =>
      have hop := wp_storeOperation hexact hfuel h hallowed
      exact wp_completes (Q := fun _ p' v' => StoreInvariant t p' v') hop hrun
  | select hid hused =>
      obtain ⟨⟨use, alpha, hwell⟩, -⟩ := h
      have hmem := hwell.mem_use_iff.mpr ⟨hid, hused⟩
      exact ⟨⟨use, alpha, hwell.threadedUse, hwell.threadedAlpha, hwell.mem_use, hwell.perm,
        hwell.numPwd, hwell.stored⟩, lt_of_lt_capacity (hwell.threadedUse.bound _ hmem)⟩
  | volatile hnum hcurrent =>
      obtain ⟨⟨use, alpha, hwell⟩, hlt⟩ := h
      exact ⟨⟨use, alpha, hwell.threadedUse, hwell.threadedAlpha, hwell.mem_use, hwell.perm,
        hnum.trans hwell.numPwd, hwell.stored⟩, hcurrent ▸ hlt⟩

/-- After any run from an erased FRAM the count is the stored one and the number of
bits that are set, no bit is set behind the last id, and both lists visit every
used id exactly once, forwards and backwards.  Every operation that draws no random
characters comes to an end. -/
theorem lists_wellFormed (hexact : t.addressing = .exact) (hfuel : sortTurns ≤ fuel)
    {p₀ p : Image} {v₀ v : Ram} (h₀ : Erased p₀ v₀)
    (hrun : Relation.ReflTransGen (StoreStep t fuel) (p₀, v₀) (p, v)) :
    v.numPwd = p.word offsetNumPwd ∧
    v.numPwd = (List.range (8 * sizeMemoryMap)).countP p.used ∧
    (∀ id, maximumNumberOfPwd ≤ id → id < 8 * sizeMemoryMap → p.used id = false) ∧
    (∃ use, Traverses (orderUse t) p use ∧ use.Nodup ∧
      ∀ id, id ∈ use ↔ id < maximumNumberOfPwd ∧ p.used id = true) ∧
    (∃ alpha, Traverses (orderAlpha t) p alpha ∧ alpha.Nodup ∧
      ∀ id, id ∈ alpha ↔ id < maximumNumberOfPwd ∧ p.used id = true) ∧
    ∀ op : StoreOperation, op.Allowed p → ¬ op.Draws →
      ∃ p' v', Completes (op.run t fuel) p v () p' v' := by
  have hinvariant : StoreInvariant t p v := by
    have hall : ∀ s, Relation.ReflTransGen (StoreStep t fuel) (p₀, v₀) s →
        StoreInvariant t s.1 s.2 := by
      intro s hs
      induction hs with
      | refl => exact ⟨⟨[], [], h₀.wellFormed⟩, by rw [h₀.currentPasswordId]; decide⟩
      | tail _ hstep ih => exact hstep.invariant hexact hfuel ih
    exact hall _ hrun
  obtain ⟨use, alpha, hwell⟩ := hinvariant.wellFormed
  refine ⟨hwell.numPwd.trans hwell.stored.symm, hwell.numPwd_eq_countP, fun id hle hlt => ?_,
    ⟨use, hwell.threadedUse.traverses, hwell.threadedUse.nodup, fun id => hwell.mem_use_iff⟩,
    ⟨alpha, hwell.threadedAlpha.traverses, hwell.threadedAlpha.nodup, fun id => ?_⟩,
    fun op hallowed hdraws => ?_⟩
  · by_contra hused
    rw [Bool.not_eq_false] at hused
    have hid := hwell.threadedUse.bound id ((hwell.mem_use id hlt).mp hused)
    exact absurd (lt_of_lt_capacity hid) (by simp at hle; omega)
  · rw [hwell.perm.mem_iff, hwell.mem_use_iff]
  · have hop := wp_storeOperation hexact hfuel hinvariant hallowed
    obtain ⟨_, p', v', hcompletes, -⟩ := exists_completes (wp_mono hop (fun _ _ _ => id)
      (fun _ _ => hdraws) fun _ _ => id)
    exact ⟨p', v', hcompletes⟩

/-- Two passwords are added to an erased store. -/
theorem lists_wellFormed_two :
    let t : Target := ⟨.exact, .xorKey⟩
    let v := Ram.reset (fun _ => Vector.replicate 4 7) (Vector.replicate 16 0)
    let first := StoreOperation.addPwd (Vector.replicate 32 66) (Vector.replicate 32 65)
      (Vector.replicate 64 66)
    let second := StoreOperation.addPwd (Vector.replicate 32 65) (Vector.replicate 32 67)
      (Vector.replicate 64 68)
    ∃ p₁ v₁ p₂ v₂, Completes (first.run t sortTurns) .zero v () p₁ v₁ ∧
      Completes (second.run t sortTurns) p₁ v₁ () p₂ v₂ ∧ v₂.numPwd = 2 ∧
      v₂.numPwd = (List.range (8 * sizeMemoryMap)).countP p₂.used ∧
      ∃ use, Traverses (orderUse t) p₂ use ∧ use.Nodup ∧
        ∀ id, id ∈ use ↔ id < maximumNumberOfPwd ∧ p₂.used id = true := by
  intro t v first second
  have herased : Erased .zero v := erased_reset _ _
  obtain ⟨p₁, v₁, use₁, alpha₁, hfirst, hwell, hone⟩ := exists_addPwd
    (herased.wellFormed (t := t)) (le_refl sortTurns) (Or.inl rfl) (by decide)
    (Vector.replicate 32 66) (Vector.replicate 32 65) (Vector.replicate 64 66)
  have hnum : v.numPwd = 0 := herased.numPwd
  obtain ⟨p₂, v₂, -, -, hsecond, -, htwo⟩ := exists_addPwd hwell (le_refl sortTurns) (Or.inl rfl)
    (by omega) (Vector.replicate 32 65) (Vector.replicate 32 67) (Vector.replicate 64 68)
  have hallowed : ∀ p, first.Allowed p := fun _ => trivial
  have hallowed' : ∀ p, second.Allowed p := fun _ => trivial
  obtain ⟨-, hcount, -, huse, -⟩ := lists_wellFormed (t := t) rfl le_rfl herased
    (.tail (.single (.run (hallowed _) hfirst)) (.run (hallowed' _) hsecond))
  exact ⟨p₁, v₁, p₂, v₂, hfirst, hsecond, by omega, hcount, huse⟩

end PasswordWallet
