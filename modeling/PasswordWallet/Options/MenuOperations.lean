import PasswordWallet.Options.LeavesLists
import PasswordWallet.Options.SortCalls
import PasswordWallet.Proofs.FullReset
import PasswordWallet.Proofs.TypedBuffers

/-!
# All operations of the menus

The actions on passwords with the events at the editor (`UserAction`), and the
operations of the advanced menu.  `opt_callback_show_key` and the two screens of the
system menu write nothing and are left out; what the user types as a key and the card
he presents are parameters.

An operation is an action on passwords, or it leaves the lists and the names alone, or
it leaves a store without passwords (`MenuOperation.cases_run`).
-/

namespace PasswordWallet

open PowerLoss

inductive MenuOperation
  | user (action : UserAction)
  | changeKey (confirmed : Bool) (card : CardSession)
  | forceCard (card : CardSession)
  | forceEnter (usrKey : Vector Byte 20)
  | enterKey (usrKey : Vector Byte 20)
  | inverseScreen
  | changeKeyboard
  | fullReset (confirmed changeConfirmed : Bool) (card : CardSession)

namespace MenuOperation

variable (t : Target)

def run (fuel : ℕ) : MenuOperation → Com Unit
  | user action => liftDev (action.run t fuel)
  | changeKey confirmed card => liftDev (optCallbackChangeKey t confirmed card)
  | forceCard card => liftDev (optCallbackForceCard t card)
  | forceEnter usrKey => liftDev (optCallbackForceEnter t usrKey)
  | enterKey usrKey => liftDev (optCallbackEnterKey usrKey)
  | inverseScreen => liftDev optCallbackInverseScreen
  | changeKeyboard => liftDev optCallbackChangeKeyboard
  | fullReset confirmed changeConfirmed card =>
      optCallbackFullReset t confirmed changeConfirmed card

/-- The operations that the menus offer only when there is a password. -/
def OnPwd : MenuOperation → Prop
  | user action => action.OnPwd
  | _ => False

/-- A password that is added goes to a chunk that lies where its number says. -/
def Fits (v : Ram) : MenuOperation → Prop
  | user action => action.Fits t v
  | _ => True

/-- The states in which an operation calls `pwd_list_sort_alpha`. -/
def SortsAt (fuel : ℕ) (p : Image) (v : Ram) (q : Image) (w : Ram) : MenuOperation → Prop
  | user action => action.SortsAt t fuel p v q w
  | _ => False

end MenuOperation

/-- A run of the menus: the operations, each with the state it was taken in, and the
state they have led to.  Between them another used password may become the current
one, and what is not about the passwords may change, the key too. -/
inductive OperationRun (t : Target) (fuel : ℕ) (p₀ : Image) (s₀ : Session) :
    List (Image × Session × MenuOperation) → Image → Session → Prop
  | start : OperationRun t fuel p₀ s₀ [] p₀ s₀
  | operate {log : List (Image × Session × MenuOperation)} {op : MenuOperation} {p p' : Image}
      {s s' : Session} : OperationRun t fuel p₀ s₀ log p s → (op.OnPwd → s.ram.numPwd ≠ 0) →
      Completes (op.run t fuel) p s () p' s' →
      OperationRun t fuel p₀ s₀ (log ++ [(p, s, op)]) p' s'
  | select {log : List (Image × Session × MenuOperation)} {p : Image} {s : Session} {pwdId : ℕ} :
      OperationRun t fuel p₀ s₀ log p s → pwdId < maximumNumberOfPwd → p.used pwdId = true →
      OperationRun t fuel p₀ s₀ log p { s with ram := { s.ram with currentPasswordId := pwdId } }
  | between {log : List (Image × Session × MenuOperation)} {p : Image} {s s' : Session} :
      OperationRun t fuel p₀ s₀ log p s → s'.ram.numPwd = s.ram.numPwd →
      s'.ram.currentPasswordId = s.ram.currentPasswordId →
      pwdListGetSortingMethod s'.ram.optionsFlag ≤ pwdSortingAlpha →
      OperationRun t fuel p₀ s₀ log p s'

variable {t : Target} {fuel : ℕ} {p p' p₀ : Image} {s s' s₀ : Session}

/-! ## What an operation does -/

/-- No chunk is used, and the variables say so. -/
structure Emptied (t : Target) (p : Image) (v : Ram) : Prop where
  invariant : MenuInvariant t p v
  unused : ∀ id < maximumNumberOfPwd, p.used id = false

theorem emptied_of_header {v : Ram} (hfram : ∀ x < 535, p.fram x = 0) (hnum : v.numPwd = 0)
    (hcurrent : v.currentPasswordId = 0)
    (hmethod : pwdListGetSortingMethod v.optionsFlag ≤ pwdSortingAlpha) : Emptied t p v := by
  have hwell : WellFormed t p v [] [] := wellFormed_nil hfram hnum
  refine ⟨⟨⟨[], [], hwell, ⟨.nil, .nil⟩, Or.inl ⟨rfl, hcurrent⟩⟩, hmethod⟩, fun id hid => ?_⟩
  by_contra hused
  rw [Bool.not_eq_false] at hused
  exact absurd (hwell.mem_use_iff.mpr ⟨hid, hused⟩) List.not_mem_nil

theorem Erased.emptied {v : Ram} (h : Erased p v) : Emptied t p v :=
  emptied_of_header (fun x _ => h.fram x) h.numPwd h.currentPasswordId h.sortingMethod

theorem Emptied.of_setting {v v' : Ram} (h : Emptied t p v) (hsame : SameSettings p p' v v') :
    Emptied t p' v' :=
  ⟨h.invariant.of_setting hsame, fun id hid => (hsame.used hid).trans (h.unused id hid)⟩

/-- Once the FRAM is erased and the variables are cleared there are settings to write. -/
theorem wp_optCallbackFullReset_emptied (changeConfirmed : Bool) (card : CardSession) :
    wp (optCallbackFullReset t true changeConfirmed card)
      (fun _ p' s' => Emptied t p' s'.ram) (fun _ _ => True) (fun _ _ => True) p s := by
  rw [optCallbackFullReset, if_pos rfl, wp_bind, wp_liftDev]
  refine wp_mono (wp_eraseFram_header t) ?_ (fun _ _ => False.elim) fun _ _ => id
  intro _ p₁ v₁ ⟨_, hzero⟩
  rw [wp_bind, wp_modifySession, wp_liftDev]
  have hcleared : Emptied t p₁ (Session.clearVariables { s with ram := v₁ }).ram :=
    emptied_of_header hzero rfl rfl (by
      show pwdListGetSortingMethod 0 ≤ pwdSortingAlpha
      decide)
  exact wp_imp (wp_setting (initializeDevice t changeConfirmed card)) fun _ _ _ hsame =>
    hcleared.of_setting hsame

theorem sameSettings_of_liftDev (m : Dev Unit) [LeavesLists m]
    (hrun : Completes (liftDev m) p s () p' s') : SameSettings p p' s.ram s'.ram :=
  wp_completes (Q := fun _ p' v' => SameSettings p p' s.ram v') (wp_setting m)
    (completes_liftDev.mp hrun).1

theorem MenuOperation.cases_run {op : MenuOperation}
    (hrun : Completes (op.run t fuel) p s () p' s') :
    (∃ action, op = .user action ∧ Completes (action.run t fuel) p s.ram () p' s'.ram) ∨
      (∀ action, op ≠ .user action) ∧
        (SameSettings p p' s.ram s'.ram ∨ Emptied t p' s'.ram) := by
  cases op with
  | user action => exact Or.inl ⟨action, rfl, (completes_liftDev.mp hrun).1⟩
  | changeKey confirmed card =>
      exact Or.inr ⟨fun _ => nofun, Or.inl
        (sameSettings_of_liftDev (optCallbackChangeKey t confirmed card) hrun)⟩
  | forceCard card =>
      exact Or.inr ⟨fun _ => nofun, Or.inl
        (sameSettings_of_liftDev (optCallbackForceCard t card) hrun)⟩
  | forceEnter usrKey =>
      exact Or.inr ⟨fun _ => nofun, Or.inl
        (sameSettings_of_liftDev (optCallbackForceEnter t usrKey) hrun)⟩
  | enterKey usrKey =>
      exact Or.inr ⟨fun _ => nofun, Or.inl
        (sameSettings_of_liftDev (optCallbackEnterKey usrKey) hrun)⟩
  | inverseScreen =>
      exact Or.inr ⟨fun _ => nofun, Or.inl
        (sameSettings_of_liftDev optCallbackInverseScreen hrun)⟩
  | changeKeyboard =>
      exact Or.inr ⟨fun _ => nofun, Or.inl
        (sameSettings_of_liftDev optCallbackChangeKeyboard hrun)⟩
  | fullReset confirmed changeConfirmed card =>
      refine Or.inr ⟨fun _ => nofun, ?_⟩
      rw [run] at hrun
      cases confirmed with
      | false =>
          rw [optCallbackFullReset, if_neg Bool.false_ne_true] at hrun
          obtain ⟨-, rfl, rfl⟩ := completes_pure.mp hrun
          exact Or.inl ⟨fun _ _ => rfl, refl_of SameLists _⟩
      | true =>
          have hempty := wp_completes (wp_optCallbackFullReset_emptied changeConfirmed card) hrun
          exact Or.inr hempty

/-! ## Runs -/

/-- Every operation keeps the invariant of the menus. -/
theorem MenuOperation.invariant_run {op : MenuOperation} (hfits : op.Fits t s.ram)
    (hfuel : sortTurns ≤ fuel) (h : MenuInvariant t p s.ram) (hpwd : op.OnPwd → s.ram.numPwd ≠ 0)
    (hrun : Completes (op.run t fuel) p s () p' s') : MenuInvariant t p' s'.ram := by
  rcases cases_run hrun with ⟨action, rfl, haction⟩ | ⟨-, hsame | hempty⟩
  · exact (UserAction.act hfits hfuel h hpwd haction).1
  · exact h.of_setting hsame
  · exact hempty.invariant

theorem OperationRun.invariant (hfuel : sortTurns ≤ fuel) (h₀ : Erased p₀ s₀.ram)
    {log : List (Image × Session × MenuOperation)} (hfits : ∀ x ∈ log, x.2.2.Fits t x.2.1.ram)
    (hrun : OperationRun t fuel p₀ s₀ log p s) : MenuInvariant t p s.ram := by
  induction hrun with
  | start => exact h₀.emptied.invariant
  | operate _ hpwd hop ih =>
      rw [List.forall_mem_append, List.forall_mem_singleton] at hfits
      exact MenuOperation.invariant_run hfits.2 hfuel (ih hfits.1) hpwd hop
  | select _ hid hused ih => exact (ih hfits).select hid hused
  | between _ hnum hcurrent hmethod ih => exact (ih hfits).volatile hnum hcurrent hmethod

end PasswordWallet
