import PasswordWallet.Debouncing.Debouncer
import PasswordWallet.Hardware.Buttons

/-!
# The buttons are debounced

Each of the four buttons is a debouncer of its own (`Buttons.view`): a turn of the loop
steps the one of its button (`view_debounceButton`) and leaves the others as they are
(`view_debounceButton_of_ne`).  What is known of a debouncer so holds of each button.
-/

namespace PasswordWallet

open Debouncing

variable {call : ButtonsCall} {calls : List ButtonsCall} {s : Buttons} {i j : Fin 4} {k : ℕ}

def buttonThresholds : Thresholds := ⟨pressTimeMs, releaseTimeMs, longPressTimeMs⟩

/-- What a button is read as in a call. -/
def ButtonsCall.sample (i : Fin 4) (call : ButtonsCall) : Sample := ⟨call.raws i, call.time⟩

/-- The variables of one button. -/
def Buttons.view (s : Buttons) (i : Fin 4) : Debouncer 32 :=
  ⟨s.lastChange i, s.debounceState.getLsbD i, s.eventCalled.getLsbD i⟩

/-! ## The bits of the buttons -/

theorem getLsbD_buttonBit : ∀ i j : Fin 4, (buttonBit i).getLsbD j = decide (i = j) := by
  decide

theorem and_buttonBit_eq_zero : ∀ (flags : Byte) (i : Fin 4),
    flags &&& buttonBit i = 0 ↔ flags.getLsbD i = false := by
  decide +kernel

theorem getLsbD_set_self (flags : Byte) (i : Fin 4) :
    (flags ||| buttonBit i).getLsbD i = true := by
  rw [BitVec.getLsbD_or, getLsbD_buttonBit, decide_eq_true rfl, Bool.or_true]

theorem getLsbD_set_of_ne (flags : Byte) (hne : i ≠ j) :
    (flags ||| buttonBit i).getLsbD j = flags.getLsbD j := by
  rw [BitVec.getLsbD_or, getLsbD_buttonBit, decide_eq_false hne, Bool.or_false]

theorem getLsbD_clear_self (flags : Byte) (i : Fin 4) :
    (flags &&& ~~~ buttonBit i).getLsbD i = false := by
  rw [BitVec.getLsbD_and, BitVec.getLsbD_not, getLsbD_buttonBit, decide_eq_true rfl,
    Bool.not_true, Bool.and_false, Bool.and_false]

theorem getLsbD_clear_of_ne (flags : Byte) (hne : i ≠ j) :
    (flags &&& ~~~ buttonBit i).getLsbD j = flags.getLsbD j := by
  rw [BitVec.getLsbD_and, BitVec.getLsbD_not, getLsbD_buttonBit, decide_eq_false hne,
    decide_eq_true (by omega : j.val < 8), Bool.not_false, Bool.and_true, Bool.and_true]

theorem buttonToEvent_injective (optionsFlag : Byte) (i j : Fin 4) :
    buttonToEvent optionsFlag (buttonBit i) = buttonToEvent optionsFlag (buttonBit j) → i = j := by
  unfold buttonToEvent
  split_ifs
  · revert i j
    decide
  · revert i j
    decide

/-! ## A turn of the loop -/

theorem view_readButton : (readButton call i s).view i = (s.view i).observe (call.sample i) := by
  rw [readButton, Debouncer.observe]
  by_cases hsame : call.raws i = s.debounceState.getLsbD i
  · rw [if_neg (by simp [hsame]),
      if_pos (show (call.sample i).reading = (s.view i).level from hsame)]
  · rw [if_pos (by simpa using hsame),
      if_neg (show ¬ (call.sample i).reading = (s.view i).level from hsame)]
    simp only [Buttons.view, Function.update_self]
    congr 1
    cases hraw : call.raws i
    · exact (getLsbD_clear_self _ i).trans hraw.symm
    · exact (getLsbD_set_self _ i).trans hraw.symm

theorem view_readButton_of_ne (hne : i ≠ j) : (readButton call i s).view j = s.view j := by
  rw [readButton]
  split_ifs
  · simp only [Buttons.view, Function.update_of_ne hne.symm, getLsbD_set_of_ne _ hne]
  · simp only [Buttons.view, Function.update_of_ne hne.symm, getLsbD_clear_of_ne _ hne]
  · rfl

/-- A stable button is settled, and its event is raised as often as the debouncer does. -/
theorem stableButton_eq
    (hdelay : (if call.raws i then pressTimeMs else releaseTimeMs) ≤
      (s.view i).elapsed call.time) :
    (stableButton call i s).1.view i = (s.view i).settle buttonThresholds (call.sample i) ∧
      (stableButton call i s).2 =
        List.replicate ((s.view i).raises buttonThresholds (call.sample i))
          (buttonToEvent call.optionsFlag (buttonBit i)) := by
  have hsettle : (s.view i).settle buttonThresholds (call.sample i) =
      { s.view i with signalled := call.raws i } := if_pos hdelay
  rw [hsettle]
  by_cases hraw : call.raws i = true
  · rw [if_pos hraw] at hdelay
    have hraises : (s.view i).raises buttonThresholds (call.sample i) =
        (if (s.view i).signalled then 0 else 1) +
          (if longPressTimeMs ≤ (call.timer - s.lastChange i).toNat then 1 else 0) :=
      if_pos ⟨hraw, hdelay⟩
    have hlong : (if longPressTimeMs ≤ (call.timer - s.lastChange i).toNat then
          [buttonToEvent call.optionsFlag (buttonBit i)] else []) =
        List.replicate (if longPressTimeMs ≤ (call.timer - s.lastChange i).toNat then 1 else 0)
          (buttonToEvent call.optionsFlag (buttonBit i)) := by
      split_ifs <;> rfl
    rw [stableButton, if_pos hraw, hraises, hraw]
    by_cases hcalled : s.eventCalled &&& buttonBit i = 0
    -- the press is signalled now, and once more if it is long already
    · have hsignalled : (s.view i).signalled = false := (and_buttonBit_eq_zero _ _).mp hcalled
      simp only [if_pos hcalled, hsignalled, Bool.false_eq_true, if_false, hlong]
      refine ⟨?_, by rw [Nat.add_comm, List.replicate_succ]⟩
      simp only [Buttons.view, getLsbD_set_self]
    -- it has been signalled, and is signalled again only if it is long
    · have hsignalled : (s.view i).signalled = true := by
        rw [← Bool.not_eq_false]
        exact fun hfalse => hcalled ((and_buttonBit_eq_zero _ _).mpr hfalse)
      simp only [if_neg hcalled, hsignalled, if_true, hlong, Nat.zero_add, and_true]
      rw [← hsignalled]
  · have hraises : (s.view i).raises buttonThresholds (call.sample i) = 0 :=
      if_neg fun hpress => hraw hpress.1
    rw [stableButton, if_neg hraw, hraises, eq_false_of_ne_true hraw]
    refine ⟨?_, rfl⟩
    simp only [Buttons.view, getLsbD_clear_self]

theorem view_stableButton_of_ne (hne : i ≠ j) : (stableButton call i s).1.view j = s.view j := by
  rw [stableButton]
  by_cases hraw : call.raws i = true
  · rw [if_pos hraw]
    by_cases hcalled : s.eventCalled &&& buttonBit i = 0
    · simp only [if_pos hcalled, Buttons.view, getLsbD_set_of_ne _ hne]
    · simp only [if_neg hcalled]
  · simp only [if_neg hraw, Buttons.view, getLsbD_clear_of_ne _ hne]

/-- A turn steps the debouncer of its button. -/
theorem view_debounceButton :
    (debounceButton call i s).1.view i =
        ((s.view i).step buttonThresholds (call.sample i)).1 ∧
      (debounceButton call i s).2 =
        List.replicate ((s.view i).step buttonThresholds (call.sample i)).2
          (buttonToEvent call.optionsFlag (buttonBit i)) := by
  rw [debounceButton, Debouncer.step, ← view_readButton]
  by_cases hdelay : (if call.raws i then pressTimeMs else releaseTimeMs) ≤
      ((readButton call i s).view i).elapsed call.time
  · have hstable := stableButton_eq hdelay
    simp only
      [if_pos (show _ ≤ (call.timer - (readButton call i s).lastChange i).toNat from hdelay)]
    exact hstable
  · simp only [if_neg (show ¬ _ ≤ (call.timer - (readButton call i s).lastChange i).toNat from
      hdelay)]
    refine ⟨(if_neg hdelay).symm, ?_⟩
    -- nothing is raised before the level is stable
    rw [Debouncer.raises, if_neg, List.replicate_zero]
    intro hpress
    rw [if_pos (show call.raws i = true from hpress.1)] at hdelay
    exact hdelay hpress.2

theorem view_debounceButton_of_ne (hne : i ≠ j) :
    (debounceButton call i s).1.view j = s.view j := by
  rw [debounceButton]
  by_cases hdelay : (if call.raws i then pressTimeMs else releaseTimeMs) ≤
      (call.timer - (readButton call i s).lastChange i).toNat
  · simp only [if_pos hdelay, view_stableButton_of_ne hne, view_readButton_of_ne hne]
  · simp only [if_neg hdelay, view_readButton_of_ne hne]

/-! ## The loop -/

/-- Over other buttons nothing of a button changes, and its event is not raised. -/
theorem debounceFrom_of_notMem {rest : List (Fin 4)} (hi : i ∉ rest) :
    (debounceFrom call rest s).1.view i = s.view i ∧
      buttonToEvent call.optionsFlag (buttonBit i) ∉ (debounceFrom call rest s).2 := by
  induction rest generalizing s with
  | nil => exact ⟨rfl, List.not_mem_nil⟩
  | cons j rest ih =>
      obtain ⟨hne, hrest⟩ := not_or.mp (mt List.mem_cons.mpr hi)
      obtain ⟨hview, hevents⟩ := ih (s := (debounceButton call j s).1) hrest
      refine ⟨hview.trans (view_debounceButton_of_ne (Ne.symm hne)), fun hmem => ?_⟩
      rcases List.mem_append.mp hmem with hmem | hmem
      · rw [view_debounceButton.2] at hmem
        exact hne (buttonToEvent_injective _ i j (List.eq_of_mem_replicate hmem))
      · exact hevents hmem

/-- In the loop each button is stepped once. -/
theorem debounceFrom_of_mem {rest : List (Fin 4)} (hnodup : rest.Nodup) (hi : i ∈ rest) :
    (debounceFrom call rest s).1.view i = ((s.view i).step buttonThresholds (call.sample i)).1 ∧
      (debounceFrom call rest s).2.count (buttonToEvent call.optionsFlag (buttonBit i)) =
        ((s.view i).step buttonThresholds (call.sample i)).2 := by
  induction rest generalizing s with
  | nil => exact absurd hi List.not_mem_nil
  | cons j rest ih =>
      obtain ⟨hnotMem, hnodup'⟩ := List.nodup_cons.mp hnodup
      rw [debounceFrom, List.count_append, view_debounceButton.2]
      by_cases hij : i = j
      · subst hij
        -- its turn is the only one of this button
        obtain ⟨hview, hevents⟩ := @debounceFrom_of_notMem call
          (debounceButton call i s).1 i rest hnotMem
        refine ⟨hview.trans view_debounceButton.1, ?_⟩
        rw [List.count_eq_zero.mpr hevents, List.count_replicate_self, Nat.add_zero]
      · have hmem := (List.mem_cons.mp hi).resolve_left hij
        obtain ⟨hview, hevents⟩ := ih (s := (debounceButton call j s).1) hnodup' hmem
        -- the turn of another button raises another event
        have hother : buttonToEvent call.optionsFlag (buttonBit i) ∉
            List.replicate ((s.view j).step buttonThresholds (call.sample j)).2
              (buttonToEvent call.optionsFlag (buttonBit j)) := fun hevent =>
          hij (buttonToEvent_injective _ i j (List.eq_of_mem_replicate hevent))
        rw [view_debounceButton_of_ne (Ne.symm hij)] at hview hevents
        exact ⟨hview, by rw [List.count_eq_zero.mpr hother, Nat.zero_add, hevents]⟩

theorem mem_buttons : ∀ i : Fin 4, i ∈ [0, 1, 2, 3] := by
  decide

/-- The static variables of a button are those of a debouncer that has seen the same. -/
theorem view_run (calls : List ButtonsCall) (i : Fin 4) :
    (Buttons.run calls).view i =
      Debouncer.run buttonThresholds (calls.map (ButtonsCall.sample i)) := by
  induction calls using List.reverseRecOn with
  | nil =>
      have hclear : ∀ i : Fin 4, (0 : Byte).getLsbD i = false := by decide
      change (⟨0, (0 : Byte).getLsbD i, (0 : Byte).getLsbD i⟩ : Debouncer 32) = ⟨0, false, false⟩
      rw [hclear]
  | append_singleton calls call ih =>
      rw [Buttons.run, List.foldl_append, List.map_append, List.map_singleton,
        Debouncer.run_append, ← ih]
      exact (debounceFrom_of_mem (by decide) (mem_buttons i)).1

theorem raisesOf_eq (calls : List ButtonsCall) (i : Fin 4) (k : ℕ) :
    raisesOf i calls k =
      raisesAt 32 buttonThresholds (calls.map (ButtonsCall.sample i)) k := by
  rw [raisesOf, raisesAt, List.getElem?_map]
  cases calls[k]? with
  | none => rfl
  | some call =>
      rw [Option.map_some, ← List.map_take, ← view_run]
      exact (debounceFrom_of_mem (by decide) (mem_buttons i)).2

/-- In any calls in the order of time, the event of a button is raised only after it has
been read pressed for `PRESS_TIME_MS`; between two raises it has been read released for
`RELEASE_TIME_MS`, or at the second it has been read pressed for `LONG_PRESS_TIME_MS`; and
when it is raised does not depend on what the other buttons are read as. -/
theorem buttons_debounced (hsorted : (calls.map ButtonsCall.time).Pairwise (· ≤ ·)) (i : Fin 4) :
    (∀ k, 0 < raisesOf i calls k →
      ∃ first, Held (calls.map (ButtonsCall.sample i)) true first k pressTimeMs) ∧
      (∀ j k, j < k → 0 < raisesOf i calls j → 0 < raisesOf i calls k →
        (∃ first last, j < first ∧ last < k ∧
          Held (calls.map (ButtonsCall.sample i)) false first last releaseTimeMs) ∨
          ∃ first, Held (calls.map (ButtonsCall.sample i)) true first k longPressTimeMs) ∧
      (∀ k, 2 ≤ raisesOf i calls k →
        ∃ first, Held (calls.map (ButtonsCall.sample i)) true first k longPressTimeMs) ∧
      ∀ calls', calls'.map (ButtonsCall.sample i) = calls.map (ButtonsCall.sample i) →
        ∀ k, raisesOf i calls' k = raisesOf i calls k := by
  have hsamples : ((calls.map (ButtonsCall.sample i)).map Sample.time).Pairwise (· ≤ ·) := by
    rw [List.map_map]
    exact hsorted
  refine ⟨fun k hk => ?_, fun j k hjk hj hk => ?_, fun k hk => ?_, fun calls' hcalls k => ?_⟩
  · rw [raisesOf_eq] at hk
    exact raised_held hsamples hk
  · rw [raisesOf_eq] at hj hk
    exact raised_again hsamples hj hk hjk
  · rw [raisesOf_eq] at hk
    exact raised_two_held hsamples hk
  · rw [raisesOf_eq, raisesOf_eq, hcalls]

/-- A button is read pressed at 0 and at 60 milliseconds. -/
theorem buttons_debounced_press :
    let calls : List ButtonsCall := [⟨fun _ => true, 0, 0⟩, ⟨fun _ => true, 60, 0⟩]
    0 < raisesOf 0 calls 1 ∧ ∃ j, Held (calls.map (ButtonsCall.sample 0)) true j 1 50 := by
  intro calls
  have hraised : 0 < raisesOf 0 calls 1 := by decide
  exact ⟨hraised, (@buttons_debounced calls (by decide) 0).1 1 hraised⟩

end PasswordWallet
