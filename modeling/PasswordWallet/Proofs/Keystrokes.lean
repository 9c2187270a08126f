import PasswordWallet.Proofs.TypedKeys

/-!
# Keystrokes that are lost

A key code is queued for one call of `HID_Task`: the report is made of it, the flag
is cleared, and a report that the endpoint does not take then is not made again.
So a key is lost whenever the endpoint is not ready in just that call, and two keys
run into each other when it is not ready in the calls between them.
-/

namespace PasswordWallet

open Reporting

section Runs

variable (pattern : ℕ → Conditions)

/-! ## The calls of `HID_Task` -/

/-- The turns in which these reports are made, from the call `start` on. -/
def turnsFrom : ℕ → List Report → List (Turn Report)
  | _, [] => []
  | start, report :: reports =>
      ⟨report, (pattern start).ready, (pattern start).idle⟩ :: turnsFrom (start + 1) reports

theorem turnsFrom_append (start : ℕ) (first second : List Report) :
    turnsFrom pattern start (first ++ second) =
      turnsFrom pattern start first ++ turnsFrom pattern (start + first.length) second := by
  induction first generalizing start with
  | nil => rfl
  | cons report first ih =>
      rw [List.cons_append, turnsFrom, turnsFrom, ih, List.cons_append, List.length_cons,
        Nat.add_comm first.length 1, Nat.add_assoc]

theorem map_report_turnsFrom (start : ℕ) (reports : List Report) :
    (turnsFrom pattern start reports).map Turn.report = reports := by
  induction reports generalizing start with
  | nil => rfl
  | cons report reports ih => rw [turnsFrom, List.map_cons, ih]

/-- From `k` to `k'` these reports were made, one in each call. -/
structure Presents (reports : List Report) (k k' : Keyboard) : Prop where
  written : k'.written = k.written ++
    Reporting.written k.prevReport (turnsFrom pattern k.tasks reports)
  prevReport : k'.prevReport = last k.prevReport (turnsFrom pattern k.tasks reports)
  tasks : k'.tasks = k.tasks + reports.length
  capsEnabled : k'.capsEnabled = k.capsEnabled
  needToSend : k'.needToSend = false

variable {pattern} {k k₁ k₂ : Keyboard}

theorem Presents.refl (hidle : k.needToSend = false) : Presents pattern [] k k :=
  ⟨(List.append_nil _).symm, rfl, rfl, rfl, hidle⟩

theorem Presents.trans {first second : List Report} (h₁ : Presents pattern first k k₁)
    (h₂ : Presents pattern second k₁ k₂) : Presents pattern (first ++ second) k k₂ where
  written := by
    rw [h₂.written, h₁.written, h₁.prevReport, h₁.tasks, turnsFrom_append, written_append,
      List.append_assoc]
  prevReport := by
    rw [h₂.prevReport, h₁.prevReport, h₁.tasks, turnsFrom_append, last_append]
  tasks := by rw [h₂.tasks, h₁.tasks, List.length_append, Nat.add_assoc]
  capsEnabled := h₂.capsEnabled.trans h₁.capsEnabled
  needToSend := h₂.needToSend

@[simp]
theorem prevReport_createKeyboardReport (k : Keyboard) :
    (createKeyboardReport k).2.prevReport = k.prevReport := by
  unfold createKeyboardReport
  split_ifs <;> rfl

@[simp]
theorem written_createKeyboardReport (k : Keyboard) :
    (createKeyboardReport k).2.written = k.written := by
  unfold createKeyboardReport
  split_ifs <;> rfl

@[simp]
theorem capsEnabled_createKeyboardReport (k : Keyboard) :
    (createKeyboardReport k).2.capsEnabled = k.capsEnabled := by
  unfold createKeyboardReport
  split_ifs <;> rfl

/-- What was to be sent is taken. -/
theorem needToSend_createKeyboardReport (k : Keyboard) :
    (createKeyboardReport k).2.needToSend = false := by
  unfold createKeyboardReport
  split_ifs with h
  · rfl
  · exact Bool.eq_false_iff.mpr h

/-- The report of a call is written if the turn says so. -/
theorem sendNextReport_eq (c : Conditions) (k : Keyboard) :
    sendNextReport c k =
      if (⟨(createKeyboardReport k).1, c.ready, c.idle⟩ : Turn Report).writes k.prevReport then
        { (createKeyboardReport k).2 with
          prevReport := (createKeyboardReport k).1
          written := k.written ++ [(createKeyboardReport k).1] }
      else (createKeyboardReport k).2 := by
  simp only [sendNextReport, Turn.writes, prevReport_createKeyboardReport,
    written_createKeyboardReport]
  cases c.idle <;> rfl

/-- One call of `HID_Task`. -/
theorem hidTask_presents (k : Keyboard) :
    Presents pattern [(createKeyboardReport k).1] k (hidTask pattern k) := by
  unfold hidTask
  rw [sendNextReport_eq]
  constructor
  · simp only [turnsFrom, Reporting.written]
    split_ifs
    · rfl
    · rw [List.append_nil]
      exact written_createKeyboardReport k
  · simp only [turnsFrom, last]
    split_ifs
    · rfl
    · exact prevReport_createKeyboardReport k
  · rfl
  · split_ifs
    · exact capsEnabled_createKeyboardReport k
    · exact capsEnabled_createKeyboardReport k
  · split_ifs
    · exact needToSend_createKeyboardReport k
    · exact needToSend_createKeyboardReport k

/-- `wait_for_sent` takes one turn, however many it is given. -/
theorem waitLoop_succ (fuel : ℕ) (k : Keyboard) :
    waitLoop pattern (fuel + 1) k = hidTask pattern k := by
  rw [waitLoop]
  -- the turn has taken the key code, so there is nothing to wait for
  exact if_neg (by rw [(hidTask_presents k).needToSend]; simp)

theorem waitForSent_presents (keycode : Byte) (k : Keyboard) :
    Presents pattern [reportOf k.capsEnabled keycode] k
      (waitForSent pattern { k with keycodeToSend := keycode }) := by
  rw [waitForSent, waitLoop_succ]
  have h := @hidTask_presents pattern { k with keycodeToSend := keycode, needToSend := true }
  exact ⟨h.written, h.prevReport, h.tasks, h.capsEnabled, h.needToSend⟩

/-! ## Typing -/

/-- The key codes that the loop of `keyboard_send` queues in so many iterations. -/
def Sending.codes (m : KeyMap) : ℕ → Sending → List Byte
  | 0, _ => []
  | n + 1, x =>
      if x.i < x.data.length * 2 then asciiToKeycode m x.iterate.1 :: x.iterate.2.codes m n
      else []

/-- The key codes of a character: its key is pressed and let go, and behind a dead
key so is the space. -/
def keystroke (m : KeyMap) (c : Byte) : List Byte :=
  [asciiToKeycode m c, asciiToKeycode m 0x7F] ++
    if c = 0x5E ∨ c = 0x60 then [asciiToKeycode m 0x20, asciiToKeycode m 0x7F] else []

/-- The key codes are those of the characters that are typed. -/
theorem codes_eq (m : KeyMap) (n : ℕ) (x : Sending) :
    x.codes m n = (x.characters n).1.map (asciiToKeycode m) := by
  induction n generalizing x with
  | zero => rfl
  | succ n ih =>
      rw [Sending.codes, Sending.characters]
      split_ifs
      · rw [ih]
        rfl
      · rfl

theorem keystroke_eq (m : KeyMap) (c : Byte) :
    keystroke m c = (typedAs c).map (asciiToKeycode m) := by
  rw [keystroke, typedAs]
  split_ifs <;> rfl

/-- A string shorter than 128 characters is queued key by key, and `keyboard_send`
then returns. -/
theorem codes_start {m : KeyMap} {data : List Byte} {n : ℕ} (hlength : data.length < 128)
    (hn : 4 * data.length ≤ n) :
    (Sending.start data).codes m n = data.flatMap (keystroke m) := by
  have hkeystrokes : keystroke m = fun c => (typedAs c).map (asciiToKeycode m) :=
    funext (keystroke_eq m)
  rw [codes_eq, characters_start hlength hn, List.map_flatMap, hkeystrokes]

theorem sendLoop_presents (m : KeyMap) {n : ℕ} {x : Sending} (hidle : k.needToSend = false) :
    Presents pattern ((x.codes m n).map (reportOf k.capsEnabled)) k
      (sendLoop pattern m n x k) := by
  induction n generalizing x k with
  | zero => exact .refl hidle
  | succ n ih =>
      rw [sendLoop, Sending.codes]
      split_ifs with hmore
      · have hfirst := @waitForSent_presents pattern (asciiToKeycode m x.iterate.1) k
        have hrest := ih (x := x.iterate.2) hfirst.needToSend
        rw [hfirst.capsEnabled] at hrest
        exact hfirst.trans hrest
      · exact .refl hidle

/-- What the firmware does with the keyboard: it calls `keyboard_send`, whose loop is
seen through so many iterations, `keyboard_send_key_next`, or `HID_Task` alone. -/
inductive KeyboardUse
  | send (data : List Byte) (n : ℕ)
  | keyNext
  | task

def KeyboardUse.run (pattern : ℕ → Conditions) (m : KeyMap) (k : Keyboard) : KeyboardUse → Keyboard
  | send data n => keyboardSend pattern m n data k
  | keyNext => keyboardSendKeyNext pattern k
  | task => hidTask pattern k

/-- The reports of the key codes that are queued, each for one call of `HID_Task`;
in a call for which nothing is queued no key is down. -/
def KeyboardUse.reports (m : KeyMap) : KeyboardUse → List Report
  | send data n => ((Sending.start data).codes m n).map (reportOf false)
  | keyNext => [reportOf false hidKeyboardScTab]
  | task => [.released]

theorem KeyboardUse.run_presents (m : KeyMap) (use : KeyboardUse) (hidle : k.needToSend = false)
    (hcaps : k.capsEnabled = false) :
    Presents pattern (use.reports m) k (use.run pattern m k) := by
  cases use with
  | send data n =>
      have h := @sendLoop_presents pattern k m n (.start data) hidle
      rw [hcaps] at h
      exact h
  | keyNext =>
      have h : Presents pattern [reportOf k.capsEnabled hidKeyboardScTab] k
          (keyboardSendKeyNext pattern k) := waitForSent_presents _ _
      rw [hcaps] at h
      exact h
  | task =>
      have h := @hidTask_presents pattern k
      rw [createKeyboardReport, hidle] at h
      exact h

/-- A run of the keyboard. -/
def runKeyboard (pattern : ℕ → Conditions) (m : KeyMap) (uses : List KeyboardUse)
    (k : Keyboard) : Keyboard := uses.foldl (KeyboardUse.run pattern m) k

/-- The character has a key. -/
def Printable (c : Byte) : Prop := 0x20 ≤ c.toNat ∧ c.toNat < 0x7F

instance (c : Byte) : Decidable (Printable c) := inferInstanceAs (Decidable (_ ∧ _))

theorem asciiToKeycode_inside {c : Byte} (hc : 0x20 ≤ c.toNat ∧ c.toNat < 0x80) (m : KeyMap) :
    asciiToKeycode m c = asciiToKeycode ⟨m.qwerty, fun _ => 0⟩ c := by
  simp only [asciiToKeycode, if_pos hc]

theorem reportOf_printable {c : Byte} (hc : Printable c) (m : KeyMap) :
    reportOf false (asciiToKeycode m c) ≠ .released := by
  have hall : ∀ (qwerty : Bool) (c : Byte), Printable c →
      reportOf false (asciiToKeycode ⟨qwerty, fun _ => 0⟩ c) ≠ .released := by decide +kernel
  rw [asciiToKeycode_inside ⟨hc.1, hc.2.trans (by decide)⟩]
  exact hall m.qwerty c hc

theorem reportOf_letGo (m : KeyMap) : reportOf false (asciiToKeycode m 0x7F) = .released := by
  have hall : ∀ qwerty : Bool,
      reportOf false (asciiToKeycode ⟨qwerty, fun _ => 0⟩ 0x7F) = .released := by decide
  rw [asciiToKeycode_inside (by decide)]
  exact hall m.qwerty

/-- The keys that are queued for a string are those of its characters, the space
behind each dead key included. -/
theorem downs_send {m : KeyMap} {data : List Byte} {n : ℕ} (hlength : data.length < 128)
    (hn : 4 * data.length ≤ n) (hprintable : ∀ c ∈ data, Printable c) :
    downs .released ((KeyboardUse.send data n).reports m) =
      data.flatMap fun c => reportOf false (asciiToKeycode m c) ::
        if c = 0x5E ∨ c = 0x60 then [reportOf false (asciiToKeycode m 0x20)] else [] := by
  rw [KeyboardUse.reports, codes_start hlength hn]
  clear hlength hn
  have hspace := reportOf_printable (show Printable 0x20 by decide) m
  induction data with
  | nil => rfl
  | cons c data ih =>
      have hc := reportOf_printable (hprintable c (List.mem_cons_self ..)) m
      have hrest := ih fun c hmem => hprintable c (List.mem_cons_of_mem _ hmem)
      rw [List.flatMap_cons, List.flatMap_cons, List.map_append, downs, List.filter_append,
        ← downs, ← downs, hrest]
      -- letting go is not a key, so the keys of one character are left
      congr 1
      rw [keystroke]
      split_ifs
      · simp only [List.map_append, List.map_cons, List.map_nil, reportOf_letGo]
        generalize reportOf false (asciiToKeycode m 0x20) = space at hspace ⊢
        simp [downs, hc, hspace]
      · simp only [List.map_append, List.map_cons, List.map_nil, reportOf_letGo]
        simp [downs, hc]

theorem runKeyboard_presents (m : KeyMap) (uses : List KeyboardUse) (hidle : k.needToSend = false)
    (hcaps : k.capsEnabled = false) :
    Presents pattern (uses.flatMap (KeyboardUse.reports m)) k (runKeyboard pattern m uses k) := by
  induction uses generalizing k with
  | nil => exact .refl hidle
  | cons use uses ih =>
      have hfirst := @KeyboardUse.run_presents pattern k m use hidle hcaps
      rw [List.flatMap_cons]
      exact hfirst.trans (ih hfirst.needToSend (hfirst.capsEnabled.trans hcaps))

end Runs

/-! ## The theorem -/

/-- The keys that are written to the endpoint are those that were queued, in order,
and between two of them is a report that no key is down. -/
structure KeysWritten (queued written : List Report) : Prop where
  keys : downs .released written = downs .released queued
  released : LetGo .released written

/-- The endpoint is ready in each call of `HID_Task` that makes the report of a key,
and in some call between it and the next one that does. -/
structure KeepsUp (turns : List (Turn Report)) : Prop where
  ready : ∀ turn ∈ turns, turn.report ≠ .released → turn.ready = true
  between : ∀ before a mid b after, turns = before ++ a :: (mid ++ b :: after) →
    a.report ≠ .released → b.report ≠ .released → (∀ turn ∈ mid, turn.report = .released) →
      ∃ turn ∈ mid, turn.ready = true

/-- In every run of the keyboard, with every pattern of the endpoint being ready and
of the idle period having elapsed: the keys that were queued are written, no more,
no fewer, in order and each let go of before the next, if and only if the endpoint
keeps up with them. -/
theorem keystrokes_written_iff (pattern : ℕ → Conditions) (m : KeyMap) (uses : List KeyboardUse) :
    KeysWritten (uses.flatMap (KeyboardUse.reports m)) (runKeyboard pattern m uses .init).written ↔
      KeepsUp (turnsFrom pattern 0 (uses.flatMap (KeyboardUse.reports m))) := by
  have hwritten := (@runKeyboard_presents pattern .init m uses rfl rfl).written
  have hreports := map_report_turnsFrom pattern 0 (uses.flatMap (KeyboardUse.reports m))
  have hiff := @faithful_iff Report _ .released false .released
    (turnsFrom pattern 0 (uses.flatMap (KeyboardUse.reports m))) nofun
  constructor
  · rintro ⟨hkeys, hreleased⟩
    rw [hwritten] at hkeys hreleased
    -- a report has been queued just when it stands among the reports of the turns
    have hdelivered := hiff.mp ⟨by rw [hreports]; exact hkeys, hreleased⟩
    exact ⟨hdelivered.ready, hdelivered.between⟩
  · rintro ⟨hready, hbetween⟩
    have hfaithful := hiff.mpr ⟨hready, hbetween, fun _ _ _ _ hb _ => .inr ⟨rfl, .inr (Ne.symm hb)⟩⟩
    rw [hwritten]
    refine ⟨?_, hfaithful.letGo⟩
    have hequal := hfaithful.downs
    rw [hreports] at hequal
    exact hequal

/-! ## A concrete run -/

/-- The endpoint is not ready in the first call of `HID_Task` and in every later one
it is: an `a` is typed, and nothing is written. -/
theorem keystroke_lost :
    let m : KeyMap := ⟨true, fun _ => 0⟩
    let uses : List KeyboardUse := [.send [0x61] 4, .task, .task]
    let pattern : ℕ → Conditions := fun call => ⟨call ≠ 0, false⟩
    uses.flatMap (KeyboardUse.reports m) = [⟨0, 0x04⟩, .released, .released, .released] ∧
      (runKeyboard pattern m uses .init).written = [] ∧
      ¬KeysWritten (uses.flatMap (KeyboardUse.reports m))
        (runKeyboard pattern m uses .init).written := by
  refine ⟨by decide, by decide, fun h => ?_⟩
  exact absurd h.keys (by decide)

end PasswordWallet
