import PasswordWallet.Communication.Pointer

/-!
# What the commands can do to a session

`Moves R m` says that a program, wherever it ends, leaves a session that stands in
the relation `R` to the one it started from.  For a preorder this composes, and
`Admits R` lists the single changes that the commands are made of: so the commands
move along any relation that admits these changes, if what goes on while they wait
does.
-/

namespace PasswordWallet

open PowerLoss

def Moves {α : Type} (R : Session → Session → Prop) (m : Com α) : Prop :=
  ∀ p s, wp m (fun _ _ s' => R s s') (fun _ s' => R s s') (fun _ _ => True) p s

def Event.isCall : Event → Bool
  | .exec _ _ => true
  | _ => false

/-- The changes that commands are made of. -/
structure Admits (R : Session → Session → Prop) : Prop where
  refl : ∀ s, R s s
  trans : ∀ s₁ s₂ s₃, R s₁ s₂ → R s₂ s₃ → R s₁ s₃
  emit : ∀ s event, event.isCall = false → R s (s.emit event)
  happen : ∀ (s : Session) event, R s (s.eventsHappen event)
  close : ∀ (s : Session), R s (s.clearEvents eventFlagCom)
  position : ∀ s comPos comParameter,
    R s { s with comPos := comPos, comParameter := comParameter }
  key : ∀ s key, R s { s with ram := { s.ram with key := key } }

section Rules

variable {α β : Type} {R : Session → Session → Prop} (hR : Admits R)
include hR

theorem Moves.bind {m : Com α} {f : α → Com β} (hm : Moves R m) (hf : ∀ a, Moves R (f a)) :
    Moves R (m >>= f) := by
  intro p s
  rw [wp_bind]
  refine wp_imp (hm p s) fun a p₁ s₁ h₁ => ?_
  exact wp_mono (hf a p₁ s₁) (fun _ _ _ h₂ => hR.trans _ _ _ h₁ h₂)
    (fun _ _ h₂ => hR.trans _ _ _ h₁ h₂) fun _ _ => id

theorem Moves.pure (a : α) : Moves R (pure a : Com α) := fun _ s => (wp_pure a).mpr (hR.refl s)

omit hR in
theorem Moves.ite {c : Prop} [Decidable c] {m m' : Com α} (hm : Moves R m) (hm' : Moves R m') :
    Moves R (if c then m else m') := by
  split_ifs
  · exact hm
  · exact hm'

omit hR in
theorem Moves.modify {f : Session → Session} (hf : ∀ s, R s (f s)) :
    Moves R (modifySession f) := fun _ s => (wp_modifySession f).mpr (hf s)

theorem Moves.emit {event : Event} (h : event.isCall = false) : Moves R (emit event) :=
  .modify fun s => hR.emit s event h

theorem Moves.ram : Moves R (Program.ram : Com Session) := fun _ s => wp_ram.mpr (hR.refl s)

theorem Moves.durable : Moves R (Program.durable : Com Image) :=
  fun _ s => wp_durable.mpr (hR.refl s)

theorem Moves.hang : Moves R (Program.hang : Com α) := fun _ s => wp_hang.mpr (hR.refl s)

theorem Moves.forUp {body : ℕ → Com Unit} (hbody : ∀ i, Moves R (body i)) (start count : ℕ) :
    Moves R (Program.forUp start count body) := by
  induction count generalizing start with
  | zero => exact .pure hR ()
  | succ count ih => exact .bind hR (hbody start) fun _ => ih (start + 1)

theorem Moves.framWriteBytes (addr : ℕ) (bytes : List Byte) :
    Moves R (liftDev (framWriteBytes addr bytes)) := by
  intro p s
  rw [wp_liftDev]
  exact wp_framWriteBytes (fun _ _ => trivial) (hR.refl s)

end Rules

/-! ## The commands -/

section Commands

variable {t : Target} {env : Env} {R : Session → Session → Prop} (hR : Admits R)
  (hpoll : ∀ sender, Moves R (env.poll sender))
include hR hpoll

theorem sendHeader_moves (sender : Sender) (id : Byte) (size : ℕ) :
    Moves R (sendHeader env sender id size) :=
  .bind hR (.emit hR rfl) fun _ => .bind hR (hpoll sender) fun _ => hpoll sender

theorem sendData_moves (sender : Sender) (id : Byte) (data : Session → List Byte) :
    Moves R (sendData env sender id data) :=
  .bind hR (.ram hR) fun _ => .bind hR (.emit hR rfl) fun _ => hpoll sender

theorem sendCommand_moves (sender : Sender) (id : Byte) (size : ℕ) (data : Session → List Byte) :
    Moves R (sendCommand env sender id size data) :=
  .bind hR (sendHeader_moves hR hpoll sender id size) fun _ =>
    .ite (sendData_moves hR hpoll sender id data) (.pure hR ())

theorem sendEmpty_moves (sender : Sender) (id : Byte) : Moves R (sendEmpty env sender id) :=
  sendCommand_moves hR hpoll sender id 0 _

theorem comAbort_moves : Moves R (comAbort env) :=
  .bind hR (.emit hR rfl) fun _ => .bind hR (sendEmpty_moves hR hpoll _ _) fun _ =>
    .modify fun _ => hR.trans _ _ _ (hR.close _) (hR.position _ _ _)

theorem commandInit_moves (hscreen : Moves R env.screen) : Moves R (commandInit env) := by
  have hanswer : Moves R (drawConfirmationScreen env) :=
    .bind hR (.emit hR rfl) fun _ => .bind hR hscreen fun _ => .bind hR (.durable hR) fun _ =>
      .bind hR (.ram hR) fun _ => .pure hR _
  have habort : Moves R (abortEnabled env) :=
    .bind hR (.ram hR) fun _ => .ite (comAbort_moves hR hpoll) (.emit hR rfl)
  have haccept : Moves R (modifySession fun s => (s.eventsHappen eventFlagCom).emit .accepted) :=
    .modify fun _ => hR.trans _ _ _ (hR.happen _ _) (hR.emit _ _ rfl)
  exact .bind hR habort fun _ => .bind hR hanswer fun _ =>
    .ite (.bind hR haccept fun _ => sendEmpty_moves hR hpoll _ _) (sendEmpty_moves hR hpoll _ _)

theorem commandEnd_moves : Moves R (commandEnd env) :=
  .bind hR (.modify fun _ => hR.trans _ _ _ (hR.emit _ _ rfl) (hR.close _)) fun _ =>
    sendEmpty_moves hR hpoll _ _

theorem commandGetFram_moves : Moves R (commandGetFram env) := by
  have hchunk : ∀ i, Moves R (framChunk env i) := fun i =>
    .bind hR (.durable hR) fun _ => .bind hR (.emit hR rfl) fun _ => sendData_moves hR hpoll _ _ _
  exact .bind hR (sendHeader_moves hR hpoll _ _ _) fun _ => .forUp hR hchunk _ _

theorem commandGetKey_moves : Moves R (commandGetKey env) :=
  .bind hR (.ram hR) fun _ =>
    .ite (sendCommand_moves hR hpoll _ _ _ _) (sendEmpty_moves hR hpoll _ _)

theorem commandGetParam_moves : Moves R (commandGetParam env) :=
  .bind hR (sendHeader_moves hR hpoll _ _ _) fun _ => sendData_moves hR hpoll _ _ _

theorem commandReset_moves : Moves R (commandReset env) :=
  .bind hR (sendEmpty_moves hR hpoll _ _) fun _ => .bind hR (.emit hR rfl) fun _ => .hang hR

omit hpoll in
theorem takeAddress_moves (data : List Byte) : Moves R (takeAddress data) := by
  induction data with
  | nil => exact .pure hR []
  | cons byte rest ih =>
      exact .bind hR (.ram hR) fun _ =>
        .ite (.bind hR (.modify fun s => hR.position s _ _) fun _ => ih) (.pure hR _)

omit hpoll in
theorem writeAddressed_moves (data : List Byte) : Moves R (writeAddressed data) :=
  .bind hR (.ram hR) fun _ => .ite
    (.bind hR (.emit hR rfl) fun _ => .bind hR (.framWriteBytes hR _ _) fun _ =>
      .modify fun s => hR.position s _ s.comParameter)
    (.pure hR ())

theorem commandSetFram_moves (data : List Byte) : Moves R (commandSetFram env data) := by
  have hdone : Moves R (setFramDone env) :=
    .bind hR (.ram hR) fun _ => .ite
      (.bind hR (.modify fun s => hR.position s 0 0) fun _ => sendEmpty_moves hR hpoll _ _)
      (.pure hR ())
  exact .bind hR (takeAddress_moves hR data) fun data =>
    .bind hR (writeAddressed_moves hR data) fun _ => hdone

omit hpoll in
theorem storeKeyByte_moves (index : ℕ) (byte : Byte) : Moves R (storeKeyByte index byte) := by
  refine .bind hR (.emit hR rfl) fun _ => ?_
  split_ifs
  · exact .modify fun s => hR.key s _
  · exact .hang hR

omit hpoll in
theorem storeKey_moves (comPos i : ℕ) (data : List Byte) : Moves R (storeKey comPos i data) := by
  induction data generalizing i with
  | nil => exact .pure hR ()
  | cons byte rest ih => exact .bind hR (storeKeyByte_moves hR _ byte) fun _ => ih (i + 1)

theorem commandSetKey_moves (data : List Byte) : Moves R (commandSetKey t env data) := by
  have hreceived : Moves R (keyReceived t env) :=
    .bind hR (.durable hR) fun _ => .bind hR (.ram hR) fun _ => .ite
      (.bind hR (.modify fun s => hR.happen s _) fun _ => sendEmpty_moves hR hpoll _ _)
      (sendEmpty_moves hR hpoll _ _)
  have hdone : Moves R (setKeyDone t env) :=
    .bind hR (.ram hR) fun _ => .ite
      (.bind hR (.modify fun s => hR.position s 0 s.comParameter) fun _ => hreceived) (.pure hR ())
  exact .bind hR (.ram hR) fun _ => .bind hR (storeKey_moves hR _ _ _) fun _ =>
    .bind hR (.modify fun s => hR.position s _ s.comParameter) fun _ => hdone

theorem comExec_moves (hscreen : Moves R env.screen) (data : List Byte) :
    Moves R (comExec t env data) :=
  .bind hR (.ram hR) fun _ => .ite (sendCommand_moves hR hpoll _ _ _ _) <|
    .ite (sendEmpty_moves hR hpoll _ _) <|
    .ite (commandInit_moves hR hpoll hscreen) <| .ite (commandEnd_moves hR hpoll) <|
    .ite (commandGetFram_moves hR hpoll) <| .ite (commandGetKey_moves hR hpoll) <|
    .ite (commandGetParam_moves hR hpoll) <| .ite (commandSetFram_moves hR hpoll data) <|
    .ite (commandSetKey_moves hR hpoll data) <| .ite (commandReset_moves hR hpoll)
    (comAbort_moves hR hpoll)

end Commands

/-! ## The parser -/

/-- The parser, the timer and the calls of `com_exec` are the same. -/
structure Apart (s s' : Session) : Prop where
  parser : s'.parser = s.parser
  timedOut : s'.timedOut = s.timedOut
  parsed : parsed s'.log = parsed s.log

theorem admits_apart : Admits Apart where
  refl _ := ⟨rfl, rfl, rfl⟩
  trans _ _ _ h₁ h₂ :=
    ⟨h₂.parser.trans h₁.parser, h₂.timedOut.trans h₁.timedOut, h₂.parsed.trans h₁.parsed⟩
  emit _ event hevent := ⟨rfl, rfl, by cases event <;> first | rfl | cases hevent⟩
  happen _ _ := ⟨rfl, rfl, rfl⟩
  close _ := ⟨rfl, rfl, rfl⟩
  position _ _ _ := ⟨rfl, rfl, rfl⟩
  key _ _ := ⟨rfl, rfl, rfl⟩

/-- The commands of the device are not re-entered when nothing arrives meanwhile. -/
theorem comExec_quiet_notReentered (t : Target) (answer : Image → Session → Bool)
    (framId : Vector Byte 4) : NotReentered True (comExec t (.quiet answer framId)) := by
  intro data p s
  have hmoves : Moves Apart (comExec t (.quiet answer framId) data) :=
    comExec_moves admits_apart (fun _ => .pure admits_apart ()) (.pure admits_apart ()) data
  exact wp_mono (hmoves p s) (fun _ _ _ h => ⟨h.parser, h.timedOut, h.parsed⟩)
    (fun _ _ _ => trivial) fun _ _ => id

/-! ## Replies that nothing interrupts -/

section Quiet

variable {answer : Image → Session → Bool} {framId : Vector Byte 4} {H : Image → Session → Prop}
  {C : Step Write → Image → Prop} {p : Image} {s : Session}

@[simp] theorem wp_sendHeader_quiet {Q : Unit → Image → Session → Prop} (sender : Sender)
    (id : Byte) (size : ℕ) :
    wp (sendHeader (.quiet answer framId) sender id size) Q H C p s ↔
      Q () p (s.emit (.header id size)) := by
  simp [sendHeader, Env.quiet]

@[simp] theorem wp_sendData_quiet {Q : Unit → Image → Session → Prop} (sender : Sender)
    (id : Byte) (data : Session → List Byte) :
    wp (sendData (.quiet answer framId) sender id data) Q H C p s ↔
      Q () p (s.emit (.payload id (data s) s.ram.keyEntered)) := by
  simp [sendData, Env.quiet]

@[simp] theorem wp_sendEmpty_quiet {Q : Unit → Image → Session → Prop} (sender : Sender)
    (id : Byte) :
    wp (sendEmpty (.quiet answer framId) sender id) Q H C p s ↔
      Q () p (s.emit (.header id 0)) := by
  simp [sendEmpty, sendCommand]

end Quiet

end PasswordWallet
