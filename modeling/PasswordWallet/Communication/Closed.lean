import PasswordWallet.Communication.Consent

/-!
# The closed gate

While the gate is closed, packets are answered with the version, with a refusal or
with the end of the communication, and `COM_INIT` shows the confirmation screen;
until the user says yes to it nothing else happens.
-/

namespace PasswordWallet

open PowerLoss

variable {t : Target} {w : World} {env : Env} {s : Session} {p : Image} {α β : Type}

/-- The log grows. -/
def Grows (s s' : Session) : Prop := s.log <:+ s'.log

theorem admitsPackets_grows : AdmitsPackets Grows where
  refl _ := List.suffix_rfl
  trans _ _ _ h₁ h₂ := h₁.trans h₂
  emit s event _ := List.suffix_cons event s.log
  happen _ _ := List.suffix_rfl
  close _ := List.suffix_rfl
  position _ _ _ := List.suffix_rfl
  key _ _ := List.suffix_rfl
  call s event := List.suffix_cons event s.log
  parser _ _ := List.suffix_rfl
  timer _ _ := List.suffix_rfl
  clear _ _ _ := List.suffix_rfl

theorem Background.grows {m : Com Unit} (hm : Background t w m) : Moves Grows m :=
  hm.moves admitsPackets_grows fun m _ p s => by
    rw [wp_liftDev]
    exact wp_always m (fun _ _ _ => List.suffix_rfl) fun _ _ => List.suffix_rfl

/-! ## What a closed gate lets happen -/

def Event.harmless : Event → Bool
  | .start _ _ | .exec _ _ | .screen | .stopped => true
  | .header id size => id = comVersion ∧ size = 1 ∨ id ∈ [comErrNotInit, comEnd] ∧ size = 0
  | .payload id bytes _ => id = comVersion ∧ bytes = [softwareVersion]
  | _ => false

/-- The user has said yes, or the memories and the RAM are what they were, the gate is
closed, and only harmless events have happened. -/
def Outside (p : Image) (s : Session) (p' : Image) (s' : Session) : Prop :=
  ∃ new, s'.log = new ++ s.log ∧ (.accepted ∈ new ∨
    p' = p ∧ s'.ram = s.ram ∧ s'.enabled = false ∧ ∀ event ∈ new, event.harmless = true)

/-- From a closed gate on, a program stays outside. -/
def Harmless (m : Com α) : Prop :=
  ∀ p s, s.enabled = false → wp m (fun _ p' s' => Outside p s p' s')
    (fun p' s' => Outside p s p' s') (fun _ _ => True) p s

theorem outside_refl (hclosed : s.enabled = false) : Outside p s p s :=
  ⟨[], rfl, .inr ⟨rfl, rfl, hclosed, fun _ h => by cases h⟩⟩

theorem Outside.trans {p₁ p₂ : Image} {s₁ s₂ : Session} (h₁ : Outside p s p₁ s₁)
    (h₂ : s₁.enabled = false → Outside p₁ s₁ p₂ s₂) (hgrows : Grows s₁ s₂) :
    Outside p s p₂ s₂ := by
  obtain ⟨new₁, hlog₁, haccepted | ⟨rfl, hram₁, hclosed, hnew₁⟩⟩ := h₁
  · obtain ⟨new₂, hlog₂⟩ := hgrows
    refine ⟨new₂ ++ new₁, ?_, .inl (List.mem_append_right _ haccepted)⟩
    rw [← hlog₂, hlog₁, List.append_assoc]
  · obtain ⟨new₂, hlog₂, houtside⟩ := h₂ hclosed
    refine ⟨new₂ ++ new₁, by rw [hlog₂, hlog₁, List.append_assoc], houtside.imp
      (List.mem_append_left _) fun ⟨himage, hram₂, hclosed₂, hnew₂⟩ =>
        ⟨himage, hram₂.trans hram₁, hclosed₂, fun event hmem => ?_⟩⟩
    rcases List.mem_append.mp hmem with hmem | hmem
    · exact hnew₂ event hmem
    · exact hnew₁ event hmem

theorem Harmless.bind {m : Com α} {f : α → Com β} (hm : Harmless m) (hf : ∀ a, Harmless (f a))
    (hgrows : ∀ a, Moves Grows (f a)) : Harmless (m >>= f) := by
  intro p s hclosed
  rw [wp_bind]
  refine wp_imp (hm p s hclosed) fun a p₁ s₁ h₁ => ?_
  by_cases hclosed₁ : s₁.enabled = false
  · exact wp_mono (wp_and (hf a p₁ s₁ hclosed₁) (hgrows a p₁ s₁))
      (fun _ _ _ h => h₁.trans (fun _ => h.1) h.2) (fun _ _ h => h₁.trans (fun _ => h.1) h.2)
      fun _ _ _ => trivial
  · exact wp_mono (hgrows a p₁ s₁) (fun _ _ _ h => h₁.trans (fun hno => absurd hno hclosed₁) h)
      (fun _ _ h => h₁.trans (fun hno => absurd hno hclosed₁) h) fun _ _ => id

theorem Harmless.pure (a : α) : Harmless (pure a : Com α) := fun _ _ hclosed =>
  (wp_pure a).mpr (outside_refl hclosed)

/-- A change of the session outside the RAM and the log. -/
theorem Harmless.modify {f : Session → Session} (hram : ∀ s, (f s).ram = s.ram)
    (hclosed : ∀ s, s.enabled = false → (f s).enabled = false) (hlog : ∀ s, (f s).log = s.log) :
    Harmless (modifySession f) := fun _ s hs => (wp_modifySession f).mpr
  ⟨[], hlog s, .inr ⟨rfl, hram s, hclosed s hs, fun _ h => by cases h⟩⟩

theorem Harmless.emit {event : Session → Event} (hevent : ∀ s, (event s).harmless = true) :
    Harmless (modifySession fun s => s.emit (event s)) := fun _ s hs =>
  (wp_modifySession _).mpr ⟨[event s], rfl, .inr ⟨rfl, rfl, hs, fun e hmem => by
    rw [List.mem_singleton.mp hmem]
    exact hevent s⟩⟩

/-- The session is read, and what follows may depend on it. -/
theorem Harmless.ram {f : Session → Com β} (hf : ∀ s, s.enabled = false → Harmless (f s)) :
    Harmless (Program.ram >>= f) := fun p s hs => by
  rw [wp_bind, wp_ram]
  exact hf s hs p s hs

theorem Harmless.ite {c : Prop} [Decidable c] {m m' : Com α} (hm : c → Harmless m)
    (hm' : ¬c → Harmless m') : Harmless (if c then m else m') := by
  split_ifs with h
  · exact hm h
  · exact hm' h

theorem Session.ram_eventsHappen (s : Session) {event : Byte} (hevent : event.getLsbD 4 = false) :
    (s.eventsHappen event).ram = s.ram := by
  have hkey := s.keyEntered_eventsHappen event
  rw [hevent, Bool.or_false] at hkey
  change { s.ram with keyEntered := (s.eventsHappen event).ram.keyEntered } = s.ram
  rw [hkey]

theorem Session.ram_clearEvents (s : Session) {event : Byte} (hevent : event.getLsbD 4 = false) :
    (s.clearEvents event).ram = s.ram := by
  have hkey := s.keyEntered_clearEvents event
  rw [hevent, Bool.not_false, Bool.and_true] at hkey
  change { s.ram with keyEntered := (s.clearEvents event).ram.keyEntered } = s.ram
  rw [hkey]

/-! ## The commands -/

section Commands

variable (hpoll : ∀ sender, Harmless (env.poll sender))
  (hgrows : ∀ sender, Moves Grows (env.poll sender)) (hscreen : Harmless env.screen)
  (hscreenGrows : Moves Grows env.screen)

include hpoll hgrows in
theorem sendHeader_harmless (sender : Sender) {id : Byte} {size : ℕ}
    (hreply : (Event.header id size).harmless = true) :
    Harmless (sendHeader env sender id size) := by
  have hR := admitsPackets_grows.toAdmits
  refine .bind (.emit fun _ => hreply) (fun _ => ?_) fun _ => .bind hR (hgrows _) fun _ => hgrows _
  exact .bind (hpoll _) (fun _ => hpoll _) fun _ => hgrows _

include hpoll hgrows in
theorem sendEmpty_harmless (sender : Sender) {id : Byte}
    (hreply : (Event.header id 0).harmless = true) : Harmless (sendEmpty env sender id) :=
  .bind (sendHeader_harmless hpoll hgrows sender hreply) (fun _ => .pure ()) fun _ =>
    .pure admitsPackets_grows.toAdmits ()

include hpoll hgrows in
theorem commandGetVersion_harmless : Harmless (commandGetVersion env) := by
  have hR := admitsPackets_grows.toAdmits
  have hpayload : ∀ s : Session, Harmless (do
      emit (.payload comVersion [softwareVersion] s.ram.keyEntered)
      env.poll (.command comGetVersion)) := fun s =>
    .bind (.emit fun _ => rfl) (fun _ => hpoll _) fun _ => hgrows _
  exact .bind (sendHeader_harmless hpoll hgrows _ rfl) (fun _ => .ram fun s _ => hpayload s)
    fun _ => sendData_moves hR hgrows _ _ _

include hpoll hgrows in
theorem comAbort_harmless : Harmless (comAbort env) := by
  have hR := admitsPackets_grows.toAdmits
  have hclose : Harmless (modifySession fun s =>
      { s.clearEvents eventFlagCom with comPos := 0, comParameter := 0 }) := by
    refine .modify (fun s => s.ram_clearEvents rfl) (fun s _ => ?_) fun _ => rfl
    change (s.clearEvents eventFlagCom).enabled = false
    simp [Session.enabled_clearEvents, eventFlagCom]
  have hmoves : Moves Grows (modifySession fun s =>
      { s.clearEvents eventFlagCom with comPos := 0, comParameter := 0 }) :=
    .modify fun _ => List.suffix_rfl
  exact .bind (.emit fun _ => rfl) (fun _ => .bind (sendEmpty_harmless hpoll hgrows _ rfl)
    (fun _ => hclose) fun _ => hmoves)
    fun _ => .bind hR (sendEmpty_moves hR hgrows _ _) fun _ => hmoves

include hpoll hgrows hscreen hscreenGrows in
theorem commandInit_harmless : Harmless (commandInit env) := by
  have hR := admitsPackets_grows.toAdmits
  have hstop : Harmless (abortEnabled env) := .ram fun s hs => .ite
    (fun henabled => by simp [hs] at henabled) fun _ => .emit fun _ => rfl
  have hread : Moves Grows (do
      let p ← Program.durable
      let s ← Program.ram
      pure (env.answer p s) : Com Bool) :=
    .bind hR (.durable hR) fun _ => .bind hR (.ram hR) fun _ => .pure hR _
  have hanswer : Harmless (drawConfirmationScreen env) := by
    refine .bind (.emit fun _ => rfl) (fun _ => .bind hscreen (fun _ p s hs => ?_) fun _ => hread)
      fun _ => .bind hR hscreenGrows fun _ => hread
    rw [wp_bind, wp_durable, wp_bind, wp_ram, wp_pure]
    exact outside_refl hs
  have hsend : ∀ id, Moves Grows (sendEmpty env (.command comInit) id) := fun id =>
    sendEmpty_moves hR hgrows _ _
  have haccept : ∀ (p : Image) (s s' : Session),
      Grows ((s.eventsHappen eventFlagCom).emit .accepted) s' → ∀ p', Outside p s p' s' := by
    intro p s s' hgrows p'
    obtain ⟨new, hlog⟩ := hgrows
    refine ⟨new ++ [.accepted], ?_, .inl (by simp)⟩
    rw [← hlog, List.append_assoc]
    rfl
  have hyes : Harmless (do
      modifySession fun s => (s.eventsHappen eventFlagCom).emit .accepted
      sendEmpty env (.command comInit) comOk) := by
    intro p s _
    rw [wp_bind, wp_modifySession]
    exact wp_mono (hsend _ p _) (fun _ _ _ h => haccept p s _ h _) (fun _ _ h => haccept p s _ h _)
      fun _ _ => id
  have hmoves : Moves Grows (drawConfirmationScreen env) :=
    .bind hR (.emit hR rfl) fun _ => .bind hR hscreenGrows fun _ => hread
  have hreply : ∀ yes, Moves Grows (if yes = true then (do
      modifySession fun s => (s.eventsHappen eventFlagCom).emit .accepted
      sendEmpty env (.command comInit) comOk) else sendEmpty env (.command comInit) comEnd) :=
    fun _ => .ite (.bind hR (.modify fun s => List.suffix_cons _ s.log) fun _ => hsend _) (hsend _)
  exact .bind hstop (fun _ => .bind hanswer
    (fun _ => .ite (fun _ => hyes) fun _ => sendEmpty_harmless hpoll hgrows _ rfl) hreply)
    fun _ => .bind hR hmoves hreply

include hpoll hgrows hscreen hscreenGrows in
theorem comExec_harmless (data : List Byte) : Harmless (comExec t env data) := by
  refine .ram fun s hs => .ite (fun _ => commandGetVersion_harmless hpoll hgrows) fun _ =>
    .ite (fun _ => sendEmpty_harmless hpoll hgrows _ rfl) fun hgate => ?_
  have hinit : s.parser.id = comInit := by_contra fun hne => hgate ⟨hs, hne⟩
  rw [hinit]
  exact commandInit_harmless hpoll hgrows hscreen hscreenGrows

/-! ## Packets -/

include hpoll hgrows hscreen hscreenGrows in
theorem processPass_harmless (c : Cursor) : Harmless (processPass (comExec t env) c) := by
  have hR := admitsPackets_grows
  have hR' := hR.toAdmits
  have hcall : ∀ call, Harmless (callExec (comExec t env) call) := by
    intro call
    cases call with
    | none => exact .pure ()
    | some call =>
        have hexec : Harmless (modifySession fun s => s.emit (.exec call s.enabled)) :=
          .emit fun _ => rfl
        exact .bind hexec (fun _ => comExec_harmless hpoll hgrows hscreen hscreenGrows _)
          fun _ => comExec_moves hR' hgrows hscreenGrows call.data
  have hnote : Harmless noteStart :=
    .ram fun _ _ => .ite (fun _ => .emit fun _ => rfl) fun _ => .pure ()
  have hcallMoves := callExec_moves (t := t) hR hgrows hscreenGrows
  have hmoves : ∀ pass : Pass, Moves Grows (do
      modifySession fun s => { s with parser := pass.parser }
      callExec (comExec t env) pass.call
      Pure.pure pass.cursor : Com Cursor) := fun pass =>
    .bind hR' (.modify fun _ => List.suffix_rfl) fun _ => .bind hR' (hcallMoves _) fun _ =>
      .pure hR' _
  have hrest : ∀ pass : Pass, Harmless (do
      modifySession fun s => { s with parser := pass.parser }
      callExec (comExec t env) pass.call
      Pure.pure pass.cursor : Com Cursor) := fun pass =>
    .bind (.modify (fun _ => rfl) (fun _ h => h) fun _ => rfl)
      (fun _ => .bind (hcall _) (fun _ => .pure _) fun _ => .pure hR' _)
      fun _ => .bind hR' (hcallMoves _) fun _ => .pure hR' _
  exact .bind hnote (fun _ => .ram fun _ _ => hrest _) fun _ =>
    .bind hR' (.ram hR') fun _ => hmoves _

include hpoll hgrows hscreen hscreenGrows in
theorem processLoop_harmless (fuel : ℕ) (c : Cursor) :
    Harmless (processLoop (comExec t env) fuel c) := by
  have hR := admitsPackets_grows
  induction fuel generalizing c with
  | zero => exact fun _ _ hs => wp_hang.mpr (outside_refl hs)
  | succ fuel ih =>
      exact .bind (processPass_harmless hpoll hgrows hscreen hscreenGrows c)
        (fun c' => .ite (fun _ => .pure ()) fun _ => ih c')
        fun c' => .ite (.pure hR.toAdmits ()) (processLoop_moves hR hgrows hscreenGrows fuel c')

include hpoll hgrows hscreen hscreenGrows in
theorem comProcessData_harmless (data : List Byte) (lenght : ℕ) :
    Harmless (comProcessData t env data lenght) := by
  have hR := admitsPackets_grows
  have hR' := hR.toAdmits
  have hlate : Harmless (abortLate (comAbort env)) := .ram fun _ _ => .ite
    (fun _ => .bind (comAbort_harmless hpoll hgrows)
      (fun _ => .modify (fun _ => rfl) (fun _ h => h) fun _ => rfl)
      fun _ => .modify fun _ => List.suffix_rfl) fun _ => .pure ()
  have hloop := processLoop_moves (t := t) hR hgrows hscreenGrows passes ⟨data, lenght⟩
  exact .bind hlate (fun _ => .bind (.modify (fun _ => rfl) (fun _ h => h) fun _ => rfl)
    (fun _ => processLoop_harmless hpoll hgrows hscreen hscreenGrows _ _) fun _ => hloop)
    fun _ => .bind hR' (.modify fun _ => List.suffix_rfl) fun _ => hloop

end Commands

/-- Packets with nothing else but the timers and the buttons, from a closed gate on. -/
theorem Background.harmless (hfirmware : ∀ m, ¬w.firmware m) {m : Com Unit}
    (hm : Background t w m) : Harmless m := by
  have hevent : ∀ f : Session → Session, (∀ s, (f s).ram = s.ram) →
      (∀ s, (f s).enabled = s.enabled) → (∀ s, (f s).log = s.log) → Harmless (modifySession f) :=
    fun f hram henabled hlog => .modify hram (fun s hs => (henabled s).trans hs) hlog
  have hset : ∀ (s : Session) (event : Byte), event.getLsbD 7 = false →
      (s.eventsHappen event).enabled = s.enabled := fun s event hcom => by
    rw [Session.enabled_eventsHappen, hcom, Bool.or_false]
  have hcleared : ∀ (s : Session) (event : Byte), event.getLsbD 7 = false →
      (s.clearEvents event).enabled = s.enabled := fun s event hcom => by
    rw [Session.enabled_clearEvents, hcom, Bool.not_false, Bool.and_true]
  induction hm with
  | idle => exact .pure ()
  | packet env data lenght _ hpoll hscreen _ _ ihpoll ihscreen =>
      exact comProcessData_harmless ihpoll (fun sender => (hpoll sender).grows) ihscreen
        hscreen.grows data lenght
  | timer late => exact hevent _ (fun _ => rfl) (fun _ => rfl) fun _ => rfl
  | button i =>
      exact hevent (fun s => s.eventsHappen (buttonToEvent s.ram.optionsFlag (1 <<< i.val)))
        (fun s => s.ram_eventsHappen (buttonToEvent_bits _ i).2)
        (fun s => hset s _ (buttonToEvent_bits _ i).1) fun _ => rfl
  | buttonsTaken =>
      exact hevent _ (fun s => s.ram_clearEvents rfl) (fun s => hcleared s _ rfl) fun _ => rfl
  | sleepSet =>
      exact hevent _ (fun s => s.ram_eventsHappen rfl) (fun s => hset s _ rfl) fun _ => rfl
  | sleepTaken =>
      exact hevent _ (fun s => s.ram_clearEvents rfl) (fun s => hcleared s _ rfl) fun _ => rfl
  | noSleepSet =>
      exact hevent _ (fun s => s.ram_eventsHappen rfl) (fun s => hset s _ rfl) fun _ => rfl
  | noSleepCleared =>
      exact hevent _ (fun s => s.ram_clearEvents rfl) (fun s => hcleared s _ rfl) fun _ => rfl
  | firmware m hm => exact absurd hm (hfirmware m)
  | seq m m' _ hm' ih ih' => exact .bind ih (fun _ => ih') fun _ => hm'.grows
  | choose f _ ih => exact fun p s hs => ih p s p s hs

end PasswordWallet
