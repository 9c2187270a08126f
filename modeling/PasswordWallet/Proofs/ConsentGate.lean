import PasswordWallet.Communication.Closed

/-!
# The consent gate

With nothing processed inside a command the gate keeps what it promises.  The USB
task breaks it in two places.  An abort answers before it closes the gate, and a
command that is let through goes on although something that arrived during its
reply has stopped the communication.  If neither happens, every event that asks for
the consent has it.
-/

namespace PasswordWallet

open PowerLoss

variable {t : Target} {w : World} {env : Env} {s : Session} {p : Image}

/-- While these commands reply, nothing ends the consent for good. -/
def Env.ConsentLasts (env : Env) : Prop :=
  ∀ id ∈ [comGetFram, comGetKey, comGetParam, comReset],
    Leads (fun s => consented s.log = true) (fun _ => True) (fun s => consented s.log = true)
      (env.poll (.command id))

/-- Every command that is let through has the consent. -/
def CallsGated (s : Session) : Prop := callsGated s.log = true

/-- While an abort answers, no command is let through without the consent. -/
def Env.AbortGated (env : Env) : Prop :=
  Leads CallsGated CallsGated CallsGated (env.poll .abort)

/-- What arrives during a command does not get behind the gate, and the firmware
around the communication does not take the key back. -/
def World.consenting : World where
  grants env := env.ConsentLasts ∧ env.AbortGated
  firmware m := Moves KeyKept (liftDev m)
  mayReset _ := True

/-! ## The gate is worth the consent -/

/-- The gate is open only with the consent. -/
structure Consenting (s : Session) : Prop where
  calls : CallsGated s
  gate : s.enabled = true → consented s.log = true

theorem steady_consenting : Steady Consenting where
  emit _ _ hevent h := ⟨(callsGated_cons_neutral hevent).trans h.calls,
    fun henabled => (consented_cons hevent).trans (h.gate henabled)⟩
  position _ _ _ h := ⟨h.calls, h.gate⟩
  key s key h := ⟨h.calls, fun henabled => h.gate (by rwa [Session.enabled_ram] at henabled)⟩
  keyEntered s h := ⟨h.calls, fun henabled => h.gate (by
    simpa [Session.enabled_eventsHappen, eventKeyEntered] using henabled)⟩

theorem Consenting.close {event : Event} (h : CallsGated s) (hevent : event.letThrough = false) :
    Consenting ((s.emit event).clearEvents eventFlagCom) :=
  ⟨(callsGated_cons hevent).trans h, fun henabled => by
    simp [Session.enabled_clearEvents, eventFlagCom] at henabled⟩

section Calls

variable (hpoll : ∀ sender, Leads Consenting CallsGated Consenting (env.poll sender))
  (hscreen : Leads Consenting CallsGated Consenting env.screen) (habort : env.AbortGated)
  (hkept : Moves KeyKept (env.poll (.command comGetKey)))

theorem sendEmpty_consenting {sender : Sender}
    (hpoll : Leads Consenting CallsGated Consenting (env.poll sender)) (id : Byte) :
    Leads Consenting CallsGated Consenting (sendEmpty env sender id) :=
  sendEmpty_leads hpoll _ fun s => steady_consenting.emit s _ rfl

include habort in
theorem comAbort_consenting : Leads CallsGated CallsGated Consenting (comAbort env) :=
  .bind (.modify (K := CallsGated) fun _ h => (callsGated_cons rfl).trans h) fun _ =>
    .bind (sendEmpty_leads habort _ fun _ h => (callsGated_cons rfl).trans h) fun _ =>
      .modify fun _ h => ⟨h, fun henabled => by
        change Session.enabled (Session.clearEvents _ eventFlagCom) = true at henabled
        simp [Session.enabled_clearEvents, eventFlagCom] at henabled⟩

include hpoll hscreen habort in
theorem commandInit_consenting : Leads Consenting CallsGated Consenting (commandInit env) := by
  have hstop : Leads Consenting CallsGated Consenting (abortEnabled env) := by
    refine .ram fun s hs => .ite (fun _ => (comAbort_consenting habort).imp fun _ h => h ▸ hs.calls)
      fun hdisabled => .modify fun _ h => h ▸ ⟨(callsGated_cons rfl).trans hs.calls, ?_⟩
    exact fun henabled => absurd henabled hdisabled
  have hanswer : Leads Consenting CallsGated Consenting (drawConfirmationScreen env) :=
    .bind (.modify fun s => steady_consenting.emit s _ rfl) fun _ => .bind hscreen fun _ =>
      .durable fun _ => .ram fun _ hs => (Leads.pure _).imp fun _ h => h ▸ hs
  have hyes : Leads Consenting CallsGated Consenting
      (modifySession fun s => (s.eventsHappen eventFlagCom).emit .accepted) :=
    .modify fun _ h => ⟨(callsGated_cons rfl).trans h.calls, fun _ => rfl⟩
  exact .bind hstop fun _ => .bind hanswer fun yes => .ite
    (fun _ => .bind hyes fun _ => sendEmpty_consenting (hpoll _) _)
    fun _ => sendEmpty_consenting (hpoll _) _

include hpoll hscreen habort hkept in
theorem comExec_consenting (data : List Byte) :
    Leads Consenting CallsGated Consenting (comExec t env data) := by
  have hsame : ∀ {s s' : Session}, Consenting s → s' = s → Consenting s' := fun h hs => hs ▸ h
  have hreply : ∀ s id, Consenting s → Consenting (s.emit (.header id 0)) :=
    fun s _ => steady_consenting.emit s _ rfl
  have hend : Leads Consenting CallsGated Consenting (commandEnd env) :=
    .bind (.modify fun _ h => .close h.calls rfl) fun _ => sendEmpty_consenting (hpoll _) _
  refine .ram fun s hs => .ite (fun _ => Leads.imp ?_ fun _ => hsame hs) fun _ =>
    .ite (fun _ => (sendEmpty_consenting (hpoll _) _).imp fun _ => hsame hs) fun _ =>
    Leads.imp ?_ fun _ => hsame hs
  · exact sendCommand_leads (hpoll _) _ (fun s => steady_consenting.emit s _ rfl)
      fun _ s => steady_consenting.emit s _ rfl
  · rw [gatedCommand]
    exact .ite (fun _ => commandInit_consenting hpoll hscreen habort) fun _ => .ite (fun _ => hend)
      fun _ => .ite (fun _ => commandGetFram_leads steady_consenting (hpoll _)) fun _ =>
      .ite (fun _ => commandGetKey_leads steady_consenting (fun _ => id) (hpoll _) hkept hreply
        (hpoll _)) fun _ =>
      .ite (fun _ => commandGetParam_leads steady_consenting (hpoll _)) fun _ =>
      .ite (fun _ => commandSetFram_leads steady_consenting (fun _ => id) hreply (hpoll _) data)
      fun _ => .ite (fun _ => commandSetKey_leads steady_consenting (fun _ h => h.calls)
        (fun _ => id) hreply (hpoll _) data) fun _ =>
      .ite (fun _ => commandReset_leads steady_consenting (fun _ h => h.calls) (hpoll _)) fun _ =>
      (comAbort_consenting habort).imp fun _ h => h.calls

include hpoll hscreen habort hkept in
theorem packet_consenting (data : List Byte) (lenght : ℕ) :
    Leads Consenting CallsGated Consenting (comProcessData t env data lenght) := by
  refine comProcessData_leads (fun _ h => h.calls)
    ((comAbort_consenting habort).imp fun _ h => h.calls)
    (fun s _ _ => steady_consenting.emit s _ rfl) (fun _ _ h => ⟨h.calls, h.gate⟩)
    (fun _ _ h => ⟨h.calls, h.gate⟩) (fun s parser call h _ => ?_) data lenght
  refine (comExec_consenting hpoll hscreen habort hkept _).imp fun _ hs => hs ▸ ⟨?_, h.gate⟩
  -- a call is let through only if the gate is open, and then there is the consent
  unfold CallsGated callsGated Session.emit
  rw [everywhere, Bool.and_eq_true]
  refine ⟨?_, h.calls⟩
  cases henabled : s.enabled with
  | false =>
      have : ({ s with parser := parser } : Session).enabled = false := henabled
      rw [this]
      rfl
  | true => simp [h.gate henabled]

end Calls

theorem grants_keyKept {m : Com Unit} (hm : Background t .consenting m) : Moves KeyKept m :=
  hm.moves admitsPackets_keyKept fun _ => id

theorem background_consenting {m : Com Unit} (hm : Background t .consenting m) :
    Leads Consenting CallsGated Consenting m := by
  refine Background.leads (w := .consenting)
    (fun env data lenght hgranted hbackground hpoll hscreen _ _ =>
      packet_consenting hpoll hscreen hgranted.2 (grants_keyKept (hbackground _)) data lenght)
    (fun _ _ h => ⟨h.calls, h.gate⟩) (fun _ event hcom _ h => ⟨h.calls, fun henabled => ?_⟩)
    (fun _ event hcom _ h => ⟨h.calls, fun henabled => ?_⟩) (fun m _ p s h => ?_) hm
  · rw [Session.enabled_eventsHappen, hcom, Bool.or_false] at henabled
    exact h.gate henabled
  · rw [Session.enabled_clearEvents, hcom, Bool.not_false, Bool.and_true] at henabled
    exact h.gate henabled
  · rw [wp_liftDev]
    exact wp_always m (fun _ _ _ => ⟨h.calls, fun henabled => h.gate (by
      rwa [Session.enabled_ram] at henabled)⟩) fun _ _ => h.calls

theorem callsGated_of_seen (h : Seen t .consenting s) : callsGated s.log = true :=
  h.invariant (I := Consenting) (J := CallsGated)
    (fun _ => ⟨rfl, fun henabled => by
      simp [Session.boot, Session.enabled, Session.globalsEvents] at henabled⟩)
    (fun _ => background_consenting)
    (fun _ _ h => ⟨(callsGated_cons rfl).trans h.calls, fun henabled => by
      simp [Session.clearVariables, Session.enabled, Session.globalsEvents] at henabled⟩)
    fun _ h => h.calls

/-! ## What is let through has the consent to the end -/

/-- If the calls have the consent, then so has everything that asks for it. -/
def EventsGated (s : Session) : Prop := callsGated s.log = true → gated s.log = true

/-- And the consent lasts. -/
def Trusted (s : Session) : Prop :=
  callsGated s.log = true → gated s.log = true ∧ consented s.log = true

theorem Trusted.eventsGated (h : Trusted s) : EventsGated s := fun hcalls => (h hcalls).1

theorem EventsGated.emit {event : Event} (h : EventsGated s) (hguarded : event.guarded = false)
    (hshown : event.keyShown = true) : EventsGated (s.emit event) := fun hcalls =>
  gated_cons hshown (fun htrue => by simp [hguarded] at htrue)
    (h (callsGated_of_suffix (List.suffix_cons event s.log) hcalls))

theorem steady_trusted : Steady Trusted where
  emit s event hevent h := fun hcalls => by
    obtain ⟨hgated, hconsented⟩ := h ((callsGated_cons_neutral hevent).symm.trans hcalls)
    exact ⟨gated_cons (keyShown_of_neutral hevent) (fun _ => hconsented) hgated,
      (consented_cons hevent).trans hconsented⟩
  position _ _ _ h := h
  key _ _ h := h
  keyEntered _ h := h

/-- A wait that does not end the consent for good. -/
theorem trusted_wait {m : Com Unit} (hevents : Leads EventsGated EventsGated EventsGated m)
    (hgrows : Moves Grows m)
    (hlasts : Leads (fun s => consented s.log = true) (fun _ => True)
      (fun s => consented s.log = true) m) : Leads Trusted EventsGated Trusted m := by
  intro p s h
  by_cases hcalls : callsGated s.log = true
  · exact wp_mono (wp_and (hevents p s h.eventsGated) (hlasts p s (h hcalls).2))
      (fun _ _ _ hpost hcalls' => ⟨hpost.1 hcalls', hpost.2⟩) (fun _ _ hpost => hpost.1)
      fun _ _ _ => trivial
  · exact wp_mono (hgrows p s)
      (fun _ _ _ hpost hcalls' => absurd (callsGated_of_suffix hpost hcalls') hcalls)
      (fun _ _ hpost hcalls' => absurd (callsGated_of_suffix hpost hcalls') hcalls) fun _ _ => id

section Events

variable (hpoll : ∀ sender, Leads EventsGated EventsGated EventsGated (env.poll sender))
  (hscreen : Leads EventsGated EventsGated EventsGated env.screen)
  (hgrows : ∀ sender, Moves Grows (env.poll sender)) (hlasts : env.ConsentLasts)
  (hkept : Moves KeyKept (env.poll (.command comGetKey)))

theorem sendEmpty_eventsGated {sender : Sender}
    (hpoll : Leads EventsGated EventsGated EventsGated (env.poll sender)) (id : Byte) :
    Leads EventsGated EventsGated EventsGated (sendEmpty env sender id) :=
  sendEmpty_leads hpoll _ fun _ h => h.emit rfl rfl

include hpoll in
theorem comAbort_eventsGated : Leads EventsGated EventsGated EventsGated (comAbort env) :=
  .bind (.modify (K := EventsGated) fun _ h => h.emit rfl rfl) fun _ =>
    .bind (sendEmpty_eventsGated (hpoll _) _) fun _ => .modify fun _ h => h

include hpoll hscreen in
theorem commandInit_eventsGated : Leads EventsGated EventsGated EventsGated (commandInit env) := by
  have hstop : Leads EventsGated EventsGated EventsGated (abortEnabled env) :=
    .ram fun _ hs => .ite (fun _ => (comAbort_eventsGated hpoll).imp fun _ h => h ▸ hs)
      fun _ => .modify fun _ h => h ▸ hs.emit rfl rfl
  have hanswer : Leads EventsGated EventsGated EventsGated (drawConfirmationScreen env) :=
    .bind (.modify (K := EventsGated) fun _ h => h.emit rfl rfl) fun _ => .bind hscreen fun _ =>
      .durable fun _ => .ram fun _ hs => (Leads.pure _).imp fun _ h => h ▸ hs
  have hyes : Leads EventsGated EventsGated EventsGated
      (modifySession fun s => (s.eventsHappen eventFlagCom).emit .accepted) :=
    .modify fun s h => EventsGated.emit (s := s.eventsHappen eventFlagCom) h rfl rfl
  exact .bind hstop fun _ => .bind hanswer fun yes => .ite
    (fun _ => .bind hyes fun _ => sendEmpty_eventsGated (hpoll _) _)
    fun _ => sendEmpty_eventsGated (hpoll _) _

include hpoll hscreen in
/-- The commands that do not ask for the consent. -/
theorem unguarded_eventsGated {id : Byte} {data : List Byte} (hid : guardedCommand id = false) :
    Leads EventsGated EventsGated EventsGated (gatedCommand t env id data) := by
  have hend : Leads EventsGated EventsGated EventsGated (commandEnd env) :=
    .bind (.modify fun s h => EventsGated.emit (s := s) h rfl rfl) fun _ =>
      sendEmpty_eventsGated (hpoll _) _
  simp only [guardedCommand, List.mem_cons, List.not_mem_nil, or_false, decide_eq_false_iff_not,
    not_or] at hid
  obtain ⟨hfram, hkey, hparam, hsetFram, hsetKey, hreset⟩ := hid
  rw [gatedCommand, if_neg hfram, if_neg hkey, if_neg hparam, if_neg hsetFram, if_neg hsetKey,
    if_neg hreset]
  exact .ite (fun _ => commandInit_eventsGated hpoll hscreen) fun _ => .ite (fun _ => hend)
    fun _ => comAbort_eventsGated hpoll

include hpoll hgrows hlasts hkept in
/-- The commands that ask for it. -/
theorem guarded_eventsGated {id : Byte} {data : List Byte} (hid : guardedCommand id = true) :
    Leads Trusted EventsGated EventsGated (gatedCommand t env id data) := by
  have hI : ∀ s, Trusted s → EventsGated s := fun _ h => h.eventsGated
  have hreply : ∀ s id, EventsGated s → EventsGated (s.emit (.header id 0)) :=
    fun _ _ h => h.emit rfl rfl
  have hwait : ∀ id ∈ [comGetFram, comGetKey, comGetParam, comReset],
      Leads Trusted EventsGated Trusted (env.poll (.command id)) := fun id hmem =>
    trusted_wait (hpoll _) (hgrows _) (hlasts id hmem)
  simp only [guardedCommand, List.mem_cons, List.not_mem_nil, or_false, decide_eq_true_eq] at hid
  rcases hid with rfl | rfl | rfl | rfl | rfl | rfl
  · exact (commandGetFram_leads steady_trusted (hwait _ (by decide))).mono hI
  · exact commandGetKey_leads steady_trusted hI (hwait _ (by decide)) hkept hreply (hpoll _)
  · exact (commandGetParam_leads steady_trusted (hwait _ (by decide))).mono hI
  · exact commandSetFram_leads steady_trusted hI hreply (hpoll _) data
  · exact commandSetKey_leads steady_trusted hI hI hreply (hpoll _) data
  · exact commandReset_leads steady_trusted hI (hwait _ (by decide))

include hpoll hscreen hgrows hlasts hkept in
/-- A call of `com_exec`, behind the event that records it. -/
theorem comExec_eventsGated {call : Call} (h : EventsGated s) (hid : call.id = s.parser.id) :
    Leads (· = s.emit (.exec call s.enabled)) EventsGated EventsGated
      (comExec t env call.data) := by
  have hcalled : EventsGated (s.emit (.exec call s.enabled)) := h.emit rfl rfl
  refine .ram fun s' hs' => ?_
  subst hs'
  have hversion : Leads EventsGated EventsGated EventsGated (commandGetVersion env) :=
    sendCommand_leads (hpoll _) _ (fun _ h => h.emit rfl rfl) fun _ _ h => h.emit rfl rfl
  refine .ite (fun _ => hversion.imp fun _ h => h ▸ hcalled) fun _ =>
    .ite (fun _ => (sendEmpty_eventsGated (hpoll _) _).imp fun _ h => h ▸ hcalled) fun hgate => ?_
  cases hguarded : guardedCommand s.parser.id with
  | false => exact (unguarded_eventsGated hpoll hscreen hguarded).imp fun _ h => h ▸ hcalled
  | true =>
      have hinit : s.parser.id ≠ comInit := fun hinit => by
        rw [hinit] at hguarded
        exact absurd hguarded (by decide)
      have henabled : s.enabled = true :=
        by_contra fun hdisabled => hgate ⟨(Bool.not_eq_true _).mp hdisabled, hinit⟩
      refine (guarded_eventsGated hpoll hgrows hlasts hkept hguarded).imp fun _ hs => ?_
      subst hs
      intro hcalls
      refine ⟨hcalled hcalls, ?_⟩
      -- the call is let through, so the log before it has the consent
      change callsGated (.exec call s.enabled :: s.log) = true at hcalls
      rw [henabled, callsGated, everywhere, Bool.and_eq_true] at hcalls
      change consented s.log = true
      simpa [Event.letThrough, hid, hguarded] using hcalls.1

include hpoll hscreen hgrows hlasts hkept in
theorem packet_eventsGated (data : List Byte) (lenght : ℕ) :
    Leads EventsGated EventsGated EventsGated (comProcessData t env data lenght) :=
  comProcessData_leads (fun _ => id) (comAbort_eventsGated hpoll)
    (fun _ _ _ h => h.emit rfl rfl) (fun _ _ h => h) (fun _ _ h => h)
    (fun s parser _ h hid => comExec_eventsGated (s := { s with parser := parser }) hpoll hscreen
      hgrows hlasts hkept h hid) data lenght

end Events

theorem background_eventsGated {m : Com Unit} (hm : Background t .consenting m) :
    Leads EventsGated EventsGated EventsGated m :=
  Background.leads (w := .consenting)
    (fun env data lenght hgranted hbackground hpoll hscreen _ _ =>
      packet_eventsGated hpoll hscreen (fun _ => (hbackground _).grows) hgranted.1
        (grants_keyKept (hbackground _)) data lenght)
    (fun _ _ h => h) (fun _ _ _ _ h => h) (fun _ _ _ _ h => h)
    (fun m _ p s h => by
      rw [wp_liftDev]
      exact wp_always m (fun _ _ _ => h) fun _ _ => h) hm

theorem eventsGated_of_seen (h : Seen t .consenting s) : EventsGated s :=
  h.invariant (fun _ _ => rfl) (fun _ => background_eventsGated)
    (fun s _ (h : EventsGated s) => h.emit (s := s) rfl rfl) fun _ => id

/-! ## The gate -/

/-- Packets, timers and buttons, and nothing else of the firmware. -/
def World.packets : World := ⟨fun _ => True, fun _ => False, fun _ => False⟩

/-- If what arrives while an abort answers does not get behind the gate, and what
arrives while a command that is let through replies does not take the consent from
it, then every event that asks for the consent has it, and `KEY` is sent only once
it has been entered.  Whatever arrives and however the user answers: while the gate
is closed, packets lead to nothing but refusals and the screen, until he says yes. -/
theorem consent_gate (t : Target) :
    (∀ s, Seen t .consenting s → gated s.log = true) ∧
      ∀ m, Background t .packets m → ∀ p s, s.enabled = false →
        Outside p s (replay p (m p s).trace) (m p s).ram := by
  refine ⟨fun s h => eventsGated_of_seen h (callsGated_of_seen h), fun m hm p s hclosed => ?_⟩
  have hrun := (hm.harmless (fun _ => id) p s hclosed).2
  cases hresult : (m p s).result with
  | none => rwa [hresult] at hrun
  | some a => rwa [hresult] at hrun

theorem consenting_patient : World.consenting.grants .patient :=
  ⟨fun _ _ => .pure (), .pure ()⟩

/-- `COM_GET_PARAM`, with the consent. -/
theorem consent_gate_param :
    .payload comParam (List.replicate 5 0 ++ [softwareVersion]) false ∈
        (allowed ⟨.exact, .xorKey⟩ [0x12, 0, 0, 0] .zero .fresh).ram.log ∧
      gated (allowed ⟨.exact, .xorKey⟩ [0x12, 0, 0, 0] .zero .fresh).ram.log = true := by
  refine ⟨by decide +kernel, (consent_gate ⟨.exact, .xorKey⟩).1 _ ⟨_, _, _, .boot _ _,
    background_allowed consenting_patient (by decide) (by decide), rfl⟩⟩

/-- `COM_END` arrives while `COM_GET_PARAM` replies. -/
def endDuring (t : Target) (sender : Sender) (s : Session) : Com Unit :=
  if sender = .command comGetParam ∧ s.enabled = true then packetIn t [0x03, 0, 0, 0] else pure ()

def Env.interrupted (t : Target) : Env :=
  { Env.patient with poll := fun sender p s => endDuring t sender s p s }

theorem background_endDuring {t : Target} (sender : Sender) (s : Session) :
    Background t .any (endDuring t sender s) := by
  unfold endDuring
  split_ifs
  · exact background_packetIn trivial (by decide) (by decide)
  · exact .idle

/-- The parameters are sent after the communication has ended. -/
theorem consent_gate_interrupted :
    let m : Com Unit := do
      packetIn ⟨.exact, .xorKey⟩ [0x02, 0, 0, 0]
      comProcessData ⟨.exact, .xorKey⟩ (.interrupted ⟨.exact, .xorKey⟩) [0x12, 0, 0, 0] 4
    Seen ⟨.exact, .xorKey⟩ .any (m .zero .fresh).ram ∧ gated (m .zero .fresh).ram.log = false := by
  intro m
  have hpoll : ∀ sender, Background ⟨.exact, .xorKey⟩ .any
      ((Env.interrupted ⟨.exact, .xorKey⟩).poll sender) := fun sender =>
    .choose (fun _ s => endDuring ⟨.exact, .xorKey⟩ sender s) fun _ s =>
      background_endDuring sender s
  exact ⟨⟨_, _, m, .boot _ _, .seq _ _ (background_packetIn trivial (by decide) (by decide))
    (.packet _ _ _ trivial hpoll .idle (by decide) (by decide)), rfl⟩, by decide +kernel⟩

end PasswordWallet
