import PasswordWallet.Communication.Background

/-!
# The user's consent

The user consents to the communication when he says yes to the confirmation screen,
and everything that stops the communication ends the consent.  A log tells whether
he consents at each of its events: `gated` says so of the events that ask for it.

The gate is a bit that is set and cleared elsewhere.  What it is worth is said in
two parts: a command behind the gate that is let through finds the consent
(`callsGated`), and it still has it when it reads, writes or sends.  Each of them
can fail where the USB task runs inside a command, and is asked of that place.
-/

namespace PasswordWallet

open PowerLoss

/-- The user has said yes, and nothing has stopped the communication since. -/
def consented : List Event → Bool
  | [] => false
  | .accepted :: _ => true
  | .stopped :: _ => false
  | _ :: earlier => consented earlier

/-- What holds of each event of a log, given the events before it. -/
def everywhere (good : Event → List Event → Bool) : List Event → Bool
  | [] => true
  | event :: earlier => good event earlier && everywhere good earlier

/-- The commands that read or write a memory, send what is in one, or reset. -/
def guardedCommand (id : Byte) : Bool :=
  id ∈ [comGetFram, comGetKey, comGetParam, comSetFram, comSetKey, comReset]

/-- The events that ask for the consent. -/
def Event.guarded : Event → Bool
  | .framRead _ | .framWrite _ _ | .keyWrite _ | .reset => true
  | .payload id _ _ => id ∈ [comFram, comKey, comParam]
  | _ => false

/-- If `KEY` is sent, it has been entered. -/
def Event.keyShown : Event → Bool
  | .payload id _ keyEntered => id ≠ comKey ∨ keyEntered = true
  | _ => true

/-- Every event that asks for the consent has it, and `KEY` is sent only once it
has been entered. -/
def gated : List Event → Bool :=
  everywhere fun event earlier => (!event.guarded || consented earlier) && event.keyShown

/-- A command that asks for the consent is called, the gate being open. -/
def Event.letThrough : Event → Bool
  | .exec call true => guardedCommand call.id
  | _ => false

/-- Every command that is let through has the consent. -/
def callsGated : List Event → Bool :=
  everywhere fun event earlier => !event.letThrough || consented earlier

/-! ## Events that do not change the consent -/

/-- The events that neither give nor take the consent, nor call a command. -/
def Event.neutral : Event → Bool
  | .exec _ _ | .accepted | .stopped => false
  | event => event.keyShown

section Neutral

variable {event : Event} {log : List Event}

theorem consented_cons (hevent : event.neutral = true) :
    consented (event :: log) = consented log := by
  cases event <;> first | rfl | cases hevent

theorem callsGated_cons (hevent : event.letThrough = false) :
    callsGated (event :: log) = callsGated log := by
  simp [callsGated, everywhere, hevent]

theorem callsGated_cons_neutral (hevent : event.neutral = true) :
    callsGated (event :: log) = callsGated log :=
  callsGated_cons (by cases event <;> first | rfl | cases hevent)

theorem keyShown_of_neutral (hevent : event.neutral = true) : event.keyShown = true := by
  cases event <;> first | rfl | exact hevent

/-- An event that has the consent, or does not ask for it. -/
theorem gated_cons (hevent : event.keyShown = true)
    (hconsented : event.guarded = true → consented log = true) (h : gated log = true) :
    gated (event :: log) = true := by
  unfold gated at h ⊢
  rw [everywhere]
  cases hguarded : event.guarded with
  | false => simpa [hevent] using h
  | true => simpa [hevent, hconsented hguarded] using h

theorem callsGated_of_suffix {log' : List Event} (hsuffix : log <:+ log')
    (h : callsGated log' = true) : callsGated log = true := by
  obtain ⟨new, rfl⟩ := hsuffix
  induction new with
  | nil => exact h
  | cons event new ih =>
      rw [List.cons_append, callsGated, everywhere, Bool.and_eq_true] at h
      exact ih h.2

end Neutral

/-! ## Commands that keep an invariant -/

/-- An invariant that commands keep while they work. -/
structure Steady (I : Session → Prop) : Prop where
  emit : ∀ s event, event.neutral = true → I s → I (s.emit event)
  position : ∀ s comPos comParameter, I s →
    I { s with comPos := comPos, comParameter := comParameter }
  key : ∀ s key, I s → I { s with ram := { s.ram with key := key } }
  keyEntered : ∀ s, I s → I (s.eventsHappen eventKeyEntered)

/-- A key that has been entered stays entered. -/
def KeyKept (s s' : Session) : Prop := s.ram.keyEntered = true → s'.ram.keyEntered = true

theorem admitsPackets_keyKept : AdmitsPackets KeyKept where
  refl _ := id
  trans _ _ _ h₁ h₂ := fun h => h₂ (h₁ h)
  emit _ _ _ := id
  happen s event := fun h => by rw [Session.keyEntered_eventsHappen, h, Bool.true_or]
  close s := fun h => by rw [Session.keyEntered_clearEvents, h]; rfl
  position _ _ _ := id
  key _ _ := id
  call _ _ := id
  parser _ _ := id
  timer _ _ := id
  clear s event hevent := fun h => by rw [Session.keyEntered_clearEvents, h, hevent]; rfl

section Commands

variable {t : Target} {env : Env} {I J K : Session → Prop}

theorem Leads.mono {α : Type} {m : Com α} {K' : Session → Prop} (h : Leads I J K m)
    (hK : ∀ s, K s → K' s) : Leads I J K' m := fun p s hs =>
  wp_imp (h p s hs) fun _ _ s' => hK s'

theorem Leads.and_moves {α : Type} {m : Com α} {c : Session → Prop} (h : Leads I J K m)
    (hm : Moves (fun s s' => c s → c s') m) :
    Leads (fun s => I s ∧ c s) J (fun s => K s ∧ c s) m := fun p s hs =>
  wp_mono (wp_and (h p s hs.1) (hm p s)) (fun _ _ _ hpost => ⟨hpost.1, hpost.2 hs.2⟩)
    (fun _ _ hpost => hpost.1) fun _ _ _ => trivial

variable (hI : Steady I)
include hI

theorem commandGetFram_leads (hpoll : Leads I J I (env.poll (.command comGetFram))) :
    Leads I J I (commandGetFram env) := by
  have hchunk : ∀ i, Leads I J I (framChunk env i) := fun i =>
    .durable fun _ => .bind (.modify fun s => hI.emit s _ rfl) fun _ =>
      sendData_leads hpoll _ fun s => hI.emit s _ rfl
  exact .bind (sendHeader_leads hpoll _ _ fun s => hI.emit s _ rfl) fun _ => .forUp hchunk _ _

theorem commandGetKey_leads (hIK : ∀ s, I s → K s)
    (hpoll : Leads I J I (env.poll (.command comGetKey)))
    (hkept : Moves KeyKept (env.poll (.command comGetKey)))
    (hreply : ∀ s id, K s → K (s.emit (.header id 0)))
    (hrefusal : Leads K J K (env.poll .refusal)) : Leads I J K (commandGetKey env) := by
  have hsend : Leads (fun s => I s ∧ s.ram.keyEntered = true) J _
      (sendCommand env (.command comGetKey) comKey 16 fun s => s.ram.key.toList) :=
    sendCommand_leads (hpoll.and_moves hkept) comKey (fun s h => ⟨hI.emit s _ rfl h.1, h.2⟩)
    fun _ s h => ⟨hI.emit s _ (by simp [Event.neutral, Event.keyShown, h.2]) h.1, h.2⟩
  refine .ram fun s hs => .ite (fun hset => ?_) fun _ => ?_
  · have hentered : s.ram.keyEntered = true := by
      rw [← Session.getLsbD_globalsEvents, ← bit_key]
      exact decide_eq_true hset
    exact (hsend.mono fun _ h => hIK _ h.1).imp fun _ h => h ▸ ⟨hs, hentered⟩
  · exact (sendEmpty_leads hrefusal _ fun s => hreply s _).imp fun _ h => h ▸ hIK _ hs

theorem commandGetParam_leads (hpoll : Leads I J I (env.poll (.command comGetParam))) :
    Leads I J I (commandGetParam env) :=
  .bind (sendHeader_leads hpoll _ _ fun s => hI.emit s _ rfl) fun _ =>
    sendData_leads hpoll _ fun s => hI.emit s _ rfl

theorem commandReset_leads (hIJ : ∀ s, I s → J s)
    (hpoll : Leads I J I (env.poll (.command comReset))) : Leads I J K (commandReset env) :=
  .bind (sendEmpty_leads hpoll _ fun s => hI.emit s _ rfl) fun _ =>
    .bind (.modify fun s => hI.emit s _ rfl) fun _ => .hang hIJ

theorem takeAddress_leads (data : List Byte) : Leads I J I (takeAddress data) := by
  induction data with
  | nil => exact .pure []
  | cons byte rest ih =>
      exact .ram fun _ hs => .ite
        (fun _ => .bind (.modify fun s h => hI.position s _ _ (h ▸ hs)) fun _ => ih)
        fun _ => (Leads.pure _).imp fun _ h => h ▸ hs

theorem commandSetFram_leads (hIK : ∀ s, I s → K s)
    (hreply : ∀ s id, K s → K (s.emit (.header id 0)))
    (hpoll : Leads K J K (env.poll (.command comSetFram))) (data : List Byte) :
    Leads I J K (commandSetFram env data) := by
  have hwrite : ∀ addr data, Leads I J I (writeFram addr data) := by
    intro addr data p s hs
    simp only [writeFram, wp_bind, wp_emit, wp_modifySession, wp_liftDev]
    exact wp_framWriteBytes (fun _ _ => trivial)
      (hI.position _ _ s.comParameter (hI.emit s _ rfl hs))
  have haddressed : ∀ data, Leads I J I (writeAddressed data) := fun data =>
    .ram fun _ hs => .ite (fun _ => (hwrite _ _).imp fun _ h => h ▸ hs)
      fun _ => (Leads.pure ()).imp fun _ h => h ▸ hs
  have hdone : Leads I J K (setFramDone env) := .ram fun _ hs => .ite
    (fun _ => .bind (.modify fun s h => hIK _ (hI.position s 0 0 (h ▸ hs))) fun _ =>
      sendEmpty_leads hpoll _ fun s => hreply s _)
    fun _ => (Leads.pure ()).imp fun _ h => h ▸ hIK _ hs
  exact .bind (takeAddress_leads hI data) fun data => .bind (haddressed data) fun _ => hdone

theorem storeKey_leads (hIJ : ∀ s, I s → J s) (comPos i : ℕ) (data : List Byte) :
    Leads I J I (storeKey comPos i data) := by
  induction data generalizing i with
  | nil => exact .pure ()
  | cons byte rest ih =>
      refine .bind (.bind (.modify fun s => hI.emit s _ rfl) fun _ => ?_) fun _ => ih (i + 1)
      split_ifs
      · exact .modify fun s => hI.key s _
      · exact .hang hIJ

theorem commandSetKey_leads (hIJ : ∀ s, I s → J s) (hIK : ∀ s, I s → K s)
    (hreply : ∀ s id, K s → K (s.emit (.header id 0)))
    (hpoll : Leads K J K (env.poll (.command comSetKey))) (data : List Byte) :
    Leads I J K (commandSetKey t env data) := by
  have hsend : ∀ id, Leads K J K (sendEmpty env (.command comSetKey) id) := fun id =>
    sendEmpty_leads hpoll _ fun s => hreply s _
  have hreceived : Leads I J K (keyReceived t env) := .durable fun _ => .ram fun _ hs => .ite
    (fun _ => .bind (.modify fun s h => hIK _ (hI.keyEntered s (h ▸ hs))) fun _ => hsend _)
    fun _ => (hsend _).imp fun _ h => h ▸ hIK _ hs
  have hdone : Leads I J K (setKeyDone t env) := .ram fun _ hs => .ite
    (fun _ => .bind (.modify fun s h => hI.position s 0 s.comParameter (h ▸ hs)) fun _ => hreceived)
    fun _ => (Leads.pure ()).imp fun _ h => h ▸ hIK _ hs
  exact .ram fun _ hs => .bind ((storeKey_leads hI hIJ _ _ _).imp fun _ h => h ▸ hs) fun _ =>
    .bind (.modify fun s => hI.position s _ s.comParameter) fun _ => hdone

end Commands

/-! ## Packets -/

section Packets

variable {t : Target} {env : Env} {I J : Session → Prop}

/-- A packet keeps what its calls and an abort keep. -/
theorem comProcessData_leads (hIJ : ∀ s, I s → J s) (habort : Leads I J I (comAbort env))
    (hstart : ∀ s comPos comParameter, I s → I (s.emit (.start comPos comParameter)))
    (hparser : ∀ (s : Session) parser, I s → I { s with parser := parser })
    (htimer : ∀ (s : Session) late, I s → I { s with timedOut := late })
    (hcall : ∀ (s : Session) parser call, I s → call.id = parser.id →
      Leads (· = ({ s with parser := parser } : Session).emit
        (.exec call ({ s with parser := parser } : Session).enabled)) J I
        (comExec t env call.data)) (data : List Byte) (lenght : ℕ) :
    Leads I J I (comProcessData t env data lenght) := by
  have hnote : Leads I J I noteStart := .ram fun _ hs => .ite
    (fun _ => .modify fun s h => hstart s _ _ (h ▸ hs)) fun _ => (Leads.pure ()).imp
      fun _ h => h ▸ hs
  have hpass : ∀ c, Leads I J I (processPass (comExec t env) c) := by
    refine fun c => .bind hnote fun _ p s hs => ?_
    rw [wp_bind, wp_ram, wp_bind, wp_modifySession, wp_bind]
    cases hc : (s.parser.pass c).call with
    | none => exact (wp_pure _).mpr ((wp_pure _).mpr (hparser s _ hs))
    | some call =>
        rw [callExec, wp_bind, wp_modifySession]
        refine wp_imp (hcall s _ call hs (pass_call hc).2.1 p _ rfl) fun _ _ _ h => ?_
        exact (wp_pure _).mpr h
  have hloop : ∀ fuel c, Leads I J I (processLoop (comExec t env) fuel c) := by
    intro fuel
    induction fuel with
    | zero => exact fun _ => .hang hIJ
    | succ fuel ih =>
        exact fun c => .bind (hpass c) fun c' => .ite (fun _ => .pure ()) fun _ => ih c'
  have hlate : Leads I J I (abortLate (comAbort env)) := .ram fun _ hs => .ite
    (fun _ => .bind (habort.imp fun _ h => h ▸ hs) fun _ => .modify fun s => hparser s _)
    fun _ => (Leads.pure ()).imp fun _ h => h ▸ hs
  exact .bind hlate fun _ => .bind (.modify fun s => htimer s false) fun _ => hloop _ _

end Packets

end PasswordWallet
