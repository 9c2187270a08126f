import PasswordWallet.Communication.Effects
import PasswordWallet.Hardware.Buttons
import PasswordWallet.Security.Random

/-!
# Runs of the device with its communication

The USB task runs wherever the firmware waits: in the main loop, in the menus, in
the confirmation screen and while a reply goes out.  What it and the interrupts do
in such a place is a `Background` program, and the packets that it processes may
again wait; so packets are processed inside the commands of other packets, to any
depth.  Between two of these places the rest of the firmware does what it likes
with the memories and the RAM, but it knows nothing of the communication.

`Reachable` are the states that runs come to, and `Seen` also counts the state of
a run that does not go on.
-/

namespace PasswordWallet

open PowerLoss

/-- The button `i` is pressed. -/
def pressButton (i : Fin 4) : Com Unit :=
  modifySession fun s => s.eventsHappen (buttonToEvent s.ram.optionsFlag (1 <<< i.val))

/-- `events_get`, for its effect. -/
def eventsGet : Com Unit := modifySession fun s => s.clearEvents eventAllButtons

/-- The assignment of `opt_callback_full_reset`. -/
def Session.clearVariables (s : Session) : Session :=
  { s with
    flags := 0
    ram := { s.ram with currentPasswordId := 0, keyEntered := false, numPwd := 0, optionsFlag := 0 }
    log := .stopped :: s.log }

/-- What is granted of a run: how the user answers and what arrives during the
commands, which parts of the rest of the firmware run, and when a full reset
clears the variables. -/
structure World where
  grants : Env → Prop
  firmware : Dev Unit → Prop
  mayReset : Session → Prop

/-- Nothing is granted. -/
def World.any : World := ⟨fun _ => True, fun _ => True, fun _ => True⟩

/-- What may happen where the firmware waits.  A packet stands in memory, where the
pointer can read it. -/
inductive Background (t : Target) (w : World) : Com Unit → Prop
  | idle : Background t w (pure ())
  | packet (env : Env) (data : List Byte) (lenght : ℕ) (hgranted : w.grants env)
      (hpoll : ∀ sender, Background t w (env.poll sender)) (hscreen : Background t w env.screen)
      (hlenght : lenght < 256) (hdata : (lenght + 255) % 256 < data.length) :
      Background t w (comProcessData t env data lenght)
  | timer (late : Bool) : Background t w (modifySession fun s => { s with timedOut := late })
  | button (i : Fin 4) : Background t w (pressButton i)
  | buttonsTaken : Background t w eventsGet
  | sleepSet : Background t w (modifySession fun s => s.eventsHappen eventSleepShutdown)
  | sleepTaken : Background t w (modifySession fun s => s.clearEvents eventSleepShutdown)
  | noSleepSet : Background t w (modifySession fun s => s.eventsHappen eventNoSleep)
  | noSleepCleared : Background t w (modifySession fun s => s.clearEvents eventNoSleep)
  | firmware (m : Dev Unit) (hm : w.firmware m) : Background t w (liftDev m)
  | seq (m m' : Com Unit) (hm : Background t w m) (hm' : Background t w m') :
      Background t w (do m; m')
  | choose (f : Image → Session → Com Unit) (hf : ∀ p s, Background t w (f p s)) :
      Background t w (fun p s => f p s p s)

/-- The states between two steps of a run. -/
inductive Reachable (t : Target) (w : World) : Image → Session → Prop
  | boot (p : Image) (ram : Ram) : Reachable t w p (.boot ram)
  | step {p p' : Image} {s s' : Session} {m : Com Unit} (hs : Reachable t w p s)
      (hm : Background t w m) (hrun : Completes m p s () p' s') : Reachable t w p' s'
  | fullReset {p : Image} {s : Session} (hs : Reachable t w p s) (hreset : w.mayReset s) :
      Reachable t w p s.clearVariables

/-- The states that steps lead to, whether they come to their end or not. -/
def Seen (t : Target) (w : World) (s : Session) : Prop :=
  ∃ p₀ s₀ m, Reachable t w p₀ s₀ ∧ Background t w m ∧ s = (m p₀ s₀).ram

/-! ## Invariants -/

/-- From `I` a program comes to `K`, or ends for good in `J`. -/
def Leads {α : Type} (I : Session → Prop) (J : Session → Prop) (K : Session → Prop) (m : Com α) :
    Prop :=
  ∀ p s, I s → wp m (fun _ _ s' => K s') (fun _ s' => J s') (fun _ _ => True) p s

variable {t : Target} {w : World} {α β : Type} {I J K L : Session → Prop}

theorem Leads.imp {m : Com α} {I' : Session → Prop} (h : Leads I J K m) (hI : ∀ s, I' s → I s) :
    Leads I' J K m := fun p s hs => h p s (hI s hs)

theorem Leads.bind {m : Com α} {f : α → Com β} (hm : Leads I J K m)
    (hf : ∀ a, Leads K J L (f a)) : Leads I J L (m >>= f) := fun p s hs => by
  rw [wp_bind]
  exact wp_imp (hm p s hs) fun a p₁ s₁ h₁ => hf a p₁ s₁ h₁

theorem Leads.pure (a : α) : Leads I J I (pure a : Com α) := fun _ _ hs => (wp_pure a).mpr hs

theorem Leads.modify {f : Session → Session} (hf : ∀ s, I s → K (f s)) :
    Leads I J K (modifySession f) := fun _ s hs => (wp_modifySession f).mpr (hf s hs)

theorem Leads.ite {c : Prop} [Decidable c] {m m' : Com α} (hm : c → Leads I J K m)
    (hm' : ¬c → Leads I J K m') : Leads I J K (if c then m else m') := by
  split_ifs with h
  · exact hm h
  · exact hm' h

/-- The session is read. -/
theorem Leads.ram {f : Session → Com β} (hf : ∀ s, I s → Leads (· = s) J L (f s)) :
    Leads I J L (Program.ram >>= f) := fun p s hs => by
  rw [wp_bind, wp_ram]
  exact hf s hs p s rfl

theorem Leads.durable {f : Image → Com β} (hf : ∀ p, Leads I J L (f p)) :
    Leads I J L (Program.durable >>= f) := fun p s hs => by
  rw [wp_bind, wp_durable]
  exact hf p p s hs

theorem Leads.hang (hJ : ∀ s, I s → J s) : Leads I J K (Program.hang : Com α) :=
  fun _ s hs => wp_hang.mpr (hJ s hs)

theorem Leads.forUp {body : ℕ → Com Unit} (hbody : ∀ i, Leads I J I (body i)) (start count : ℕ) :
    Leads I J I (Program.forUp start count body) := by
  induction count generalizing start with
  | zero => exact .pure ()
  | succ count ih => exact .bind (hbody start) fun _ => ih (start + 1)

/-! ## Replies -/

section Replies

variable {env : Env} {sender : Sender} (hpoll : Leads I J I (env.poll sender)) (id : Byte)
include hpoll

theorem sendHeader_leads (size : ℕ) (hemit : ∀ s, I s → I (s.emit (.header id size))) :
    Leads I J I (sendHeader env sender id size) :=
  .bind (.modify hemit) fun _ => .bind hpoll fun _ => hpoll

theorem sendData_leads {data : Session → List Byte}
    (hemit : ∀ s, I s → I (s.emit (.payload id (data s) s.ram.keyEntered))) :
    Leads I J I (sendData env sender id data) :=
  .ram fun s hs => .bind (.modify (K := I) fun _ h => h ▸ hemit s hs) fun _ => hpoll

theorem sendCommand_leads {size : ℕ} {data : Session → List Byte}
    (hheader : ∀ s, I s → I (s.emit (.header id size)))
    (hpayload : size ≠ 0 → ∀ s, I s → I (s.emit (.payload id (data s) s.ram.keyEntered))) :
    Leads I J I (sendCommand env sender id size data) :=
  .bind (sendHeader_leads hpoll id size hheader) fun _ =>
    .ite (fun hsize => sendData_leads hpoll id (hpayload hsize)) fun _ => .pure ()

theorem sendEmpty_leads (hheader : ∀ s, I s → I (s.emit (.header id 0))) :
    Leads I J I (sendEmpty env sender id) :=
  sendCommand_leads hpoll id hheader fun h => absurd rfl h

end Replies

/-! ## Runs -/

theorem buttonToEvent_bits (optionsFlag : Byte) (i : Fin 4) :
    (buttonToEvent optionsFlag (1 <<< i.val)).getLsbD 7 = false ∧
      (buttonToEvent optionsFlag (1 <<< i.val)).getLsbD 4 = false := by
  unfold buttonToEvent
  split_ifs
  · revert i
    decide
  · revert i
    decide

/-- What packets preserve and the rest does not touch holds where the firmware
waits. -/
theorem Background.leads
    (hpacket : ∀ env data lenght, w.grants env → (∀ sender, Background t w (env.poll sender)) →
      (∀ sender, Leads I J I (env.poll sender)) → Leads I J I env.screen → lenght < 256 →
      (lenght + 255) % 256 < data.length →
      Leads I J I (comProcessData t env data lenght))
    (htimer : ∀ s late, I s → I { s with timedOut := late })
    (hhappen : ∀ s event, event.getLsbD 7 = false → event.getLsbD 4 = false → I s →
      I (s.eventsHappen event))
    (hclear : ∀ s event, event.getLsbD 7 = false → event.getLsbD 4 = false → I s →
      I (s.clearEvents event))
    (hfirmware : ∀ m, w.firmware m → Leads I J I (liftDev m)) {m : Com Unit}
    (hm : Background t w m) : Leads I J I m := by
  induction hm with
  | idle => exact .pure ()
  | packet env data lenght hgranted hpoll _ hlenght hdata ihpoll ihscreen =>
      exact hpacket env data lenght hgranted hpoll ihpoll ihscreen hlenght hdata
  | timer late => exact .modify fun s => htimer s late
  | button i =>
      exact .modify fun s => hhappen s _ (buttonToEvent_bits _ i).1 (buttonToEvent_bits _ i).2
  | buttonsTaken => exact .modify fun s => hclear s _ rfl rfl
  | sleepSet => exact .modify fun s => hhappen s _ rfl rfl
  | sleepTaken => exact .modify fun s => hclear s _ rfl rfl
  | noSleepSet => exact .modify fun s => hhappen s _ rfl rfl
  | noSleepCleared => exact .modify fun s => hclear s _ rfl rfl
  | firmware m hm => exact hfirmware m hm
  | seq m m' _ _ ih ih' => exact .bind ih fun _ => ih'
  | choose f _ ih => exact fun p s hs => ih p s p s hs

/-- The changes that packets and interrupts are made of. -/
structure AdmitsPackets (R : Session → Session → Prop) : Prop extends Admits R where
  call : ∀ s event, R s (s.emit event)
  parser : ∀ (s : Session) parser, R s { s with parser := parser }
  timer : ∀ (s : Session) late, R s { s with timedOut := late }
  clear : ∀ (s : Session) (event : Byte), event.getLsbD 4 = false → R s (s.clearEvents event)

section Moves

variable {R : Session → Session → Prop} (hR : AdmitsPackets R)
include hR

section Packet

variable {env : Env} (hpoll : ∀ sender, Moves R (env.poll sender)) (hscreen : Moves R env.screen)
include hpoll hscreen

theorem callExec_moves (call : Option Call) : Moves R (callExec (comExec t env) call) := by
  cases call with
  | none => exact .pure hR.toAdmits ()
  | some call => exact .bind hR.toAdmits (.modify fun s => hR.call s _) fun _ =>
      comExec_moves hR.toAdmits hpoll hscreen call.data

theorem processPass_moves (c : Cursor) : Moves R (processPass (comExec t env) c) := by
  have hR' := hR.toAdmits
  have hnote : Moves R noteStart :=
    .bind hR' (.ram hR') fun _ => .ite (.modify fun s => hR.call s _) (.pure hR' ())
  exact .bind hR' hnote fun _ => .bind hR' (.ram hR') fun _ =>
    .bind hR' (.modify fun s => hR.parser s _) fun _ =>
      .bind hR' (callExec_moves hR hpoll hscreen _) fun _ => .pure hR' _

theorem processLoop_moves (fuel : ℕ) (c : Cursor) :
    Moves R (processLoop (comExec t env) fuel c) := by
  have hR' := hR.toAdmits
  induction fuel generalizing c with
  | zero => exact .hang hR'
  | succ fuel ih =>
      exact .bind hR' (processPass_moves hR hpoll hscreen c) fun c' => .ite (.pure hR' ()) (ih c')

theorem comProcessData_moves (data : List Byte) (lenght : ℕ) :
    Moves R (comProcessData t env data lenght) := by
  have hR' := hR.toAdmits
  have habort : Moves R (abortLate (comAbort env)) :=
    .bind hR' (.ram hR') fun _ => .ite
      (.bind hR' (comAbort_moves hR' hpoll) fun _ => .modify fun s => hR.parser s _) (.pure hR' ())
  exact .bind hR' habort fun _ => .bind hR' (.modify fun s => hR.timer s false) fun _ =>
    processLoop_moves hR hpoll hscreen _ _

end Packet

theorem Background.moves (hfirmware : ∀ m, w.firmware m → Moves R (liftDev m)) {m : Com Unit}
    (hm : Background t w m) : Moves R m := by
  have hR' := hR.toAdmits
  induction hm with
  | idle => exact .pure hR' ()
  | packet env data lenght _ _ _ _ _ ihpoll ihscreen =>
      exact comProcessData_moves hR ihpoll ihscreen data lenght
  | timer late => exact .modify fun s => hR.timer s late
  | button i => exact .modify fun s => hR.happen s _
  | buttonsTaken => exact .modify fun s => hR.clear s _ rfl
  | sleepSet => exact .modify fun s => hR.happen s _
  | sleepTaken => exact .modify fun s => hR.clear s _ rfl
  | noSleepSet => exact .modify fun s => hR.happen s _
  | noSleepCleared => exact .modify fun s => hR.clear s _ rfl
  | firmware m hm => exact hfirmware m hm
  | seq m m' _ _ ih ih' => exact .bind hR' ih fun _ => ih'
  | choose f _ ih => exact fun p s => ih p s p s

end Moves

/-- What holds after a reset and is preserved by each step holds in every reachable
state. -/
theorem Reachable.invariant (hboot : ∀ ram, I (.boot ram))
    (hstep : ∀ m, Background t w m → Leads I J I m)
    (hreset : ∀ s, w.mayReset s → I s → I s.clearVariables) {p : Image} {s : Session}
    (h : Reachable t w p s) : I s := by
  induction h with
  | boot p ram => exact hboot ram
  | step _ hm hrun ih => exact wp_completes (hstep _ hm _ _ ih) hrun
  | fullReset _ hs ih => exact hreset _ hs ih

/-- What follows of the invariant, and holds where a step does not come to its end,
holds in every state that is seen. -/
theorem Seen.invariant (hboot : ∀ ram, I (.boot ram))
    (hstep : ∀ m, Background t w m → Leads I J I m)
    (hreset : ∀ s, w.mayReset s → I s → I s.clearVariables) (hIJ : ∀ s, I s → J s) {s : Session}
    (h : Seen t w s) : J s := by
  obtain ⟨p₀, s₀, m, hreachable, hm, rfl⟩ := h
  have hrun := (hstep m hm p₀ s₀ (hreachable.invariant hboot hstep hreset)).2
  cases hresult : (m p₀ s₀).result with
  | none => rwa [hresult] at hrun
  | some a =>
      rw [hresult] at hrun
      exact hIJ _ hrun

/-! ## Concrete runs -/

/-- A packet that stands alone in memory. -/
def packetIn (t : Target) (packet : List Byte) : Com Unit :=
  comProcessData t .patient packet packet.length

theorem background_packetIn {t : Target} {w : World} (hgranted : w.grants .patient)
    {packet : List Byte} (hpos : packet ≠ []) (hle : packet.length ≤ 255) :
    Background t w (packetIn t packet) := by
  have hlength := List.length_pos_iff.mpr hpos
  exact .packet _ _ _ hgranted (fun _ => .idle) .idle (by omega) (by omega)

/-- The user allows the communication, and then a packet arrives. -/
def allowed (t : Target) (packet : List Byte) : Com Unit := do
  packetIn t [0x02, 0, 0, 0]
  packetIn t packet

theorem background_allowed {t : Target} {w : World} (hgranted : w.grants .patient)
    {packet : List Byte} (hpos : packet ≠ []) (hle : packet.length ≤ 255) :
    Background t w (allowed t packet) :=
  .seq _ _ (background_packetIn hgranted (by simp) (by simp))
    (background_packetIn hgranted hpos hle)

end PasswordWallet
