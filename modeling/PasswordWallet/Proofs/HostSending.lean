import PasswordWallet.Desktop.SerialInterface
import PasswordWallet.Proofs.HostCommands

/-!
# Commands that are pushed while another is sent

When a command is on the line, the top of the stack is taken away and the bottom is sent
again.  So of the commands that wait none is ever sent: in the place of each goes the one
that was on its way when it came.
-/

namespace PasswordWallet.Desktop

open SerialInterface

variable {port : SerialPort} {s s' : SerialInterface} {signal : Signal} {signals : List Signal}
  {command : Command}

/-! ## The port -/

namespace SerialDevice

theorem waitWritten_eq (d : SerialDevice) (waits : ℕ) :
    d.waitWritten waits = decide (d.outData = []) := by
  induction waits with
  | zero => rfl
  | succ waits ih => rw [waitWritten, ih, Bool.or_self]

/-- What is left is in the way of all that follows. -/
theorem send_of_outData {d : SerialDevice} (hout : d.outData ≠ []) (data : List Byte) :
    d.send port data = d := by
  rw [send, waitWritten_eq, decide_eq_false hout, Bool.not_false, if_pos rfl]

theorem send_open (hport : port.Buffered) {d : SerialDevice} (hout : d.outData = [])
    (hopen : d.isOpen = true) {data : List Byte} (hdata : data ≠ []) :
    d.send port data = { d with taken := d.taken ++ [data] } := by
  have hpos : ¬ (data.length : ℤ) ≤ 0 := by
    have hlength := List.length_pos_iff.mpr hdata
    omega
  have hwait : ¬ (!d.waitWritten (port.waits d.taken)) = true := by
    rw [waitWritten_eq, decide_eq_true hout]
    decide
  simp only [send, if_neg hwait, hopen, hport.write_open, if_neg hpos, Int.toNat_natCast,
    List.drop_length, List.take_length]
  rw [hout]

theorem send_closed (hport : port.Buffered) {d : SerialDevice} (hout : d.outData = [])
    (hclosed : d.isOpen = false) (data : List Byte) :
    d.send port data = { d with outData := data } := by
  have hwait : ¬ (!d.waitWritten (port.waits d.taken)) = true := by
    rw [waitWritten_eq, decide_eq_true hout]
    decide
  simp only [send, if_neg hwait, hclosed, hport.write_closed]
  rfl

end SerialDevice

/-! ## One signal -/

/-- The signals of a connection that stays. -/
def Signal.Kept : Signal → Prop
  | .push command => command.Valid
  | .bytesWritten => True
  | .commandReceived => True
  | _ => False

/-- The commands that are pushed. -/
def pushed : List Signal → List Command
  | [] => []
  | .push command :: signals => command :: pushed signals
  | _ :: signals => pushed signals

/-- The stack after a signal. -/
def stackAfter (stack : List Command) : Signal → List Command
  | .push command => stack ++ [command]
  | .bytesWritten => stack.dropLast
  | _ => stack

/-- What is sent in the place of the command that a signal pushes: the bottom of the stack. -/
def sentFor (stack : List Command) : Signal → List Command
  | .push command => [stack.headD command]
  | _ => []

/-- The commands that are sent for those that are pushed. -/
def standIns : List Command → List Signal → List Command
  | _, [] => []
  | stack, signal :: signals => sentFor stack signal ++ standIns (stackAfter stack signal) signals

/-- The interface during a connection. -/
structure Connected (s : SerialInterface) : Prop where
  isOpen : s.device.isOpen = true
  outData : s.device.outData = []
  sending_iff : s.sending = true ↔ s.commandStack ≠ []
  valid : ∀ command ∈ s.commandStack, command.Valid

theorem encoded_ne_nil (command : Command) : encoded command ≠ [] :=
  List.cons_ne_nil _ _

/-- The writes that the commands on the stack still lead to. -/
def owed : List Command → List (List Byte)
  | [] => []
  | command :: rest => List.replicate rest.length (encoded command)

/-- The interface when the command has been written to the port. -/
def SerialInterface.wrote (s : SerialInterface) (command : Command) : SerialInterface where
  device := { s.device with taken := s.device.taken ++ [encoded command] }
  commandStack := s.commandStack
  sending := true
  timing := true

theorem sendFirstCommand_cons (hport : port.Buffered) {rest : List Command}
    (hopen : s.device.isOpen = true) (hout : s.device.outData = []) (hcommand : command.Valid)
    (hstack : s.commandStack = command :: rest) :
    s.sendFirstCommand port = .ok (s.wrote command) := by
  have hsend := SerialDevice.send_open hport hout hopen (encoded_ne_nil command)
  rw [sendFirstCommand, hstack]
  simp only [toByteArray_of_valid hcommand, hsend, wrote, hstack]

theorem Connected.wrote {rest : List Command} (hs : Connected s)
    (hvalid : ∀ c ∈ command :: rest, c.Valid) :
    Connected ({ s with commandStack := command :: rest }.wrote command) where
  isOpen := hs.isOpen
  outData := hs.outData
  sending_iff := iff_of_true rfl (List.cons_ne_nil _ _)
  valid := hvalid

/-- What one signal does: what is owed and what has been taken grow by what stands for the
commands that are pushed. -/
structure Turn (s : SerialInterface) (signal : Signal) (s' : SerialInterface) : Prop where
  connected : Connected s'
  taken : s'.device.taken ++ owed s'.commandStack =
    s.device.taken ++ owed s.commandStack ++ (sentFor s.commandStack signal).map encoded
  stack : s'.commandStack = stackAfter s.commandStack signal

theorem pushCommand_turn (hport : port.Buffered) (hs : Connected s) (hcommand : command.Valid) :
    ∃ s', s.pushCommand port command = .ok s' ∧ Turn s (.push command) s' := by
  cases hstack : s.commandStack with
  | nil =>
      have hidle : ¬ s.sending = true := fun h => hs.sending_iff.mp h hstack
      refine ⟨{ s with commandStack := [command] }.wrote command, ?_,
        hs.wrote (List.forall_mem_singleton.mpr hcommand), ?_, ?_⟩
      · rw [pushCommand, hstack]
        simp only [if_neg hidle]
        exact sendFirstCommand_cons hport hs.isOpen hs.outData hcommand rfl
      · simp [wrote, owed, sentFor, hstack]
      · rw [hstack]
        rfl
  | cons first rest =>
      have hbusy : s.sending = true := hs.sending_iff.mpr (hstack ▸ List.cons_ne_nil _ _)
      refine ⟨{ s with commandStack := s.commandStack ++ [command] }, if_pos hbusy,
        ⟨hs.isOpen, hs.outData, iff_of_true hbusy ?_, fun c hc => ?_⟩, ?_, rfl⟩
      · exact List.append_ne_nil_of_right_ne_nil _ (List.cons_ne_nil _ _)
      · rcases List.mem_append.mp hc with hc | hc
        · exact hs.valid c hc
        · obtain rfl := List.mem_singleton.mp hc
          exact hcommand
      · -- one more of the same is owed
        have howed : owed (first :: (rest ++ [command])) =
            owed (first :: rest) ++ [encoded first] := by
          rw [owed, owed, List.length_append, List.length_singleton, List.replicate_succ']
        simp [sentFor, hstack, howed]

theorem onDataSent_turn (hport : port.Buffered) (hs : Connected s) (hstack : s.commandStack ≠ []) :
    ∃ s', s.onDataSent port = .ok s' ∧ Turn s .bytesWritten s' := by
  obtain ⟨first, rest, hfirst⟩ := List.exists_cons_of_ne_nil hstack
  have hvalid := hs.valid
  rw [hfirst] at hvalid
  rcases List.eq_nil_or_concat rest with rfl | ⟨front, last, rfl⟩
  · refine ⟨{ s with commandStack := [], sending := false }, ?_,
      ⟨hs.isOpen, hs.outData, iff_of_false Bool.false_ne_true (not_not.mpr rfl), nofun⟩, ?_, ?_⟩
    · rw [onDataSent, if_neg hstack, hfirst]
      rfl
    · simp [owed, sentFor, hfirst]
    · rw [hfirst]
      rfl
  · rw [List.concat_eq_append] at hfirst hvalid
    have hdrop : s.commandStack.dropLast = first :: front := by
      rw [hfirst, ← List.cons_append, List.dropLast_concat]
    have hfront : ∀ c ∈ first :: front, c.Valid := fun c hc =>
      hvalid c (List.cons_append ▸ List.mem_append_left _ hc)
    refine ⟨{ s with commandStack := first :: front }.wrote first, ?_, hs.wrote hfront, ?_, ?_⟩
    · rw [onDataSent, if_neg hstack]
      simp only [hdrop, ne_eq, List.cons_ne_nil, not_false_eq_true, if_true]
      exact sendFirstCommand_cons hport hs.isOpen hs.outData (hfront first List.mem_cons_self) rfl
    · simp [wrote, owed, sentFor, hfirst, List.replicate_succ]
    · exact hdrop.symm

/-- A signal that the port has written does not find a command. -/
theorem onDataSent_nil (hstack : s.commandStack = []) : s.onDataSent port = .error .emptyStack := by
  rw [onDataSent, if_pos hstack]

theorem step_turn (hport : port.Buffered) (hs : Connected s) (hsignal : signal.Kept)
    (hfound : signal = .bytesWritten → s.commandStack ≠ []) :
    ∃ s', s.step port signal = .ok s' ∧ Turn s signal s' := by
  cases signal with
  | push command => exact pushCommand_turn hport hs hsignal
  | bytesWritten =>
      rw [step, if_pos hs.isOpen, onBytesWritten, if_neg (not_not.mpr hs.outData)]
      exact onDataSent_turn hport hs (hfound rfl)
  | commandReceived =>
      refine ⟨_, rfl, ⟨hs.isOpen, hs.outData, hs.sending_iff, hs.valid⟩, ?_, rfl⟩
      exact (List.append_nil _).symm
  | _ => exact hsignal.elim

theorem step_underflow (hs : Connected s) (hstack : s.commandStack = []) :
    s.step port .bytesWritten = .error .emptyStack := by
  rw [step, if_pos hs.isOpen, onBytesWritten, if_neg (not_not.mpr hs.outData)]
  exact onDataSent_nil hstack

/-! ## Runs of a connection -/

theorem pushed_cons (signal : Signal) (signals : List Signal) :
    pushed (signal :: signals) = pushed [signal] ++ pushed signals := by
  cases signal <;> rfl

theorem stackAfter_length (stack : List Command) (hfound : signal = .bytesWritten → stack ≠ []) :
    (stackAfter stack signal).length + [signal].count .bytesWritten =
      stack.length + (pushed [signal]).length := by
  cases signal with
  | push command => simp [stackAfter, pushed]
  | bytesWritten =>
      have hpos : 0 < stack.length := List.length_pos_iff.mpr (hfound rfl)
      simp [stackAfter, pushed]
      omega
  | _ => rfl

theorem run_cons (h : run port (signal :: signals) s = .ok s') :
    ∃ t, s.step port signal = .ok t ∧ run port signals t = .ok s' := by
  rw [run] at h
  cases hstep : s.step port signal with
  | error fault =>
      rw [hstep] at h
      cases h
  | ok t =>
      rw [hstep] at h
      exact ⟨t, rfl, h⟩

/-- What a run does. -/
structure Ran (s : SerialInterface) (signals : List Signal) (s' : SerialInterface) : Prop where
  connected : Connected s'
  taken : s'.device.taken ++ owed s'.commandStack =
    s.device.taken ++ owed s.commandStack ++ (standIns s.commandStack signals).map encoded
  length : s'.commandStack.length + signals.count .bytesWritten =
    s.commandStack.length + (pushed signals).length

theorem step_found (hs : Connected s) (h : s.step port signal = .ok s') :
    signal = .bytesWritten → s.commandStack ≠ [] := by
  intro hsignal hstack
  rw [hsignal, step_underflow hs hstack] at h
  cases h

theorem run_ran (hport : port.Buffered) (hs : Connected s)
    (hkept : ∀ signal ∈ signals, signal.Kept) (h : run port signals s = .ok s') :
    Ran s signals s' := by
  induction signals generalizing s with
  | nil =>
      obtain rfl : s = s' := by simpa [run] using h
      exact ⟨hs, (List.append_nil _).symm, rfl⟩
  | cons signal signals ih =>
      obtain ⟨hsignal, hsignals⟩ := List.forall_mem_cons.mp hkept
      obtain ⟨t, hstep, hrun⟩ := run_cons h
      have hfound := step_found hs hstep
      obtain ⟨t', ht', hturn⟩ := step_turn hport hs hsignal hfound
      obtain rfl : t = t' := by simpa [hstep] using ht'
      have hran := ih hturn.connected hsignals hrun
      refine ⟨hran.connected, ?_, ?_⟩
      · rw [hran.taken, hturn.taken, hturn.stack, standIns, List.map_append, List.append_assoc]
      · have hone := stackAfter_length _ hfound
        have hrest := hran.length
        rw [hturn.stack] at hrest
        rw [pushed_cons, List.length_append, ← List.singleton_append, List.count_append]
        omega

/-- No write is reported before there is a command for it. -/
def InTime (depth : ℕ) (signals : List Signal) : Prop :=
  ∀ n, (signals.take n).count .bytesWritten ≤ depth + (pushed (signals.take n)).length

theorem inTime_cons (depth : ℕ) (signal : Signal) (signals : List Signal) :
    InTime depth (signal :: signals) ↔ (signal = .bytesWritten → depth ≠ 0) ∧
      InTime (depth + (pushed [signal]).length - [signal].count .bytesWritten) signals := by
  have hone : [signal].count .bytesWritten ≤ 1 ∧
      ([signal].count .bytesWritten = 1 ↔ signal = .bytesWritten) ∧
      (signal = .bytesWritten → (pushed [signal]).length = 0) := by
    cases signal <;> simp [pushed]
  have hsplit : ∀ n, ((signal :: signals).take (n + 1)).count .bytesWritten =
      [signal].count .bytesWritten + (signals.take n).count .bytesWritten ∧
      (pushed ((signal :: signals).take (n + 1))).length =
        (pushed [signal]).length + (pushed (signals.take n)).length := by
    intro n
    rw [List.take_succ_cons, pushed_cons, List.length_append, ← List.singleton_append,
      List.count_append]
    exact ⟨rfl, rfl⟩
  constructor
  · intro h
    refine ⟨fun hsignal hdepth => ?_, fun n => ?_⟩
    · have hfirst := h 1
      rw [(hsplit 0).1, (hsplit 0).2] at hfirst
      simp [hsignal, hdepth, pushed] at hfirst
    · have hn := h (n + 1)
      rw [(hsplit n).1, (hsplit n).2] at hn
      omega
  · rintro ⟨hfound, hrest⟩ n
    cases n with
    | zero => exact Nat.zero_le _
    | succ n =>
        have hn := hrest n
        rw [(hsplit n).1, (hsplit n).2]
        by_cases hsignal : signal = .bytesWritten
        · have hdepth := hfound hsignal
          have hcount := hone.2.1.mpr hsignal
          omega
        · have hcount := hone.2.1.not.mpr hsignal
          omega

theorem run_ok_iff (hport : port.Buffered) (hs : Connected s)
    (hkept : ∀ signal ∈ signals, signal.Kept) :
    (∃ s', run port signals s = .ok s') ↔ InTime s.commandStack.length signals := by
  induction signals generalizing s with
  | nil => exact iff_of_true ⟨s, rfl⟩ fun n => by simp
  | cons signal signals ih =>
      obtain ⟨hsignal, hsignals⟩ := List.forall_mem_cons.mp hkept
      rw [inTime_cons, run]
      by_cases hfound : signal = .bytesWritten → s.commandStack ≠ []
      · obtain ⟨t, ht, hturn⟩ := step_turn hport hs hsignal hfound
        have hdepth : s.commandStack.length + (pushed [signal]).length -
            [signal].count .bytesWritten = t.commandStack.length := by
          rw [hturn.stack, ← stackAfter_length _ hfound, Nat.add_sub_cancel]
        rw [ht, hdepth]
        refine (ih hturn.connected hsignals).trans (and_iff_right fun h hzero => ?_).symm
        exact hfound h (List.length_eq_zero_iff.mp hzero)
      · obtain ⟨rfl, hstack⟩ := Classical.not_imp.mp hfound
        rw [not_not] at hstack
        rw [step_underflow hs hstack, hstack]
        exact iff_of_false (fun ⟨_, h⟩ => nomatch h) fun h => h.1 rfl rfl

theorem encoded_injective : Function.Injective encoded := by
  intro a b h
  have hdata : a.data = b.data := by
    have := congrArg (List.drop 4) h
    simpa [encoded] using this
  have htype : a.type = b.type := by
    have := congrArg List.head? h
    simpa [encoded] using this
  cases a
  cases b
  cases hdata
  cases htype
  rfl

/-- During a connection that begins with nothing on its way, the interface fails exactly
when a write is reported that no command has led to.  Else the port takes for each command
the one that is on the bottom of the stack when it is pushed, and in the end the pushed
commands themselves only if these are the same. -/
theorem run_standIns (hport : port.Buffered) (hs : Connected s) (hidle : s.commandStack = [])
    (hkept : ∀ signal ∈ signals, signal.Kept) :
    ((∃ s', run port signals s = .ok s') ↔ InTime 0 signals) ∧
      ∀ s', run port signals s = .ok s' →
        s'.commandStack.length + signals.count .bytesWritten = (pushed signals).length ∧
        s'.device.taken ++ owed s'.commandStack =
          s.device.taken ++ (standIns [] signals).map encoded ∧
        (s'.commandStack = [] →
          (s'.device.taken = s.device.taken ++ (pushed signals).map encoded ↔
            standIns [] signals = pushed signals)) := by
  have hok := run_ok_iff hport hs hkept
  rw [hidle] at hok
  refine ⟨hok, fun s' h => ?_⟩
  have hran := run_ran hport hs hkept h
  have htaken := hran.taken
  have hlength := hran.length
  rw [hidle, owed, List.append_nil] at htaken
  rw [hidle, List.length_nil, Nat.zero_add] at hlength
  refine ⟨hlength, htaken, fun hend => ?_⟩
  rw [hend, owed, List.append_nil] at htaken
  rw [htaken, List.append_cancel_left_eq, (List.map_injective_iff.mpr encoded_injective).eq_iff]

/-- A port with a buffer, on which nothing is on its way. -/
def SerialPort.idle : SerialPort where
  write isOpen data := if isOpen then data.length else -1
  waits _ := 0

theorem SerialPort.idle_buffered : SerialPort.idle.Buffered where
  write_open _ := rfl
  write_closed _ := rfl

/-- `GetFram` comes before `InitCommunication` is written, so that this is sent twice. -/
theorem run_standIns_init :
    ∃ s', run .idle [.push initCommunication, .push ⟨0x10, []⟩, .bytesWritten, .bytesWritten]
        ⟨⟨true, [], []⟩, [], false, false⟩ = .ok s' ∧
      s'.device.taken = [encoded initCommunication, encoded initCommunication] := by
  have hkept : ∀ signal ∈ [Signal.push initCommunication, .push ⟨0x10, []⟩, .bytesWritten,
      .bytesWritten], signal.Kept := by
    have hinit : initCommunication.Valid := ⟨by decide, by decide⟩
    have hget : Command.Valid ⟨0x10, []⟩ := ⟨by decide, by decide⟩
    intro signal hsignal
    simp only [List.mem_cons, List.not_mem_nil, or_false] at hsignal
    rcases hsignal with rfl | rfl | rfl | rfl
    · exact hinit
    · exact hget
    · trivial
    · trivial
  have hs : Connected ⟨⟨true, [], []⟩, [], false, false⟩ := ⟨rfl, rfl, by decide, by simp⟩
  obtain ⟨s', h⟩ : ∃ s', run .idle [.push initCommunication, .push ⟨0x10, []⟩, .bytesWritten,
      .bytesWritten] ⟨⟨true, [], []⟩, [], false, false⟩ = .ok s' := ⟨_, rfl⟩
  obtain ⟨hlength, htaken, -⟩ := (run_standIns SerialPort.idle_buffered hs rfl hkept).2 s' h
  have hstack : s'.commandStack = [] :=
    List.length_eq_zero_iff.mp (by simpa [pushed] using hlength)
  refine ⟨s', h, ?_⟩
  rw [hstack, owed, List.append_nil] at htaken
  exact htaken

/-! ## A port that is closed -/

theorem toByteArray_ne_nil {data : List Byte} (h : toByteArray command = .ok data) :
    data ≠ [] := by
  rw [toByteArray] at h
  split at h
  · cases h
  · obtain rfl := Except.ok.inj h
    exact List.cons_ne_nil _ _

/-- A command comes to an interface that is not connected and not sending. -/
def SerialInterface.Stuffs (s : SerialInterface) : Signal → Prop
  | .push _ => s.device.isOpen = false ∧ s.sending = false
  | _ => False

theorem SerialDevice.send_outData (hport : port.Buffered) (d : SerialDevice) {data : List Byte}
    (hdata : data ≠ []) :
    (d.send port data).outData ≠ [] ↔ d.outData ≠ [] ∨ d.isOpen = false := by
  by_cases hout : d.outData = []
  · cases hopen : d.isOpen with
    | true => simp [send_open hport hout hopen hdata, hout]
    | false => simp [send_closed hport hout hopen, hdata]
  · rw [send_of_outData hout]
    exact (or_iff_left_of_imp fun _ => hout).symm

theorem sendFirstCommand_device (h : s.sendFirstCommand port = .ok s') :
    ∃ data, data ≠ [] ∧ s'.device = s.device.send port data := by
  rw [sendFirstCommand] at h
  cases hstack : s.commandStack with
  | nil =>
      rw [hstack] at h
      cases h
  | cons command rest =>
      rw [hstack] at h
      cases hdata : toByteArray command with
      | error what =>
          simp only [hdata] at h
          cases h
      | ok data =>
          simp only [hdata] at h
          obtain rfl := Except.ok.inj h
          exact ⟨data, toByteArray_ne_nil hdata, rfl⟩

/-- A port that is left with data takes nothing, and one that is open takes all. -/
structure Stuffed (s : SerialInterface) (stuffs : Prop) (s' : SerialInterface) : Prop where
  outData : s'.device.outData ≠ [] ↔ s.device.outData ≠ [] ∨ stuffs
  taken : s.device.outData ≠ [] → s'.device.taken = s.device.taken

theorem sendFirstCommand_stuffed (hport : port.Buffered) (h : s.sendFirstCommand port = .ok s') :
    Stuffed s (s.device.isOpen = false) s' := by
  obtain ⟨data, hdata, hdevice⟩ := sendFirstCommand_device h
  refine ⟨?_, fun hout => ?_⟩
  · rw [hdevice]
    exact SerialDevice.send_outData hport s.device hdata
  · rw [hdevice, SerialDevice.send_of_outData hout]

theorem pushCommand_stuffed (hport : port.Buffered) (h : s.pushCommand port command = .ok s') :
    Stuffed s (s.device.isOpen = false ∧ s.sending = false) s' := by
  rw [pushCommand] at h
  cases hsending : s.sending with
  | true =>
      simp only [hsending, if_true] at h
      obtain rfl := Except.ok.inj h
      exact ⟨by simp, fun _ => rfl⟩
  | false =>
      simp only [hsending, Bool.false_eq_true, if_false] at h
      have hstuffed := sendFirstCommand_stuffed hport h
      exact ⟨by simpa using hstuffed.outData, hstuffed.taken⟩

theorem Stuffed.refl (s : SerialInterface) : Stuffed s False s :=
  ⟨(or_iff_left id).symm, fun _ => rfl⟩

/-- An open port is not stuffed. -/
theorem Stuffed.of_isOpen {stuffs : Prop} (h : Stuffed s stuffs s') (hnot : ¬ stuffs) :
    Stuffed s False s' :=
  ⟨h.outData.trans (or_congr_right (iff_of_false hnot id)), h.taken⟩

theorem onDataSent_stuffed (hport : port.Buffered) (hopen : s.device.isOpen = true)
    (h : s.onDataSent port = .ok s') : Stuffed s False s' := by
  rw [onDataSent] at h
  split at h
  · cases h
  · dsimp only at h
    split at h
    · have hstuffed := (sendFirstCommand_stuffed hport h).of_isOpen (by simp [hopen])
      exact ⟨hstuffed.outData, hstuffed.taken⟩
    · obtain rfl := Except.ok.inj h
      exact ⟨(Stuffed.refl s).outData, fun _ => rfl⟩

theorem step_stuffed (hport : port.Buffered) (h : s.step port signal = .ok s') :
    Stuffed s (s.Stuffs signal) s' := by
  cases signal with
  | push command => exact pushCommand_stuffed hport h
  | connectSerial opens =>
      cases opens with
      | true =>
          have hstuffed := (pushCommand_stuffed hport h).of_isOpen (by simp)
          exact ⟨hstuffed.outData, hstuffed.taken⟩
      | false =>
          obtain rfl := Except.ok.inj h
          exact ⟨(Stuffed.refl s).outData, fun _ => rfl⟩
  | disconnectSerial =>
      rw [step, disconnectSerial] at h
      split at h
      next hopen => exact (pushCommand_stuffed hport h).of_isOpen (by simp [hopen])
      next =>
        obtain rfl := Except.ok.inj h
        exact Stuffed.refl s
  | bytesWritten =>
      rw [step] at h
      split at h
      next hopen =>
        rw [onBytesWritten] at h
        split at h
        next hout =>
          obtain rfl := Except.ok.inj h
          have hsame : s.device.send port s.device.outData = s.device :=
            SerialDevice.send_of_outData hout _
          exact ⟨by simp [hsame, hout], fun _ => by rw [hsame]⟩
        next => exact onDataSent_stuffed hport hopen h
      next =>
        obtain rfl := Except.ok.inj h
        exact Stuffed.refl s
  | commandReceived =>
      obtain rfl := Except.ok.inj h
      exact ⟨(Stuffed.refl s).outData, fun _ => rfl⟩
  | timeout =>
      obtain rfl := Except.ok.inj h
      refine ⟨?_, fun _ => ?_⟩
      · split
        · exact (Stuffed.refl s).outData
        · exact (Stuffed.refl s).outData
      · split <;> rfl
  | resourceError =>
      obtain rfl := Except.ok.inj h
      refine ⟨?_, fun _ => ?_⟩
      · split
        · exact (Stuffed.refl s).outData
        · exact (Stuffed.refl s).outData
      · split <;> rfl

/-- Somewhere in the run a command comes to an interface that is not connected. -/
def StuffedIn (port : SerialPort) (s : SerialInterface) (signals : List Signal) : Prop :=
  ∃ before command after t, signals = before ++ .push command :: after ∧
    run port before s = .ok t ∧ t.device.isOpen = false ∧ t.sending = false

theorem stuffedIn_nil (s : SerialInterface) : ¬ StuffedIn port s [] := by
  rintro ⟨before, command, after, t, hsignals, -⟩
  exact absurd hsignals.symm (List.append_ne_nil_of_right_ne_nil _ (List.cons_ne_nil _ _))

theorem stuffedIn_cons {t : SerialInterface} (hstep : s.step port signal = .ok t) :
    StuffedIn port s (signal :: signals) ↔ s.Stuffs signal ∨ StuffedIn port t signals := by
  constructor
  · rintro ⟨before, command, after, u, hsignals, hrun, hclosed⟩
    cases before with
    | nil =>
        obtain ⟨rfl, -⟩ := List.cons.inj hsignals
        obtain rfl := Except.ok.inj hrun
        exact Or.inl hclosed
    | cons first before =>
        obtain ⟨rfl, hrest⟩ := List.cons.inj hsignals
        obtain ⟨t', hfirst, hbefore⟩ := run_cons hrun
        obtain rfl : t = t' := by simpa [hstep] using hfirst
        exact Or.inr ⟨before, command, after, u, hrest, hbefore, hclosed⟩
  · rintro (hstuffs | ⟨before, command, after, u, rfl, hrun, hclosed⟩)
    · cases signal with
      | push command => exact ⟨[], command, signals, s, rfl, rfl, hstuffs⟩
      | _ => exact hstuffs.elim
    · refine ⟨signal :: before, command, after, u, rfl, ?_, hclosed⟩
      rw [run, hstep]
      exact hrun

theorem run_stuffed (hport : port.Buffered) (h : run port signals s = .ok s') :
    Stuffed s (StuffedIn port s signals) s' := by
  induction signals generalizing s with
  | nil =>
      obtain rfl := Except.ok.inj h
      exact ⟨(or_iff_left (stuffedIn_nil s)).symm, fun _ => rfl⟩
  | cons signal signals ih =>
      obtain ⟨t, hstep, hrun⟩ := run_cons h
      have hone := step_stuffed hport hstep
      have hrest := ih hrun
      refine ⟨?_, fun hout => ?_⟩
      · rw [hrest.outData, hone.outData, stuffedIn_cons hstep, or_assoc]
      · rw [hrest.taken (hone.outData.mpr (Or.inl hout)), hone.taken hout]

/-- Whatever the signals are: once a command has come to an interface that is not connected,
its port takes nothing more, also when it is opened again; and only then does a connection
not send the next command. -/
theorem run_stuffedIn (hport : port.Buffered) (hnew : s.device.outData = [])
    (h : run port signals s = .ok s') :
    (StuffedIn port s signals →
      ∀ later s'', run port later s' = .ok s'' → s''.device.taken = s'.device.taken) ∧
    (¬ StuffedIn port s signals → s'.device.isOpen = true → s'.sending = false →
      s'.commandStack = [] → ∀ command : Command, command.Valid →
        ∃ s'', s'.step port (.push command) = .ok s'' ∧
          s''.device.taken = s'.device.taken ++ [encoded command]) := by
  have hout := (run_stuffed hport h).outData
  constructor
  · intro hstuffed later s'' hlater
    exact (run_stuffed hport hlater).taken (hout.mpr (Or.inr hstuffed))
  · intro hnot hopen hsending hstack command hcommand
    have hempty : s'.device.outData = [] := by
      by_contra hdata
      exact (hout.mp hdata).elim (fun h => h hnew) hnot
    have hconnected : Connected s' :=
      ⟨hopen, hempty, iff_of_false (by simp [hsending]) (not_not.mpr hstack), by simp [hstack]⟩
    obtain ⟨s'', hpush, hturn⟩ := pushCommand_turn hport hconnected hcommand
    refine ⟨s'', hpush, ?_⟩
    have htaken := hturn.taken
    rw [hturn.stack, hstack] at htaken
    simpa [stackAfter, owed, sentFor] using htaken

/-- A command before the connection: the port is opened, and not even `InitCommunication`
goes out. -/
theorem run_stuffedIn_open :
    ∃ s' s'', run .idle [.push ⟨0x10, []⟩, .timeout] ⟨⟨false, [], []⟩, [], false, false⟩ = .ok s' ∧
      run .idle [.connectSerial true] s' = .ok s'' ∧ s''.device.isOpen = true ∧
      s''.device.taken = s'.device.taken := by
  refine ⟨_, _, rfl, rfl, rfl, ?_⟩
  have hrun : run .idle [.push ⟨0x10, []⟩, .timeout] ⟨⟨false, [], []⟩, [], false, false⟩ =
      .ok ⟨⟨false, [0x10, 0, 0, 0], []⟩, [], false, false⟩ := rfl
  exact (run_stuffedIn SerialPort.idle_buffered rfl hrun).1
    ⟨[], _, [.timeout], _, rfl, rfl, rfl, rfl⟩ [.connectSerial true] _ rfl

end PasswordWallet.Desktop
