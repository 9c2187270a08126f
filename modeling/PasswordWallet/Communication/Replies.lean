import PasswordWallet.Communication.Single
import PasswordWallet.Communication.Transfer

/-!
# How many replies a command gets

`com_exec` is called once for each packet from the one that completes the header on
(`calls`), and most commands reply to each call.  The rule `wp_receive_calls`
follows a command that arrives alone, from call to call, with nothing processed
meanwhile.
-/

namespace PasswordWallet

open PowerLoss Framing

/-- How many replies have gone out. -/
def Session.replyCount (s : Session) : ℕ := (replies s.log).length

/-- The calls of `com_exec` for these packets of a command, `k` bytes of which have
come before them. -/
def calls : ℕ → List (List Byte) → ℕ
  | _, [] => 0
  | k, packet :: rest => (if 4 ≤ k + packet.length then 1 else 0) + calls (k + packet.length) rest

theorem calls_append (k : ℕ) (done : List (List Byte)) (packet : List Byte) :
    calls k (done ++ [packet]) =
      calls k done + if 4 ≤ k + done.flatten.length + packet.length then 1 else 0 := by
  induction done generalizing k with
  | nil => simp [calls]
  | cons first done ih =>
      rw [List.cons_append, calls, ih, calls, List.flatten_cons, List.length_append]
      simp only [Nat.add_assoc]

/-- A whole command is called at least once. -/
theorem calls_pos {k : ℕ} {packets : List (List Byte)} (hk : k < 4)
    (hlong : 4 ≤ k + packets.flatten.length) : 0 < calls k packets := by
  induction packets generalizing k with
  | nil => simp at hlong; omega
  | cons packet packets ih =>
      rw [calls]
      split_ifs with hheader
      · omega
      · rw [List.flatten_cons, List.length_append] at hlong
        have := ih (by omega) (by omega : 4 ≤ k + packet.length + packets.flatten.length)
        omega

/-- Between two commands, where nothing of a transfer is left. -/
structure Boundary (s : Session) : Prop where
  comState : s.parser.comState = .id
  timedOut : s.timedOut = false
  comPos : s.comPos = 0
  comParameter : s.comParameter = 0

/-- What the replies depend on is the same, and so is what the firmware knows. -/
structure SameReplies (s s' : Session) : Prop where
  ram : s'.ram = s.ram
  comPos : s'.comPos = s.comPos
  comParameter : s'.comParameter = s.comParameter
  enabled : s'.enabled = s.enabled
  replyCount : s'.replyCount = s.replyCount

section Rule

variable {t : Target} {answer : Image → Session → Bool} {framId : Vector Byte 4} {p : Image}
  {s : Session} {command : Frame}

/-- Packets of one command, given what each call of `com_exec` does to the number of
calls and of bytes. -/
theorem wp_receive_calls {I : ℕ → ℕ → Image → Session → Prop} {H : Image → Session → Prop}
    (hfull : command.Full)
    (hsame : ∀ n k p s s', SameReplies s s' → I n k p s → I n k p s')
    (hheader : ∀ n k k' p s, k ≤ k' → k' < 4 → I n k p s → I n k' p s)
    (hcall : ∀ n k packet p s, I n k p s → packet ≠ [] → packet <+: command.bytes.drop k →
      4 ≤ k + packet.length → s.parser.id = command.id → s.parser.totalSize = command.size →
      wp (comExec t (.quiet answer framId) (chunk command k packet))
        (fun _ p' s' => I (n + 1) (k + packet.length) p' s') H (fun _ _ => True) p s)
    {packets : List (List Byte)}
    (hpackets : ∀ packet ∈ packets, packet ≠ [] ∧ packet.length ≤ 255)
    (hcut : packets.flatten = command.bytes) (hboundary : Boundary s) (h : I 0 0 p s) :
    wp (receive (comExec t (.quiet answer framId)) (comAbort (.quiet answer framId)) packets)
      (fun _ p' s' => I (calls 0 packets) command.bytes.length p' s' ∧ s'.parser.comState = .id ∧
        s'.timedOut = false) H (fun _ _ => True) p s := by
  have hadvance : ∀ (s : Session) parser, SameReplies s (s.advance parser) := fun s parser =>
    ⟨s.advance_ram parser, s.advance_comPos parser, s.advance_comParameter parser,
      s.advance_enabled parser, congrArg List.length (s.advance_replies parser)⟩
  refine wp_imp (wp_receive_command (I := fun done p s =>
      (done.flatten.length < command.bytes.length → AtByte command done.flatten.length s.parser) ∧
      (done.flatten.length = command.bytes.length → s.parser.comState = .id) ∧
      s.timedOut = false ∧ I (calls 0 done) done.flatten.length p s)
    hfull (fun _ _ _ h hlt => ⟨h.1 hlt, h.2.2.1⟩)
    (fun done packet p s parser h hshort hat => ?_)
    (fun done packet p s parser call h hne hpacket hlong hserving => ?_)
    [] hpackets (hcut ▸ List.prefix_rfl) ⟨fun _ => atByte_zero hboundary.comState,
      fun _ => hboundary.comState, hboundary.timedOut, h⟩) fun _ p' s' hpost => ?_
  rotate_right
  · rw [List.nil_append, hcut] at hpost
    exact ⟨hpost.2.2.2, hpost.2.1 rfl, hpost.2.2.1⟩
  · have hlength : (done ++ [packet]).flatten.length = done.flatten.length + packet.length := by
      simp
    have hcalls : calls 0 (done ++ [packet]) = calls 0 done := by
      rw [calls_append, if_neg (by omega), Nat.add_zero]
    rw [hlength, hcalls]
    refine ⟨fun _ => hat, fun hend => ?_, s.advance_timedOut parser, ?_⟩
    · rw [Frame.length_bytes] at hend
      omega
    · exact hsame _ _ _ _ _ (hadvance s parser) (hheader _ _ _ _ _ (by omega) hshort h.2.2.2)
  · have hlength : (done ++ [packet]).flatten.length = done.flatten.length + packet.length := by
      simp
    have hcalls : calls 0 (done ++ [packet]) = calls 0 done + 1 := by
      rw [calls_append, if_pos (by omega)]
    have hsame' : SameReplies s ((s.advance parser).emit (.exec call s.enabled)) :=
      ⟨s.advance_ram parser, s.advance_comPos parser, s.advance_comParameter parser,
        s.advance_enabled parser, congrArg List.length (s.advance_replies parser)⟩
    have hcalled := hcall (calls 0 done) _ packet p _ (hsame _ _ _ _ _ hsame' h.2.2.2) hne hpacket
      hlong hserving.id hserving.totalSize
    have hmoves : Moves Apart (comExec t (.quiet answer framId)
        (chunk command done.flatten.length packet)) :=
      comExec_moves admits_apart (fun _ => .pure admits_apart ()) (.pure admits_apart ()) _
    have happart := hmoves p ((s.advance parser).emit (.exec call s.enabled))
    rw [hlength, hcalls]
    refine wp_mono (wp_and hcalled happart) (fun _ _ s' hpost => ?_) (fun _ _ hpost => hpost.1)
      fun _ _ _ => trivial
    obtain ⟨hinv, happart⟩ := hpost
    have hparser : s'.parser = parser := happart.parser
    exact ⟨fun hmore => hparser ▸ hserving.more hmore, fun hend => hparser ▸ hserving.last hend,
      happart.timedOut.trans (s.advance_timedOut parser), hinv⟩

end Rule

/-! ## The calls -/

/-- A call outside a transfer, with one reply; a gate that was closed stays closed. -/
structure AnswersOnce (s s' : Session) : Prop where
  comPos : s'.comPos = 0
  comParameter : s'.comParameter = 0
  closed : s.enabled = false → s'.enabled = false
  replyCount : s'.replyCount = s.replyCount + 1

section Calls

variable {t : Target} {answer : Image → Session → Bool} {framId : Vector Byte 4} {p : Image}
  {s : Session} {data : List Byte}

theorem wp_comAbort_quiet {Q : Unit → Image → Session → Prop} {H : Image → Session → Prop}
    {C : Step Write → Image → Prop} :
    wp (comAbort (.quiet answer framId)) Q H C p s ↔
      Q () p { ((s.emit .stopped).emit (.header comEnd 0)).clearEvents eventFlagCom with
        comPos := 0, comParameter := 0 } := by
  simp only [comAbort, wp_bind, wp_emit, wp_sendEmpty_quiet, wp_modifySession]

theorem enabled_close (s : Session) : (s.clearEvents eventFlagCom).enabled = false := by
  simp [Session.enabled_clearEvents, eventFlagCom]

/-- The commands that do not store, open or reset reply to each call. -/
theorem wp_gatedCommand_once {id : Byte} (hcomPos : s.comPos = 0)
    (hcomParameter : s.comParameter = 0)
    (henabled : s.enabled = true) (hinit : id ≠ comInit)
    (hid : id ∉ [comSetFram, comSetKey, comReset]) :
    wp (gatedCommand t (.quiet answer framId) id data) (fun _ _ s' => AnswersOnce s s')
      (fun _ _ => False) (fun _ _ => True) p s := by
  simp only [List.mem_cons, List.not_mem_nil, or_false, not_or] at hid
  obtain ⟨hsetFram, hsetKey, hreset⟩ := hid
  have hopen : ∀ c : Prop, s.enabled = false → c := fun c hclosed =>
    absurd (henabled.symm.trans hclosed) (by decide)
  rw [gatedCommand, if_neg hinit, if_neg hsetFram, if_neg hsetKey, if_neg hreset]
  split_ifs
  · simp only [commandEnd, wp_bind, wp_modifySession, wp_sendEmpty_quiet]
    exact ⟨hcomPos, hcomParameter, fun _ => enabled_close _, rfl⟩
  · rw [commandGetFram, wp_bind, wp_sendHeader_quiet]
    refine wp_imp (wp_forUp _ (fun _ _ s' => AnswersOnce s s') 0 _
      ⟨hcomPos, hcomParameter, hopen _, rfl⟩ fun i p' s' _ _ h => ?_) fun _ _ _ h => h
    rw [framChunk, wp_bind, wp_durable, wp_bind, wp_emit, wp_sendData_quiet]
    exact ⟨h.comPos, h.comParameter, h.closed, h.replyCount⟩
  · rw [commandGetKey, wp_bind, wp_ram, wp_ite, sendCommand, wp_bind, wp_sendHeader_quiet,
      if_pos (by decide), wp_sendData_quiet, wp_sendEmpty_quiet]
    exact ⟨fun _ => ⟨hcomPos, hcomParameter, hopen _, rfl⟩,
      fun _ => ⟨hcomPos, hcomParameter, hopen _, rfl⟩⟩
  · rw [commandGetParam, wp_bind, wp_sendHeader_quiet, wp_sendData_quiet]
    exact ⟨hcomPos, hcomParameter, hopen _, rfl⟩
  · rw [wp_comAbort_quiet]
    exact ⟨rfl, rfl, hopen _, rfl⟩

/-- So does every command but `COM_INIT` while the gate is closed. -/
theorem wp_comExec_once (hcomPos : s.comPos = 0) (hcomParameter : s.comParameter = 0)
    (hinit : s.parser.id ≠ comInit)
    (hid : s.enabled = false ∨ s.parser.id ∉ [comSetFram, comSetKey, comReset]) :
    wp (comExec t (.quiet answer framId) data) (fun _ _ s' => AnswersOnce s s')
      (fun _ _ => False) (fun _ _ => True) p s := by
  rw [comExec, wp_bind, wp_ram, wp_ite, wp_ite, commandGetVersion, sendCommand, wp_bind,
    wp_sendHeader_quiet, if_pos (by decide), wp_sendData_quiet, wp_sendEmpty_quiet]
  refine ⟨fun _ => ⟨hcomPos, hcomParameter, id, rfl⟩,
    fun _ => ⟨fun _ => ⟨hcomPos, hcomParameter, id, rfl⟩, fun hgate => ?_⟩⟩
  have henabled : s.enabled = true :=
    by_contra fun hdisabled => hgate ⟨(Bool.not_eq_true _).mp hdisabled, hinit⟩
  refine wp_gatedCommand_once hcomPos hcomParameter henabled hinit (hid.resolve_left fun h => ?_)
  exact absurd (henabled.symm.trans h) (by decide)

/-- `COM_INIT` replies to each call, and before that with an abort if the gate is
open. -/
theorem wp_commandInit_replies (hcomPos : s.comPos = 0) (hcomParameter : s.comParameter = 0) :
    wp (commandInit (.quiet answer framId))
      (fun _ _ s' => s'.comPos = 0 ∧ s'.comParameter = 0 ∧
        s'.replyCount = s.replyCount + if s.enabled then 2 else 1)
      (fun _ _ => False) (fun _ _ => True) p s := by
  have hscreen : ∀ s₁ : Session, s₁.comPos = 0 → s₁.comParameter = 0 →
      wp (do
        let yes ← drawConfirmationScreen (.quiet answer framId)
        if yes then do
          modifySession fun s => (s.eventsHappen eventFlagCom).emit .accepted
          sendEmpty (.quiet answer framId) (.command comInit) comOk
        else sendEmpty (.quiet answer framId) (.command comInit) comEnd)
        (fun _ _ s' => s'.comPos = 0 ∧ s'.comParameter = 0 ∧
          s'.replyCount = s₁.replyCount + 1) (fun _ _ => False) (fun _ _ => True) p s₁ := by
    intro s₁ hcomPos hcomParameter
    rw [wp_bind, drawConfirmationScreen, wp_bind, wp_emit, wp_bind,
      show (Env.quiet answer framId).screen = pure () from rfl, wp_pure, wp_bind, wp_durable, wp_bind, wp_ram, wp_pure, wp_ite, wp_bind,
      wp_modifySession, wp_sendEmpty_quiet, wp_sendEmpty_quiet]
    exact ⟨fun _ => ⟨hcomPos, hcomParameter, rfl⟩, fun _ => ⟨hcomPos, hcomParameter, rfl⟩⟩
  rw [commandInit, wp_bind, abortEnabled, wp_bind, wp_ram, wp_ite, wp_comAbort_quiet, wp_emit]
  refine ⟨fun hopen => ?_, fun hclosed => ?_⟩
  · rw [if_pos hopen]
    exact hscreen _ rfl rfl
  · rw [if_neg hclosed]
    exact hscreen _ hcomPos hcomParameter

end Calls

end PasswordWallet
