import PasswordWallet.Communication.Replies

/-!
# One reply for each command

The host counts on one reply for each command.  The commands that store their data
reply to the last of it, as they should, if the gate is open; the others reply to
each call of `com_exec`, that is to each packet from the one that completes the
header on, and `COM_INIT` replies twice if the gate is open already.
-/

namespace PasswordWallet

open PowerLoss Framing

variable {t : Target} {answer : Image → Session → Bool} {framId : Vector Byte 4} {p : Image}
  {s : Session} {command : Frame} {packets : List (List Byte)} {data : List Byte}

/-- When a command that arrives in these packets gets one reply, the gate being open
or not. -/
def RepliesOnce (enabled : Bool) (command : Frame) (packets : List (List Byte)) : Prop :=
  if command.id = comInit then enabled = false ∧ calls 0 packets = 1
  else if enabled = true ∧ (command.id = comSetFram ∨ command.id = comReset) then True
  else if enabled = true ∧ command.id = comSetKey then command.size ≤ 16
  else calls 0 packets = 1

/-! ## The calls of the commands that store -/

theorem wp_commandSetFram_replies (hfits : s.comPos + data.length < 2 ^ 24) :
    wp (commandSetFram (.quiet answer framId) data)
      (fun _ _ s' => s'.enabled = s.enabled ∧
        if s.comPos + data.length = s.parser.totalSize then
          s'.comPos = 0 ∧ s'.comParameter = 0 ∧ s'.replyCount = s.replyCount + 1
        else s'.comPos = s.comPos + data.length ∧ s'.replyCount = s.replyCount)
      (fun _ _ => False) (fun _ _ => True) p s := by
  have htaken := wp_setFram_taken (p := p) data hfits
  rw [wp_bind] at htaken
  rw [commandSetFram, wp_bind]
  refine wp_imp htaken fun rest p₁ s₁ hwrite => ?_
  rw [wp_bind]
  refine wp_imp hwrite fun _ p₂ s₂ htaken => ?_
  rw [setFramDone, wp_bind, wp_ram, wp_ite, wp_pure, wp_bind, wp_modifySession, wp_sendEmpty_quiet,
    htaken.comPos, htaken.parser]
  refine ⟨fun hdone => ⟨htaken.enabled, ?_⟩, fun hmore => ⟨htaken.enabled, ?_⟩⟩
  · rw [if_pos hdone]
    exact ⟨rfl, rfl, congrArg (·.length + 1) htaken.replied⟩
  · rw [if_neg hmore]
    exact ⟨rfl, congrArg List.length htaken.replied⟩

theorem wp_commandSetKey_replies (hcomPos : s.comPos ≤ 16) :
    wp (commandSetKey t (.quiet answer framId) data)
      (fun _ _ s' => s.comPos + data.length ≤ 16 ∧ s'.enabled = s.enabled ∧
        s'.comParameter = s.comParameter ∧
        if s.comPos + data.length = s.parser.totalSize then
          s'.comPos = 0 ∧ s'.replyCount = s.replyCount + 1
        else s'.comPos = s.comPos + data.length ∧ s'.replyCount = s.replyCount)
      (fun _ s' => 16 < s.comPos + data.length ∧ s'.replyCount = s.replyCount)
      (fun _ _ => True) p s := by
  rw [commandSetKey, wp_bind, wp_ram, wp_bind]
  refine wp_mono (wp_storeKey_any data hcomPos) (fun _ p₁ s₁ hpost => ?_)
    (fun _ s₁ hpost => ⟨hpost.2.1, congrArg List.length hpost.1.replied⟩) fun _ _ => id
  obtain ⟨hstored, hle, -⟩ := hpost
  rw [Nat.add_zero] at hle
  have hmod : (s₁.comPos + data.length) % 2 ^ 32 = s.comPos + data.length := by
    rw [hstored.comPos]
    exact Nat.mod_eq_of_lt (by omega)
  rw [wp_bind, wp_modifySession, setKeyDone, wp_bind, wp_ram, wp_ite, wp_pure, wp_bind,
    wp_modifySession, keyReceived, wp_bind, wp_durable, wp_bind, wp_ram, wp_ite, wp_bind,
    wp_modifySession, wp_sendEmpty_quiet, wp_sendEmpty_quiet]
  simp only [hmod, hstored.parser]
  refine ⟨fun hdone => ?_, fun hmore => ⟨hle, hstored.enabled, hstored.comParameter, ?_⟩⟩
  · simp only [if_pos hdone]
    refine ⟨fun _ => ⟨hle, ?_, hstored.comParameter, rfl, congrArg (·.length + 1) hstored.replied⟩,
      fun _ => ⟨hle, hstored.enabled, hstored.comParameter, rfl,
        congrArg (·.length + 1) hstored.replied⟩⟩
    rw [← hstored.enabled]
    change (Session.eventsHappen _ eventKeyEntered).enabled = s₁.enabled
    rw [Session.enabled_eventsHappen]
    exact Bool.or_false _
  · rw [if_neg hmore]
    exact ⟨trivial, congrArg List.length hstored.replied⟩

/-- A packet is within its command, and so is its part of the data. -/
theorem chunk_within {k : ℕ} {packet : List Byte} (hpacket : packet <+: command.bytes.drop k)
    (hne : packet ≠ []) :
    k < command.bytes.length ∧ k + packet.length ≤ command.bytes.length ∧
      k - 4 + (chunk command k packet).length = k + packet.length - 4 := by
  have hle := hpacket.length_le
  have hpos := List.length_pos_iff.mpr hne
  rw [List.length_drop] at hle
  have hbytes := command.length_bytes
  refine ⟨by omega, by omega, ?_⟩
  rw [chunk, List.length_drop, List.length_take]
  omega

/-! ## One command -/

section Command

variable (hfull : command.Full) (hpackets : ∀ packet ∈ packets, packet ≠ [] ∧ packet.length ≤ 255)
  (hcut : packets.flatten = command.bytes) (hboundary : Boundary s)
include hfull hpackets hcut hboundary

/-- A command that replies to each call. -/
theorem wp_receive_once (hinit : command.id ≠ comInit)
    (hid : s.enabled = false ∨ command.id ∉ [comSetFram, comSetKey, comReset]) :
    wp (receive (comExec t (.quiet answer framId)) (comAbort (.quiet answer framId)) packets)
      (fun _ _ s' => Boundary s' ∧ s'.replyCount = s.replyCount + calls 0 packets)
      (fun _ _ => False) (fun _ _ => True) p s := by
  refine wp_imp (wp_receive_calls (I := fun n _ _ s' => s'.comPos = 0 ∧ s'.comParameter = 0 ∧
    (s.enabled = false → s'.enabled = false) ∧ s'.replyCount = s.replyCount + n) hfull ?_ ?_ ?_
    hpackets hcut hboundary ⟨hboundary.comPos, hboundary.comParameter, id, rfl⟩)
    fun _ _ s' hpost => ?_
  · intro n k _ s₁ s₂ hsame h
    exact ⟨hsame.comPos.trans h.1, hsame.comParameter.trans h.2.1,
      fun hclosed => hsame.enabled.trans (h.2.2.1 hclosed), hsame.replyCount.trans h.2.2.2⟩
  · exact fun _ _ _ _ _ _ _ h => h
  · intro n k packet p₁ s₁ h _ _ _ hparser _
    rw [← hparser] at hinit hid
    refine wp_imp (wp_comExec_once h.1 h.2.1 hinit (hid.imp h.2.2.1 id)) fun _ _ s₂ hanswer =>
      ⟨hanswer.comPos, hanswer.comParameter, fun hclosed => hanswer.closed (h.2.2.1 hclosed), ?_⟩
    rw [hanswer.replyCount, h.2.2.2, Nat.add_assoc]
  · obtain ⟨⟨hcomPos, hcomParameter, -, hcount⟩, hcomState, htimed⟩ := hpost
    exact ⟨⟨hcomState, htimed, hcomPos, hcomParameter⟩, hcount⟩

/-- `COM_INIT` replies to each call, and once more if the gate is open at the first. -/
theorem wp_receive_init (hinit : command.id = comInit) :
    wp (receive (comExec t (.quiet answer framId)) (comAbort (.quiet answer framId)) packets)
      (fun _ _ s' => Boundary s' ∧ (s'.replyCount = s.replyCount + 1 ↔
        s.enabled = false ∧ calls 0 packets = 1))
      (fun _ _ => False) (fun _ _ => True) p s := by
  have hlength := congrArg List.length hcut
  rw [Frame.length_bytes] at hlength
  have hcalls : 0 < calls 0 packets := calls_pos (by decide) (by omega)
  refine wp_imp (wp_receive_calls (I := fun n _ _ s' => s'.comPos = 0 ∧ s'.comParameter = 0 ∧
    (n = 0 → s'.enabled = s.enabled ∧ s'.replyCount = s.replyCount) ∧
    (n = 1 → s'.replyCount = s.replyCount + if s.enabled then 2 else 1) ∧
    (2 ≤ n → s.replyCount + 2 ≤ s'.replyCount)) hfull ?_ ?_ ?_ hpackets hcut hboundary
    ⟨hboundary.comPos, hboundary.comParameter, fun _ => ⟨rfl, rfl⟩,
      fun h => absurd h (by decide), fun h => absurd h (by decide)⟩)
    fun _ _ s' hpost => ?_
  · intro n k _ s₁ s₂ hsame h
    obtain ⟨hcomPos, hcomParameter, hzero, hone, htwo⟩ := h
    refine ⟨hsame.comPos.trans hcomPos, hsame.comParameter.trans hcomParameter,
      fun hn => ?_, fun hn => hsame.replyCount.trans (hone hn), fun hn => ?_⟩
    · exact ⟨hsame.enabled.trans (hzero hn).1, hsame.replyCount.trans (hzero hn).2⟩
    · rw [hsame.replyCount]
      exact htwo hn
  · exact fun _ _ _ _ _ _ _ h => h
  · intro n k packet p₁ s₁ h _ _ _ hparser _
    -- the first call may abort a session and reply twice, and every call replies
    obtain ⟨hcomPos, hcomParameter, hzero, hone, htwo⟩ := h
    rw [comExec, wp_bind, wp_ram, hparser, hinit, if_neg (by decide), if_neg (by simp)]
    refine wp_imp (wp_commandInit_replies hcomPos hcomParameter) fun _ _ s₂ hreply => ?_
    obtain ⟨hcomPos₂, hcomParameter₂, hcount⟩ := hreply
    have hmore : s₁.replyCount + 1 ≤ s₂.replyCount := by
      rw [hcount]
      split_ifs <;> omega
    refine ⟨hcomPos₂, hcomParameter₂, fun h => absurd h n.succ_ne_zero, fun hn => ?_,
      fun hn => ?_⟩
    · obtain ⟨henabled, hcount₁⟩ := hzero (by omega)
      rw [hcount, henabled, hcount₁]
    · rcases Nat.lt_or_ge n 2 with hlt | hge
      · have hcount₁ := hone (by omega)
        split_ifs at hcount₁ <;> omega
      · have := htwo hge
        omega
  · obtain ⟨⟨hcomPos, hcomParameter, -, hone, htwo⟩, hcomState, htimed⟩ := hpost
    refine ⟨⟨hcomState, htimed, hcomPos, hcomParameter⟩, ?_⟩
    rcases Nat.lt_or_ge 1 (calls 0 packets) with hmany | hfew
    · have := htwo hmany
      exact ⟨fun h => by omega, fun h => by omega⟩
    · have hcalls₁ : calls 0 packets = 1 := by omega
      rw [hone hcalls₁]
      cases s.enabled with
      | false => simp [hcalls₁]
      | true => simp

/-- `COM_SET_FRAM` replies to its last byte, if the gate is open. -/
theorem wp_receive_setFram_once (hid : command.id = comSetFram) (hopen : s.enabled = true) :
    wp (receive (comExec t (.quiet answer framId)) (comAbort (.quiet answer framId)) packets)
      (fun _ _ s' => Boundary s' ∧ s'.replyCount = s.replyCount + 1)
      (fun _ _ => False) (fun _ _ => True) p s := by
  have hdata := hfull.1
  have hsize := hfull.2
  have hbytes := command.length_bytes
  refine wp_imp (wp_receive_calls (I := fun _ k _ s' => s'.enabled = true ∧
    if k = command.bytes.length then
      s'.comPos = 0 ∧ s'.comParameter = 0 ∧ s'.replyCount = s.replyCount + 1
    else s'.comPos = k - 4 ∧ s'.replyCount = s.replyCount) hfull ?_ ?_ ?_ hpackets hcut hboundary
    ⟨hopen, ?_⟩) fun _ _ s' hpost => ?_
  · intro n k _ s₁ s₂ hsame h
    rw [hsame.enabled, hsame.comPos, hsame.comParameter, hsame.replyCount]
    exact h
  · intro n k k' _ s₁ hle hlt h
    rw [if_neg (by omega), Nat.sub_eq_zero_of_le (by omega)] at h ⊢
    exact h
  · intro n k packet p₁ s₁ h hne hpacket hlong hparser htotal
    obtain ⟨hmore, hwithin, hchunk⟩ := chunk_within hpacket hne
    obtain ⟨henabled, h⟩ := h
    rw [if_neg (by omega)] at h
    rw [comExec, wp_bind, wp_ram, hparser, hid, henabled, if_neg (by decide), if_neg (by decide)]
    refine wp_imp (wp_commandSetFram_replies (by omega)) fun _ _ s₂ hreply => ?_
    rw [h.1, hchunk, htotal, h.2] at hreply
    refine ⟨hreply.1.trans henabled, ?_⟩
    -- the reply is to the last byte
    by_cases hend : k + packet.length = command.bytes.length
    · rw [if_pos (by omega)] at hreply
      rw [if_pos hend]
      exact hreply.2
    · rw [if_neg (by omega)] at hreply
      rw [if_neg hend]
      exact hreply.2
  · rw [if_neg (by omega)]
    exact ⟨hboundary.comPos, rfl⟩
  · obtain ⟨⟨-, h⟩, hcomState, htimed⟩ := hpost
    rw [if_pos rfl] at h
    exact ⟨⟨hcomState, htimed, h.1, h.2.1⟩, h.2.2⟩

/-- So does `COM_SET_KEY`, as long as `KEY` is large enough for it. -/
theorem wp_receive_setKey_once (hid : command.id = comSetKey) (hopen : s.enabled = true) :
    wp (receive (comExec t (.quiet answer framId)) (comAbort (.quiet answer framId)) packets)
      (fun _ _ s' => Boundary s' ∧ s'.replyCount = s.replyCount + 1 ∧ command.size ≤ 16)
      (fun _ s' => s'.replyCount = s.replyCount ∧ 16 < command.size) (fun _ _ => True) p s := by
  have hdata := hfull.1
  have hbytes := command.length_bytes
  refine wp_imp (wp_receive_calls (I := fun _ k _ s' => s'.enabled = true ∧
    s'.comParameter = 0 ∧ k - 4 ≤ 16 ∧
    if k = command.bytes.length then s'.comPos = 0 ∧ s'.replyCount = s.replyCount + 1
    else s'.comPos = k - 4 ∧ s'.replyCount = s.replyCount) hfull ?_ ?_ ?_ hpackets hcut hboundary
    ⟨hopen, hboundary.comParameter, by decide, ?_⟩) fun _ _ s' hpost => ?_
  · intro n k _ s₁ s₂ hsame h
    rw [hsame.enabled, hsame.comPos, hsame.comParameter, hsame.replyCount]
    exact h
  · intro n k k' _ s₁ hle hlt h
    rw [if_neg (by omega), Nat.sub_eq_zero_of_le (by omega)] at h ⊢
    exact h
  · intro n k packet p₁ s₁ h hne hpacket hlong hparser htotal
    obtain ⟨hmore, hwithin, hchunk⟩ := chunk_within hpacket hne
    obtain ⟨henabled, hparameter, hfits, h⟩ := h
    rw [if_neg (by omega)] at h
    rw [comExec, wp_bind, wp_ram, hparser, hid, henabled, if_neg (by decide), if_neg (by decide)]
    refine wp_mono (wp_commandSetKey_replies (h.1.trans_le hfits)) (fun _ _ s₂ hreply => ?_)
      (fun _ s₂ hhang => ?_) fun _ _ => id
    · rw [h.1, hchunk, htotal, h.2] at hreply
      obtain ⟨hfits₂, henabled₂, hparameter₂, hreply⟩ := hreply
      refine ⟨henabled₂.trans henabled, hparameter₂.trans hparameter, hfits₂, ?_⟩
      by_cases hend : k + packet.length = command.bytes.length
      · rw [if_pos (by omega)] at hreply
        rw [if_pos hend]
        exact hreply
      · rw [if_neg (by omega)] at hreply
        rw [if_neg hend]
        exact hreply
    · rw [h.1, hchunk, h.2] at hhang
      exact ⟨hhang.2, by omega⟩
  · rw [if_neg (by omega)]
    exact ⟨hboundary.comPos, rfl⟩
  · obtain ⟨⟨-, hparameter, hfits, h⟩, hcomState, htimed⟩ := hpost
    rw [if_pos rfl] at h
    exact ⟨⟨hcomState, htimed, h.1, hparameter⟩, h.2, by omega⟩

/-- `COM_RESET` replies once and ends the run, if the gate is open. -/
theorem wp_receive_reset (hid : command.id = comReset) (hopen : s.enabled = true) :
    wp (receive (comExec t (.quiet answer framId)) (comAbort (.quiet answer framId)) packets)
      (fun _ _ _ => False) (fun _ s' => s'.replyCount = s.replyCount + 1)
      (fun _ _ => True) p s := by
  have hlength := congrArg List.length hcut
  rw [Frame.length_bytes] at hlength
  have hcalls : 0 < calls 0 packets := calls_pos (by decide) (by omega)
  refine wp_imp (wp_receive_calls (I := fun n _ _ s' => n = 0 ∧ s'.enabled = true ∧
    s'.replyCount = s.replyCount) hfull ?_ ?_ ?_ hpackets hcut hboundary ⟨rfl, hopen, rfl⟩)
    fun _ _ s' hpost => absurd hpost.1.1 hcalls.ne'
  · exact fun n k _ s₁ s₂ hsame h =>
      ⟨h.1, hsame.enabled.trans h.2.1, hsame.replyCount.trans h.2.2⟩
  · exact fun _ _ _ _ _ _ _ h => h
  · intro n k packet p₁ s₁ h _ _ _ hparser _
    rw [comExec, wp_bind, wp_ram, hparser, hid, h.2.1, if_neg (by decide), if_neg (by decide)]
    change wp (commandReset _) _ _ _ _ _
    rw [commandReset, wp_bind, wp_sendEmpty_quiet, wp_bind, wp_emit, wp_hang]
    exact congrArg (· + 1) h.2.2

/-- A command gets one reply if and only if it is one that does. -/
theorem wp_receive_replies :
    wp (receive (comExec t (.quiet answer framId)) (comAbort (.quiet answer framId)) packets)
      (fun _ _ s' => Boundary s' ∧ (s'.replyCount = s.replyCount + 1 ↔
        RepliesOnce s.enabled command packets))
      (fun _ s' => (s'.replyCount = s.replyCount + 1 ↔ RepliesOnce s.enabled command packets) ∧
        (RepliesOnce s.enabled command packets → s.enabled = true ∧ command.id = comReset))
      (fun _ _ => True) p s := by
  unfold RepliesOnce
  by_cases hinit : command.id = comInit
  · simp only [if_pos hinit]
    exact wp_mono (wp_receive_init hfull hpackets hcut hboundary hinit) (fun _ _ _ h => h)
      (fun _ _ h => h.elim) fun _ _ => id
  simp only [if_neg hinit]
  by_cases hstores : s.enabled = true ∧ command.id ∈ [comSetFram, comSetKey, comReset]
  · obtain ⟨hopen, hid⟩ := hstores
    simp only [List.mem_cons, List.not_mem_nil, or_false] at hid
    rcases hid with hid | hid | hid
    · simp only [if_pos (show s.enabled = true ∧ (command.id = comSetFram ∨ command.id = comReset)
        from ⟨hopen, .inl hid⟩), iff_true]
      exact wp_mono (wp_receive_setFram_once hfull hpackets hcut hboundary hid hopen)
        (fun _ _ _ h => h) (fun _ _ h => h.elim) fun _ _ => id
    · have hnot : ¬(s.enabled = true ∧ (command.id = comSetFram ∨ command.id = comReset)) := by
        rw [hid]
        rintro ⟨-, h | h⟩
        · exact absurd h (by decide)
        · exact absurd h (by decide)
      simp only [if_neg hnot, if_pos (show s.enabled = true ∧ command.id = comSetKey
        from ⟨hopen, hid⟩)]
      refine wp_mono (wp_receive_setKey_once hfull hpackets hcut hboundary hid hopen)
        (fun _ _ _ h => ⟨h.1, iff_of_true h.2.1 h.2.2⟩) (fun _ s' h => ⟨?_, fun hfits => ?_⟩)
        fun _ _ => id
      · exact iff_of_false (by omega) (by omega)
      · omega
    · simp only [if_pos (show s.enabled = true ∧ (command.id = comSetFram ∨ command.id = comReset)
        from ⟨hopen, .inr hid⟩), iff_true]
      exact wp_mono (wp_receive_reset hfull hpackets hcut hboundary hid hopen)
        (fun _ _ _ h => h.elim) (fun _ _ h => ⟨h, fun _ => ⟨hopen, hid⟩⟩) fun _ _ => id
  · have hnot : ¬(s.enabled = true ∧ (command.id = comSetFram ∨ command.id = comReset)) :=
      fun h => hstores ⟨h.1, by rcases h.2 with hid | hid <;> simp [hid]⟩
    have hnot' : ¬(s.enabled = true ∧ command.id = comSetKey) :=
      fun h => hstores ⟨h.1, by simp [h.2]⟩
    simp only [if_neg hnot, if_neg hnot']
    have hid : s.enabled = false ∨ command.id ∉ [comSetFram, comSetKey, comReset] :=
      (Bool.eq_false_or_eq_true s.enabled).symm.imp id fun hopen hid => hstores ⟨hopen, hid⟩
    refine wp_mono (wp_receive_once hfull hpackets hcut hboundary hinit hid)
      (fun _ _ _ h => ⟨h.1, ?_⟩) (fun _ _ h => h.elim) fun _ _ => id
    rw [h.2, Nat.add_left_cancel_iff]

end Command

/-! ## Commands one at a time -/

/-- Commands that come one after the other, each in its packets. -/
def serve (exec : List Byte → Com Unit) (abort : Com Unit) : List (List (List Byte)) → Com Unit
  | [] => pure ()
  | packets :: rest => do
      receive exec abort packets
      serve exec abort rest

/-- These packets are those of the command. -/
structure Sent (c : Frame × List (List Byte)) : Prop where
  full : c.1.Full
  cut : c.2.flatten = c.1.bytes
  packets : ∀ packet ∈ c.2, 1 ≤ packet.length ∧ packet.length ≤ 255

theorem Sent.fits {c : Frame × List (List Byte)} (h : Sent c) :
    ∀ packet ∈ c.2, packet ≠ [] ∧ packet.length ≤ 255 := fun packet hmem =>
  ⟨List.length_pos_iff.mp (h.packets packet hmem).1, (h.packets packet hmem).2⟩

theorem boundary_serve {commands : List (Frame × List (List Byte))}
    (hcommands : ∀ c ∈ commands, Sent c) (hboundary : Boundary s) :
    wp (serve (comExec t (.quiet answer framId)) (comAbort (.quiet answer framId))
      (commands.map Prod.snd)) (fun _ _ s' => Boundary s') (fun _ _ => True)
      (fun _ _ => True) p s := by
  induction commands generalizing p s with
  | nil => exact (wp_pure _).mpr hboundary
  | cons c commands ih =>
      have hsent := hcommands c (List.mem_cons_self ..)
      rw [List.map_cons, serve, wp_bind]
      exact wp_mono (wp_receive_replies hsent.full hsent.fits hsent.cut hboundary)
        (fun _ _ _ h => ih (fun c' hmem => hcommands c' (List.mem_cons_of_mem _ hmem)) h.1)
        (fun _ _ _ => trivial) fun _ _ => id

/-- Commands one at a time, from a boundary on: each that the device comes to gets
one reply if and only if each is one that does; and the device comes to the end of
such a command, unless it resets. -/
theorem one_reply_iff (t : Target) (answer : Image → Session → Bool) (framId : Vector Byte 4)
    {commands : List (Frame × List (List Byte))} (hcommands : ∀ c ∈ commands, Sent c) (p : Image)
    {s : Session} (hboundary : Boundary s) :
    let exec := comExec t (.quiet answer framId)
    let abort := comAbort (.quiet answer framId)
    ((∀ front c back, commands = front ++ c :: back → ∀ p₁ s₁,
        Completes (serve exec abort (front.map Prod.snd)) p s () p₁ s₁ →
        (receive exec abort c.2 p₁ s₁).ram.replyCount = s₁.replyCount + 1) ↔
      ∀ front c back, commands = front ++ c :: back → ∀ p₁ s₁,
        Completes (serve exec abort (front.map Prod.snd)) p s () p₁ s₁ →
        RepliesOnce s₁.enabled c.1 c.2) ∧
      ∀ front c back, commands = front ++ c :: back → ∀ p₁ s₁,
        Completes (serve exec abort (front.map Prod.snd)) p s () p₁ s₁ →
        RepliesOnce s₁.enabled c.1 c.2 → (s₁.enabled = true → c.1.id ≠ comReset) →
        ∃ p₂ s₂, Completes (receive exec abort c.2) p₁ s₁ () p₂ s₂ := by
  intro exec abort
  have hstep : ∀ front c back, commands = front ++ c :: back → ∀ p₁ s₁,
      Completes (serve exec abort (front.map Prod.snd)) p s () p₁ s₁ →
      wp (receive exec abort c.2)
        (fun _ _ s' => Boundary s' ∧ (s'.replyCount = s₁.replyCount + 1 ↔
          RepliesOnce s₁.enabled c.1 c.2))
        (fun _ s' => (s'.replyCount = s₁.replyCount + 1 ↔ RepliesOnce s₁.enabled c.1 c.2) ∧
          (RepliesOnce s₁.enabled c.1 c.2 → s₁.enabled = true ∧ c.1.id = comReset))
        (fun _ _ => True) p₁ s₁ := by
    intro front c back hsplit p₁ s₁ hrun
    have hsent := hcommands c (by simp [hsplit])
    have hfront : ∀ c' ∈ front, Sent c' := fun c' hmem => hcommands c' (by simp [hsplit, hmem])
    have hboundary₁ := wp_completes (boundary_serve hfront hboundary) hrun
    exact wp_receive_replies hsent.full hsent.fits hsent.cut hboundary₁
  have hiff : ∀ front c back, commands = front ++ c :: back → ∀ p₁ s₁,
      Completes (serve exec abort (front.map Prod.snd)) p s () p₁ s₁ →
      ((receive exec abort c.2 p₁ s₁).ram.replyCount = s₁.replyCount + 1 ↔
        RepliesOnce s₁.enabled c.1 c.2) := by
    intro front c back hsplit p₁ s₁ hrun
    have h := (hstep front c back hsplit p₁ s₁ hrun).2
    cases hresult : (receive exec abort c.2 p₁ s₁).result with
    | none =>
        rw [hresult] at h
        exact h.1
    | some a =>
        rw [hresult] at h
        exact h.2
  refine ⟨⟨fun hall front c back hsplit p₁ s₁ hrun => ?_,
    fun hall front c back hsplit p₁ s₁ hrun => ?_⟩,
    fun front c back hsplit p₁ s₁ hrun honce hreset => ?_⟩
  · exact (hiff front c back hsplit p₁ s₁ hrun).mp (hall front c back hsplit p₁ s₁ hrun)
  · exact (hiff front c back hsplit p₁ s₁ hrun).mpr (hall front c back hsplit p₁ s₁ hrun)
  · have hends : wp (receive exec abort c.2) (fun _ _ _ => True) (fun _ _ => False)
        (fun _ _ => True) p₁ s₁ := by
      refine wp_mono (hstep front c back hsplit p₁ s₁ hrun) (fun _ _ _ _ => trivial)
        (fun _ _ h => ?_) fun _ _ => id
      obtain ⟨hopen, hid⟩ := h.2 honce
      exact hreset hopen hid
    obtain ⟨_, p₂, s₂, hrun₂, -⟩ := exists_completes hends
    exact ⟨p₂, s₂, hrun₂⟩

/-- `COM_INIT` in one packet, which the user accepts, and a `COM_SET_KEY` of one byte
in two. -/
theorem one_reply_iff_init_setKey :
    let exec := comExec ⟨.exact, .xorKey⟩ .willing
    let abort := comAbort .willing
    let commands : List (Frame × List (List Byte)) :=
      [(⟨comInit, 0, []⟩, [[0x02, 0, 0, 0]]), (⟨comSetKey, 1, [0xAA]⟩, [[0x21, 1, 0, 0], [0xAA]])]
    ∀ front c back, commands = front ++ c :: back → ∀ p₁ s₁,
      Completes (serve exec abort (front.map Prod.snd)) .zero .fresh () p₁ s₁ →
      (receive exec abort c.2 p₁ s₁).ram.replyCount = s₁.replyCount + 1 := by
  intro exec abort commands
  have hsent : ∀ c ∈ commands, Sent c := by
    intro c hmem
    simp only [commands, List.mem_cons, List.not_mem_nil, or_false] at hmem
    rcases hmem with rfl | rfl
    · exact ⟨⟨rfl, by decide⟩, rfl, by simp⟩
    · exact ⟨⟨rfl, by decide⟩, rfl, by simp⟩
  refine (one_reply_iff ⟨.exact, .xorKey⟩ (fun _ _ => true) (Vector.replicate 4 0) hsent .zero
    (s := .fresh) ⟨rfl, rfl, rfl, rfl⟩).1.mpr fun front c back hsplit p₁ s₁ hrun => ?_
  obtain ⟨-, -, rfl⟩ := hrun
  rcases List.cons_eq_append_iff.mp hsplit with ⟨rfl, h⟩ | ⟨front, rfl, h⟩
  · obtain ⟨rfl, -⟩ := List.cons.inj h
    exact ⟨by decide +kernel, by decide⟩
  · rcases List.cons_eq_append_iff.mp h with ⟨rfl, h⟩ | ⟨front', rfl, h⟩
    · obtain ⟨rfl, -⟩ := List.cons.inj h
      have hopen : ((serve exec abort [[[0x02, 0, 0, 0]]]) .zero .fresh).ram.enabled = true := by
        decide +kernel
      change RepliesOnce (serve exec abort [[[0x02, 0, 0, 0]]] .zero .fresh).ram.enabled _ _
      rw [hopen]
      exact (by decide : 1 ≤ 16)
    · simp at h

/-- Before the communication is enabled, a `COM_SET_FRAM` whose data comes in a packet
of its own is refused twice. -/
theorem one_reply_twice :
    let c : Frame × List (List Byte) :=
      (⟨comSetFram, 4, [0, 0, 0, 0xAA]⟩, [[0x20, 4, 0, 0], [0, 0, 0, 0xAA]])
    Sent c ∧ Boundary .fresh ∧ (receive (comExec ⟨.exact, .xorKey⟩ .willing) (comAbort .willing) c.2
      .zero .fresh).ram.replyCount = Session.fresh.replyCount + 2 := by
  intro c
  exact ⟨⟨⟨rfl, by decide⟩, by decide, by simp [c]⟩, ⟨rfl, rfl, rfl, rfl⟩, by decide +kernel⟩

end PasswordWallet
