import PasswordWallet.Communication.Effects

/-!
# Packets of one command

A packet that holds bytes of one command only takes one pass: it goes on with the
header, or it calls `com_exec` once, with the bytes of the data that it brings.
-/

namespace PasswordWallet

open PowerLoss Framing

/-- The reader that has read `k` bytes of a command. -/
def readTo (command : Frame) (k : ℕ) : Reader := (Reader.after []).feedAll (command.bytes.take k)

section ReadTo

variable {command : Frame}

theorem readTo_header (command : Frame) {k : ℕ} (hk : k < 4) :
    (readTo command k).current = none ∧ (readTo command k).frames = [] := by
  have hbytes : command.bytes = [command.id, BitVec.ofNat 8 command.size,
      BitVec.ofNat 8 (command.size / 256), BitVec.ofNat 8 (command.size / 65536)] ++
      command.data := rfl
  rw [readTo, hbytes, List.take_append_of_le_length (by simp; omega)]
  match k, hk with
  | 0, _ => exact ⟨rfl, rfl⟩
  | 1, _ => exact ⟨rfl, rfl⟩
  | 2, _ => exact ⟨rfl, rfl⟩
  | 3, _ => exact ⟨rfl, rfl⟩

theorem readTo_data (hfull : command.Full) (k : ℕ) :
    readTo command (4 + k) = Reader.file [] { command with data := command.data.take k } := by
  have htake : command.bytes.take (4 + k) =
      command.id :: (sizeBytes command.size ++ command.data.take k) := by
    rw [Nat.add_comm]
    rfl
  have hle : (command.data.take k).length ≤ command.size :=
    (List.length_take_le' k _).trans hfull.1.le
  rw [readTo, htake, Reader.feedAll_frame hfull hle]

/-- Before its last byte the command is not full. -/
theorem frames_readTo (hfull : command.Full) {k : ℕ} (hk : k < command.bytes.length) :
    (readTo command k).frames = [] := by
  refine Reader.frames_feedAll_prefix hfull (List.take_append_drop k command.bytes) ?_
  rw [ne_eq, List.drop_eq_nil_iff]
  omega

theorem feedAll_readTo {k : ℕ} {packet : List Byte} (hpacket : packet <+: command.bytes.drop k) :
    (readTo command k).feedAll packet = readTo command (k + packet.length) := by
  rw [readTo, ← Reader.feedAll_append, readTo]
  congr 1
  rw [List.take_add, List.prefix_iff_eq_take.mp hpacket]
  simp

end ReadTo

/-- The parser has read `k` bytes of the command. -/
def AtByte (command : Frame) (k : ℕ) (parser : Parser) : Prop :=
  Reads parser (readTo command k).seen (readTo command k)

theorem atByte_zero {command : Frame} {parser : Parser} (h : parser.comState = .id) :
    AtByte command 0 parser := reads_empty h

theorem atByte_of_reads {command : Frame} {k : ℕ} {parser : Parser} {frames : List Frame}
    (h : Reads parser frames (readTo command k)) : AtByte command k parser :=
  ⟨rfl, h.state, h.lacks⟩

/-- The session before a call of `com_exec`, and after a packet without one. -/
def Session.advance (s : Session) (parser : Parser) : Session :=
  { ({ s with timedOut := false } : Session).noted with parser := parser }

@[simp] theorem Session.advance_enabled (s : Session) (parser : Parser) :
    (s.advance parser).enabled = s.enabled := by
  unfold Session.advance Session.noted
  split_ifs <;> rfl

@[simp] theorem Session.advance_ram (s : Session) (parser : Parser) :
    (s.advance parser).ram = s.ram := by
  unfold Session.advance Session.noted
  split_ifs <;> rfl

@[simp] theorem Session.advance_timedOut (s : Session) (parser : Parser) :
    (s.advance parser).timedOut = false := by
  unfold Session.advance Session.noted
  split_ifs <;> rfl

@[simp] theorem Session.advance_comPos (s : Session) (parser : Parser) :
    (s.advance parser).comPos = s.comPos := by
  unfold Session.advance Session.noted
  split_ifs <;> rfl

@[simp] theorem Session.advance_comParameter (s : Session) (parser : Parser) :
    (s.advance parser).comParameter = s.comParameter := by
  unfold Session.advance Session.noted
  split_ifs <;> rfl

@[simp] theorem Session.advance_replies (s : Session) (parser : Parser) :
    replies (s.advance parser).log = replies s.log := by
  unfold Session.advance Session.noted
  split_ifs <;> rfl

@[simp] theorem Session.advance_parser (s : Session) (parser : Parser) :
    (s.advance parser).parser = parser := rfl

/-- The parser while `com_exec` is called, `k` bytes of the command having come. -/
structure Serving (command : Frame) (k : ℕ) (parser : Parser) : Prop where
  id : parser.id = command.id
  totalSize : parser.totalSize = command.size
  more : k < command.bytes.length → AtByte command k parser
  last : k = command.bytes.length → parser.comState = .id

/-- The data that the call of `com_exec` for a packet is given. -/
def chunk (command : Frame) (k : ℕ) (packet : List Byte) : List Byte :=
  (command.data.take (k + packet.length - 4)).drop (k - 4)

section Packet

variable {exec : List Byte → Com Unit} {abort : Com Unit} {command : Frame} {k : ℕ}
  {packet : List Byte} {p : Image} {s : Session}

/-- One pass takes the packet. -/
theorem pass_single (hfull : command.Full) (hat : AtByte command k s.parser)
    (hpacket : packet <+: command.bytes.drop k) (hne : packet ≠ []) (hle : packet.length ≤ 255) :
    (s.parser.pass ⟨packet, packet.length⟩).cursor.lenght = 0 ∧
      Reads (s.parser.pass ⟨packet, packet.length⟩).parser
        (addPass (readTo command k).seen (s.parser.pass ⟨packet, packet.length⟩).call)
        (readTo command (k + packet.length)) := by
  have hpos := List.length_pos_iff.mpr hne
  obtain ⟨j, hread⟩ := pass_read (c := ⟨packet, packet.length⟩) hat hpos.ne' hle le_rfl
  have hlenght := hread.lenght
  have hj := hread.le
  simp only at hlenght hj
  have hfeed : ∀ i, (readTo command k).feedAll (packet.take i) =
      readTo command (k + (packet.take i).length) := fun i =>
    feedAll_readTo ((List.take_prefix i packet).trans hpacket)
  have hwhole : j = packet.length := by
    by_contra hshort
    obtain ⟨-, f, hframes, -⟩ := hread.rest (by rw [hlenght]; omega)
    have hlength := hpacket.length_le
    rw [List.length_drop] at hlength
    have hlt : k + (packet.take j).length < command.bytes.length := by
      rw [List.length_take]
      omega
    rw [hfeed, frames_readTo hfull hlt] at hframes
    simp at hframes
  subst hwhole
  have hreads := hread.reads
  rw [hfeed, List.take_length] at hreads
  exact ⟨by rw [hlenght, Nat.sub_self], hreads⟩

/-- The header of the command is not complete after the packet. -/
theorem pass_header (hat : AtByte command k s.parser)
    (hreads : Reads (s.parser.pass ⟨packet, packet.length⟩).parser
      (addPass (readTo command k).seen (s.parser.pass ⟨packet, packet.length⟩).call)
      (readTo command (k + packet.length))) (hshort : k + packet.length < 4) :
    (s.parser.pass ⟨packet, packet.length⟩).call = none := by
  obtain ⟨hnone, hnil⟩ := readTo_header command (show k < 4 by omega)
  obtain ⟨hnone', hnil'⟩ := readTo_header command hshort
  have hseen := hreads.seen
  rw [Reader.seen, Reader.seen, hnone, hnil, hnone', hnil'] at hseen
  cases hcall : (s.parser.pass ⟨packet, packet.length⟩).call with
  | none => rfl
  | some call =>
      have hheader : s.parser.comState ≠ .data := fun hdata => by
        obtain ⟨f, hf, -⟩ := hat.current_eq hdata
        rw [hnone] at hf
        cases hf
      have hfirst := (pass_call hcall).1
      rw [hcall, addPass, addCall, if_pos (by simp [hfirst, hheader])] at hseen
      simp at hseen

/-- The call that a packet makes once the header is complete. -/
theorem pass_data (hfull : command.Full) (hat : AtByte command k s.parser)
    (hpacket : packet <+: command.bytes.drop k) (hne : packet ≠ [])
    (hreads : Reads (s.parser.pass ⟨packet, packet.length⟩).parser
      (addPass (readTo command k).seen (s.parser.pass ⟨packet, packet.length⟩).call)
      (readTo command (k + packet.length))) (hlong : 4 ≤ k + packet.length) :
    ∃ call, (s.parser.pass ⟨packet, packet.length⟩).call = some call ∧
      call.data = chunk command k packet ∧
      (s.parser.pass ⟨packet, packet.length⟩).parser.id = command.id ∧
      (s.parser.pass ⟨packet, packet.length⟩).parser.totalSize = command.size := by
  obtain ⟨m, hm⟩ := Nat.exists_eq_add_of_le hlong
  have hseen := hreads.seen
  rw [hm, readTo_data hfull, Reader.seen_file, List.nil_append] at hseen
  have hchunk : chunk command k packet = (command.data.take m).drop (k - 4) := by
    rw [chunk, hm, Nat.add_sub_cancel_left]
  have hlength := hpacket.length_le
  have hpos := List.length_pos_iff.mpr hne
  rw [List.length_drop] at hlength
  rcases Nat.lt_or_ge k 4 with hk | hk
  · obtain ⟨hnone, hnil⟩ := readTo_header command hk
    rw [Reader.seen, hnone, hnil] at hseen
    cases hcall : (s.parser.pass ⟨packet, packet.length⟩).call with
    | none =>
        rw [hcall] at hseen
        simp [addPass] at hseen
    | some call =>
        have hheader : s.parser.comState ≠ .data := fun hdata => by
          obtain ⟨f, hf, -⟩ := hat.current_eq hdata
          rw [hnone] at hf
          cases hf
        obtain ⟨hfirst, hid, hsize⟩ := pass_call hcall
        rw [hcall, addPass, addCall, if_pos (by simp [hfirst, hheader])] at hseen
        simp only [Option.toList_none, List.append_nil, List.nil_append, List.cons.injEq,
          Frame.mk.injEq, and_true] at hseen
        refine ⟨call, rfl, ?_, hid ▸ hseen.1.symm, hsize ▸ hseen.2.1.symm⟩
        rw [hchunk, Nat.sub_eq_zero_of_le hk.le, List.drop_zero]
        exact hseen.2.2.symm
  · obtain ⟨i, rfl⟩ := Nat.exists_eq_add_of_le hk
    have hlack : (command.data.take i).length < command.size := by
      rw [List.length_take]
      have := hfull.1
      simp only [Frame.length_bytes] at hlength
      omega
    have hcurrent : (readTo command (4 + i)).current =
        some { command with data := command.data.take i } := by
      rw [readTo_data hfull, Reader.file, if_neg hlack.ne]
    have hdata : s.parser.comState = .data := by
      by_contra hheader
      rw [hat.state.current_eq_none hheader] at hcurrent
      cases hcurrent
    obtain ⟨⟨call, hcall⟩, hid, hsize⟩ :=
      pass_call_of_data (c := ⟨packet, packet.length⟩) hdata
    obtain ⟨f, hf, hid', hsize'⟩ := hat.current_eq hdata
    rw [hcurrent] at hf
    obtain rfl := Option.some.inj hf
    have hfirst := (pass_call hcall).1
    rw [hcall, addPass, addCall, if_neg (by simp [hfirst, hdata]), readTo_data hfull,
      Reader.seen_file, extendLast_concat] at hseen
    refine ⟨call, hcall, ?_, hid.trans hid'.symm, hsize.trans hsize'.symm⟩
    simp only [List.nil_append, List.cons.injEq, Frame.mk.injEq, and_true, true_and] at hseen
    have hi : (command.data.take i).length = i := by
      have := hfull.1
      simp only [Frame.length_bytes] at hlength
      rw [List.length_take]
      omega
    rw [hchunk, hseen, Nat.add_sub_cancel_left, List.drop_left' hi]

/-- After the last byte the parser is at a command boundary. -/
theorem comState_of_readTo {parser : Parser} {frames : List Frame} (hfull : command.Full)
    (hreads : Reads parser frames (readTo command command.bytes.length)) :
    parser.comState = .id := by
  have hdone : readTo command command.bytes.length = Reader.after [command] := by
    rw [Frame.length_bytes, readTo_data hfull, Reader.file, if_pos (by simpa using hfull.1)]
    simp [Reader.after]
  rw [hdone] at hreads
  have hstate := hreads.state
  cases hcom : parser.comState with
  | id => rfl
  | size1 => rw [hcom] at hstate; cases hstate.2
  | size2 =>
      rw [hcom] at hstate
      obtain ⟨-, _, h, -⟩ := hstate
      cases h
  | size3 =>
      rw [hcom] at hstate
      obtain ⟨-, _, _, h, -⟩ := hstate
      cases h
  | data =>
      obtain ⟨f, hf, -⟩ := hreads.current_eq hcom
      cases hf

/-- A packet of one command: the header goes on, or `com_exec` is called once. -/
theorem wp_packet {Q : Unit → Image → Session → Prop} {H : Image → Session → Prop}
    {C : Step Write → Image → Prop} (hfull : command.Full) (hat : AtByte command k s.parser)
    (htimed : s.timedOut = false) (hpacket : packet <+: command.bytes.drop k) (hne : packet ≠ [])
    (hle : packet.length ≤ 255)
    (hheader : k + packet.length < 4 → ∀ parser, AtByte command (k + packet.length) parser →
      Q () p (s.advance parser))
    (hdata : 4 ≤ k + packet.length → ∀ parser call,
      Serving command (k + packet.length) parser → wp (exec (chunk command k packet)) Q H C p
        ((s.advance parser).emit (.exec call s.enabled))) :
    wp (processData exec abort packet packet.length) Q H C p s := by
  have hat' : AtByte command k ({ s with timedOut := false } : Session).parser := hat
  obtain ⟨hlenght, hreads⟩ := pass_single hfull hat' hpacket hne hle
  rw [processData, wp_bind, abortLate, wp_bind, wp_ram, wp_ite]
  refine ⟨fun hlate => absurd (htimed.symm.trans hlate.1) Bool.false_ne_true, fun _ => ?_⟩
  rw [wp_pure, wp_bind, wp_modifySession, show passes = 511 + 1 from rfl, processLoop, wp_bind]
  simp only [processPass, wp_bind, wp_ram, wp_noteStart, wp_pure, wp_modifySession,
    Session.noted_parser]
  have hat'' := atByte_of_reads hreads
  suffices hcall : wp (callExec exec (s.parser.pass ⟨packet, packet.length⟩).call) Q H C p
      (s.advance (s.parser.pass ⟨packet, packet.length⟩).parser) by
    refine wp_imp hcall fun _ p' s' hQ => ?_
    rw [if_pos hlenght]
    exact (wp_pure _).mpr hQ
  rcases Nat.lt_or_ge (k + packet.length) 4 with hshort | hlong
  · rw [pass_header hat' hreads hshort]
    exact (wp_pure _).mpr (hheader hshort _ hat'')
  · obtain ⟨call, hcall, hchunk, hid, hsize⟩ := pass_data hfull hat' hpacket hne hreads hlong
    rw [hcall, callExec, wp_bind, wp_modifySession, hchunk, Session.advance_enabled]
    refine hdata hlong _ call ⟨hid, hsize, fun _ => hat'', fun hend => ?_⟩
    rw [hend] at hreads
    exact comState_of_readTo hfull hreads

/-- Packets of one command, given what holds after each of them. -/
theorem wp_receive_command {I : List (List Byte) → Image → Session → Prop}
    {H : Image → Session → Prop} {C : Step Write → Image → Prop} (hfull : command.Full)
    (hinv : ∀ done p s, I done p s → done.flatten.length < command.bytes.length →
      AtByte command done.flatten.length s.parser ∧ s.timedOut = false)
    (hheader : ∀ done packet p s parser, I done p s →
      done.flatten.length + packet.length < 4 →
      AtByte command (done.flatten.length + packet.length) parser →
      I (done ++ [packet]) p (s.advance parser))
    (hdata : ∀ done packet p s parser call, I done p s → packet ≠ [] →
      packet <+: command.bytes.drop done.flatten.length →
      4 ≤ done.flatten.length + packet.length →
      Serving command (done.flatten.length + packet.length) parser →
      wp (exec (chunk command done.flatten.length packet))
        (fun _ p' s' => I (done ++ [packet]) p' s') H C p
        ((s.advance parser).emit (.exec call s.enabled)))
    (done : List (List Byte)) {packets : List (List Byte)}
    (hpackets : ∀ packet ∈ packets, packet ≠ [] ∧ packet.length ≤ 255)
    (hcut : (done ++ packets).flatten <+: command.bytes) (h : I done p s) :
    wp (receive exec abort packets) (fun _ p' s' => I (done ++ packets) p' s') H C p s := by
  induction packets generalizing done p s with
  | nil => exact (wp_pure _).mpr (by rwa [List.append_nil])
  | cons packet packets ih =>
      obtain ⟨hne, hle⟩ := hpackets packet (List.mem_cons_self ..)
      have hpos := List.length_pos_iff.mpr hne
      have hlength := hcut.length_le
      rw [List.flatten_append, List.flatten_cons, List.length_append, List.length_append] at hlength
      obtain ⟨hat, htimed⟩ := hinv done p s h (by omega)
      have hpacket : packet <+: command.bytes.drop done.flatten.length := by
        obtain ⟨tail, htail⟩ := hcut
        rw [← htail]
        simp only [List.flatten_append, List.flatten_cons, List.append_assoc, List.drop_left]
        exact List.prefix_append _ _
      rw [receive, wp_bind]
      refine wp_imp (Q := fun _ p' s' => I (done ++ [packet]) p' s')
        (wp_packet hfull hat htimed hpacket hne hle ?_ ?_) fun _ p₁ s₁ h₁ => ?_
      · exact fun hshort parser => hheader done packet p s parser h hshort
      · exact fun hlong parser call => hdata done packet p s parser call h hne hpacket hlong
      · rw [List.append_cons]
        exact ih (done ++ [packet])
          (fun packet hmem => hpackets packet (List.mem_cons_of_mem _ hmem))
          (by rwa [← List.append_cons]) h₁

end Packet

end PasswordWallet
