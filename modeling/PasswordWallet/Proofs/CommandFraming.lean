import PasswordWallet.Communication.Effects

/-!
# Framing does not see how the stream is cut

The host sends commands, and USB hands their bytes over in packets.  Whether the
device then parses these commands depends on the packets in one way only: within
a packet, what stands behind the data of a command that ends there is read that
much too early (`Communication/Pointer.lean`).  `ReadInPlace` says that in each
packet the bytes read too early are the bytes that should be read.
-/

namespace PasswordWallet

open PowerLoss Framing

/-- Each byte of each packet is also found as many bytes earlier in the packet as
there is data in the packet of commands that have ended before that byte. -/
def ReadInPlace (commands : List Frame) (packets : List (List Byte)) : Prop :=
  ∀ before packet after, packets = before ++ packet :: after →
    ∀ i < packet.length, ∀ done command rest, commands = done ++ command :: rest →
      (stream done).length ≤ before.flatten.length + i →
      before.flatten.length + i < (stream done).length + command.bytes.length →
      packet.getD (i - dataSince before.flatten.length 0 done) 0 = packet.getD i 0

/-- Commands without data do not disturb those behind them. -/
theorem readInPlace_of_no_data {commands : List Frame} {packets : List (List Byte)}
    (h : ∀ done command rest, commands = done ++ command :: rest → ∀ c ∈ done, c.data = []) :
    ReadInPlace commands packets := by
  intro before packet after _ i _ done command rest hcommands _ _
  have hzero : ∀ offset, dataSince before.flatten.length offset done = 0 := by
    have hdone := h done command rest hcommands
    revert hdone
    clear * -
    induction done with
    | nil => exact fun _ _ => rfl
    | cons c done ih =>
        intro hdone offset
        rw [dataSince, ih (fun c hc => hdone c (List.mem_cons_of_mem _ hc)),
          hdone c (List.mem_cons_self ..), List.length_nil, Nat.zero_min]
  rw [hzero, Nat.sub_zero]

/-! ## The lag, from the commands -/

/-- Each byte of a stream belongs to one of its commands. -/
theorem exists_command_at {commands : List Frame} {n : ℕ} (hn : n < (stream commands).length) :
    ∃ done command rest, commands = done ++ command :: rest ∧ (stream done).length ≤ n ∧
      n < (stream done).length + command.bytes.length := by
  induction commands generalizing n with
  | nil => simp at hn
  | cons command commands ih =>
      rcases Nat.lt_or_ge n command.bytes.length with hfirst | hlater
      · exact ⟨[], command, commands, rfl, Nat.zero_le _, by simpa using hfirst⟩
      · rw [stream_cons, List.length_append] at hn
        obtain ⟨done, c, rest, rfl, hle, hlt⟩ := ih (n := n - command.bytes.length) (by omega)
        refine ⟨command :: done, c, rest, rfl, ?_, ?_⟩
        · rw [stream_cons, List.length_append]
          omega
        · rw [stream_cons, List.length_append]
          omega

/-- After the bytes before one of a command, the commands before that one have
been read. -/
theorem frames_of_prefix {done rest : List Frame} {command : Frame} {part : List Byte}
    (hfull : ∀ c ∈ done ++ command :: rest, c.Full)
    (hpre : part <+: stream (done ++ command :: rest))
    (hle : (stream done).length ≤ part.length)
    (hlt : part.length < (stream done).length + command.bytes.length) :
    (Reader.empty.feedAll part).frames = done := by
  obtain ⟨tail, htail⟩ := hpre
  rw [stream_append, stream_cons] at htail
  obtain ⟨inside, rfl⟩ : stream done <+: part :=
    List.prefix_of_prefix_length_le ⟨_, rfl⟩ ⟨tail, htail⟩ hle
  rw [List.append_assoc, List.append_cancel_left_eq] at htail
  rw [List.length_append] at hlt
  obtain ⟨left, hleft⟩ : inside <+: command.bytes :=
    List.prefix_of_prefix_length_le ⟨tail, htail⟩ ⟨_, rfl⟩ (by omega)
  have hne : left ≠ [] := by
    rintro rfl
    rw [List.append_nil] at hleft
    rw [hleft] at hlt
    omega
  have hread := @Reader.feedAll_stream [] done fun c hc =>
    hfull c (List.mem_append_left _ hc)
  rw [Reader.feedAll_append, show Reader.empty = Reader.after [] from rfl, hread]
  exact Reader.frames_feedAll_prefix (hfull command (by simp)) hleft hne

/-! ## Packets read as they came -/

/-- All packets are read as they came if and only if in each of them every byte
is also where the lag puts the pointer. -/
theorem rereadAll_eq_flatten_iff {packets : List (List Byte)} {r : Reader} (hsound : r.Sound) :
    rereadAll r packets = packets.flatten ↔
      ∀ before packet after, packets = before ++ packet :: after → ∀ i < packet.length,
        packet.getD (i - lag (r.bytes.length + before.flatten.length)
          (r.feedAll (before.flatten ++ packet.take i))) 0 = packet.getD i 0 := by
  induction packets generalizing r with
  | nil => simp [rereadAll]
  | cons packet packets ih =>
      have hfirst := @reread_eq_drop_iff r.bytes.length 0 packet.length packet r hsound rfl
        (Nat.zero_add _)
      simp only [List.drop_zero, Nat.zero_add] at hfirst
      have hbytes : (r.feedAll packet).bytes.length = r.bytes.length + packet.length := by
        rw [hsound.bytes_feedAll, List.length_append]
      have hrest := ih (hsound.feedAll packet)
      rw [rereadAll, List.flatten_cons, rereadPacket]
      constructor
      · intro heq
        obtain ⟨hpacket, hpackets⟩ := List.append_inj heq (length_reread ..)
        rw [hpacket, hrest] at hpackets
        rw [hfirst] at hpacket
        intro before packet' after hsplit i hi
        cases before with
        | nil =>
            obtain ⟨rfl, rfl⟩ := List.cons.inj hsplit
            simpa using hpacket i hi
        | cons first before =>
            rw [List.cons_append, List.cons.injEq] at hsplit
            obtain ⟨rfl, hsplit⟩ := hsplit
            have := hpackets before packet' after hsplit i hi
            rwa [hbytes, Nat.add_assoc, ← Reader.feedAll_append, ← List.append_assoc,
              ← List.length_append] at this
      · intro hall
        have hpacket : reread r.bytes.length packet packet.length r = packet := by
          rw [hfirst]
          intro i hi
          simpa using hall [] packet packets rfl i hi
        rw [hpacket, hrest.mpr]
        intro before packet' after hsplit i hi
        have := hall (packet :: before) packet' after (by rw [hsplit]; rfl) i hi
        rwa [List.flatten_cons, List.length_append, ← Nat.add_assoc, ← hbytes, List.append_assoc,
          Reader.feedAll_append] at this

/-- What the device reads is what the host sent if and only if the commands are
read in place. -/
theorem rereadAll_eq_iff {commands : List Frame} {packets : List (List Byte)}
    (hfull : ∀ c ∈ commands, c.Full) (hcut : packets.flatten = stream commands) :
    rereadAll Reader.empty packets = stream commands ↔ ReadInPlace commands packets := by
  have hlag : ∀ before packet after, packets = before ++ packet :: after →
      ∀ i < packet.length, ∀ done command rest, commands = done ++ command :: rest →
        (stream done).length ≤ before.flatten.length + i →
        before.flatten.length + i < (stream done).length + command.bytes.length →
        lag (Reader.empty.bytes.length + before.flatten.length)
            (Reader.empty.feedAll (before.flatten ++ packet.take i)) =
          dataSince before.flatten.length 0 done := by
    intro before packet after hsplit i hi done command rest hcommands hle hlt
    have hlength : (before.flatten ++ packet.take i).length = before.flatten.length + i := by
      rw [List.length_append, List.length_take, min_eq_left hi.le]
    have hpre : before.flatten ++ packet.take i <+: stream (done ++ command :: rest) := by
      rw [← hcommands, ← hcut, hsplit, List.flatten_append, List.flatten_cons]
      exact (List.prefix_append_right_inj _).mpr
        ((List.take_prefix i packet).trans (List.prefix_append _ _))
    rw [lag, frames_of_prefix (hcommands ▸ hfull) hpre (hlength ▸ hle) (hlength ▸ hlt),
      show Reader.empty.bytes.length = 0 from rfl, Nat.zero_add]
  rw [← hcut, rereadAll_eq_flatten_iff Reader.sound_empty]
  constructor
  · intro hall before packet after hsplit i hi done command rest hcommands hle hlt
    rw [← hlag before packet after hsplit i hi done command rest hcommands hle hlt]
    exact hall before packet after hsplit i hi
  · intro hall before packet after hsplit i hi
    have hposition : before.flatten.length + i < (stream commands).length := by
      rw [← hcut, hsplit, List.flatten_append, List.flatten_cons, List.length_append,
        List.length_append]
      omega
    obtain ⟨done, command, rest, hcommands, hle, hlt⟩ := exists_command_at hposition
    rw [hlag before packet after hsplit i hi done command rest hcommands hle hlt]
    exact hall before packet after hsplit i hi done command rest hcommands hle hlt

/-! ## The theorem -/

theorem wp_receive_empty {exec : List Byte → Com Unit} {abort : Com Unit} {Stuck : Prop}
    (hexec : NotReentered Stuck exec) {packets : List (List Byte)}
    (hpackets : ∀ packet ∈ packets, 1 ≤ packet.length ∧ packet.length ≤ 255) {p : Image}
    {s : Session} (hparser : s.parser.comState = .id) (htimed : s.timedOut = false)
    (hlog : s.log = []) :
    wp (receive exec abort packets)
      (fun _ _ s' => parsed s'.log = (Reader.empty.feedAll (rereadAll Reader.empty packets)).seen)
      (fun _ _ => Stuck) (fun _ _ => True) p s := by
  have hreads : Reads s.parser (parsed s.log) Reader.empty := by
    rw [hlog]
    exact reads_empty hparser
  refine wp_imp (wp_receive hexec Reader.sound_empty hreads htimed fun packet hmem => ?_)
    fun _ _ _ h => h.seen.symm
  obtain ⟨hpos, hle⟩ := hpackets packet hmem
  exact ⟨List.length_pos_iff.mp hpos, hle⟩

theorem length_rereadAll (r : Reader) (packets : List (List Byte)) :
    (rereadAll r packets).length = packets.flatten.length := by
  induction packets generalizing r with
  | nil => rfl
  | cons packet packets ih =>
      rw [rereadAll, List.length_append, ih, rereadPacket, length_reread, List.flatten_cons,
        List.length_append]

/-- From a command boundary on, with `com_exec` not re-entered and no timeout: the
device comes to the end of the packets if `com_exec` returns, and it has then
presented to `com_exec` the commands of the host, no more and no less, if and
only if they are read in place. -/
theorem commands_parsed_iff {exec : List Byte → Com Unit} (abort : Com Unit)
    (hexec : NotReentered True exec) {commands : List Frame} (hfull : ∀ c ∈ commands, c.Full)
    {packets : List (List Byte)} (hcut : packets.flatten = stream commands)
    (hpackets : ∀ packet ∈ packets, 1 ≤ packet.length ∧ packet.length ≤ 255) (p : Image)
    {s : Session} (hparser : s.parser.comState = .id) (htimed : s.timedOut = false)
    (hlog : s.log = []) :
    (NotReentered False exec → ∃ p' s', Completes (receive exec abort packets) p s () p' s') ∧
      ∀ p' s', Completes (receive exec abort packets) p s () p' s' →
        (parsed s'.log = commands ↔ ReadInPlace commands packets) := by
  refine ⟨fun hreturns => ?_, fun p' s' hrun => ?_⟩
  · obtain ⟨_, p', s', hrun, -⟩ := exists_completes (p := p) (m := receive exec abort packets)
      (wp_receive_empty hreturns hpackets hparser htimed hlog)
    exact ⟨p', s', hrun⟩
  · rw [wp_completes (wp_receive_empty hexec hpackets hparser htimed hlog) hrun,
      ← rereadAll_eq_iff hfull hcut]
    constructor
    · intro hseen
      refine Reader.eq_stream hseen ?_
      rw [length_rereadAll, hcut]
    · intro hread
      rw [hread, show Reader.empty = Reader.after [] from rfl, Reader.feedAll_stream hfull]
      simp [Reader.after, Reader.seen]

/-! ## Concrete runs -/

theorem commands_parsed_iff_three_packets :
    let commands : List Frame := [⟨comGetVersion, 0, []⟩, ⟨comSetKey, 1, [0xAA]⟩]
    let packets : List (List Byte) := [[0x13, 0], [0, 0, 0x21, 1], [0, 0, 0xAA]]
    let m := receive (comExec ⟨.exact, .xorKey⟩ Env.willing) (comAbort Env.willing) packets
    ∃ p' s', Completes m Image.zero Session.fresh () p' s' ∧ parsed s'.log = commands := by
  intro commands packets m
  have hfull : ∀ c ∈ commands, c.Full := by simp [commands, Frame.Full]
  have hpackets : ∀ packet ∈ packets, 1 ≤ packet.length ∧ packet.length ≤ 255 := by
    simp [packets]
  have hiff := (commands_parsed_iff (comAbort Env.willing)
    (comExec_quiet_notReentered ⟨.exact, .xorKey⟩ (fun _ _ => true) (Vector.replicate 4 0)) hfull
    (show packets.flatten = stream commands by decide) hpackets Image.zero (s := Session.fresh)
      rfl rfl rfl).2
  have hresult : (m Image.zero Session.fresh).result = some () := by decide +kernel
  obtain ⟨p', s', hrun⟩ : ∃ p' s', Completes m Image.zero Session.fresh () p' s' :=
    ⟨_, _, hresult, rfl, rfl⟩
  refine ⟨p', s', hrun, (hiff p' s' hrun).mpr (readInPlace_of_no_data ?_)⟩
  intro done command rest hcommands c hc
  simp only [commands, List.cons_eq_append_iff] at hcommands
  rcases hcommands with ⟨rfl, -⟩ | ⟨done, rfl, ⟨rfl, -⟩ | ⟨done', rfl, h⟩⟩
  · cases hc
  · obtain rfl := List.mem_singleton.mp hc
    rfl
  · simp at h

/-- In one packet, `COM_SET_KEY` with one byte and `COM_END`: the device reads the
byte again, as the id of a command. -/
theorem commands_misread :
    let commands : List Frame := [⟨comSetKey, 1, [0xAA]⟩, ⟨comEnd, 0, []⟩]
    let m := receive (comExec ⟨.exact, .xorKey⟩ Env.willing) (comAbort Env.willing)
      [stream commands]
    (m Image.zero Session.fresh).result = some () ∧
      parsed (m Image.zero Session.fresh).ram.log = [⟨comSetKey, 1, [0xAA]⟩, ⟨0xAA, 3, []⟩] ∧
      parsed (m Image.zero Session.fresh).ram.log ≠ commands := by
  decide +kernel

end PasswordWallet
