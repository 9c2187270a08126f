import Mathlib.Data.List.GetD
import PasswordWallet.Communication.Parsing

/-!
# The bytes that the pointer reads

Over data the pointer of `com_process_data` does not move.  So behind the data of
a command that ends in a packet, what is read of the packet lags by as many bytes
as that data has in the packet: `reread` is what is read.
-/

namespace PasswordWallet

open PowerLoss Framing

/-- How many bytes of data the frames have from the position `base` of the stream
on; the first of them starts at `offset`. -/
def dataSince (base : ℕ) : ℕ → List Frame → ℕ
  | _, [] => 0
  | offset, f :: rest =>
      min f.data.length (offset + f.bytes.length - base) +
        dataSince base (offset + f.bytes.length) rest

theorem dataSince_concat (base offset : ℕ) (frames : List Frame) (f : Frame) :
    dataSince base offset (frames ++ [f]) = dataSince base offset frames +
      min f.data.length (offset + (stream (frames ++ [f])).length - base) := by
  induction frames generalizing offset with
  | nil => simp [dataSince]
  | cons g frames ih =>
      simp only [List.cons_append, dataSince, ih, stream_cons, List.length_append,
        Nat.add_assoc]

theorem dataSince_eq_zero {base offset : ℕ} {frames : List Frame}
    (h : offset + (stream frames).length ≤ base) : dataSince base offset frames = 0 := by
  induction frames generalizing offset with
  | nil => rfl
  | cons f frames ih =>
      rw [stream_cons, List.length_append] at h
      rw [dataSince, ih (by omega), Nat.sub_eq_zero_of_le (by omega), Nat.min_zero]

/-- How far the pointer lags, in a packet that starts at the position `base`. -/
def lag (base : ℕ) (r : Reader) : ℕ := dataSince base 0 r.frames

theorem lag_start (r : Reader) : lag r.bytes.length r = 0 := by
  refine dataSince_eq_zero ?_
  rw [Reader.bytes, Reader.seen, stream_append, List.length_append, List.length_append]
  omega

/-- The next `n` bytes that are read of a packet. -/
def reread (base : ℕ) (packet : List Byte) : ℕ → Reader → List Byte
  | 0, _ => []
  | n + 1, r =>
      let b := packet.getD (r.bytes.length - base - lag base r) 0
      b :: reread base packet n (r.feed b)

@[simp] theorem length_reread (base : ℕ) (packet : List Byte) (n : ℕ) (r : Reader) :
    (reread base packet n r).length = n := by
  induction n generalizing r with
  | zero => rfl
  | succ n ih => simp [reread, ih]

/-- While no frame comes to its end the pointer moves on. -/
theorem reread_add {base x : ℕ} {packet : List Byte} {n k : ℕ} {r : Reader} (hsound : r.Sound)
    (hx : r.bytes.length = base + lag base r + x) (hfit : x + k ≤ packet.length)
    (hbefore : ∀ i < k, (r.feedAll ((packet.drop x).take i)).frames = r.frames) :
    reread base packet (k + n) r =
      (packet.drop x).take k ++ reread base packet n (r.feedAll ((packet.drop x).take k)) := by
  induction k generalizing r x with
  | zero => simp
  | succ k ih =>
      have hlt : x < packet.length := by omega
      have hdrop : packet.drop x = packet.getD x 0 :: packet.drop (x + 1) := by
        rw [List.getD_eq_getElem _ _ hlt]
        exact List.drop_eq_getElem_cons hlt
      obtain ⟨b, hb⟩ : ∃ b, packet.getD x 0 = b := ⟨_, rfl⟩
      rw [hb] at hdrop
      have hread : r.bytes.length - base - lag base r = x := by omega
      have hfeed : ∀ i, r.feedAll ((packet.drop x).take (i + 1)) =
          (r.feed b).feedAll ((packet.drop (x + 1)).take i) := fun i => by
        rw [hdrop, List.take_succ_cons, Reader.feedAll_cons]
      rw [hfeed, hdrop, List.take_succ_cons, Nat.add_right_comm, reread, hread]
      simp only [hb, List.cons_append, List.cons.injEq, true_and]
      cases k with
      | zero => simp
      | succ k =>
          have hframes : (r.feed b).frames = r.frames := by
            rw [← hbefore 1 (by omega), hfeed 0]
            rfl
          refine ih (hsound.feed b) ?_ (by omega) fun i hi => ?_
          · rw [hsound.bytes_feed, List.length_append, hx, lag, lag, hframes]
            simp only [List.length_singleton]
            omega
          · rw [← hfeed, hframes]
            exact hbefore (i + 1) (by omega)

/-! ## Packets -/

/-- The packet, as it is read from the beginning. -/
def rereadPacket (packet : List Byte) (r : Reader) : List Byte :=
  reread r.bytes.length packet packet.length r

/-- What is read of packets, one after the other. -/
def rereadAll : Reader → List (List Byte) → List Byte
  | _, [] => []
  | r, packet :: rest =>
      rereadPacket packet r ++ rereadAll (r.feedAll (rereadPacket packet r)) rest

/-- What is left of a packet is read as it came if and only if each of its bytes
is also where the lag puts the pointer. -/
theorem reread_eq_drop_iff {base x n : ℕ} {packet : List Byte} {r : Reader} (hsound : r.Sound)
    (hx : r.bytes.length = base + x) (hn : x + n = packet.length) :
    reread base packet n r = packet.drop x ↔
      ∀ i < n, packet.getD (x + i - lag base (r.feedAll ((packet.drop x).take i))) 0 =
        packet.getD (x + i) 0 := by
  induction n generalizing r x with
  | zero => simp [reread, List.drop_eq_nil_of_le (show packet.length ≤ x by omega)]
  | succ n ih =>
      have hlt : x < packet.length := by omega
      obtain ⟨c, hc⟩ : ∃ c, packet.getD x 0 = c := ⟨_, rfl⟩
      have hdrop : packet.drop x = c :: packet.drop (x + 1) := by
        rw [← hc, List.getD_eq_getElem _ _ hlt]
        exact List.drop_eq_getElem_cons hlt
      have hread : r.bytes.length - base = x := by omega
      rw [Nat.forall_lt_succ_left, reread, hread, hdrop, List.cons.injEq]
      simp only [Nat.add_zero, List.take_zero, Reader.feedAll_nil, hc, List.take_succ_cons,
        Reader.feedAll_cons]
      refine and_congr_right fun hsame => ?_
      rw [hsame, ih (hsound.feed c) (by rw [hsound.bytes_feed, List.length_append, hx]; rfl)
        (by omega)]
      simp only [Nat.add_assoc, Nat.add_comm 1]

/-! ## The loop -/

/-- `com_exec` leaves the parser alone: no packet is processed inside it, and the
timer does not run out.  It may not return only if `Stuck` allows it. -/
def NotReentered (Stuck : Prop) (exec : List Byte → Com Unit) : Prop :=
  ∀ data p s, wp (exec data)
    (fun _ _ s' => s'.parser = s.parser ∧ s'.timedOut = s.timedOut ∧ parsed s'.log = parsed s.log)
    (fun _ _ => Stuck) (fun _ _ => True) p s

/-- Packets that come one after the other. -/
def receive (exec : List Byte → Com Unit) (abort : Com Unit) : List (List Byte) → Com Unit
  | [] => pure ()
  | packet :: rest => do
      processData exec abort packet packet.length
      receive exec abort rest

variable {exec : List Byte → Com Unit} {abort : Com Unit} {Stuck : Prop} {p : Image} {s : Session}

@[simp] theorem parsed_start (comPos comParameter : ℕ) (log : List Event) :
    parsed (.start comPos comParameter :: log) = parsed log := rfl

theorem wp_callExec (hexec : NotReentered Stuck exec) (call : Option Call) :
    wp (callExec exec call)
      (fun _ _ s' => s'.parser = s.parser ∧ s'.timedOut = s.timedOut ∧
        parsed s'.log = addPass (parsed s.log) call)
      (fun _ _ => Stuck) (fun _ _ => True) p s := by
  cases call with
  | none => exact (wp_pure _).mpr ⟨rfl, rfl, rfl⟩
  | some call =>
      rw [callExec, wp_bind, wp_modifySession]
      exact hexec _ _ _

theorem wp_processPass (hexec : NotReentered Stuck exec) (c : Cursor) :
    wp (processPass exec c)
      (fun c' _ s' => c' = (s.parser.pass c).cursor ∧ s'.parser = (s.parser.pass c).parser ∧
        s'.timedOut = s.timedOut ∧
        parsed s'.log = addPass (parsed s.log) (s.parser.pass c).call)
      (fun _ _ => Stuck) (fun _ _ => True) p s := by
  have htimed : s.noted.timedOut = s.timedOut := by unfold Session.noted; split_ifs <;> rfl
  have hparsed : parsed s.noted.log = parsed s.log := by unfold Session.noted; split_ifs <;> rfl
  simp only [processPass, wp_bind, wp_ram, wp_noteStart, wp_pure, wp_modifySession,
    Session.noted_parser]
  refine wp_imp (wp_callExec hexec _) fun _ _ _ h => ⟨trivial, h.1, h.2.1.trans htimed, ?_⟩
  rw [h.2.2, hparsed]

/-- Where the pointer is: `y` bytes into the packet, and behind the first byte only
between commands. -/
structure PointsTo (base : ℕ) (packet : List Byte) (parser : Parser) (c : Cursor) (r : Reader)
    (y : ℕ) : Prop where
  pointer : c.data = packet.drop y
  lag : r.bytes.length = base + lag base r + y
  left : r.bytes.length + c.lenght = base + packet.length
  between : r.bytes.length ≠ base → parser.comState = .id

/-- After a pass the pointer has moved over the header only. -/
theorem PointsTo.pass {base : ℕ} {packet : List Byte} {parser : Parser} {c : Cursor} {r : Reader}
    {y k : ℕ} (h : PointsTo base packet parser c r y) (hsound : r.Sound)
    (hread : PassRead r c parser (parser.pass c) k) (hleft : (parser.pass c).cursor.lenght ≠ 0) :
    ∃ y', PointsTo base packet (parser.pass c).parser (parser.pass c).cursor
      (r.feedAll (c.data.take k)) y' := by
  obtain ⟨hid, f, hframes, hdata, hwhole⟩ := hread.rest hleft
  have hstate := hread.reads.state
  rw [hid] at hstate
  have hk := hread.le
  have hlag := h.lag
  have hpacket := h.left
  have hlength : (r.feedAll (c.data.take k)).bytes.length = r.bytes.length + k := by
    rw [hsound.bytes_feedAll, List.length_append, List.length_take, h.pointer, List.length_drop]
    omega
  have hstream : (r.feedAll (c.data.take k)).bytes.length = (stream (r.frames ++ [f])).length := by
    rw [Reader.bytes, Reader.seen, hstate.1, hstate.2, hframes]
    simp
  have hnext : PasswordWallet.lag base (r.feedAll (c.data.take k)) =
      PasswordWallet.lag base r + min f.data.length k := by
    rw [PasswordWallet.lag, hframes, dataSince_concat, Nat.zero_add, ← hstream, hlength,
      PasswordWallet.lag]
    by_cases hbase : r.bytes.length = base
    · rw [hbase, Nat.add_sub_cancel_left]
    · have hle := hwhole (h.between hbase)
      rw [min_eq_left hle, min_eq_left (by omega)]
  refine ⟨y + (k - min f.data.length k), ⟨?_, ?_, ?_, fun _ => hid⟩⟩
  · rw [hdata, h.pointer, List.drop_drop]
  · rw [hlength, hnext]
    omega
  · rw [hlength, hread.lenght]
    omega

theorem wp_processLoop (hexec : NotReentered Stuck exec) {base y fuel : ℕ} {packet : List Byte}
    {c : Cursor} {r : Reader} (hsound : r.Sound) (hreads : Reads s.parser (parsed s.log) r)
    (hpoints : PointsTo base packet s.parser c r y) (hpos : c.lenght ≠ 0) (hle : c.lenght ≤ 255)
    (hfuel : c.lenght ≤ fuel) :
    wp (processLoop exec fuel c)
      (fun _ _ s' => Reads s'.parser (parsed s'.log) (r.feedAll (reread base packet c.lenght r)) ∧
        s'.timedOut = s.timedOut)
      (fun _ _ => Stuck) (fun _ _ => True) p s := by
  induction fuel generalizing p s y c r with
  | zero => exact absurd (Nat.le_zero.mp hfuel) hpos
  | succ fuel ih =>
      have hlag := hpoints.lag
      have hleft := hpoints.left
      have hdata : c.lenght ≤ c.data.length := by
        rw [hpoints.pointer, List.length_drop]
        omega
      obtain ⟨k, hread⟩ := pass_read hreads hpos hle hdata
      have hk := hread.le
      have hreread : reread base packet c.lenght r = c.data.take k ++
          reread base packet (c.lenght - k) (r.feedAll (c.data.take k)) := by
        have hsplit := @reread_add base y packet (c.lenght - k) k r hsound hlag
          (by omega)
        rw [← hpoints.pointer, Nat.add_sub_cancel' hk] at hsplit
        exact hsplit hread.before
      rw [processLoop, wp_bind]
      refine wp_imp (wp_processPass hexec c) fun c' p₁ s₁ hpost => ?_
      obtain ⟨rfl, hparser, htimed, hparsed⟩ := hpost
      have hreads₁ := hread.reads
      rw [← hparser, hreads.seen, ← hparsed] at hreads₁
      rw [wp_ite, wp_pure]
      refine ⟨fun hzero => ?_, fun hmore => ?_⟩
      · have hdone : c.lenght - k = 0 := hread.lenght ▸ hzero
        rw [hreread, hdone, reread, List.append_nil]
        exact ⟨hreads₁, htimed⟩
      · obtain ⟨y', hnext⟩ := hpoints.pass hsound hread hmore
        have hlenght := hread.lenght
        have hpos := hread.pos
        rw [← hparser] at hnext
        refine wp_imp (ih (hsound.feedAll _) hreads₁ hnext hmore (by omega) (by omega))
          fun _ p₂ s₂ hpost => ?_
        rw [hreread, Reader.feedAll_append, ← hlenght]
        exact ⟨hpost.1, hpost.2.trans htimed⟩

/-- A packet feeds the reader what is read of it. -/
theorem wp_processData (hexec : NotReentered Stuck exec) {packet : List Byte} {r : Reader}
    (hsound : r.Sound) (hreads : Reads s.parser (parsed s.log) r) (htimed : s.timedOut = false)
    (hpos : packet ≠ []) (hle : packet.length ≤ 255) :
    wp (processData exec abort packet packet.length)
      (fun _ _ s' => Reads s'.parser (parsed s'.log) (r.feedAll (rereadPacket packet r)) ∧
        s'.timedOut = false)
      (fun _ _ => Stuck) (fun _ _ => True) p s := by
  simp only [processData, abortLate, wp_bind, wp_ram, wp_ite, wp_pure, wp_modifySession]
  refine ⟨fun hlate => absurd (htimed.symm.trans hlate.1) Bool.false_ne_true, fun _ => ?_⟩
  have hlag := lag_start r
  refine wp_processLoop (s := { s with timedOut := false }) (y := 0) hexec hsound hreads
    ⟨rfl, by omega, rfl, fun hne => absurd rfl hne⟩ (by simpa using hpos) hle ?_
  exact le_trans hle (by decide)

theorem wp_receive (hexec : NotReentered Stuck exec) {packets : List (List Byte)} {r : Reader}
    (hsound : r.Sound) (hreads : Reads s.parser (parsed s.log) r) (htimed : s.timedOut = false)
    (hpackets : ∀ packet ∈ packets, packet ≠ [] ∧ packet.length ≤ 255) :
    wp (receive exec abort packets)
      (fun _ _ s' => Reads s'.parser (parsed s'.log) (r.feedAll (rereadAll r packets)))
      (fun _ _ => Stuck) (fun _ _ => True) p s := by
  induction packets generalizing p s r with
  | nil => exact (wp_pure _).mpr hreads
  | cons packet rest ih =>
      obtain ⟨hpos, hle⟩ := hpackets packet (List.mem_cons_self ..)
      rw [receive, wp_bind]
      refine wp_imp (wp_processData hexec hsound hreads htimed hpos hle) fun _ p₁ s₁ hpost => ?_
      rw [rereadAll, Reader.feedAll_append]
      exact ih (hsound.feedAll _) hpost.1 hpost.2 fun packet hmem =>
        hpackets packet (List.mem_cons_of_mem _ hmem)

end PasswordWallet
