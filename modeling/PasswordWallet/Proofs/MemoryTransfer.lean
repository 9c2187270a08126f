import PasswordWallet.Utility.TransferSession

/-!
# What `transfer_fram` says is so

The firmware is taken through each command of a session by the rules for `receive`: one that
is answered at once (`wp_receive_bare`), and a `COM_SET_FRAM`, whose data comes in parts
(`wp_receive_set`).  A command that does not come in whole is not answered, and of a
`COM_SET_FRAM` what came in is stored (`FirstPart`).  The host sees no more than what arrives
of the replies, and its comparison at the end is of what it has read.
-/

namespace PasswordWallet

open PowerLoss Framing Patching

/-! ## Reading -/

theorem readUntil_eq_none {num : ℕ} {out : List Byte} {reads : List (List Byte)} :
    readUntil num out reads = none ↔ (out ++ reads.flatten).length < num := by
  induction reads generalizing out with
  | nil =>
      rw [readUntil]
      split_ifs with h
      · simp [h]
      · simpa using h
  | cons r reads ih =>
      rw [readUntil]
      split_ifs with h
      · simp only [List.flatten_cons, List.length_append, false_iff]
        omega
      · rw [ih, List.flatten_cons, List.append_assoc]

/-- What has been read and what is left is what arrives. -/
theorem readUntil_eq_some {num : ℕ} {out out' : List Byte} {reads reads' : List (List Byte)}
    (h : readUntil num out reads = some (out', reads')) :
    num ≤ out'.length ∧ out' ++ reads'.flatten = out ++ reads.flatten := by
  induction reads generalizing out with
  | nil =>
      rw [readUntil] at h
      split_ifs at h with hnum
      · cases h
        exact ⟨hnum, rfl⟩
  | cons r reads ih =>
      rw [readUntil] at h
      split_ifs at h with hnum
      · cases h
        exact ⟨hnum, rfl⟩
      · rw [List.flatten_cons, ← List.append_assoc]
        exact ih h

/-- What is sent begins with what was read. -/
theorem getD_of_prefix {out whole : List Byte} (h : out <+: whole) {i : ℕ} (hi : i < out.length) :
    out.getD i 0 = whole.getD i 0 := by
  obtain ⟨rest, rfl⟩ := h
  rw [List.getD_append _ _ _ _ hi]

/-- The reply to `COM_GET_FRAM`. -/
def framReply (mem : List Byte) : List Byte := comFram :: (sizeBytes framByteSize ++ mem)

theorem framSize_eq {data mem : List Byte} (h : data <+: framReply mem) (hlong : 4 ≤ data.length) :
    framSize data = framByteSize := by
  have hbyte (i : ℕ) (hi : i < 4) : data.getD i 0 = (framReply mem).getD i 0 :=
    getD_of_prefix h (by omega)
  rw [framSize, hbyte 1 (by decide), hbyte 2 (by decide), hbyte 3 (by decide)]
  change ((2 : Byte).signExtend 32 <<< 16 ||| (0 : Byte).signExtend 32 <<< 8 |||
    (0 : Byte).signExtend 32).toNat = framByteSize
  decide

/-- However the reply is cut: the memory, if it has come, or an empty array. -/
theorem framOfReply_spec {reads : List (List Byte)} {mem : List Byte}
    (hlength : mem.length = framByteSize) (h : reads.flatten <+: framReply mem) :
    framOfReply reads = if reads.flatten = framReply mem then mem else [] := by
  have hreply : (framReply mem).length = 4 + framByteSize := by
    simp [framReply, sizeBytes, hlength]
  have hshort (hlt : reads.flatten.length < 4 + framByteSize) : reads.flatten ≠ framReply mem := by
    intro heq
    rw [heq, hreply] at hlt
    exact lt_irrefl _ hlt
  rw [framOfReply]
  cases hheader : readUntil 4 [] reads with
  | none =>
      have hlt := readUntil_eq_none.mp hheader
      rw [List.nil_append] at hlt
      exact (if_neg (hshort (by omega))).symm
  | some x =>
      obtain ⟨data, rest⟩ := x
      obtain ⟨hlong, hdata⟩ := readUntil_eq_some hheader
      rw [List.nil_append] at hdata
      have hprefix : data <+: framReply mem := (hdata ▸ List.prefix_append _ _).trans h
      have hid : data.getD 0 0 = comFram := getD_of_prefix hprefix (by omega)
      simp only [framSize_eq hprefix hlong, hid, ne_eq, not_true_eq_false, if_false]
      cases hbody : readUntil framByteSize (data.drop 4) rest with
      | none =>
          have hlt := readUntil_eq_none.mp hbody
          have hflat := congrArg List.length hdata
          rw [List.length_append, List.length_drop] at hlt
          rw [List.length_append] at hflat
          exact (if_neg (hshort (by omega))).symm
      | some y =>
          obtain ⟨data', rest'⟩ := y
          obtain ⟨hlong', hdata'⟩ := readUntil_eq_some hbody
          -- what is behind the header is the beginning of the memory, and long enough
          have hbehind : data.drop 4 ++ rest.flatten <+: mem := by
            rw [← List.drop_append_of_le_length hlong, hdata]
            exact List.IsPrefix.drop h 4
          have hmem : data' <+: mem := by
            rw [← hdata'] at hbehind
            exact (List.prefix_append _ _).trans hbehind
          have heq : data' = mem := hmem.eq_of_length_le (by omega)
          have hwhole : reads.flatten = framReply mem := by
            refine h.eq_of_length_le ?_
            have hflat := congrArg List.length hdata
            have hflat' := congrArg List.length hdata'
            simp only [List.length_append, List.length_drop] at hflat hflat'
            omega
          rw [if_pos hwhole, heq]
          exact List.take_of_length_le hlength.le

/-- A reply of four bytes. -/
theorem read_four {reads : List (List Byte)} {reply : List Byte} (hlength : reply.length = 4)
    (h : reads.flatten <+: reply) :
    read 4 reads = if reads.flatten = reply then some reply else none := by
  rw [read]
  cases hread : readUntil 4 [] reads with
  | none =>
      have hlt := readUntil_eq_none.mp hread
      rw [List.nil_append] at hlt
      rw [if_neg]
      · rfl
      · intro heq
        rw [heq, hlength] at hlt
        exact lt_irrefl _ hlt
  | some x =>
      obtain ⟨data, rest⟩ := x
      obtain ⟨hlong, hdata⟩ := readUntil_eq_some hread
      rw [List.nil_append] at hdata
      have heq : data = reply :=
        ((hdata ▸ List.prefix_append _ _).trans h).eq_of_length_le (by omega)
      have hwhole : reads.flatten = reply := by
        refine h.eq_of_length_le ?_
        rw [← hdata, List.length_append]
        omega
      rw [if_pos hwhole, heq]
      rfl

/-! ## What goes out -/

theorem wire_append (later earlier : List Event) :
    wire (later ++ earlier) = wire earlier ++ wire later := by
  induction later with
  | nil => exact (List.append_nil _).symm
  | cons event later ih => rw [List.cons_append, wire, ih, wire, List.append_assoc]

/-- The session has gone on from `s`, and `reply` has gone out since. -/
def GoesOut (s : Session) (reply : List Byte) (s' : Session) : Prop :=
  wire s'.log = wire s.log ++ reply

theorem GoesOut.reply_eq {s s' : Session} {reply : List Byte} (h : GoesOut s reply s') :
    (wire s'.log).drop (wire s.log).length = reply := by
  rw [h, List.drop_left]

theorem wire_advance (s : Session) (parser : Parser) :
    wire (s.advance parser).log = wire s.log := by
  unfold Session.advance Session.noted
  split_ifs
  · exact List.append_nil _
  · rfl

/-- A session in which a command may begin and the gate is open. -/
structure Open (s : Session) : Prop extends Boundary s where
  enabled : s.enabled = true

section Exchange

variable {t : Target} {answer : Image → Session → Bool} {framId : Vector Byte 4} {p : Image}
  {s : Session} {line : Line} {H : Image → Session → Prop}

/-- A command without data is called once, at a boundary, when all its bytes have come in. -/
theorem wp_receive_bare {Q : Image → Session → Prop} (id : Byte) {packets : List (List Byte)}
    (hpackets : ∀ packet ∈ packets, packet ≠ [] ∧ packet.length ≤ 255)
    (hcut : packets.flatten <+: (bareCommand id).bytes) (hboundary : Boundary s)
    (hpart : packets.flatten ≠ (bareCommand id).bytes →
      ∀ s', wire s'.log = wire s.log → Q p s')
    (hcall : ∀ s', Boundary s' → s'.enabled = s.enabled → wire s'.log = wire s.log →
      s'.parser.id = id → wp (comExec t (.quiet answer framId) []) (fun _ p' s'' => Q p' s'') H
        (fun _ _ => True) p s') :
    wp (receive (comExec t (.quiet answer framId)) (comAbort (.quiet answer framId)) packets)
      (fun _ p' s' => Q p' s') H (fun _ _ => True) p s := by
  have hfull : (bareCommand id).Full := ⟨rfl, by simp [bareCommand]⟩
  have hbytes : (bareCommand id).bytes.length = 4 := rfl
  refine wp_imp (wp_receive_command (I := fun done p' s' =>
      if done.flatten.length < 4 then
        AtByte (bareCommand id) done.flatten.length s'.parser ∧ p' = p ∧ s'.timedOut = false ∧
          s'.comPos = 0 ∧ s'.comParameter = 0 ∧ s'.enabled = s.enabled ∧
          wire s'.log = wire s.log
      else Q p' s') hfull (fun done p' s' h hlt => ?_)
    (fun done packet p' s' parser h hshort hat => ?_)
    (fun done packet p' s' parser call h hne hpacket hlong hserving => ?_)
    [] hpackets hcut ?_) fun _ p' s' h => ?_
  · rw [hbytes] at hlt
    rw [if_pos hlt] at h
    exact ⟨h.1, h.2.2.1⟩
  · have hlength : (done ++ [packet]).flatten.length = done.flatten.length + packet.length := by
      simp
    rw [if_pos (by omega)] at h
    obtain ⟨-, rfl, -, hcomPos, hcomParameter, henabled, hwire⟩ := h
    rw [if_pos (by omega), hlength]
    exact ⟨hat, rfl, s'.advance_timedOut parser, (s'.advance_comPos parser).trans hcomPos,
      (s'.advance_comParameter parser).trans hcomParameter,
      (s'.advance_enabled parser).trans henabled, (wire_advance s' parser).trans hwire⟩
  · have hle := hpacket.length_le
    have hpos := List.length_pos_iff.mpr hne
    rw [List.length_drop, hbytes] at hle
    have hlength : (done ++ [packet]).flatten.length = done.flatten.length + packet.length := by
      simp
    have hlast : done.flatten.length + packet.length = (bareCommand id).bytes.length := by
      rw [hbytes]
      omega
    rw [if_pos (by omega)] at h
    obtain ⟨-, rfl, -, hcomPos, hcomParameter, henabled, hwire⟩ := h
    simp only [hlength, if_neg (show ¬ done.flatten.length + packet.length < 4 by omega)]
    have hchunk : chunk (bareCommand id) done.flatten.length packet = [] := by
      simp [chunk, bareCommand]
    rw [hchunk]
    refine hcall _ ⟨hserving.last hlast, s'.advance_timedOut parser,
      (s'.advance_comPos parser).trans hcomPos,
      (s'.advance_comParameter parser).trans hcomParameter⟩
      ((s'.advance_enabled parser).trans henabled) ?_ hserving.id
    exact (List.append_nil _).trans ((wire_advance s' parser).trans hwire)
  · rw [if_pos (by simp)]
    exact ⟨atByte_zero hboundary.comState, rfl, hboundary.timedOut, hboundary.comPos,
      hboundary.comParameter, rfl, rfl⟩
  · rw [List.nil_append] at h
    by_cases hshort : packets.flatten.length < 4
    · rw [if_pos hshort] at h
      obtain ⟨-, rfl, -, -, -, -, hwire⟩ := h
      refine hpart (fun hwhole => ?_) s' hwire
      rw [hwhole, hbytes] at hshort
      exact lt_irrefl _ hshort
    · rwa [if_neg hshort] at h

/-- What `COM_INIT` sends, when the user answers `yes`. -/
def initReply (enabled yes : Bool) : List Byte :=
  (if enabled then (bareCommand comEnd).bytes else []) ++
    (bareCommand (if yes then comOk else comEnd)).bytes

/-- The user is asked, and the gate opens if the answer is yes. -/
theorem wp_confirm (hboundary : Boundary s) :
    wp (do
      let yes ← drawConfirmationScreen (.quiet answer framId)
      if yes then do
        modifySession fun s => (s.eventsHappen eventFlagCom).emit .accepted
        sendEmpty (.quiet answer framId) (.command comInit) comOk
      else sendEmpty (.quiet answer framId) (.command comInit) comEnd)
      (fun _ p' s' => p' = p ∧ ∃ s₁ yes, yes = answer p s₁ ∧ (yes = true → Open s') ∧
        GoesOut s (initReply false yes) s') H (fun _ _ => True) p s := by
  have hscreen : (Env.quiet answer framId).screen = pure () := rfl
  simp only [wp_bind, drawConfirmationScreen, wp_emit, hscreen, wp_pure, wp_durable, wp_ram,
    wp_ite, wp_modifySession, wp_sendEmpty_quiet]
  refine ⟨fun hyes => ⟨trivial, s.emit .screen, true, hyes.symm, fun _ => ?_, ?_⟩,
    fun hno => ⟨trivial, s.emit .screen, false, ((Bool.not_eq_true _).mp hno).symm,
      fun hyes => absurd hyes Bool.false_ne_true, ?_⟩⟩
  · refine ⟨⟨hboundary.comState, hboundary.timedOut, hboundary.comPos,
      hboundary.comParameter⟩, ?_⟩
    have hopen := Session.enabled_eventsHappen (s.emit .screen) eventFlagCom
    exact hopen.trans (Bool.or_true _)
  · simp [GoesOut, Session.emit, Session.eventsHappen, Session.setGlobalsEvents, wire, Event.wire,
      initReply, bareCommand, Frame.bytes]
  · simp [GoesOut, Session.emit, wire, Event.wire, initReply, bareCommand, Frame.bytes]

/-- `COM_INIT`; a gate that is open is closed first. -/
theorem wp_comExec_init (hboundary : Boundary s) (hid : s.parser.id = comInit) :
    wp (comExec t (.quiet answer framId) [])
      (fun _ p' s' => p' = p ∧ ∃ s₁ yes, yes = answer p s₁ ∧ (yes = true → Open s') ∧
        GoesOut s (initReply s.enabled yes) s') H (fun _ _ => True) p s := by
  have hgate : ¬ (s.enabled = false ∧ comInit ≠ comInit) := fun h => h.2 rfl
  rw [comExec, wp_bind, wp_ram, hid, if_neg (by decide), if_neg hgate]
  change wp (commandInit _) _ _ _ _ _
  rw [commandInit, wp_bind, abortEnabled, wp_bind, wp_ram, wp_ite, wp_comAbort_quiet, wp_emit]
  refine ⟨fun hopen => ?_, fun hclosed => ?_⟩
  · refine wp_imp (wp_confirm ⟨hboundary.comState, hboundary.timedOut, rfl, rfl⟩)
      fun _ p' s' h => ?_
    obtain ⟨himage, s₁, yes, hyes, hafter, hsent⟩ := h
    refine ⟨himage, s₁, yes, hyes, hafter, ?_⟩
    rw [hopen]
    unfold GoesOut at hsent ⊢
    rw [hsent]
    simp [Session.emit, Session.clearEvents, Session.setGlobalsEvents, wire, Event.wire,
      initReply, bareCommand, Frame.bytes]
  · refine wp_imp (wp_confirm ⟨hboundary.comState, hboundary.timedOut, hboundary.comPos,
      hboundary.comParameter⟩) fun _ p' s' h => ?_
    obtain ⟨himage, s₁, yes, hyes, hafter, hsent⟩ := h
    refine ⟨himage, s₁, yes, hyes, hafter, ?_⟩
    rw [(Bool.not_eq_true _).mp hclosed]
    unfold GoesOut at hsent ⊢
    rw [hsent]
    simp [Session.emit, wire, Event.wire]

theorem bytes_succ (p : Image) (i : ℕ) :
    p.bytes 0 ((i + 1) * 16) = p.bytes 0 (i * 16) ++ p.bytes (i * 16) 16 := by
  rw [Image.bytes, Image.bytes, Image.bytes, Nat.succ_mul, List.range_add, List.map_append,
    List.map_map]
  simp only [Function.comp_def, Nat.zero_add]

/-- `COM_GET_FRAM` sends the memory. -/
theorem wp_comExec_getFram (hopen : Open s) (hid : s.parser.id = comGetFram) :
    wp (comExec t (.quiet answer framId) [])
      (fun _ p' s' => p' = p ∧ Open s' ∧ GoesOut s (framReply (p.bytes 0 framByteSize)) s') H
        (fun _ _ => True) p s := by
  rw [comExec, wp_bind, wp_ram, hid, hopen.enabled, if_neg (by decide), if_neg (by decide)]
  change wp (commandGetFram _) _ _ _ _ _
  rw [commandGetFram, wp_bind, wp_sendHeader_quiet]
  refine wp_imp (wp_forUp _ (fun i p' s' => p' = p ∧ Open s' ∧
    GoesOut s (comFram :: (sizeBytes framByteSize ++ p.bytes 0 (i * 16))) s') 0 _
    ⟨rfl, ⟨⟨hopen.comState, hopen.timedOut, hopen.comPos, hopen.comParameter⟩, hopen.enabled⟩, ?_⟩
    fun i p' s' _ _ h => ?_) fun _ p' s' h => ?_
  · exact congrArg (wire s.log ++ ·) (List.append_nil _).symm
  · obtain ⟨rfl, hopen, hsent⟩ := h
    rw [framChunk, wp_bind, wp_durable, wp_bind, wp_emit, wp_sendData_quiet]
    refine ⟨rfl, ⟨⟨hopen.comState, hopen.timedOut, hopen.comPos, hopen.comParameter⟩,
      hopen.enabled⟩, ?_⟩
    rw [bytes_succ, ← List.append_assoc, ← List.cons_append]
    change wire s'.log ++ [] ++ p'.bytes (i * 16) 16 = _
    rw [List.append_nil, hsent, List.append_assoc]
  · obtain ⟨himage, hopen, hsent⟩ := h
    exact ⟨himage, hopen, hsent⟩

/-! ### `COM_SET_FRAM` -/

/-- The bytes of replies without data, the last one first. -/
def headers : List (Byte × ℕ) → List Byte
  | [] => []
  | (id, size) :: earlier => headers earlier ++ id :: sizeBytes size

/-- Since `log` only replies without data have gone out. -/
def Plain (log : List Event) (s : Session) : Prop :=
  ∃ later, s.log = later ++ log ∧ wire later = headers (replies later)

theorem Plain.emit {log : List Event} (h : Plain log s) (event : Event)
    (hevent : ∀ id bytes entered, event ≠ .payload id bytes entered) :
    Plain log (s.emit event) := by
  obtain ⟨later, hlog, hwire⟩ := h
  refine ⟨event :: later, congrArg (event :: ·) hlog, ?_⟩
  cases event with
  | header id size => exact congrArg (· ++ id :: sizeBytes size) hwire
  | payload id bytes entered => exact absurd rfl (hevent id bytes entered)
  | _ => exact (List.append_nil _).trans hwire

theorem Plain.advance {log : List Event} (h : Plain log s) (parser : Parser) :
    Plain log (s.advance parser) := by
  unfold Session.advance Session.noted
  split_ifs
  · exact Plain.emit (s := { s with timedOut := false }) h _ nofun
  · exact h

theorem takeAddress_plain (log : List Event) (data : List Byte) :
    Leads (Plain log) (fun _ => True) (Plain log) (takeAddress data) := by
  induction data with
  | nil => exact .pure []
  | cons byte rest ih =>
      refine .ram fun s hs => .ite (fun _ => ?_) fun _ => ?_
      · exact .bind (.modify (K := Plain log) fun s' h => h ▸ hs) fun _ => ih
      · exact (Leads.pure (I := Plain log) _).imp fun _ h => h ▸ hs

theorem commandSetFram_plain (log : List Event) (data : List Byte) :
    Leads (Plain log) (fun _ => True) (Plain log) (commandSetFram (.quiet answer framId) data) := by
  refine .bind (takeAddress_plain log data) fun rest => .bind (K := Plain log) ?_ fun _ => ?_
  · refine .ram fun s hs => .ite (fun _ => ?_) fun _ =>
      (Leads.pure (I := Plain log) ()).imp fun _ h => h ▸ hs
    intro p s' h
    rw [writeFram, wp_bind, wp_emit, wp_bind, wp_liftDev]
    refine wp_always _ (fun _ p' v' => ?_) fun _ _ => trivial
    rw [wp_modifySession]
    exact (h ▸ hs).emit _ (by simp)
  · refine .ram fun s hs => .ite (fun _ => ?_) fun _ =>
      (Leads.pure (I := Plain log) ()).imp fun _ h => h ▸ hs
    intro p s' h
    rw [wp_bind, wp_modifySession, wp_sendEmpty_quiet]
    exact Plain.emit (s := { s' with comParameter := 0, comPos := 0 }) (h ▸ hs) _ (by simp)

variable {addr : ℕ} {payload : List Byte}

theorem comExec_plain {log : List Event} (hid : s.parser.id = comSetFram)
    (henabled : s.enabled = true) (h : Plain log s) (data : List Byte) :
    wp (comExec t (.quiet answer framId) data) (fun _ _ s' => Plain log s') (fun _ _ => True)
      (fun _ _ => True) p s := by
  rw [comExec, wp_bind, wp_ram, hid, henabled, if_neg (by decide), if_neg (by decide)]
  exact commandSetFram_plain log data p s h

/-- The packets so far have been stored, without a reply that has data. -/
structure StoredPlainly (p₀ : Image) (addr : ℕ) (payload : List Byte) (log : List Event) (k : ℕ)
    (p : Image) (s : Session) : Prop where
  stored : Stored p₀ addr payload (replies log) k p s
  plain : Plain log s
  last : k = 7 + payload.length → s.parser.comState = .id

theorem StoredPlainly.data {p₀ : Image} {log : List Event} {done : List (List Byte)}
    {packet : List Byte} {parser : Parser} {call : Call} (haddr : addr < 2 ^ 24)
    (hsize : 3 + payload.length < 2 ^ 24)
    (h : StoredPlainly p₀ addr payload log done.flatten.length p s) (hne : packet ≠ [])
    (hpacket : packet <+: (setFramCommand addr payload).bytes.drop done.flatten.length)
    (hlong : 4 ≤ done.flatten.length + packet.length)
    (hserving :
      Serving (setFramCommand addr payload) (done.flatten.length + packet.length) parser) :
    wp (comExec t (.quiet answer framId)
        (chunk (setFramCommand addr payload) done.flatten.length packet))
      (fun _ p' s' => StoredPlainly p₀ addr payload log (done ++ [packet]).flatten.length p' s')
      (fun _ _ => False) (fun _ _ => True) p
      ((s.advance parser).emit (.exec call s.enabled)) := by
  have hstored : wp (comExec t (.quiet answer framId) _) _ _ _ p
      ((s.advance parser).emit (.exec call s.enabled)) :=
    h.stored.data haddr hsize hne hpacket hlong hserving
  have henabled : ((s.advance parser).emit (.exec call s.enabled)).enabled = true :=
    (s.advance_enabled parser).trans h.stored.enabled
  have hlog : Plain log ((s.advance parser).emit (.exec call s.enabled)) :=
    (h.plain.advance parser).emit _ nofun
  have hplain : wp (comExec t (.quiet answer framId) _) _ _ _ p
      ((s.advance parser).emit (.exec call s.enabled)) :=
    comExec_plain hserving.id henabled hlog
      (chunk (setFramCommand addr payload) done.flatten.length packet)
  have hapart : Moves Apart (comExec t (.quiet answer framId)
      (chunk (setFramCommand addr payload) done.flatten.length packet)) :=
    comExec_moves admits_apart (fun _ => .pure admits_apart ()) (.pure admits_apart ()) _
  refine wp_mono (wp_and hstored (wp_and hplain (hapart p _))) (fun _ p' s' hpost => ?_)
    (fun _ _ hpost => hpost.1) fun _ _ _ => trivial
  obtain ⟨hstored, hplain, hapart⟩ := hpost
  refine ⟨hstored, hplain, fun hend => ?_⟩
  rw [hapart.parser]
  refine hserving.last ?_
  rw [length_setFramCommand, ← hend]
  simp

/-- What the packets of a `COM_SET_FRAM` leave: the payload is stored and a `COM_OK` goes
out, or, if they are not all of it, a first part of the payload is stored. -/
structure SetBy (addr : ℕ) (payload : List Byte) (whole : Prop) (p : Image) (s : Session)
    (p' : Image) (s' : Session) : Prop where
  stored : ∃ n, p' = p.store addr (payload.take n) ∧ (whole → payload.take n = payload)
  opened : whole → Open s'
  answered : whole → GoesOut s (bareCommand comOk).bytes s'
  silent : ¬ whole → GoesOut s [] s'

theorem wire_of_plain {log : List Event} (answered : List (Byte × ℕ)) (h : Plain log s)
    (hreplies : replies s.log = answered ++ replies log) :
    wire s.log = wire log ++ headers answered := by
  obtain ⟨later, hlog, hwire⟩ := h
  have happend (first second : List Event) :
      replies (first ++ second) = replies first ++ replies second := by
    induction first with
    | nil => rfl
    | cons event first ih => cases event <;> simp [replies, ih]
  rw [hlog, happend] at hreplies
  rw [hlog, wire_append, hwire, List.append_cancel_right hreplies]

theorem wp_receive_set (hfit : addr + payload.length ≤ framByteSize)
    (hsize : 3 + payload.length < 2 ^ 24) {packets : List (List Byte)}
    (hpackets : ∀ packet ∈ packets, packet ≠ [] ∧ packet.length ≤ 255)
    (hcut : packets.flatten <+: (setFramCommand addr payload).bytes) (hopen : Open s) :
    wp (receive (comExec t (.quiet answer framId)) (comAbort (.quiet answer framId)) packets)
      (fun _ p' s' =>
        SetBy addr payload (packets.flatten = (setFramCommand addr payload).bytes) p s p' s')
      (fun _ _ => False) (fun _ _ => True) p s := by
  have haddr : addr < 2 ^ 24 := lt_of_le_of_lt (Nat.le_of_add_right_le hfit) (by decide)
  have hstart : StoredPlainly p addr payload s.log 0 p s :=
    ⟨⟨fun _ => atByte_zero hopen.comState, hopen.timedOut, hopen.enabled, by simp [storedSoFar],
      by simp [AtPosition, hopen.comPos, hopen.comParameter, Nat.mod_one],
      by rw [if_neg (by omega)]⟩, ⟨[], rfl, rfl⟩, by omega⟩
  refine wp_imp (wp_receive_command
    (I := fun done => StoredPlainly p addr payload s.log done.flatten.length)
    (full_setFramCommand hsize) (fun _ _ _ h hlt =>
      ⟨h.stored.more (by rwa [← length_setFramCommand]), h.stored.timedOut⟩)
    (fun done packet p' s' parser h hshort hat => ?_)
    (fun _ _ _ _ _ _ h hne hpacket hlong hserving =>
      h.data haddr hsize hne hpacket hlong hserving)
    [] hpackets hcut hstart) fun _ p' s' h => ?_
  · have hlength : (done ++ [packet]).flatten.length = done.flatten.length + packet.length := by
      simp
    exact ⟨h.stored.header hshort hat, h.plain.advance parser, fun hend => by omega⟩
  · rw [List.nil_append] at h
    have hanswered := h.stored.answered
    have hwhole_iff : packets.flatten = (setFramCommand addr payload).bytes ↔
        packets.flatten.length = 7 + payload.length := by
      rw [← length_setFramCommand]
      exact ⟨congrArg List.length, hcut.eq_of_length⟩
    refine ⟨⟨packets.flatten.length - 7, ?_, fun hwhole => ?_⟩, fun hwhole => ?_,
      fun hwhole => ?_, fun hpart => ?_⟩
    · rw [h.stored.image, storedSoFar, Nat.sub_sub]
    · rw [hwhole_iff.mp hwhole, Nat.add_sub_cancel_left, List.take_length]
    · have hposition := h.stored.position
      rw [hwhole_iff.mp hwhole, show 7 + payload.length - 4 = 3 + payload.length by omega,
        AtPosition, if_pos rfl] at hposition
      exact ⟨⟨h.last (hwhole_iff.mp hwhole), h.stored.timedOut, hposition.1, hposition.2⟩,
        h.stored.enabled⟩
    · rw [if_pos (hwhole_iff.mp hwhole)] at hanswered
      exact wire_of_plain [(comOk, 0)] h.plain hanswered
    · rw [if_neg (hwhole_iff.not.mp hpart)] at hanswered
      exact wire_of_plain [] h.plain hanswered

/-! ### The exchanges -/

/-- What the host has of a reply: nothing if writing timed out, else what was read. -/
structure Arrives (line : Line) (reply : List Byte) (result : Option (List (List Byte))) :
    Prop where
  part : ∀ reads, result = some reads → reads.flatten <+: reply
  whole : line.Complete → ∃ reads, result = some reads ∧ reads.flatten = reply

theorem arrives_exchange (line : Line) (before after : Session) (command reply : List Byte) :
    Arrives line reply
      (if line.bytesWritten before command then some (line.reads after reply) else none) where
  part reads hreads := by
    split_ifs at hreads
    obtain rfl := Option.some.inj hreads
    exact line.flatten_reads after reply
  whole hline := ⟨_, if_pos (hline.bytesWritten before command), hline.reads after reply⟩

/-- What an exchange gives is what arrives of the reply. -/
theorem wp_exchange {Q : Option (List (List Byte)) → Image → Session → Prop}
    {command : List Byte} {R : Image → Session → List Byte → Prop}
    (hdevice : wp (receive (comExec t (.quiet answer framId)) (comAbort (.quiet answer framId))
        (line.packets s command))
      (fun _ p' s' => ∃ reply, GoesOut s reply s' ∧ R p' s' reply) H (fun _ _ => True) p s)
    (hhost : ∀ p' s' reply result, R p' s' reply → Arrives line reply result → Q result p' s') :
    wp (exchange t (.quiet answer framId) line command) Q H (fun _ _ => True) p s := by
  rw [exchange, wp_bind, wp_ram, wp_bind]
  refine wp_imp hdevice fun _ p' s' h => ?_
  obtain ⟨reply, hsent, hR⟩ := h
  rw [wp_bind, wp_ram]
  dsimp only
  rw [wp_pure, hsent.reply_eq]
  exact hhost p' s' reply _ hR (arrives_exchange line s s' command reply)

/-- Nothing has been read of a reply that was not sent. -/
theorem read_nil {num : ℕ} (hnum : 0 < num) {reads : List (List Byte)} (h : reads.flatten = []) :
    read num reads = none := by
  rw [read, readUntil_eq_none.mpr (by rw [List.nil_append, h]; exact hnum), Option.map_none]

theorem framOfReply_nil {reads : List (List Byte)} (h : reads.flatten = []) :
    framOfReply reads = [] := by
  rw [framOfReply, readUntil_eq_none.mpr (by rw [List.nil_append, h]; decide)]

theorem replyIsOk_nil {reads : List (List Byte)} (h : reads.flatten = []) :
    replyIsOk reads = false := by
  rw [replyIsOk, read_nil (by decide) h]

/-- The image that the host has read: the memory, or nothing if the port timed out. -/
structure Fetched (line : Line) (p : Image) (s : Session) (mem : List Byte) : Prop where
  whole_or_nil : mem = p.bytes 0 framByteSize ∧ Open s ∨ mem = []
  whole : line.Complete → mem = p.bytes 0 framByteSize

theorem wp_getFram (hopen : Open s) :
    wp (getFram t (.quiet answer framId) line)
      (fun mem p' s' => p' = p ∧ Fetched line p s' mem) (fun _ _ => False)
      (fun _ _ => True) p s := by
  rw [getFram, wp_bind]
  refine wp_exchange (R := fun p' s' reply => p' = p ∧
      (reply = [] ∨ Open s' ∧ reply = framReply (p.bytes 0 framByteSize)) ∧
      (line.Complete → reply ≠ [])) ?_ fun p' s' reply result hR harrives => ?_
  · refine wp_receive_bare comGetFram (line.length_packet _ _) (line.flatten_packets _ _)
      hopen.toBoundary (fun hpart s' hwire => ?_) fun s' hboundary henabled hwire hid => ?_
    · exact ⟨[], hwire.trans (List.append_nil _).symm, rfl, .inl rfl,
        fun hline => absurd (hline.packets _ _) hpart⟩
    · refine wp_imp (wp_comExec_getFram ⟨hboundary, henabled.trans hopen.enabled⟩ hid)
        fun _ p' s'' h => ?_
      obtain ⟨himage, hopen', hsent⟩ := h
      refine ⟨_, ?_, himage, .inr ⟨hopen', rfl⟩, fun _ => List.cons_ne_nil _ _⟩
      rw [GoesOut, ← hwire]
      exact hsent
  · obtain ⟨himage, hreply, hsent⟩ := hR
    have hnil : reply = [] → (result.map framOfReply).getD [] = [] := by
      intro hempty
      cases result with
      | none => rfl
      | some reads =>
          have hread := harrives.part reads rfl
          rw [hempty] at hread
          exact framOfReply_nil (List.prefix_nil.mp hread)
    have hspec : ∀ reads, result = some reads → reply = framReply (p.bytes 0 framByteSize) →
        framOfReply reads = if reads.flatten = reply then p.bytes 0 framByteSize else [] := by
      rintro reads hreads rfl
      exact framOfReply_spec (p.length_bytes 0 framByteSize) (harrives.part reads hreads)
    rw [wp_pure]
    refine ⟨himage, ?_, fun hline => ?_⟩
    · rcases hreply with hempty | ⟨hopen', hfull⟩
      · exact .inr (hnil hempty)
      · cases result with
        | none => exact .inr rfl
        | some reads =>
            rw [Option.map_some, Option.getD_some, hspec reads rfl hfull]
            split_ifs
            · exact .inl ⟨rfl, hopen'⟩
            · exact .inr rfl
    · obtain ⟨reads, rfl, hreads⟩ := harrives.whole hline
      obtain ⟨-, hfull⟩ := hreply.resolve_left (hsent hline)
      rw [Option.map_some, Option.getD_some, hspec reads rfl hfull, if_pos hreads]

/-- A command that stores inside the memory. -/
def StoresInside (command : Frame) : Prop :=
  ∃ addr payload, command = setFramCommand addr payload ∧
    addr + payload.length ≤ framByteSize ∧ 3 + payload.length < 2 ^ 24

/-- What a memory `old` becomes when a first part of a command has come in. -/
def ExecPart (command : Frame) (old new : List Byte) : Prop :=
  ∃ addr payload n, command = setFramCommand addr payload ∧
    new = execSetFram old (setFramCommand addr (payload.take n))

theorem wp_exchange_set {command : Frame} (hcommand : StoresInside command) (hopen : Open s) :
    wp (exchange t (.quiet answer framId) line command.bytes)
      (fun result p' s' => p'.eeprom = p.eeprom ∧ p'.card = p.card ∧
        ExecPart command (p.bytes 0 framByteSize) (p'.bytes 0 framByteSize) ∧
        (result.any replyIsOk = true → Open s' ∧
          p'.bytes 0 framByteSize = execSetFram (p.bytes 0 framByteSize) command) ∧
        (line.Complete → result.any replyIsOk = true))
      (fun _ _ => False) (fun _ _ => True) p s := by
  obtain ⟨addr, payload, rfl, hfit, hsize⟩ := hcommand
  have hbytes (n : ℕ) : (p.store addr (payload.take n)).bytes 0 framByteSize =
      execSetFram (p.bytes 0 framByteSize) (setFramCommand addr (payload.take n)) := by
    refine bytes_store_eq_execSetFram ?_ p
    have hle := List.length_take_le' n payload
    omega
  refine wp_exchange (R := fun p' s' reply => ∃ whole, SetBy addr payload whole p s p' s' ∧
      (whole ∧ reply = (bareCommand comOk).bytes ∨ ¬ whole ∧ reply = []) ∧
      (line.Complete → whole)) ?_ fun p' s' reply result hR harrives => ?_
  · refine wp_imp (wp_receive_set hfit hsize (line.length_packet _ _) (line.flatten_packets _ _)
      hopen) fun _ p' s' h => ?_
    by_cases hwhole : (line.packets s (setFramCommand addr payload).bytes).flatten =
        (setFramCommand addr payload).bytes
    · exact ⟨_, h.answered hwhole, _, h, .inl ⟨hwhole, rfl⟩, fun _ => hwhole⟩
    · exact ⟨_, h.silent hwhole, _, h, .inr ⟨hwhole, rfl⟩, fun hline => hline.packets _ _⟩
  · obtain ⟨whole, hset, hreply, hline⟩ := hR
    obtain ⟨n, rfl, hall⟩ := hset.stored
    refine ⟨Image.store_eeprom .., Image.store_card .., ⟨addr, payload, n, rfl, hbytes n⟩,
      fun hok => ?_, fun hcomplete => ?_⟩
    · have hwhole : whole := by
        by_contra hpart
        have hempty := (hreply.resolve_left fun h => hpart h.1).2
        cases result with
        | none => cases hok
        | some reads =>
            have hread := harrives.part reads rfl
            rw [hempty] at hread
            rw [Option.any_some, replyIsOk_nil (List.prefix_nil.mp hread)] at hok
            cases hok
      rw [hbytes, hall hwhole]
      exact ⟨hset.opened hwhole, rfl⟩
    · have hfull := (hreply.resolve_right fun h => h.1 (hline hcomplete)).2
      obtain ⟨reads, rfl, hreads⟩ := harrives.whole hcomplete
      rw [hfull] at hreads
      have hread : read 4 reads = some (bareCommand comOk).bytes := by
        have hpart : reads.flatten <+: (bareCommand comOk).bytes :=
          ⟨[], (List.append_nil _).trans hreads⟩
        rw [read_four rfl hpart, if_pos hreads]
      rw [Option.any_some, replyIsOk, hread]
      rfl

/-- What a memory becomes when a first part of the commands has come in: some of them, and
perhaps a part of the next. -/
inductive FirstPart : List Frame → List Byte → List Byte → Prop
  | nothing (commands : List Frame) (old : List Byte) : FirstPart commands old old
  | part {command : Frame} {rest : List Frame} {old new : List Byte}
      (h : ExecPart command old new) : FirstPart (command :: rest) old new
  | next {command : Frame} {rest : List Frame} {old new : List Byte}
      (h : FirstPart rest (execSetFram old command) new) : FirstPart (command :: rest) old new

/-- The commands are carried out one after the other, up to the first that the host does not
see answered. -/
theorem wp_sendCommands {commands : List Frame} (hcommands : ∀ f ∈ commands, StoresInside f)
    (hopen : Open s) :
    wp (sendCommands t (.quiet answer framId) line commands)
      (fun sent p' s' => p'.eeprom = p.eeprom ∧ p'.card = p.card ∧
        FirstPart commands (p.bytes 0 framByteSize) (p'.bytes 0 framByteSize) ∧
        (sent = true → Open s' ∧
          p'.bytes 0 framByteSize = commands.foldl execSetFram (p.bytes 0 framByteSize)) ∧
        (line.Complete → sent = true))
      (fun _ _ => False) (fun _ _ => True) p s := by
  induction commands generalizing p s with
  | nil =>
      exact (wp_pure _).mpr
        ⟨rfl, rfl, .nothing _ _, fun _ => ⟨hopen, List.foldl_nil.symm⟩, fun _ => rfl⟩
  | cons command rest ih =>
      rw [sendCommands, wp_bind]
      refine wp_imp (wp_exchange_set (hcommands command List.mem_cons_self) hopen)
        fun reply p₁ s₁ h => ?_
      obtain ⟨heeprom, hcard, hpart, hok, hcomplete⟩ := h
      rw [wp_ite, wp_pure]
      refine ⟨fun hanswered => ?_, fun hfailed =>
        ⟨heeprom, hcard, .part hpart, nofun, fun hline => absurd (hcomplete hline) hfailed⟩⟩
      obtain ⟨hopen₁, hbytes⟩ := hok hanswered
      refine wp_imp (ih (fun f hf => hcommands f (List.mem_cons_of_mem _ hf)) hopen₁)
        fun sent p₂ s₂ h => ?_
      obtain ⟨heeprom₂, hcard₂, hfirst, hsent, hcomplete₂⟩ := h
      rw [hbytes] at hfirst hsent
      refine ⟨heeprom₂.trans heeprom, hcard₂.trans hcard, .next hfirst, fun h => ?_, hcomplete₂⟩
      rw [List.foldl_cons]
      exact hsent h

theorem storesInside_sendSlice {slice : PSlice} (hstop : slice.stop ≤ framByteSize) :
    ∀ f ∈ sendSlice slice, StoresInside f := by
  fun_induction sendSlice slice with
  | case1 slice _ ih₁ ih₂ =>
      have hle : slice.second.length / 2 ≤ slice.second.length := Nat.div_le_self _ _
      intro f hf
      rcases List.mem_append.mp hf with hf | hf
      · refine ih₁ ?_ f hf
        rw [stop_take slice hle]
        rw [Slice.stop] at hstop
        omega
      · refine ih₂ ?_ f hf
        rw [stop_drop slice hle]
        exact hstop
  | case2 slice hshort =>
      intro f hf
      exact ⟨slice.first, slice.second, List.mem_singleton.mp hf, hstop, by omega⟩

theorem storesInside_patchCommands {slices : List PSlice}
    (hstop : ∀ slice ∈ slices, slice.stop ≤ framByteSize) :
    ∀ f ∈ patchCommands slices, StoresInside f := by
  intro f hf
  obtain ⟨slice, hslice, hf⟩ := List.mem_flatMap.mp hf
  exact storesInside_sendSlice (hstop slice hslice) f hf

end Exchange

/-! ## The comparison -/

theorem verify_eq_written {mem newMemDevice : List Byte} :
    verify mem newMemDevice = .written ↔ mem.length = newMemDevice.length ∧
      ∀ x, ¬ InEntropyPool x → newMemDevice[x]? = mem[x]? := by
  rw [verify]
  by_cases hlength : mem.length = newMemDevice.length
  · rw [if_neg (not_not.mpr hlength)]
    simp only [ite_eq_right_iff, reduceCtorEq, imp_false, not_not, List.length_eq_zero_iff,
      List.filter_eq_nil_iff, List.mem_range, decide_eq_true_eq, not_and]
    constructor
    · intro h
      refine ⟨hlength, fun x hx => ?_⟩
      by_cases hlt : x < mem.length
      · exact (h x hlt hx).symm
      · rw [List.getElem?_eq_none (by omega), List.getElem?_eq_none (by omega)]
    · intro h x _ hx
      exact (h.2 x hx).symm
  · rw [if_pos hlength]
    exact iff_of_false nofun fun h => hlength h.1

theorem verify_ne_upToDate (mem newMemDevice : List Byte) :
    verify mem newMemDevice ≠ .upToDate := by
  rw [verify]
  dsimp only
  split_ifs
  · nofun
  · nofun
  · nofun

theorem verify_eq {mem newMemDevice : List Byte} (hlength : mem.length = newMemDevice.length) :
    verify mem newMemDevice = .written ∨ ∃ n, 0 < n ∧ verify mem newMemDevice = .different n := by
  rw [verify, if_neg (not_not.mpr hlength)]
  dsimp only
  split_ifs with hne
  · exact .inr ⟨_, Nat.pos_of_ne_zero hne, rfl⟩
  · exact .inl rfl

/-! ## The patch -/

section Patch

variable {oldData newData : List Byte} {curr : PSlice} {rest slices : List PSlice}

/-- What completes a slice is near the beginning of the memory. -/
theorem complete_isSome {d : ℕ} (hd : d ≤ threshold) (hlong : 2 * threshold ≤ oldData.length) :
    (complete oldData d).isSome := by
  rw [Option.isSome_iff_exists]
  refine ⟨(oldData.drop d).take d, complete_eq_some.mpr ⟨?_, fun i hi => ?_⟩⟩
  · rw [List.length_take, List.length_drop]
    omega
  · rw [List.getElem?_take_of_lt hi, List.getElem?_drop, Nat.add_comm]

theorem join_isSome (hlong : 2 * threshold ≤ oldData.length) : (join oldData curr rest).isSome := by
  induction rest generalizing curr with
  | nil => rfl
  | cons next rest ih =>
      rw [join]
      split_ifs with hshort
      · obtain ⟨bytes, hbytes⟩ := Option.isSome_iff_exists.mp (complete_isSome hshort hlong)
        rw [hbytes, Option.bind_some]
        exact ih
      · rw [Option.isSome_map]
        exact ih

/-- No index is out of range. -/
theorem diff_isSome (hlong : 2 * threshold ≤ oldData.length) (hsize : oldData.length < 2 ^ 24) :
    (diff oldData newData).isSome := by
  by_cases hlen : oldData.length = newData.length
  · obtain ⟨slices, hslices, hruns⟩ := differences_runs hlen
    rw [diff_eq hlen hsize hslices hruns]
    cases slices with
    | nil => rfl
    | cons curr rest => exact join_isSome hlong
  · rw [diff, if_pos hlen]
    rfl

/-- There is nothing to write when there is nothing to compare, or no difference. -/
theorem diff_eq_nil_iff (hsize : oldData.length < 2 ^ 24) (h : diff oldData newData = some slices) :
    slices = [] ↔ oldData.length ≠ newData.length ∨ ∀ x, ¬ Differs oldData newData x := by
  by_cases hlen : oldData.length = newData.length
  · rw [or_iff_right (not_not.mpr hlen)]
    constructor
    · rintro rfl x hx
      obtain ⟨_, hmem, -⟩ := (diff_spread hlen hsize h).covers x hx
      exact List.not_mem_nil hmem
    · intro hnone
      obtain ⟨runs, hslices, hruns⟩ := differences_runs hlen
      rw [diff_eq hlen hsize hslices hruns] at h
      cases runs with
      | nil => exact (Option.some.inj h).symm
      | cons curr rest =>
          have hcover := (hruns.covers _).mp
            ⟨curr, List.mem_cons_self, Slice.has_first (hruns.nonempty curr List.mem_cons_self)⟩
          exact absurd hcover.2 (hnone _)
  · rw [diff, if_pos hlen] at h
    exact iff_of_true (Option.some.inj h).symm (.inl hlen)

end Patch

/-! ## The session -/

section Session

variable {t : Target} {answer : Image → Session → Bool} {framId : Vector Byte 4} {p : Image}
  {s : Session} {line : Line} {mem memDevice : List Byte}

/-- What has been written to the device: nothing, or a first part of the patch. -/
inductive Written (old mem new : List Byte) (ending : Ending) : Prop
  | nothing (hending : ending = .upToDate) (hnew : new = old)
  | slices {slices : List PSlice} (hdiff : diff old mem = some slices) (hne : slices ≠ [])
      (hnew : FirstPart (patchCommands slices) old new) (hending : ending ≠ .upToDate)
      (hwritten : ending = .written → mem.length = framByteSize ∧
        ∀ x, ¬ InEntropyPool x → new[x]? = mem[x]?)

/-- On a line where nothing is lost, the whole patch. -/
def Finished (old mem new : List Byte) (ending : Ending) : Prop :=
  ∀ slices, diff old mem = some slices → slices ≠ [] →
    new = (patchCommands slices).foldl execSetFram old ∧ ending = verify mem new

theorem length_foldl_execSetFram (commands : List Frame) (old : List Byte) :
    (commands.foldl execSetFram old).length = old.length := by
  induction commands generalizing old with
  | nil => rfl
  | cons f rest ih =>
      rw [List.foldl_cons, ih, execSetFram]
      split
      · exact length_overwrite _ _ _
      · rfl

theorem wp_update_stale (hstale : memDevice = []) :
    wp (update t (.quiet answer framId) line memDevice mem)
      (fun ending p' _ => p' = p ∧ ending = .upToDate) (fun _ _ => False)
      (fun _ _ => True) p s := by
  have hdiff : diff memDevice mem = some [] := by
    rw [hstale, diff]
    split_ifs with hlen
    · rfl
    · rfl
  rw [update, hdiff]
  dsimp only
  rw [if_pos rfl]
  exact (wp_pure _).mpr ⟨rfl, rfl⟩

theorem wp_update (hopen : Open s) (hfetched : memDevice = p.bytes 0 framByteSize) :
    wp (update t (.quiet answer framId) line memDevice mem)
      (fun ending p' _ => p'.eeprom = p.eeprom ∧ p'.card = p.card ∧
        (ending = .upToDate → p' = p) ∧
        Written (p.bytes 0 framByteSize) mem (p'.bytes 0 framByteSize) ending ∧
        (line.Complete →
          Finished (p.bytes 0 framByteSize) mem (p'.bytes 0 framByteSize) ending))
      (fun _ _ => False) (fun _ _ => True) p s := by
  have hlength : memDevice.length = framByteSize := hfetched ▸ p.length_bytes 0 framByteSize
  have hsize : memDevice.length < 2 ^ 24 := by
    rw [hlength]
    decide
  obtain ⟨slices, hdiff⟩ := Option.isSome_iff_exists.mp
    (@diff_isSome _ mem (by rw [hlength]; decide) hsize)
  rw [update, hdiff]
  rw [hfetched] at hdiff hsize
  dsimp only
  rw [wp_ite, wp_pure, wp_bind]
  refine ⟨fun hnil => ?_, fun hne => ?_⟩
  · refine ⟨rfl, rfl, fun _ => rfl, .nothing rfl rfl, fun _ slices' hdiff' hne => ?_⟩
    obtain rfl := Option.some.inj (hdiff.symm.trans hdiff')
    exact absurd hnil hne
  · have hlen : (p.bytes 0 framByteSize).length = mem.length := by
      by_contra hlen
      exact hne ((diff_eq_nil_iff hsize hdiff).mpr (.inl hlen))
    have hstop : ∀ slice ∈ slices, slice.stop ≤ framByteSize := fun slice hslice =>
      p.length_bytes 0 framByteSize ▸ (diff_spread hlen hsize hdiff).stop_le slice hslice
    refine wp_imp (wp_sendCommands (storesInside_patchCommands hstop) hopen)
      fun sent p₁ s₁ h => ?_
    obtain ⟨heeprom, hcard, hfirst, hall, hcomplete⟩ := h
    rw [wp_ite, wp_bind, wp_pure]
    refine ⟨fun hsent => ?_, fun hfailed => ?_⟩
    · obtain ⟨hopen₁, hbytes⟩ := hall hsent
      refine wp_imp (wp_getFram hopen₁) fun newMemDevice p₂ s₂ h => ?_
      obtain ⟨rfl, hfetched₂⟩ := h
      rw [wp_pure]
      have hends := verify_ne_upToDate mem newMemDevice
      refine ⟨heeprom, hcard, fun hup => absurd hup hends,
        .slices hdiff hne hfirst hends fun hwritten => ?_, fun hline slices' hdiff' _ => ?_⟩
      · have hverified := verify_eq_written.mp hwritten
        rcases hfetched₂.whole_or_nil with ⟨hnew, -⟩ | hnew
        · rw [hnew] at hverified
          exact ⟨hverified.1.trans (p₂.length_bytes 0 framByteSize), hverified.2⟩
        · -- an empty array has not the length of the file
          have hlength := hverified.1
          rw [hnew, ← hlen, p.length_bytes, List.length_nil] at hlength
          exact absurd hlength (by decide)
      · obtain rfl := Option.some.inj (hdiff.symm.trans hdiff')
        exact ⟨hbytes, congrArg (verify mem) (hfetched₂.whole hline)⟩
    · exact ⟨heeprom, hcard, nofun, .slices hdiff hne hfirst nofun nofun,
        fun hline => absurd (hcomplete hline) hfailed⟩

theorem getD_read {reads : List (List Byte)} {reply received : List Byte} {num : ℕ} (hnum : 0 < num)
    (hread : read num reads = some received) (h : reads.flatten <+: reply) :
    received.getD 0 0 = reply.getD 0 0 := by
  obtain ⟨⟨data, rest⟩, hsome, rfl⟩ := Option.map_eq_some_iff.mp hread
  obtain ⟨hlong, hdata⟩ := readUntil_eq_some hsome
  rw [List.nil_append] at hdata
  have hprefix : data <+: reply := (hdata ▸ List.prefix_append _ _).trans h
  exact getD_of_prefix hprefix (hnum.trans_le hlong)

theorem read_isSome {reads : List (List Byte)} {num : ℕ} (h : num ≤ reads.flatten.length) :
    (read num reads).isSome := by
  rw [read, Option.isSome_map, Option.isSome_iff_ne_none, ne_eq, readUntil_eq_none]
  simpa using h

/-- The first byte says whether the communication was accepted. -/
theorem getD_initReply (enabled yes : Bool) :
    (initReply enabled yes).getD 0 0 = if enabled = false ∧ yes = true then comOk else comEnd := by
  cases enabled <;> cases yes <;> rfl

theorem length_initReply (enabled yes : Bool) : 4 ≤ (initReply enabled yes).length := by
  cases enabled <;> cases yes <;> decide

theorem wp_exchange_init (hboundary : Boundary s) :
    wp (exchange t (.quiet answer framId) line (bareCommand comInit).bytes)
      (fun result p' s' => p' = p ∧ ∃ s₁ yes, yes = answer p s₁ ∧ ∃ reply,
        Arrives line reply result ∧
        (reply = [] ∨ (yes = true → Open s') ∧ reply = initReply s.enabled yes) ∧
        (line.Complete → reply ≠ []))
      (fun _ _ => False) (fun _ _ => True) p s := by
  refine wp_exchange (R := fun p' s' reply => p' = p ∧ ∃ s₁ yes, yes = answer p s₁ ∧
      (reply = [] ∨ (yes = true → Open s') ∧ reply = initReply s.enabled yes) ∧
      (line.Complete → reply ≠ [])) ?_ fun p' s' reply result hR harrives => ?_
  · refine wp_receive_bare comInit (line.length_packet _ _) (line.flatten_packets _ _) hboundary
      (fun hpart s' hwire => ?_) fun s' hboundary' henabled hwire hid => ?_
    · exact ⟨[], hwire.trans (List.append_nil _).symm, rfl, s', _, rfl, .inl rfl,
        fun hline => absurd (hline.packets _ _) hpart⟩
    · refine wp_imp (wp_comExec_init hboundary' hid) fun _ p' s'' h => ?_
      obtain ⟨himage, s₁, yes, hyes, hafter, hsent⟩ := h
      refine ⟨initReply s.enabled yes, ?_, himage, s₁, yes, hyes, .inr ⟨hafter, rfl⟩,
        fun _ hempty => ?_⟩
      · rw [GoesOut, ← hwire, ← henabled]
        exact hsent
      · have hlength := length_initReply s.enabled yes
        rw [hempty] at hlength
        exact absurd hlength (by decide)
  · obtain ⟨himage, s₁, yes, hyes, hreply, hsent⟩ := hR
    exact ⟨himage, s₁, yes, hyes, reply, harrives, hreply, hsent⟩

/-- What the last message says of a device that had the image `p` and has `p'`. -/
structure Truthful (answer : Image → Session → Bool) (mem : List Byte) (p : Image) (s : Session)
    (result : Result) (p' : Image) : Prop where
  eeprom : p'.eeprom = p.eeprom
  card : p'.card = p.card
  /-- Nothing is read before the user has said yes. -/
  consent : result.backup ≠ none ∨ result.ending = .noBackup →
    s.enabled = false ∧ ∃ s₁, answer p s₁ = true
  /-- Nothing is written before there is a backup. -/
  backup : result.backup = none ∨ result.backup = some [] ∧ p' = p ∨
    result.backup = some (p.bytes 0 framByteSize)
  untouched : result.backup = none ∨ result.ending = .upToDate → p' = p
  patched : p' ≠ p → ∃ slices, diff (p.bytes 0 framByteSize) mem = some slices ∧
    FirstPart (patchCommands slices) (p.bytes 0 framByteSize) (p'.bytes 0 framByteSize)
  written : result.ending = .written → result.backup = some (p.bytes 0 framByteSize) ∧
    mem.length = framByteSize ∧
    ∀ x, ¬ InEntropyPool x → (p'.bytes 0 framByteSize)[x]? = mem[x]?

theorem truthful_of_written {yes : Session} {result : Result} {p' : Image}
    (hgate : s.enabled = false) (hyes : answer p yes = true) (heeprom : p'.eeprom = p.eeprom)
    (hcard : p'.card = p.card) (hup : result.ending = .upToDate → p' = p)
    (hbackup : result.backup = some (p.bytes 0 framByteSize))
    (h : Written (p.bytes 0 framByteSize) mem (p'.bytes 0 framByteSize) result.ending) :
    Truthful answer mem p s result p' where
  eeprom := heeprom
  card := hcard
  consent _ := ⟨hgate, yes, hyes⟩
  backup := .inr (.inr hbackup)
  untouched hcase := by
    rcases hcase with hnone | hend
    · rw [hbackup] at hnone
      cases hnone
    · exact hup hend
  patched hne := by
    cases h with
    | nothing hending _ => exact absurd (hup hending) hne
    | slices hdiff _ hnew => exact ⟨_, hdiff, hnew⟩
  written hend := by
    cases h with
    | nothing hending _ =>
        rw [hend] at hending
        cases hending
    | slices _ _ _ _ hwritten => exact ⟨hbackup, hwritten hend⟩

/-- Before the communication is accepted nothing is read. -/
theorem truthful_of_refused {ending : Ending} (hbackup : ending ≠ .noBackup)
    (hwritten : ending ≠ .written) : Truthful answer mem p s ⟨none, ending⟩ p where
  eeprom := rfl
  card := rfl
  consent hcase := hcase.elim (absurd rfl) fun hend => absurd hend hbackup
  backup := .inl rfl
  untouched _ := rfl
  patched hne := absurd rfl hne
  written hend := absurd hend hwritten

/-- Nothing is written where the memory has not come, or could not be saved. -/
theorem truthful_of_untouched {result : Result} (hgate : s.enabled = false) {yes : Session}
    (hyes : answer p yes = true) (hbackup : result.backup = none ∨ result.backup = some [])
    (hending : result.ending ≠ .written) : Truthful answer mem p s result p where
  eeprom := rfl
  card := rfl
  consent _ := ⟨hgate, yes, hyes⟩
  backup := hbackup.imp_right fun hstale => .inl ⟨hstale, rfl⟩
  untouched _ := rfl
  patched hne := absurd rfl hne
  written hend := absurd hend hending

/-- What a session comes to when nothing is lost on the line: the difference is written, and
the message says whether the bytes between the slices were right. -/
structure Carried (mem old new : List Byte) (result : Result) : Prop where
  backup : result.backup = some old
  upToDate_iff : result.ending = .upToDate ↔
    mem.length ≠ framByteSize ∨ ∀ x, ¬ Differs old mem x
  written_iff : result.ending ≠ .upToDate →
    (result.ending = .written ↔ ∀ a d, ShortGap old mem a d → Fills old a d)
  otherwise : result.ending = .upToDate ∨ result.ending = .written ∨
    ∃ n, 0 < n ∧ result.ending = .different n

theorem verify_patched_iff {old : List Byte} {slices : List PSlice} (hlen : old.length = mem.length)
    (hsize : old.length < 2 ^ 24) (hpool : ¬ Differs old mem offsetEntropyPool)
    (hdiff : diff old mem = some slices) :
    verify mem ((patchCommands slices).foldl execSetFram old) = .written ↔
      ∀ a d, ShortGap old mem a d → Fills old a d := by
  have hspread := diff_spread hlen hsize hdiff
  have hpatched := hspread.patched_iff hlen hsize
  have hwrites : ∀ f ∈ patchCommands slices, ∀ x, WritesAt f x → ¬ InEntropyPool x := by
    intro f hf x hx
    refine hspread.outside hpool x ((writesAt_patchCommands fun s hs => ?_).mp ⟨f, hf, hx⟩)
    exact (hspread.stop_le s hs).trans_lt hsize
  rw [and_iff_left hwrites, and_iff_right hpool] at hpatched
  rw [verify_eq_written, length_foldl_execSetFram, and_iff_right hlen.symm, hpatched,
    ← diff_agrees_iff hlen hsize hpool]
  constructor
  · exact fun hagrees => ⟨slices, hdiff, hagrees⟩
  · rintro ⟨out, hout, hagrees⟩
    obtain rfl := Option.some.inj (hdiff.symm.trans hout)
    exact hagrees

theorem carried_of_finished {old new : List Byte} {ending : Ending}
    (hold : old.length = framByteSize)
    (hpool : old[offsetEntropyPool]? = mem[offsetEntropyPool]?) (h : Written old mem new ending)
    (hfinished : Finished old mem new ending) : Carried mem old new ⟨some old, ending⟩ := by
  have hsize : old.length < 2 ^ 24 := by
    rw [hold]
    decide
  have hfirst : ¬ Differs old mem offsetEntropyPool := fun hdiffers => hdiffers.2.2 hpool
  obtain ⟨slices, hdiff⟩ := Option.isSome_iff_exists.mp
    (@diff_isSome _ mem (by rw [hold]; decide) hsize)
  have hnil := diff_eq_nil_iff hsize hdiff
  by_cases hslices : slices = []
  · have hup : ending = .upToDate := by
      cases h with
      | nothing hending _ => exact hending
      | slices hdiff' hne _ _ _ =>
          exact absurd (Option.some.inj (hdiff'.symm.trans hdiff) ▸ hslices) hne
    refine ⟨rfl, iff_of_true hup ?_, fun hne => absurd hup hne, .inl hup⟩
    rw [← hold, ne_comm]
    exact hnil.mp hslices
  · obtain ⟨rfl, rfl⟩ := hfinished slices hdiff hslices
    have hlen : old.length = mem.length := by
      by_contra hlen
      exact hslices (hnil.mpr (.inl hlen))
    refine ⟨rfl, iff_of_false (verify_ne_upToDate _ _) ?_,
      fun _ => verify_patched_iff hlen hsize hfirst hdiff, .inr (verify_eq ?_)⟩
    · rw [← hold, ne_comm]
      exact fun hcase => hslices (hnil.mpr hcase)
    · rw [length_foldl_execSetFram]
      exact hlen.symm

/-! ### The whole session -/

/-- What an accepted session comes to. -/
theorem wp_transferAccepted {backupOpens : Bool} (hopen : Open s)
    {yes s₀ : Session} (hgate : s₀.enabled = false) (hyes : answer p yes = true) :
    wp (transferAccepted t (.quiet answer framId) line backupOpens mem)
      (fun result p' _ => Truthful answer mem p s₀ result p' ∧
        (line.Complete → backupOpens = true →
          (p.bytes 0 framByteSize)[offsetEntropyPool]? = mem[offsetEntropyPool]? →
          Carried mem (p.bytes 0 framByteSize) (p'.bytes 0 framByteSize) result))
      (fun _ _ => False) (fun _ _ => True) p s := by
  rw [transferAccepted, wp_bind]
  refine wp_imp (wp_getFram hopen) fun memDevice p₂ s₂ h => ?_
  obtain ⟨rfl, hfetched⟩ := h
  rw [wp_ite, wp_bind, wp_pure]
  refine ⟨fun hopens => ?_, fun hcloses => ?_⟩
  · rcases hfetched.whole_or_nil with ⟨hwhole, hopen₂⟩ | hstale
    · refine wp_imp (wp_update hopen₂ hwhole) fun ending p₃ s₃ h => ?_
      obtain ⟨heeprom, hcard, hup, hwritten, hfinished⟩ := h
      rw [wp_pure]
      refine ⟨truthful_of_written hgate hyes heeprom hcard hup (congrArg some hwhole) hwritten,
        fun hline _ hpool => ?_⟩
      rw [hwhole]
      exact carried_of_finished (p₂.length_bytes 0 framByteSize) hpool hwritten (hfinished hline)
    · refine wp_imp (wp_update_stale hstale) fun ending p₃ s₃ h => ?_
      obtain ⟨rfl, rfl⟩ := h
      rw [wp_pure]
      refine ⟨truthful_of_untouched hgate hyes (.inr (congrArg some hstale)) nofun,
        fun hline => ?_⟩
      have hlength := congrArg List.length ((hfetched.whole hline).symm.trans hstale)
      rw [p₃.length_bytes, List.length_nil] at hlength
      exact absurd hlength (by decide)
  · exact ⟨truthful_of_untouched hgate hyes (.inl rfl) nofun, fun _ hopens => absurd hopens hcloses⟩

/-- What a session comes to, whatever the line and the user do. -/
theorem wp_transferFram {backupOpens : Bool} (hboundary : Boundary s) :
    wp (transferFram t (.quiet answer framId) line backupOpens mem)
      (fun result p' _ => Truthful answer mem p s result p' ∧
        (line.Complete → s.enabled = false → (∀ p s, answer p s = true) → backupOpens = true →
          (p.bytes 0 framByteSize)[offsetEntropyPool]? = mem[offsetEntropyPool]? →
          Carried mem (p.bytes 0 framByteSize) (p'.bytes 0 framByteSize) result))
      (fun _ _ => False) (fun _ _ => True) p s := by
  rw [transferFram, wp_bind]
  refine wp_imp (wp_exchange_init hboundary) fun result p₁ s₁ h => ?_
  obtain ⟨rfl, s₀, yes, hyes, reply, harrives, hreply, hsent⟩ := h
  cases result with
  | none =>
      refine (wp_pure _).mpr ⟨truthful_of_refused nofun nofun, fun hline => ?_⟩
      obtain ⟨reads, hnone, -⟩ := harrives.whole hline
      cases hnone
  | some reads =>
      have hreads := harrives.part reads rfl
      dsimp only
      cases hread : read 4 reads with
      | none =>
          refine (wp_pure _).mpr ⟨truthful_of_refused nofun nofun, fun hline => ?_⟩
          obtain ⟨reads', hsome, hwhole⟩ := harrives.whole hline
          obtain rfl := Option.some.inj hsome
          obtain ⟨-, rfl⟩ := hreply.resolve_left (hsent hline)
          have hlong := read_isSome (hwhole ▸ length_initReply s.enabled yes)
          rw [hread] at hlong
          cases hlong
      | some received =>
          have hanswered : reply ≠ [] := by
            rintro rfl
            rw [read_nil (by decide) (List.prefix_nil.mp hreads)] at hread
            cases hread
          obtain ⟨hafter, rfl⟩ := hreply.resolve_left hanswered
          have hfirst := getD_read (by decide) hread hreads
          rw [getD_initReply] at hfirst
          rw [wp_ite, wp_pure]
          refine ⟨fun hok => ?_, fun hrefused => ⟨?_, fun _ hgate haccepts => ?_⟩⟩
          · have haccepted : s.enabled = false ∧ yes = true := by
              by_contra hnot
              rw [hok, if_neg hnot] at hfirst
              cases hfirst
            obtain ⟨hgate, rfl⟩ := haccepted
            refine wp_imp (wp_transferAccepted (hafter rfl) hgate hyes.symm) fun _ _ _ h => ?_
            exact ⟨h.1, fun hline _ _ => h.2 hline⟩
          · split_ifs
            · exact truthful_of_refused nofun nofun
            · exact truthful_of_refused nofun nofun
          · rw [if_pos ⟨hgate, hyes.trans (haccepts p₁ s₀)⟩] at hfirst
            exact absurd hfirst hrefused

/-! ### A session of one byte -/

theorem flatten_bytes (command : List Byte) : (command.map fun byte => [byte]).flatten = command :=
  List.flatMap_singleton' command

/-- A line that delivers byte by byte to the device, and replies as a whole. -/
def bytewise : Line where
  packets _ command := command.map fun byte => [byte]
  flatten_packets _ command := ⟨[], (List.append_nil _).trans (flatten_bytes command)⟩
  length_packet _ command packet hpacket := by
    obtain ⟨byte, -, rfl⟩ := List.mem_map.mp hpacket
    exact ⟨List.cons_ne_nil _ _, by simp⟩
  bytesWritten _ _ := true
  reads _ reply := [reply]
  flatten_reads _ reply := by simp

theorem bytewise_complete : bytewise.Complete where
  packets _ := flatten_bytes
  bytesWritten _ _ := rfl
  reads _ _ := List.flatten_singleton

theorem getElem?_zero {x : ℕ} (hx : x < framByteSize) :
    (Image.zero.bytes 0 framByteSize)[x]? = some 0 :=
  getElem?_bytes .zero hx

theorem getElem?_byte {x : ℕ} (hx : x < framByteSize) (hne : x ≠ 1000) :
    (blank.set 1000 1)[x]? = some 0 := by
  rw [List.getElem?_set_ne hne.symm, getElem?_blank, if_pos hx]

/-- The byte is no part of the pool, and nothing is between it and another. -/
theorem ending_of_carried {new : List Byte} {result : Result}
    (h : Carried (blank.set 1000 1) (Image.zero.bytes 0 framByteSize) new result) :
    result.ending = .written := by
  have hdiffers {x : ℕ} (hx : Differs (Image.zero.bytes 0 framByteSize) (blank.set 1000 1) x) :
      x = 1000 := by
    by_contra hne
    have hlt : x < framByteSize := Image.zero.length_bytes 0 framByteSize ▸ hx.1
    exact hx.2.2 ((getElem?_zero hlt).trans (getElem?_byte hlt hne).symm)
  have hmust : result.ending ≠ .upToDate := by
    rw [ne_eq, h.upToDate_iff, List.length_set, length_blank]
    rintro (hlength | hnone)
    · exact hlength rfl
    · refine hnone 1000 ⟨?_, by decide, ?_⟩
      · rw [Image.zero.length_bytes]
        decide
      · rw [getElem?_zero (by decide), List.getElem?_set_self (by rw [length_blank]; decide)]
        decide
  refine (h.written_iff hmust).mpr fun a d hgap => ?_
  have hbefore := hdiffers hgap.before
  have hafter := hdiffers hgap.after
  omega

theorem pool_byte : (Image.zero.bytes 0 framByteSize)[offsetEntropyPool]? =
    (blank.set 1000 1)[offsetEntropyPool]? := by
  rw [getElem?_zero (by decide), getElem?_byte (by decide) (by decide)]

/-! ### Results -/

end Session

end PasswordWallet
