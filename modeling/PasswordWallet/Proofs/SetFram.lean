import PasswordWallet.Communication.Single

/-!
# `COM_SET_FRAM` writes what was sent

However the command is cut into packets, `COM_POS` is the number of bytes of its
data that have come, and `COM_PARAMETER` the part of the address that they hold;
so each chunk is stored where it belongs (`Stored`), and the answer goes out with
the last byte.
-/

namespace PasswordWallet

open PowerLoss Framing

theorem Image.store_append (p : Image) (addr : ℕ) (first second : List Byte) :
    p.store addr (first ++ second) = (p.store addr first).store (addr + first.length) second := by
  induction first generalizing p addr with
  | nil => rfl
  | cons byte rest ih =>
      rw [List.cons_append, Image.store, ih, Image.store, List.length_cons,
        Nat.add_right_comm addr, Nat.add_assoc addr]

/-- The command that stores `payload` at `addr`. -/
def setFramCommand (addr : ℕ) (payload : List Byte) : Frame :=
  ⟨comSetFram, 3 + payload.length, sizeBytes addr ++ payload⟩

variable {addr : ℕ} {payload : List Byte}

theorem full_setFramCommand (hsize : 3 + payload.length < 2 ^ 24) :
    (setFramCommand addr payload).Full :=
  ⟨by simp [setFramCommand, sizeBytes]; omega, hsize⟩

/-! ## The address -/

theorem or_shiftLeft_of_lt {low i b : ℕ} (hlow : low < 2 ^ i) :
    low ||| b <<< i = low + 2 ^ i * b := by
  rw [Nat.or_comm, ← Nat.shiftLeft_add_eq_or_of_lt hlow, Nat.shiftLeft_eq, Nat.add_comm,
    Nat.mul_comm]

/-- A byte of the address, put at its place. -/
theorem address_step {j : ℕ} (hj : j ≤ 2) (haddr : addr < 2 ^ 24) {b : Byte}
    (hb : (sizeBytes addr)[j]? = some b) :
    addr % 256 ^ j ||| b.toNat <<< (8 * j) = addr % 256 ^ (j + 1) := by
  have hlow : addr % 256 ^ j < 2 ^ (8 * j) := by
    rw [Nat.pow_mul]
    exact Nat.mod_lt _ (Nat.pow_pos (by decide))
  rw [or_shiftLeft_of_lt hlow]
  match j, hj with
  | 0, _ =>
      obtain rfl := Option.some.inj hb
      simp [Nat.mod_one]
  | 1, _ =>
      obtain rfl := Option.some.inj hb
      simp only [BitVec.toNat_ofNat]
      omega
  | 2, _ =>
      obtain rfl := Option.some.inj hb
      simp only [BitVec.toNat_ofNat]
      omega

section Chunk

variable {p : Image} {s : Session} {data : List Byte} {j : ℕ}

/-- The loop takes what there is of the address. -/
theorem wp_takeAddress (haddr : addr < 2 ^ 24)
    (hdata : data <+: (setFramCommand addr payload).data.drop j) (hpos : s.comPos = j)
    (hparameter : s.comParameter = addr % 256 ^ min j 3) :
    wp (takeAddress data)
      (fun rest p' s' => p' = p ∧ rest = data.drop (3 - j) ∧
        s' = { s with
          comPos := j + min data.length (3 - j)
          comParameter := addr % 256 ^ min (j + data.length) 3 })
      (fun _ _ => False) (fun _ _ => True) p s := by
  induction data generalizing j s with
  | nil =>
      subst hpos
      exact (wp_pure _).mpr ⟨rfl, by simp, by simp [← hparameter]⟩
  | cons byte rest ih =>
      simp only [takeAddress, wp_bind, wp_ram, wp_ite, wp_modifySession, wp_pure]
      refine ⟨fun hle => ?_, fun hgt => ?_⟩
      · rw [hpos] at hle
        -- the byte is one of the three of the address
        have hbyte : (sizeBytes addr)[j]? = some byte := by
          obtain ⟨tail, htail⟩ := hdata
          have hget := congrArg (·[0]?) htail
          simp only [List.cons_append, List.getElem?_cons_zero, List.getElem?_drop,
            Nat.add_zero, setFramCommand] at hget
          rw [List.getElem?_append_left (by simp [sizeBytes]; omega)] at hget
          exact hget.symm
        have hrest : rest <+: (setFramCommand addr payload).data.drop (j + 1) := by
          obtain ⟨tail, htail⟩ := hdata
          rw [← List.drop_drop, ← htail]
          exact ⟨tail, rfl⟩
        have hstep := address_step hle haddr hbyte
        refine wp_imp (ih hrest (by rw [hpos]) ?_) fun left p' s' hpost => ?_
        · simp only [hparameter, hpos]
          rw [min_eq_left (by omega), min_eq_left (by omega), hstep]
        · obtain ⟨rfl, rfl, rfl⟩ := hpost
          refine ⟨rfl, ?_, ?_⟩
          · rw [show 3 - j = (3 - (j + 1)) + 1 by omega, List.drop_succ_cons]
          · simp only [List.length_cons, Session.mk.injEq, true_and, and_true]
            exact ⟨by omega, by rw [show j + 1 + rest.length = j + (rest.length + 1) by omega]⟩
      · rw [hpos] at hgt
        refine ⟨trivial, by rw [Nat.sub_eq_zero_of_le (by omega), List.drop_zero], ?_⟩
        rw [min_eq_right (show 3 ≤ j + (byte :: rest).length by omega),
          show min (byte :: rest).length (3 - j) = 0 by omega, Nat.add_zero, ← hpos]
        rw [min_eq_right (by omega)] at hparameter
        rw [← hparameter]

/-- What is stored when `j` bytes of the command's data have come. -/
def storedSoFar (p : Image) (addr : ℕ) (payload : List Byte) (j : ℕ) : Image :=
  p.store addr (payload.take (j - 3))

/-- The rest of a chunk, once the address has been taken from it, goes where the
chunks before it end. -/
theorem store_chunk (hj : j ≤ 3 + payload.length)
    (hdata : data <+: (setFramCommand addr payload).data.drop j) (hlong : 3 ≤ j + data.length) :
    (storedSoFar p addr payload j).store (addr + (j + min data.length (3 - j)) - 3)
      (data.drop (3 - j)) = storedSoFar p addr payload (j + data.length) := by
  -- behind the address the chunk is a part of the payload
  have hrest : data.drop (3 - j) = (payload.drop (j - 3)).take (data.length - (3 - j)) := by
    rw [List.prefix_iff_eq_take.mp hdata, setFramCommand, List.drop_take, List.drop_drop,
      List.length_take]
    simp only [sizeBytes, List.length_drop, List.length_append, List.length_cons, List.length_nil]
    rw [List.drop_append, List.drop_eq_nil_of_le (by simp; omega), List.nil_append]
    have hle := hdata.length_le
    simp only [setFramCommand, sizeBytes, List.length_drop, List.length_append, List.length_cons,
      List.length_nil] at hle
    congr 1
    · omega
    · congr 1
      simp only [List.length_cons, List.length_nil]
      omega
  have hlength : (payload.take (j - 3)).length = j - 3 := by
    rw [List.length_take]
    omega
  rw [storedSoFar, storedSoFar, hrest, show j + data.length - 3 =
    (j - 3) + (data.length - (3 - j)) by omega, List.take_add, Image.store_append, hlength]
  congr 1
  omega

/-- The position when `j` bytes of the command's data have come: after the last one
it is back at the beginning. -/
def AtPosition (addr : ℕ) (payload : List Byte) (j : ℕ) (s : Session) : Prop :=
  if j = 3 + payload.length then s.comPos = 0 ∧ s.comParameter = 0
  else s.comPos = j ∧ s.comParameter = addr % 256 ^ min j 3

/-- The rest of a chunk is stored, once the address is complete. -/
theorem wp_writeAddressed {p₀ : Image} (haddr : addr < 2 ^ 24)
    (hsize : 3 + payload.length < 2 ^ 24) (hj : j < 3 + payload.length)
    (hdata : data <+: (setFramCommand addr payload).data.drop j)
    (hp : p = storedSoFar p₀ addr payload j) (hpos : s.comPos = j + min data.length (3 - j))
    (hparameter : s.comParameter = addr % 256 ^ min (j + data.length) 3) :
    wp (writeAddressed (data.drop (3 - j)))
      (fun _ p' s' => p' = storedSoFar p₀ addr payload (j + data.length) ∧
        ∃ log, replies log = replies s.log ∧ s' = { s with comPos := j + data.length, log := log })
      (fun _ _ => False) (fun _ _ => True) p s := by
  have hle := hdata.length_le
  simp only [setFramCommand, sizeBytes, List.length_drop, List.length_append, List.length_cons,
    List.length_nil] at hle
  have hlast : (s.comPos + (data.drop (3 - j)).length) % 2 ^ 32 = j + data.length := by
    rw [List.length_drop, hpos]
    omega
  rw [writeAddressed, wp_bind, wp_ram, wp_ite, wp_pure]
  refine ⟨fun hlong => ?_, fun hshort => ?_⟩
  · have hlong : 3 ≤ j + data.length := by omega
    -- the address is complete, and the position counts its three bytes
    have haddress : s.comParameter + s.comPos - 3 = addr + (j + min data.length (3 - j)) - 3 := by
      rw [hparameter, min_eq_right hlong, show addr % 256 ^ 3 = addr from Nat.mod_eq_of_lt haddr,
        hpos]
    simp only [writeFram, wp_bind, wp_emit, wp_modifySession, wp_liftDev]
    refine wp_framWriteBytes (fun _ _ => trivial) ⟨?_,
      .framWrite (s.comParameter + s.comPos - 3) (data.drop (3 - j)) :: s.log, rfl, ?_⟩
    · rw [haddress, hp, store_chunk hj.le hdata hlong]
    · rw [← hlast]
      rfl
  -- the chunk ends within the address, and nothing is stored
  · have hnil : (data.drop (3 - j)).length = 0 := by
      rw [List.length_drop]
      omega
    have hshort : j + data.length ≤ 3 := by omega
    rw [hnil, Nat.add_zero, Nat.mod_eq_of_lt (by omega)] at hlast
    refine ⟨?_, s.log, rfl, by rw [← hlast]⟩
    rw [hp, storedSoFar, storedSoFar, Nat.sub_eq_zero_of_le (by omega),
      Nat.sub_eq_zero_of_le hshort]

/-- A chunk of the command. -/
theorem wp_commandSetFram {answer : Image → Session → Bool} {framId : Vector Byte 4} {p₀ : Image}
    (haddr : addr < 2 ^ 24) (hsize : 3 + payload.length < 2 ^ 24) (hj : j < 3 + payload.length)
    (hdata : data <+: (setFramCommand addr payload).data.drop j)
    (hposition : AtPosition addr payload j s) (htotal : s.parser.totalSize = 3 + payload.length)
    (hp : p = storedSoFar p₀ addr payload j) :
    wp (commandSetFram (.quiet answer framId) data)
      (fun _ p' s' => p' = storedSoFar p₀ addr payload (j + data.length) ∧
        AtPosition addr payload (j + data.length) s' ∧ s'.parser = s.parser ∧
        s'.timedOut = s.timedOut ∧ s'.enabled = s.enabled ∧
        replies s'.log = if j + data.length = 3 + payload.length then
          (comOk, 0) :: replies s.log else replies s.log)
      (fun _ _ => False) (fun _ _ => True) p s := by
  rw [AtPosition, if_neg hj.ne] at hposition
  obtain ⟨hpos, hparameter⟩ := hposition
  have hle := hdata.length_le
  simp only [setFramCommand, sizeBytes, List.length_drop, List.length_append, List.length_cons,
    List.length_nil] at hle
  rw [commandSetFram, wp_bind]
  refine wp_imp (wp_takeAddress haddr hdata hpos hparameter) fun rest p₁ s₁ hpost => ?_
  obtain ⟨rfl, rfl, rfl⟩ := hpost
  rw [wp_bind]
  refine wp_imp (wp_writeAddressed haddr hsize hj hdata hp rfl rfl) fun _ p₂ s₂ hpost => ?_
  obtain ⟨rfl, log, hlog, rfl⟩ := hpost
  rw [setFramDone, wp_bind, wp_ram, wp_ite, wp_pure, wp_bind, wp_modifySession,
    wp_sendEmpty_quiet, htotal]
  unfold AtPosition
  refine ⟨fun hdone => ?_, fun hmore => ?_⟩
  · rw [if_pos hdone, if_pos hdone]
    exact ⟨rfl, ⟨rfl, rfl⟩, rfl, rfl, rfl, congrArg _ hlog⟩
  · rw [if_neg hmore, if_neg hmore]
    exact ⟨rfl, ⟨rfl, rfl⟩, rfl, rfl, rfl, hlog⟩

end Chunk

/-! ## Every way of cutting the command -/

/-- The packets so far hold `k` bytes of the command, `replied` being the replies
that were in the log before it. -/
structure Stored (p₀ : Image) (addr : ℕ) (payload : List Byte) (replied : List (Byte × ℕ)) (k : ℕ)
    (p : Image) (s : Session) : Prop where
  more : k < 7 + payload.length → AtByte (setFramCommand addr payload) k s.parser
  timedOut : s.timedOut = false
  enabled : s.enabled = true
  image : p = storedSoFar p₀ addr payload (k - 4)
  position : AtPosition addr payload (k - 4) s
  answered : replies s.log = if k = 7 + payload.length then (comOk, 0) :: replied else replied

theorem length_setFramCommand :
    (setFramCommand addr payload).bytes.length = 7 + payload.length := by
  simp [setFramCommand, sizeBytes]
  omega

variable {t : Target} {answer : Image → Session → Bool} {framId : Vector Byte 4} {p₀ p : Image}
  {s : Session} {replied : List (Byte × ℕ)} {done : List (List Byte)} {packet : List Byte}
  {parser : Parser}

/-- A packet that does not complete the header. -/
theorem Stored.header (h : Stored p₀ addr payload replied done.flatten.length p s)
    (hshort : done.flatten.length + packet.length < 4)
    (hat : AtByte (setFramCommand addr payload) (done.flatten.length + packet.length) parser) :
    Stored p₀ addr payload replied (done ++ [packet]).flatten.length p (s.advance parser) := by
  have hlength : (done ++ [packet]).flatten.length = done.flatten.length + packet.length := by simp
  have hposition := h.position
  have himage := h.image
  have hreplies := h.answered
  rw [Nat.sub_eq_zero_of_le (by omega)] at hposition himage
  rw [if_neg (by omega)] at hreplies
  rw [hlength]
  refine ⟨fun _ => hat, s.advance_timedOut parser, (s.advance_enabled parser).trans h.enabled,
    ?_, ?_, ?_⟩
  · rw [Nat.sub_eq_zero_of_le hshort.le, himage]
  · rw [Nat.sub_eq_zero_of_le hshort.le]
    simpa only [AtPosition, Session.advance_comPos, Session.advance_comParameter] using hposition
  · rw [if_neg (by omega), Session.advance_replies, hreplies]

/-- A packet with data of the command, or the end of its header. -/
theorem Stored.data {call : Call} (haddr : addr < 2 ^ 24) (hsize : 3 + payload.length < 2 ^ 24)
    (h : Stored p₀ addr payload replied done.flatten.length p s) (hne : packet ≠ [])
    (hpacket : packet <+: (setFramCommand addr payload).bytes.drop done.flatten.length)
    (hlong : 4 ≤ done.flatten.length + packet.length)
    (hserving :
      Serving (setFramCommand addr payload) (done.flatten.length + packet.length) parser) :
    wp (comExec t (.quiet answer framId)
        (chunk (setFramCommand addr payload) done.flatten.length packet))
      (fun _ p' s' => Stored p₀ addr payload replied (done ++ [packet]).flatten.length p' s')
      (fun _ _ => False) (fun _ _ => True) p
      ((s.advance parser).emit (.exec call s.enabled)) := by
  have hlength : (done ++ [packet]).flatten.length = done.flatten.length + packet.length := by simp
  generalize hk : done.flatten.length = k at *
  have hpos := List.length_pos_iff.mpr hne
  have hle := hpacket.length_le
  rw [List.length_drop, length_setFramCommand] at hle
  have hchunk : chunk (setFramCommand addr payload) k packet <+:
      (setFramCommand addr payload).data.drop (k - 4) := by
    rw [chunk, List.drop_take]
    exact List.take_prefix _ _
  have hnext : k - 4 + (chunk (setFramCommand addr payload) k packet).length =
      k + packet.length - 4 := by
    simp only [chunk, setFramCommand, sizeBytes, List.length_drop, List.length_take,
      List.length_append, List.length_cons, List.length_nil]
    omega
  have hreplies := h.answered
  rw [if_neg (by omega)] at hreplies
  rw [comExec, wp_bind, wp_ram]
  have hid : ((s.advance parser).emit (.exec call s.enabled)).parser.id = comSetFram := hserving.id
  have henabled : ((s.advance parser).emit (.exec call s.enabled)).enabled = true :=
    (s.advance_enabled parser).trans h.enabled
  rw [hid, henabled, if_neg (by decide), if_neg (by decide)]
  change wp (commandSetFram _ _) _ _ _ _ _
  refine wp_imp (wp_commandSetFram haddr hsize (j := k - 4) (by omega) hchunk ?_ hserving.totalSize
    h.image) fun _ p₁ s₁ hpost => ?_
  · have := h.position
    simpa only [AtPosition, Session.emit, Session.advance_comPos,
      Session.advance_comParameter] using this
  · obtain ⟨himage, hposition, hparser, htimed, henabled', hlog⟩ := hpost
    rw [hnext] at himage hposition hlog
    rw [hlength]
    refine ⟨fun hmore => ?_, htimed.trans (s.advance_timedOut parser), henabled'.trans henabled,
      himage, hposition, ?_⟩
    · rw [hparser]
      exact hserving.more (by rwa [length_setFramCommand])
    · have hbefore : replies ((s.advance parser).emit (.exec call s.enabled)).log = replied :=
        (s.advance_replies parser).trans hreplies
      rw [hlog, hbefore]
      exact if_congr (by omega) rfl rfl

theorem wp_receive_setFram {packets : List (List Byte)} (haddr : addr < 2 ^ 24)
    (hsize : 3 + payload.length < 2 ^ 24)
    (hpackets : ∀ packet ∈ packets, packet ≠ [] ∧ packet.length ≤ 255)
    (hcut : packets.flatten <+: (setFramCommand addr payload).bytes)
    (h : Stored p₀ addr payload replied 0 p s) :
    wp (receive (comExec t (.quiet answer framId)) (comAbort (.quiet answer framId)) packets)
      (fun _ p' s' => Stored p₀ addr payload replied packets.flatten.length p' s')
      (fun _ _ => False) (fun _ _ => True) p s :=
  wp_receive_command (I := fun done => Stored p₀ addr payload replied done.flatten.length)
    (full_setFramCommand hsize)
    (fun _ _ _ h hlt => ⟨h.more (by rwa [← length_setFramCommand]), h.timedOut⟩)
    (fun _ _ _ _ _ h hshort hat => h.header hshort hat)
    (fun _ _ _ _ _ _ h hne hpacket hlong hserving =>
      h.data haddr hsize hne hpacket hlong hserving)
    [] hpackets hcut h

/-- With the communication enabled and the position at the beginning, at a command
boundary: however `COM_SET_FRAM` is cut into packets, the payload is then at its
address and nothing else has changed; one `COM_OK` has gone out, none of it before
the last packet; and the position is at the beginning again. -/
theorem setFram_stores (t : Target) (answer : Image → Session → Bool) (framId : Vector Byte 4)
    (hfit : addr + payload.length ≤ framByteSize) (hsize : 3 + payload.length < 2 ^ 24)
    {packets : List (List Byte)}
    (hpackets : ∀ packet ∈ packets, 1 ≤ packet.length ∧ packet.length ≤ 255)
    (hcut : packets.flatten = (setFramCommand addr payload).bytes) (p : Image) {s : Session}
    (hparser : s.parser.comState = .id) (htimed : s.timedOut = false) (henabled : s.enabled = true)
    (hpos : s.comPos = 0) (hparameter : s.comParameter = 0) :
    (∃ p' s', Completes (receive (comExec t (.quiet answer framId))
          (comAbort (.quiet answer framId)) packets) p s () p' s' ∧
        p'.bytes addr payload.length = payload ∧
        (∀ x, x < addr ∨ addr + payload.length ≤ x → p'.fram x = p.fram x) ∧
        p'.eeprom = p.eeprom ∧ p'.card = p.card ∧
        replies s'.log = (comOk, 0) :: replies s.log ∧ s'.comPos = 0 ∧ s'.comParameter = 0) ∧
      ∀ front back, packets = front ++ back → back ≠ [] →
        ∃ p' s', Completes (receive (comExec t (.quiet answer framId))
            (comAbort (.quiet answer framId)) front) p s () p' s' ∧
          replies s'.log = replies s.log := by
  have haddr : addr < 2 ^ 24 := lt_of_le_of_lt (Nat.le_of_add_right_le hfit) (by decide)
  have hpackets' : ∀ packet ∈ packets, packet ≠ [] ∧ packet.length ≤ 255 := fun packet hmem =>
    ⟨List.length_pos_iff.mp (hpackets packet hmem).1, (hpackets packet hmem).2⟩
  have hstart : Stored p addr payload (replies s.log) 0 p s :=
    ⟨fun _ => atByte_zero hparser, htimed, henabled, by simp [storedSoFar],
      by simp [AtPosition, hpos, hparameter, Nat.mod_one], by rw [if_neg (by omega)]⟩
  refine ⟨?_, fun front back hsplit hback => ?_⟩
  · obtain ⟨_, p', s', hrun, h⟩ := exists_completes
      (wp_receive_setFram haddr hsize hpackets' (hcut ▸ List.prefix_rfl) hstart)
    rw [hcut, length_setFramCommand] at h
    have himage := h.image
    have hposition := h.position
    rw [show 7 + payload.length - 4 = 3 + payload.length by omega] at himage hposition
    rw [storedSoFar, Nat.add_sub_cancel_left, List.take_length] at himage
    rw [AtPosition, if_pos rfl] at hposition
    subst himage
    refine ⟨_, s', hrun, Image.bytes_store_self hfit rfl, fun x hx => ?_,
      Image.store_eeprom .., Image.store_card .., by rw [h.answered, if_pos rfl], hposition⟩
    refine Image.store_fram_of_ne fun i hi => ?_
    rw [Nat.mod_eq_of_lt (by omega)]
    omega
  · have hfront : front.flatten.length < 7 + payload.length := by
      have hlength := congrArg List.length hcut
      obtain ⟨last, rest, rfl⟩ := List.exists_cons_of_ne_nil hback
      have := (hpackets last (by simp [hsplit])).1
      rw [hsplit, length_setFramCommand] at hlength
      simp only [List.flatten_append, List.flatten_cons, List.length_append] at hlength
      omega
    have hpre : front.flatten <+: (setFramCommand addr payload).bytes := by
      rw [← hcut, hsplit, List.flatten_append]
      exact List.prefix_append _ _
    obtain ⟨_, p', s', hrun, h⟩ := exists_completes (wp_receive_setFram haddr hsize
      (fun packet hmem => hpackets' packet (by simp [hsplit, hmem])) hpre hstart)
    exact ⟨p', s', hrun, by rw [h.answered, if_neg hfront.ne]⟩

/-- Four packets, cut inside the header, inside the address and inside the payload. -/
theorem setFram_stores_four_packets :
    ∃ p' s', Completes (receive (comExec ⟨.exact, .xorKey⟩ .willing) (comAbort .willing)
        [[0x20, 5, 0], [0, 3], [1, 0, 7], [8]]) .zero (Session.fresh.eventsHappen eventFlagCom)
        () p' s' ∧
      p'.bytes 0x103 2 = [7, 8] := by
  obtain ⟨p', s', hrun, hbytes, -⟩ := (setFram_stores ⟨.exact, .xorKey⟩ (fun _ _ => true)
    (Vector.replicate 4 0) (show 0x103 + [7, 8].length ≤ framByteSize by decide) (by decide)
    (by simp) (show [[0x20, 5, 0], [0, 3], [1, 0, 7], [8]].flatten = _ by decide) .zero
    (s := Session.fresh.eventsHappen eventFlagCom) rfl rfl (by decide) rfl rfl).1
  exact ⟨p', s', hrun, hbytes⟩

end PasswordWallet
