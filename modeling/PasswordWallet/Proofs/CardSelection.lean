import PasswordWallet.Exceptions.Rules
import PasswordWallet.Hardware.Selection

/-!
# Every selection ends

Whatever the reader answers, `rfid_PICC_select` stays in its arrays and comes to its end: in
a level each collision makes more bits known, and there are three levels.  Where it succeeds,
the UID is what the cards have acknowledged, level by level.
-/

namespace PasswordWallet.Rfid

open Exceptions

variable {σ : Type} {reader : Reader σ} {s : Selection σ}

/-! ## The buffer -/

section Buffer

variable {E : Exit → Selection σ → Prop}

theorem wp_readBuffer {Q : Byte → Selection σ → Prop} {i : ℕ} (hi : i < s.buffer.length) :
    wp (readBuffer i) Q E s ↔ Q (s.buffer.getD i 0) s := by
  simp only [readBuffer, wp_bind, wp_get]
  rw [List.getD_eq_getElem?_getD, List.getElem?_eq_getElem hi]
  exact wp_pure _

theorem wp_writeBuffer {Q : Unit → Selection σ → Prop} {i : ℕ} {value : Byte}
    (hi : i < s.buffer.length) :
    wp (writeBuffer i value) Q E s ↔ Q () { s with buffer := s.buffer.set i value } := by
  simp only [writeBuffer, wp_bind, wp_get]
  rw [if_pos hi]
  exact wp_set _

/-- The old bits in front of `rxAlign`, and the new ones behind. -/
def merged (rxAlign : ℕ) (value new : Byte) : Byte :=
  (value &&& ~~~alignMask rxAlign) ||| (new &&& alignMask rxAlign)

/-- The buffer after `readLoop`. -/
def received (fifo : ℕ → Byte) (values rxAlign : ℕ) : ℕ → ℕ → List Byte → List Byte
  | 0, index, buffer => buffer.set (values + index) (fifo index)
  | left + 1, index, buffer =>
      received fifo values rxAlign left (index + 1) <|
        buffer.set (values + index) <|
          if index = 0 ∧ rxAlign ≠ 0 then
            merged rxAlign (buffer.getD (values + index) 0) (fifo index)
          else fifo index

variable {fifo : ℕ → Byte} {values rxAlign left index : ℕ} {buffer : List Byte}

theorem received_length :
    (received fifo values rxAlign left index buffer).length = buffer.length := by
  induction left generalizing index buffer with
  | zero => exact List.length_set
  | succ left ih => rw [received, ih, List.length_set]

theorem getD_set {j i : ℕ} {value : Byte} (hi : i < buffer.length) :
    (buffer.set i value).getD j 0 = if j = i then value else buffer.getD j 0 := by
  rw [List.getD_eq_getElem?_getD, List.getD_eq_getElem?_getD, List.getElem?_set]
  by_cases hj : i = j
  · subst hj
    rw [if_pos rfl, if_pos hi, if_pos rfl, Option.getD_some]
  · rw [if_neg hj, if_neg (Ne.symm hj)]

theorem received_getD {j : ℕ} (hroom : values + index + left < buffer.length) :
    (received fifo values rxAlign left index buffer).getD j 0 =
      if values + index ≤ j ∧ j ≤ values + index + left then
        if index = 0 ∧ j = values ∧ rxAlign ≠ 0 ∧ left ≠ 0 then
          merged rxAlign (buffer.getD values 0) (fifo 0)
        else fifo (j - values)
      else buffer.getD j 0 := by
  induction left generalizing index buffer with
  | zero =>
      rw [received, getD_set (by omega)]
      by_cases hj : j = values + index
      · rw [if_pos hj, if_pos (by omega), if_neg (by omega), hj, Nat.add_sub_cancel_left]
      · rw [if_neg hj, if_neg (by omega)]
  | succ left ih =>
      rw [received, ih (by rw [List.length_set]; omega)]
      by_cases hj : j = values + index
      · rw [if_neg (by omega), getD_set (by omega), if_pos hj]
        by_cases hfirst : index = 0 ∧ rxAlign ≠ 0
        · rw [if_pos hfirst, if_pos (by omega), if_pos (by omega), hfirst.1, Nat.add_zero]
        · rw [if_neg hfirst, if_pos (by omega), if_neg (by omega), hj, Nat.add_sub_cancel_left]
      · by_cases hrange : values + (index + 1) ≤ j ∧ j ≤ values + (index + 1) + left
        · rw [if_pos hrange, if_neg (by omega), if_pos (by omega), if_neg (by omega)]
        · rw [if_neg hrange, getD_set (by omega), if_neg hj, if_neg (by omega)]

theorem wp_readLoop {Q : Unit → Selection σ → Prop}
    (hroom : values + index + left < s.buffer.length) :
    wp (readLoop fifo values rxAlign left index) Q E s ↔
      Q () { s with buffer := received fifo values rxAlign left index s.buffer } := by
  induction left generalizing index s with
  | zero => exact wp_writeBuffer hroom
  | succ left ih =>
      have hset : values + (index + 1) + left <
          (s.buffer.set (values + index) (fifo index)).length := by
        rw [List.length_set]
        omega
      rw [readLoop, received]
      by_cases hfirst : index = 0 ∧ rxAlign ≠ 0
      · rw [if_pos hfirst, if_pos hfirst]
        obtain ⟨rfl, -⟩ := hfirst
        simp only [wp_bind, Nat.add_zero] at hset ⊢
        rw [wp_readBuffer (by omega), wp_writeBuffer (by omega)]
        exact ih (by rw [List.length_set]; omega)
      · rw [if_neg hfirst, if_neg hfirst, wp_bind, wp_writeBuffer (by omega)]
        exact ih hset

/-- The buffer with the `count` bytes of a reply. -/
def receivedAll (fifo : ℕ → Byte) (count values rxAlign : ℕ) (buffer : List Byte) : List Byte :=
  if count = 0 then buffer else received fifo values rxAlign (count - 1) 0 buffer

theorem wp_readRegisterMultiple {count : ℕ} {Q : Unit → Selection σ → Prop}
    (hroom : values + count ≤ s.buffer.length) :
    wp (rfidPcdReadRegisterMultiple fifo count values rxAlign) Q E s ↔
      Q () { s with buffer := receivedAll fifo count values rxAlign s.buffer } := by
  rw [rfidPcdReadRegisterMultiple, receivedAll]
  by_cases hcount : count = 0
  · rw [if_pos hcount, if_pos hcount]
    exact wp_pure ()
  · rw [if_neg hcount, if_neg hcount]
    exact wp_readLoop (by omega)

theorem receivedAll_length {count : ℕ} :
    (receivedAll fifo count values rxAlign buffer).length = buffer.length := by
  rw [receivedAll]
  split
  · rfl
  · exact received_length

theorem receivedAll_getD {count j : ℕ} (hroom : values + count ≤ buffer.length) :
    (receivedAll fifo count values rxAlign buffer).getD j 0 =
      if values ≤ j ∧ j < values + count then
        if j = values ∧ rxAlign ≠ 0 ∧ 1 < count then
          merged rxAlign (buffer.getD values 0) (fifo 0)
        else fifo (j - values)
      else buffer.getD j 0 := by
  rw [receivedAll]
  by_cases hcount : count = 0
  · rw [if_pos hcount, if_neg (by omega)]
  · rw [if_neg hcount, received_getD (by omega)]
    by_cases hrange : values ≤ j ∧ j < values + count
    · rw [if_pos hrange, if_pos (by omega)]
      by_cases hfirst : j = values ∧ rxAlign ≠ 0 ∧ 1 < count
      · rw [if_pos hfirst, if_pos (by omega)]
      · rw [if_neg hfirst, if_neg (by omega)]
    · rw [if_neg hrange, if_neg (by omega)]

end Buffer

/-! ## The reader -/

/-- The arrays have their sizes. -/
structure Sized (s : Selection σ) : Prop where
  buffer : s.buffer.length = 9
  uidByte : s.uid.uidByte.length = 10

/-- A status other than `STATUS_OK` is returned. -/
def Exit.Failed (e : Exit) : Prop := ∃ status, e = .returned status ∧ status ≠ .ok

/-- `events` is what the reader says, one after another, between two of its states. -/
def Answered (reader : Reader σ) : σ → List Event → σ → Prop
  | field, [], field' => field' = field
  | field, .crc data run :: events, field' =>
      (reader.calculateCrc field data).1 = run ∧
        Answered reader (reader.calculateCrc field data).2 events field'
  | field, .frame frame x :: events, field' =>
      (reader.transceive field frame).1 = x ∧
        Answered reader (reader.transceive field frame).2 events field'

theorem Answered.append {field field' field'' : σ} {events events' : List Event}
    (h : Answered reader field events field') (h' : Answered reader field' events' field'') :
    Answered reader field (events ++ events') field'' := by
  induction events generalizing field with
  | nil =>
      obtain rfl : field' = field := h
      exact h'
  | cons event events ih =>
      cases event with
      | crc data run => exact ⟨h.1, ih h.2⟩
      | frame frame x => exact ⟨h.1, ih h.2⟩

/-- What goes between the program and the reader, from `s` to `s'`. -/
structure Talk (reader : Reader σ) (s : Selection σ) (events : List Event) (s' : Selection σ) :
    Prop where
  transcript : s'.transcript = s.transcript ++ events
  answered : Answered reader s.field events s'.field

theorem Talk.refl (s : Selection σ) : Talk reader s [] s := ⟨(List.append_nil _).symm, rfl⟩

theorem Talk.trans {events events' : List Event} {s' s'' : Selection σ}
    (h : Talk reader s events s') (h' : Talk reader s' events' s'') :
    Talk reader s (events ++ events') s'' :=
  ⟨by rw [h'.transcript, h.transcript, List.append_assoc], h.answered.append h'.answered⟩

theorem wp_calculateCrc {data length result : ℕ} (hs : Sized s) (hdata : data + length ≤ 9)
    (hresult : result + 1 < 9) {Q : Unit → Selection σ → Prop} {E : Exit → Selection σ → Prop}
    (hok : ∀ s' run, Talk reader s [.crc ((s.buffer.drop data).take length) run] s' →
      s'.uid = s.uid →
      s'.buffer = (s.buffer.set result run.result.1).set (result + 1) run.result.2 → Q () s')
    (herror : ∀ e s' run, e.Failed →
      Talk reader s [.crc ((s.buffer.drop data).take length) run] s' → s'.uid = s.uid →
      s'.buffer = s.buffer → E e s') :
    wp (rfidPcdCalculateCrc reader data length result) Q E s := by
  have hbuffer := hs.buffer
  simp only [rfidPcdCalculateCrc, wp_bind, wp_get]
  rw [if_pos (by omega)]
  simp only [wp_bind, wp_set]
  rcases rfidPcdCalculateCrc_cases
    (reader.calculateCrc s.field ((s.buffer.drop data).take length)).1.divIrq with hdone | hdone
  · rw [hdone]
    simp only [wp_bind]
    rw [wp_writeBuffer (by simp only; omega),
      wp_writeBuffer (by simp only [List.length_set]; omega)]
    exact hok _ _ ⟨rfl, rfl, rfl⟩ rfl rfl
  · rw [hdone]
    simp only [wp_throw]
    exact herror _ _ _ ⟨.timeout, rfl, by simp⟩ ⟨rfl, rfl, rfl⟩ rfl rfl

theorem wp_transmit {sendLen rxAlign txLastBits : ℕ} (hsend : sendLen ≤ s.buffer.length)
    {Q : Exchange → Selection σ → Prop} {E : Exit → Selection σ → Prop} :
    wp (transmit reader sendLen rxAlign txLastBits) Q E s ↔
      let frame : Frame :=
        ⟨s.buffer.take sendLen, BitVec.ofNat 8 (rxAlign <<< 4) + BitVec.ofNat 8 txLastBits⟩
      let x := reader.transceive s.field frame
      Q x.1 { s with field := x.2, transcript := s.transcript ++ [.frame frame x.1] } := by
  simp only [transmit, wp_bind, wp_get]
  rw [if_pos hsend]
  simp only [wp_bind, wp_set, wp_pure]

/-- A reply has come, and it is free of errors and of collisions. -/
structure Exchange.Received (x : Exchange) : Prop where
  reply : communicateLoop x.comIrq 4000 0 = .ok
  error : x.error &&& 0x13 = 0
  collision : x.error &&& 0x08 = 0

/-- What is sent and received, and what `rfid_pcd_communicate_with_PICC` makes of it. -/
structure Received (reader : Reader σ) (s : Selection σ) (frame : Frame)
    (backData backLen rxAlign : ℕ) (x : Exchange) (reply : Reply) (s' : Selection σ) : Prop where
  talk : Talk reader s [.frame frame x] s'
  uid : s'.uid = s.uid
  length : s'.buffer.length = s.buffer.length
  kept : ∀ j < backData, s'.buffer.getD j 0 = s.buffer.getD j 0
  coll : reply.coll = x.coll
  ok : reply.status = .ok → x.Received ∧ reply.backLen = x.fifoLevel.toNat ∧
    x.fifoLevel.toNat ≤ backLen ∧ reply.validBits = (x.control &&& 0x07).toNat ∧
    s'.buffer = receivedAll x.fifo x.fifoLevel.toNat backData rxAlign s.buffer

theorem wp_transceiveData {sendLen backData backLen validBits rxAlign : ℕ} (hs : Sized s)
    (hsend : sendLen ≤ 9) (hback : backData + backLen ≤ 9)
    {E : Exit → Selection σ → Prop} :
    wp (rfidPcdTransceiveData reader sendLen backData backLen validBits rxAlign)
      (fun reply s' => ∃ x, Received reader s ⟨s.buffer.take sendLen,
        BitVec.ofNat 8 (rxAlign <<< 4) + BitVec.ofNat 8 validBits⟩ backData backLen rxAlign
        x reply s')
      E s := by
  have hbuffer := hs.buffer
  rw [rfidPcdTransceiveData, wp_bind, wp_transmit (by omega)]
  intro frame x
  rcases communicateLoop_cases x.1.comIrq 4000 0 with hloop | hloop
  swap
  · rw [hloop]
    exact ⟨x.1, ⟨rfl, rfl, rfl⟩, rfl, rfl, fun _ _ => rfl, rfl, fun h => by simp at h⟩
  rw [hloop]
  simp only [wp_ite, wp_pure]
  refine ⟨fun herror => ⟨x.1, ⟨rfl, rfl, rfl⟩, rfl, rfl, fun _ _ => rfl, rfl, fun h => by simp at h⟩,
    fun herror => ⟨fun hlevel => ⟨x.1, ⟨rfl, rfl, rfl⟩, rfl, rfl, fun _ _ => rfl, rfl, fun h => by simp at h⟩,
      fun hlevel => ?_⟩⟩
  have hroom : backData + x.1.fifoLevel.toNat ≤ s.buffer.length := by omega
  rw [wp_bind]
  refine (wp_readRegisterMultiple ?_).mpr ?_
  · exact hroom
  rw [wp_pure]
  refine ⟨x.1, ⟨rfl, rfl, rfl⟩, rfl, receivedAll_length, fun j hj => ?_, rfl, fun h => ?_⟩
  · simp only
    rw [receivedAll_getD hroom, if_neg (by omega)]
  · have hcollision : x.1.error &&& 0x08 = 0 := by
      by_contra hne
      have hstatus : (if x.1.error &&& 0x08 ≠ 0 then StatusCode.collision else .ok) = .ok := h
      rw [if_pos hne] at hstatus
      cases hstatus
    exact ⟨⟨hloop, not_not.mp herror, hcollision⟩, rfl, Nat.not_lt.mp hlevel, rfl, rfl⟩

/-! ## The frames of a level -/

/-- An ANTICOLLISION with `k` known bits. -/
structure Asks (command : Byte) (k : ℕ) (frame : Frame) : Prop where
  bits : k < 32
  length : frame.data.length = 2 + k / 8 + if k % 8 ≠ 0 then 1 else 0
  sel : frame.data.getD 0 0 = command
  nvb : frame.data.getD 1 0 = BitVec.ofNat 8 (16 * (2 + k / 8) + k % 8)
  bitFraming : frame.bitFraming = BitVec.ofNat 8 (17 * (k % 8))

/-- A SELECT of four bytes, with their block check and the CRC. -/
structure Selects (command : Byte) (part : List Byte) (run : CrcRun) (frame : Frame) : Prop where
  length : part.length = 4
  data : frame.data = command :: 0x70 :: part ++
    [part.foldl (· ^^^ ·) 0, run.result.1, run.result.2]
  bitFraming : frame.bitFraming = 0

/-- What is sent in a level from `k` known bits on, up to the reply `x` to the SELECT. -/
inductive Level (command : Byte) : ℕ → List Event → List Byte → Exchange → Prop
  | select {part : List Byte} {run : CrcRun} {frame : Frame} {x : Exchange}
      (hframe : Selects command part run frame) (hx : x.Received) :
      Level command 32 [.crc (frame.data.take 7) run, .frame frame x] part x
  | ask {k k' : ℕ} {frame : Frame} {x last : Exchange} {events : List Event} {part : List Byte}
      (hframe : Asks command k frame) (hk : k < k') (hlevel : Level command k' events part last) :
      Level command k (.frame frame x :: events) part last

/-- The frames among what is sent. -/
def frames : List Event → List Frame
  | [] => []
  | .crc _ _ :: events => frames events
  | .frame frame _ :: events => frame :: frames events

/-- What may be sent in a level from `k` known bits on, wherever it stops: each
ANTICOLLISION has more known bits than the one before, and nothing follows a SELECT. -/
inductive Tries (command : Byte) : ℕ → List Event → Prop
  | nil {k : ℕ} : Tries command k []
  | crc (bytes : List Byte) (run : CrcRun) : Tries command 32 [.crc bytes run]
  | select {part : List Byte} {run : CrcRun} {frame : Frame} {x : Exchange}
      (hframe : Selects command part run frame) :
      Tries command 32 [.crc (frame.data.take 7) run, .frame frame x]
  | ask {k k' : ℕ} {frame : Frame} {x : Exchange} {events : List Event}
      (hframe : Asks command k frame) (hk : k < k') (hle : k' ≤ 32)
      (htries : Tries command k' events) : Tries command k (.frame frame x :: events)

theorem Level.bits_le {command : Byte} {k : ℕ} {events : List Event} {part : List Byte}
    {x : Exchange} (h : Level command k events part x) : k ≤ 32 := by
  cases h with
  | select => exact le_rfl
  | ask hframe => exact hframe.bits.le

theorem Level.tries {command : Byte} {k : ℕ} {events : List Event} {part : List Byte}
    {x : Exchange} (h : Level command k events part x) : Tries command k events := by
  induction h with
  | select hframe hx => exact .select hframe
  | ask hframe hk hlevel ih => exact .ask hframe hk hlevel.bits_le ih

/-- The known bits go up from frame to frame, so there are not many. -/
theorem Tries.length {command : Byte} {k : ℕ} {events : List Event}
    (h : Tries command k events) (hk : k ≤ 32) : (frames events).length ≤ 33 - k := by
  induction h with
  | nil => exact Nat.zero_le _
  | crc bytes run => exact Nat.zero_le _
  | select hframe => exact le_rfl
  | ask hframe hk' hle htries ih =>
      have hrest := ih hle
      rw [frames, List.length_cons]
      omega

/-! ## One turn -/

/-- What has happened between `s` and `s'`, in a level. -/
structure After (reader : Reader σ) (command : Byte) (s : Selection σ) (events : List Event)
    (s' : Selection σ) : Prop where
  talk : Talk reader s events s'
  uid : s'.uid = s.uid
  length : s'.buffer.length = s.buffer.length
  sel : s'.buffer.getD 0 0 = command

theorem After.sized {command : Byte} {events : List Event} {s' : Selection σ}
    (h : After reader command s events s') (hs : Sized s) : Sized s' :=
  ⟨h.length.trans hs.buffer, h.uid ▸ hs.uidByte⟩

theorem After.trans {command : Byte} {events events' : List Event} {s' s'' : Selection σ}
    (h : After reader command s events s') (h' : After reader command s' events' s'') :
    After reader command s (events ++ events') s'' where
  talk := h.talk.trans h'.talk
  uid := h'.uid.trans h.uid
  length := h'.length.trans h.length
  sel := h'.sel

theorem asks_of_buffer {command : Byte} {k : ℕ} {buffer : List Byte} (hbuffer : buffer.length = 9)
    (hk : k < 32) (hsel : buffer.getD 0 0 = command)
    (hnvb : buffer.getD 1 0 = BitVec.ofNat 8 (16 * (2 + k / 8) + k % 8)) :
    Asks command k ⟨buffer.take (2 + k / 8 + if k % 8 ≠ 0 then 1 else 0),
      BitVec.ofNat 8 ((k % 8) <<< 4) + BitVec.ofNat 8 (k % 8)⟩ where
  bits := hk
  length := by
    rw [List.length_take, hbuffer, Nat.min_eq_left]
    split <;> omega
  sel := by
    rw [← hsel, List.getD_eq_getElem?_getD, List.getD_eq_getElem?_getD, List.getElem?_take_of_lt]
    omega
  nvb := by
    rw [← hnvb, List.getD_eq_getElem?_getD, List.getD_eq_getElem?_getD, List.getElem?_take_of_lt]
    omega
  bitFraming := by
    have hbits : k % 8 * 2 ^ 4 + k % 8 = 17 * (k % 8) := by omega
    rw [← BitVec.ofNat_add, Nat.shiftLeft_eq, hbits]

/-- A turn with an ANTICOLLISION. -/
theorem wp_ask {command : Byte} {k : ℕ} (hs : Sized s) (hk : k < 32)
    (hsel : s.buffer.getD 0 0 = command) {Q : Reply → Selection σ → Prop}
    {E : Exit → Selection σ → Prop}
    (hok : ∀ reply s' frame x, Asks command k frame → After reader command s [.frame frame x] s' →
      Q reply s') :
    wp (prepare reader k) (fun turn => wp (rfidPcdTransceiveData reader turn.bufferUsed
      turn.responseBuffer turn.responseLength turn.txLastBits turn.txLastBits) Q E) E s := by
  have hbuffer := hs.buffer
  rw [prepare, if_neg (by omega)]
  simp only [wp_bind]
  rw [wp_writeBuffer (by omega), wp_pure]
  set nvb : Byte := BitVec.ofNat 8 ((2 + k / 8) <<< 4) + BitVec.ofNat 8 (k % 8) with hnvb
  set t : Selection σ := { s with buffer := s.buffer.set 1 nvb } with ht
  have hlength : t.buffer.length = 9 := by
    rw [ht]
    simp only [List.length_set, hbuffer]
  have hroom : 2 + k / 8 + (if k % 8 ≠ 0 then 1 else 0) ≤ 9 := by split <;> omega
  refine wp_mono (wp_transceiveData ⟨hlength, hs.uidByte⟩ hroom (by simp only; omega))
    (fun reply s' hreply => ?_) fun _ _ h => h
  obtain ⟨x, hx⟩ := hreply
  refine hok reply s' _ x (asks_of_buffer hlength hk ?_ ?_)
    ⟨⟨hx.talk.transcript, hx.talk.answered⟩, hx.uid, hx.length.trans (hlength.trans hbuffer.symm), ?_⟩
  · rw [ht, getD_set (by omega), if_neg Nat.zero_ne_one, hsel]
  · rw [ht, getD_set (by omega), if_pos rfl, hnvb, ← BitVec.ofNat_add, Nat.shiftLeft_eq,
      Nat.mul_comm (2 + k / 8)]
  · rw [hx.kept 0 (by simp only; omega), ht, getD_set (by omega), if_neg Nat.zero_ne_one, hsel]

/-- The bytes of the UID in a level. -/
def partOf (buffer : List Byte) : List Byte := (buffer.drop 2).take 4

theorem exists_bytes {buffer : List Byte} (h : buffer.length = 9) :
    ∃ b₀ b₁ b₂ b₃ b₄ b₅ b₆ b₇ b₈, buffer = [b₀, b₁, b₂, b₃, b₄, b₅, b₆, b₇, b₈] := by
  match buffer, h with
  | [b₀, b₁, b₂, b₃, b₄, b₅, b₆, b₇, b₈], _ => exact ⟨_, _, _, _, _, _, _, _, _, rfl⟩

theorem ext_getD {a b : List Byte} (hlength : a.length = b.length)
    (h : ∀ j < a.length, a.getD j 0 = b.getD j 0) : a = b := by
  refine List.ext_getElem hlength fun j hj hj' => ?_
  have hj := h j hj
  rwa [List.getD_eq_getElem?_getD, List.getD_eq_getElem?_getD, List.getElem?_eq_getElem,
    List.getElem?_eq_getElem hj'] at hj

theorem partOf_congr {a b : List Byte} (ha : a.length = 9) (hb : b.length = 9)
    (h : ∀ j, 2 ≤ j → j < 6 → a.getD j 0 = b.getD j 0) : partOf a = partOf b := by
  refine ext_getD (by simp [partOf, ha, hb]) fun j hj => ?_
  have hj : j < 4 := by simpa [partOf, ha] using hj
  have hget : ∀ c : List Byte, (partOf c).getD j 0 = c.getD (2 + j) 0 := by
    intro c
    rw [partOf, List.getD_eq_getElem?_getD, List.getElem?_take_of_lt hj, List.getElem?_drop,
      ← List.getD_eq_getElem?_getD]
  rw [hget, hget, h _ (by omega) (by omega)]

/-- The reply to a SELECT. -/
structure Acked (x : Exchange) (reply : Reply) (s' : Selection σ) : Prop where
  received : x.Received
  backLen : reply.backLen = x.fifoLevel.toNat
  validBits : reply.validBits = (x.control &&& 0x07).toNat
  bytes : ∀ i < x.fifoLevel.toNat, s'.buffer.getD (6 + i) 0 = x.fifo i

/-- A turn with a SELECT. -/
theorem wp_select {command : Byte} {k : ℕ} (hs : Sized s) (hk : 32 ≤ k)
    (hsel : s.buffer.getD 0 0 = command) {Q : Reply → Selection σ → Prop}
    {E : Exit → Selection σ → Prop}
    (hok : ∀ reply s' run frame x, Selects command (partOf s.buffer) run frame →
      After reader command s [.crc (frame.data.take 7) run, .frame frame x] s' →
      partOf s'.buffer = partOf s.buffer → (reply.status = .ok → Acked x reply s') → Q reply s')
    (herror : ∀ e s' bytes run, e.Failed → After reader command s [.crc bytes run] s' → E e s') :
    wp (prepare reader k) (fun turn => wp (rfidPcdTransceiveData reader turn.bufferUsed
      turn.responseBuffer turn.responseLength turn.txLastBits turn.txLastBits) Q E) E s := by
  obtain ⟨b₀, b₁, b₂, b₃, b₄, b₅, b₆, b₇, b₈, hbuffer⟩ := exists_bytes hs.buffer
  have huid := hs.uidByte
  obtain ⟨field, transcript, uid, buffer⟩ := s
  simp only at hbuffer huid
  subst hbuffer
  obtain rfl : b₀ = command := hsel
  rw [prepare, if_pos hk]
  simp only [wp_bind]
  rw [wp_writeBuffer (by simp), wp_readBuffer (by simp), wp_readBuffer (by simp),
    wp_readBuffer (by simp), wp_readBuffer (by simp), wp_writeBuffer (by simp)]
  refine wp_calculateCrc ⟨by simp, huid⟩ (by decide) (by decide)
    (fun t run htalk ht hbuffer => ?_) fun e t run he htalk ht hbuffer =>
      herror e t _ run he ⟨⟨htalk.transcript, htalk.answered⟩, ht, ?_, ?_⟩
  swap
  · rw [hbuffer]
    simp
  swap
  · rw [hbuffer]
    rfl
  have hbuffer : t.buffer = [b₀, 0x70, b₂, b₃, b₄, b₅, b₂ ^^^ b₃ ^^^ b₄ ^^^ b₅, run.result.1,
      run.result.2] := hbuffer
  rw [wp_pure]
  dsimp only
  refine wp_mono (wp_transceiveData ⟨by simp [hbuffer], ht ▸ huid⟩ (by decide) (by decide))
    (fun reply s' hreply => ?_) fun _ _ h => h
  obtain ⟨x, hx⟩ := hreply
  have hlength : s'.buffer.length = 9 := hx.length.trans (by simp [hbuffer])
  refine hok reply s' run ⟨t.buffer.take 9, BitVec.ofNat 8 (0 <<< 4) + BitVec.ofNat 8 0⟩ x
    ⟨rfl, ?_, rfl⟩ ⟨?_, hx.uid.trans ht, hlength, ?_⟩ ?_ fun h => ?_
  · have hzero : (0 : Byte) ^^^ b₂ = b₂ := BitVec.zero_xor
    rw [hbuffer]
    simp only [partOf, List.drop_succ_cons, List.drop_zero, List.take_succ_cons, List.take_zero,
      List.foldl_cons, List.foldl_nil, hzero, List.cons_append, List.nil_append]
  · have htalk' := htalk.trans hx.talk
    refine ⟨htalk'.transcript.trans ?_, ?_⟩
    · rw [hbuffer]
      rfl
    · have hanswered := htalk'.answered
      rw [hbuffer] at hanswered ⊢
      exact hanswered
  · rw [hx.kept 0 (by decide), hbuffer]
    rfl
  · refine partOf_congr hlength rfl fun j hj hj' => ?_
    rw [hx.kept j hj', hbuffer]
    obtain rfl | rfl | rfl | rfl : j = 2 ∨ j = 3 ∨ j = 4 ∨ j = 5 := by omega
    · rfl
    · rfl
    · rfl
    · rfl
  · obtain ⟨hreceived, hback, hle, hvalid, hall⟩ := hx.ok h
    refine ⟨hreceived, hback, hvalid, fun i hi => ?_⟩
    rw [hall, receivedAll_getD (by simp [hbuffer]; omega), if_pos ⟨by omega, by omega⟩,
      if_neg (by simp), Nat.add_sub_cancel_left]

/-- After a collision more bits are known. -/
theorem wp_choose (reader : Reader σ) {command coll : Byte} {k : ℕ} (hs : Sized s)
    (hsel : s.buffer.getD 0 0 = command) {Q : ℕ → Selection σ → Prop} {E : Exit → Selection σ → Prop}
    (hok : ∀ k' s', k < k' → k' ≤ 32 → After reader command s [] s' → Q k' s')
    (herror : ∀ e, e.Failed → E e s) : wp (choose coll k) Q E s := by
  have hbuffer := hs.buffer
  have hmask : (coll &&& 0x1F).toNat ≤ 31 := by
    rw [BitVec.toNat_and]
    exact Nat.and_le_right
  rw [choose]
  simp only [wp_bind, wp_ite, wp_throw, wp_pure]
  refine ⟨fun _ => herror _ ⟨_, rfl, by simp⟩, fun _ => ⟨fun _ => herror _ ⟨_, rfl, by simp⟩,
    fun hprogress => ?_⟩⟩
  set collisionPos := if (coll &&& 0x1F).toNat = 0 then 32 else (coll &&& 0x1F).toNat with hpos
  have hle : 1 ≤ collisionPos ∧ collisionPos ≤ 32 := by
    rw [hpos]
    split <;> omega
  have hindex : 1 + collisionPos / 8 + (if (collisionPos - 1) % 8 ≠ 0 then 1 else 0) < 9 := by
    split <;> omega
  rw [wp_readBuffer (by omega), wp_writeBuffer (by omega)]
  refine hok _ _ (Nat.not_le.mp hprogress) hle.2
    ⟨⟨(List.append_nil _).symm, rfl⟩, rfl, List.length_set, ?_⟩
  rw [getD_set (by omega), if_neg (by split <;> omega), hsel]

/-! ## A level -/

/-- A level that has failed, from `k` known bits on. -/
structure Stopped (reader : Reader σ) (command : Byte) (k : ℕ) (s : Selection σ)
    (e : Exit) (s' : Selection σ) : Prop where
  failed : e.Failed
  uid : s'.uid = s.uid
  tries : ∃ events, Tries command k events ∧ Talk reader s events s'

/-- What comes after an ANTICOLLISION. -/
theorem Stopped.ask {command : Byte} {k k' : ℕ} {t s' : Selection σ} {e : Exit} {frame : Frame}
    {x : Exchange} (hframe : Asks command k frame) (hk : k < k') (hle : k' ≤ 32)
    (ht : After reader command s [.frame frame x] t) (h : Stopped reader command k' t e s') :
    Stopped reader command k s e s' := by
  obtain ⟨events, htries, htalk⟩ := h.tries
  exact ⟨h.failed, h.uid.trans ht.uid, _, .ask hframe hk hle htries, ht.talk.trans htalk⟩

theorem wp_anticollisionLoop {command : Byte} {fuel k : ℕ} (hs : Sized s) (hk : k ≤ 32)
    (hfuel : 33 - k ≤ fuel) (hsel : s.buffer.getD 0 0 = command) :
    wp (anticollisionLoop reader fuel k)
      (fun reply s' => ∃ events x, Level command k events (partOf s'.buffer) x ∧
        After reader command s events s' ∧ Acked x reply s')
      (Stopped reader command k s) s := by
  induction fuel generalizing s k with
  | zero => omega
  | succ fuel ih =>
      rw [anticollisionLoop]
      simp only [wp_bind]
      rcases Nat.lt_or_ge k 32 with hask | hselect
      · refine wp_ask hs hask hsel fun reply t frame x hframe ht => ?_
        have htried : Tries command k [.frame frame x] := .ask hframe hask le_rfl .nil
        split
        next =>
          rw [wp_bind]
          refine wp_choose reader (ht.sized hs) ht.sel (fun k' u hk' hle hu => ?_) fun e he =>
            ⟨he, ht.uid, _, htried, ht.talk⟩
          have hu : After reader command s [.frame frame x] u := by simpa using ht.trans hu
          refine wp_mono (ih (hu.sized hs) hle (by omega) hu.sel)
            (fun reply' s' hdone => ?_) fun e s' => Stopped.ask hframe hk' hle hu
          obtain ⟨events, last, hlevel, hafter, hacked⟩ := hdone
          exact ⟨_, last, .ask hframe hk' hlevel, hu.trans hafter, hacked⟩
        next =>
          rw [if_neg (by omega)]
          refine wp_mono (ih (ht.sized hs) le_rfl (by omega) ht.sel)
            (fun reply' s' hdone => ?_) fun e s' => Stopped.ask hframe hask le_rfl ht
          obtain ⟨events, last, hlevel, hafter, hacked⟩ := hdone
          exact ⟨_, last, .ask hframe hask hlevel, ht.trans hafter, hacked⟩
        next status hcollision hok =>
          exact ⟨⟨_, rfl, hok⟩, ht.uid, _, htried, ht.talk⟩
      · obtain rfl : k = 32 := le_antisymm hk hselect
        refine wp_select hs le_rfl hsel (fun reply t run frame x hframe ht hpart hacked => ?_)
          fun e s' bytes run he hs' => ⟨he, hs'.uid, _, .crc bytes run, hs'.talk⟩
        have htried : Tries command 32 [.crc (frame.data.take 7) run, .frame frame x] :=
          .select hframe
        split
        next =>
          rw [wp_bind]
          refine wp_choose reader (ht.sized hs) ht.sel (fun k' u hk' hle hu => ?_) fun e he =>
            ⟨he, ht.uid, _, htried, ht.talk⟩
          omega
        next hok =>
          rw [if_pos le_rfl]
          have hack := hacked hok
          exact ⟨_, x, hpart ▸ .select hframe hack.received, ht, hack⟩
        next status hcollision hok =>
          exact ⟨⟨_, rfl, hok⟩, ht.uid, _, htried, ht.talk⟩

/-! ## The SAK -/

/-- The bytes in place of those from `i` on. -/
def put (bytes : List Byte) (i : ℕ) (new : List Byte) : List Byte :=
  bytes.take i ++ new ++ bytes.drop (i + new.length)

/-- The bytes of the UID in the part of a level: a cascade tag is not one. -/
def ownBytes (part : List Byte) : List Byte :=
  if part.getD 0 0 = piccCmdCt then part.drop 1 else part

theorem put_set {bytes rest : List Byte} {i : ℕ} {value : Byte} (hi : i < bytes.length) :
    put (bytes.set i value) (i + 1) rest = put bytes i (value :: rest) := by
  have htake : (bytes.set i value).take (i + 1) = bytes.take i ++ [value] := by
    rw [List.set_eq_take_append_cons_drop, if_pos hi, List.take_append, List.take_take,
      List.length_take, Nat.min_eq_right (Nat.le_succ i), Nat.min_eq_left hi.le,
      Nat.add_sub_cancel_left, List.take_succ_cons, List.take_zero]
  have hdrop : (bytes.set i value).drop (i + 1 + rest.length) =
      bytes.drop (i + 1 + rest.length) := by
    rw [List.drop_set, if_pos (by omega)]
  rw [put, put, htake, hdrop, List.length_cons, Nat.add_right_comm, Nat.add_assoc,
    List.append_assoc (bytes.take i), List.singleton_append]

theorem put_length {bytes new : List Byte} {i : ℕ} (hi : i + new.length ≤ bytes.length) :
    (put bytes i new).length = bytes.length := by
  rw [put, List.length_append, List.length_append, List.length_take, List.length_drop]
  omega

theorem wp_copyUid {index uidIndex left : ℕ} (hindex : index + left ≤ s.buffer.length)
    (huid : uidIndex + left ≤ s.uid.uidByte.length) {Q : Unit → Selection σ → Prop}
    {E : Exit → Selection σ → Prop} :
    wp (copyUid index uidIndex left) Q E s ↔
      Q () { s with uid := { s.uid with
        uidByte := put s.uid.uidByte uidIndex ((s.buffer.drop index).take left) } } := by
  induction left generalizing index uidIndex s with
  | zero =>
      rw [copyUid, wp_pure, List.take_zero, put, List.append_nil, List.length_nil, Nat.add_zero,
        List.take_append_drop]
  | succ left ih =>
      have hbytes : (s.buffer.drop index).take (left + 1) =
          s.buffer.getD index 0 :: (s.buffer.drop (index + 1)).take left := by
        rw [List.drop_eq_getElem_cons (by omega), List.take_succ_cons,
          List.getD_eq_getElem?_getD, List.getElem?_eq_getElem, Option.getD_some]
      rw [copyUid, wp_bind, wp_readBuffer (by omega)]
      simp only [wp_bind, wp_get]
      rw [if_pos (by omega), wp_bind, wp_set, hbytes, ← put_set (by omega)]
      exact ih (by simp only; omega) (by simp only [List.length_set]; omega)

/-- The SAK is one byte, with its CRC. -/
structure Acknowledges (x : Exchange) (run : CrcRun) : Prop where
  fifoLevel : x.fifoLevel.toNat = 3
  whole : x.control &&& 0x07 = 0
  crc : run.result = (x.fifo 1, x.fifo 2)

theorem partOf_length {buffer : List Byte} (h : buffer.length = 9) : (partOf buffer).length = 4 := by
  simp [partOf, h]

theorem ownBytes_length {part : List Byte} (h : part.length = 4) : (ownBytes part).length ≤ 4 := by
  rw [ownBytes]
  split
  · rw [List.length_drop]
    omega
  · exact h.le

theorem wp_copyPart {uidIndex : ℕ} (hs : Sized s) (huid : uidIndex + 4 ≤ 10)
    {Q : Unit → Selection σ → Prop} {E : Exit → Selection σ → Prop} :
    wp (copyPart uidIndex) Q E s ↔
      Q () { s with uid := { s.uid with
        uidByte := put s.uid.uidByte uidIndex (ownBytes (partOf s.buffer)) } } := by
  have hbuffer := hs.buffer
  have hbytes := hs.uidByte
  have hfirst : (partOf s.buffer).getD 0 0 = s.buffer.getD 2 0 := by
    rw [partOf, List.getD_eq_getElem?_getD, List.getElem?_take_of_lt (by decide),
      List.getElem?_drop, ← List.getD_eq_getElem?_getD]
  rw [copyPart, wp_bind, wp_readBuffer (by omega), ownBytes, hfirst]
  by_cases hct : s.buffer.getD 2 0 = piccCmdCt
  · rw [if_pos hct, if_pos hct, wp_copyUid (by omega) (by omega), partOf, List.drop_take,
      List.drop_drop]
  · rw [if_neg hct, if_neg hct, wp_copyUid (by omega) (by omega), partOf]

/-- Only bytes of the UID may differ. -/
structure SameCard (uid uid' : Uid) : Prop where
  length : uid'.uidByte.length = 10
  size : uid'.size = uid.size
  sak : uid'.sak = uid.sak

/-- What is left of a level that ends without its SAK. -/
structure Unacknowledged (reader : Reader σ) (s : Selection σ) (e : Exit)
    (s' : Selection σ) : Prop where
  failed : e.Failed
  same : SameCard s.uid s'.uid
  talk : Talk reader s [] s' ∨ ∃ bytes run, Talk reader s [.crc bytes run] s'

theorem wp_acknowledge {x : Exchange} {reply : Reply} {uidIndex : ℕ} (hs : Sized s)
    (huid : uidIndex + 4 ≤ 10) (hacked : Acked x reply s) {Q : Byte → Selection σ → Prop}
    {E : Exit → Selection σ → Prop}
    (hok : ∀ s' run, Acknowledges x run →
      Talk reader s [.crc [x.fifo 0] run] s' → s'.buffer.length = 9 →
      s'.uid = { s.uid with
        uidByte := put s.uid.uidByte uidIndex (ownBytes (partOf s.buffer)) } → Q (x.fifo 0) s')
    (herror : ∀ e s', Unacknowledged reader s e s' → E e s') :
    wp (acknowledge reader reply uidIndex) Q E s := by
  have hbuffer := hs.buffer
  rw [acknowledge]
  simp only [wp_bind]
  rw [wp_copyPart hs huid]
  set uid : Uid := { s.uid with
    uidByte := put s.uid.uidByte uidIndex (ownBytes (partOf s.buffer)) } with huid'
  have hlength : uid.uidByte.length = 10 := by
    have hown := ownBytes_length (partOf_length hbuffer)
    rw [huid', put_length (by rw [hs.uidByte]; omega), hs.uidByte]
  have hsized : Sized { s with uid := uid } := ⟨hbuffer, hlength⟩
  have hsame : SameCard s.uid uid := ⟨hlength, rfl, rfl⟩
  simp only [wp_ite, wp_bind, wp_throw]
  refine ⟨fun _ => herror _ _ ⟨⟨_, rfl, by simp⟩, hsame, Or.inl ⟨(List.append_nil _).symm, rfl⟩⟩, fun hwhole => ?_⟩
  rw [not_or, not_not, not_not, hacked.backLen, hacked.validBits] at hwhole
  have hbytes := hacked.bytes
  rw [hwhole.1] at hbytes
  refine wp_calculateCrc hsized (show 6 + 1 ≤ 9 by decide) (show 2 + 1 < 9 by decide)
    (fun t run htalk ht htb => ?_) fun e t run he htalk ht _ =>
      herror e t ⟨he, ht ▸ hsame, Or.inr ⟨_, run, htalk.transcript, htalk.answered⟩⟩
  have htb : t.buffer = (s.buffer.set 2 run.result.1).set 3 run.result.2 := htb
  have htlength : t.buffer.length = 9 := by
    rw [htb, List.length_set, List.length_set, hbuffer]
  have hget : ∀ j, j ≠ 2 → j ≠ 3 → t.buffer.getD j 0 = s.buffer.getD j 0 := by
    intro j hj hj'
    rw [htb, getD_set (by rw [List.length_set]; omega), if_neg hj', getD_set (by omega), if_neg hj]
  have hsak : (s.buffer.drop 6).take 1 = [x.fifo 0] := by
    rw [← hbytes 0 (by decide), List.drop_eq_getElem_cons (by omega), List.take_succ_cons,
      List.take_zero, List.getD_eq_getElem?_getD, List.getElem?_eq_getElem, Option.getD_some]
  rw [wp_readBuffer (by omega), wp_readBuffer (by omega), wp_readBuffer (by omega),
    wp_readBuffer (by omega)]
  refine ⟨fun _ => herror _ _ ⟨⟨_, rfl, by simp⟩, ht ▸ hsame, Or.inr ⟨_, run, htalk.transcript, htalk.answered⟩⟩,
    fun hcrc => ?_⟩
  rw [wp_readBuffer (by omega), hget 6 (by decide) (by decide), hbytes 0 (by decide)]
  rw [not_or, not_not, not_not, hget 7 (by decide) (by decide), hget 8 (by decide) (by decide),
    hbytes 1 (by decide), hbytes 2 (by decide), htb] at hcrc
  rw [getD_set (by rw [List.length_set]; omega), if_neg (by decide), getD_set (by omega),
    if_pos rfl, getD_set (by rw [List.length_set]; omega), if_pos rfl] at hcrc
  have hwhole' : x.control &&& 0x07 = 0 := BitVec.eq_of_toNat_eq hwhole.2
  refine hok t run ⟨hwhole.1, hwhole', Prod.ext hcrc.1 hcrc.2⟩ ?_ htlength ht
  rw [← hsak]
  exact ⟨htalk.transcript, htalk.answered⟩

/-! ## The cascade levels -/

/-- What is sent from a level on, up to the SAK without the cascade bit: the parts of the
levels, and the SAK. -/
inductive Cascade : ℕ → List Event → List (List Byte) → Byte → Prop
  | last {level : ℕ} {command : Byte} {uidIndex : ℕ} {events : List Event} {part : List Byte}
      {x : Exchange} {run : CrcRun} (hlevel : levelOf level = some (command, uidIndex))
      (hevents : Level command 0 events part x) (hack : Acknowledges x run)
      (hsak : x.fifo 0 &&& 0x04 = 0) :
      Cascade level (events ++ [.crc [x.fifo 0] run]) [part] (x.fifo 0)
  | next {level : ℕ} {command : Byte} {uidIndex : ℕ} {events rest : List Event}
      {part : List Byte} {parts : List (List Byte)} {sak : Byte}
      {x : Exchange} {run : CrcRun} (hlevel : levelOf level = some (command, uidIndex))
      (hevents : Level command 0 events part x) (hack : Acknowledges x run)
      (hsak : x.fifo 0 &&& 0x04 ≠ 0) (hrest : Cascade (level + 1) rest parts sak) :
      Cascade level (events ++ [.crc [x.fifo 0] run] ++ rest) (part :: parts) sak

/-- The bytes of the UID when the parts of the levels are written to them. -/
def written : ℕ → List (List Byte) → List Byte → List Byte
  | _, [], uidByte => uidByte
  | uidIndex, part :: parts, uidByte =>
      written (uidIndex + 3) parts (put uidByte uidIndex (ownBytes part))

/-- What may be sent from a level on, wherever it stops: the levels one after another, and
another one only behind a SELECT that was answered. -/
inductive Attempts : ℕ → List Event → Prop
  | nil {level : ℕ} : Attempts level []
  | stopped {level : ℕ} {command : Byte} {uidIndex : ℕ} {events : List Event}
      (hlevel : levelOf level = some (command, uidIndex)) (htries : Tries command 0 events) :
      Attempts level events
  | next {level : ℕ} {command : Byte} {uidIndex : ℕ} {events rest : List Event}
      {part : List Byte} {x : Exchange} (bytes : List Byte) (run : CrcRun)
      (hlevel : levelOf level = some (command, uidIndex)) (hevents : Level command 0 events part x)
      (hrest : Attempts (level + 1) rest) :
      Attempts level (events ++ [.crc bytes run] ++ rest)

theorem levelOf_some {level uidIndex : ℕ} {command : Byte}
    (h : levelOf level = some (command, uidIndex)) :
    1 ≤ level ∧ level ≤ 3 ∧ uidIndex = 3 * (level - 1) := by
  match level, h with
  | 1, rfl => exact ⟨by decide, by decide, rfl⟩
  | 2, rfl => exact ⟨by decide, by decide, rfl⟩
  | 3, rfl => exact ⟨by decide, by decide, rfl⟩

theorem frames_append (events events' : List Event) :
    frames (events ++ events') = frames events ++ frames events' := by
  induction events with
  | nil => rfl
  | cons event events ih =>
      cases event with
      | crc bytes run => exact ih
      | frame frame x => exact congrArg (frame :: ·) ih

/-- At most 33 frames in each of the levels. -/
theorem Attempts.length {level : ℕ} {events : List Event} (h : Attempts level events) :
    (frames events).length ≤ 33 * (4 - level) := by
  induction h with
  | nil => exact Nat.zero_le _
  | stopped hlevel htries =>
      obtain ⟨hle, hle', -⟩ := levelOf_some hlevel
      have hframes := htries.length (Nat.zero_le _)
      omega
  | next bytes run hlevel hevents hrest ih =>
      obtain ⟨hle, hle', -⟩ := levelOf_some hlevel
      have hframes := hevents.tries.length (Nat.zero_le _)
      simp only [frames_append, List.length_append, frames, List.length_nil]
      omega

theorem Cascade.attempts {level : ℕ} {events : List Event} {parts : List (List Byte)} {sak : Byte}
    (h : Cascade level events parts sak) : Attempts level events := by
  induction h with
  | last hlevel hevents hack hsak =>
      rw [← List.append_nil (_ ++ _)]
      exact .next _ _ hlevel hevents .nil
  | next hlevel hevents hack hsak hrest ih => exact .next _ _ hlevel hevents ih

/-- A selection that has failed. -/
structure Refused (reader : Reader σ) (level : ℕ) (s : Selection σ) (e : Exit)
    (s' : Selection σ) : Prop where
  failed : e.Failed
  same : SameCard s.uid s'.uid
  attempts : ∃ events, Attempts level events ∧ Talk reader s events s'

/-- A level that fails after others. -/
theorem Refused.after {level uidIndex : ℕ} {command : Byte} {t s' : Selection σ} {e : Exit}
    {events : List Event} {part bytes : List Byte} {x : Exchange} {run : CrcRun}
    (hlevel : levelOf level = some (command, uidIndex)) (hevents : Level command 0 events part x)
    (ht : Talk reader s (events ++ [.crc bytes run]) t) (hsame : SameCard s.uid t.uid)
    (h : Refused reader (level + 1) t e s') : Refused reader level s e s' := by
  obtain ⟨rest, hrest, htalk⟩ := h.attempts
  have hcard : SameCard s.uid s'.uid :=
    ⟨h.same.length, h.same.size.trans hsame.size, h.same.sak.trans hsame.sak⟩
  exact ⟨h.failed, hcard, _, .next bytes run hlevel hevents hrest, ht.trans htalk⟩

theorem wp_cascadeLoop {fuel level : ℕ} (hs : Sized s) (hlast : level ≤ 4)
    (hfuel : 5 - level ≤ fuel) :
    wp (cascadeLoop reader fuel level)
      (fun cascadeLevel s' => ∃ events parts sak, Cascade level events parts sak ∧
        Talk reader s events s' ∧ cascadeLevel + 1 = level + parts.length ∧
        s'.uid = { s.uid with
          uidByte := written (3 * (level - 1)) parts s.uid.uidByte, sak := sak })
      (Refused reader level s) s := by
  induction fuel generalizing s level with
  | zero => omega
  | succ fuel ih =>
      have hbuffer := hs.buffer
      rw [cascadeLoop]
      cases hlevel : levelOf level with
      | none =>
          exact wp_throw _ |>.mpr
            ⟨⟨_, rfl, by simp⟩, ⟨hs.uidByte, rfl, rfl⟩, [], .nil, Talk.refl s⟩
      | some found =>
          obtain ⟨command, uidIndex⟩ := found
          obtain ⟨hfirst, hthree, hindex⟩ := levelOf_some hlevel
          simp only [wp_bind]
          rw [wp_writeBuffer (by omega)]
          have hs₀ : Sized { s with buffer := s.buffer.set 0 command } :=
            ⟨by simp only [List.length_set, hbuffer], hs.uidByte⟩
          have hsel : (s.buffer.set 0 command).getD 0 0 = command := by
            rw [getD_set (by omega), if_pos rfl]
          refine wp_mono (wp_anticollisionLoop hs₀ (Nat.zero_le 32) (by decide) hsel)
            (fun reply t hdone => ?_) fun e t hstop => ?_
          · obtain ⟨events, x, hevents, hafter, hacked⟩ := hdone
            have ht : Sized t := hafter.sized hs₀
            have huid : t.uid = s.uid := hafter.uid
            have htalk : Talk reader s events t := ⟨hafter.talk.transcript, hafter.talk.answered⟩
            refine wp_acknowledge ht (by omega) hacked (fun u run hack hu hlength huid' => ?_)
              fun e u hun => ?_
            · have hown := ownBytes_length (partOf_length ht.buffer)
              have hu := htalk.trans hu
              rw [huid] at huid'
              have hsu : Sized u := by
                refine ⟨hlength, ?_⟩
                rw [huid', put_length (by rw [hs.uidByte]; omega), hs.uidByte]
              have hsame : SameCard s.uid u.uid := by
                refine ⟨hsu.uidByte, ?_, ?_⟩
                · rw [huid']
                · rw [huid']
              rw [wp_ite]
              refine ⟨fun hmore => ?_, fun hend => ?_⟩
              · refine wp_mono (ih hsu (by omega) (by omega)) (fun cascadeLevel s' hrest => ?_)
                  fun e s' href => ?_
                · obtain ⟨rest, parts, sak, hcascade, hs', hlast', hsuid⟩ := hrest
                  refine ⟨_, _, sak, .next hlevel hevents hack hmore hcascade, hu.trans hs', ?_, ?_⟩
                  · rw [List.length_cons]
                    omega
                  · have hnext : 3 * (level + 1 - 1) = uidIndex + 3 := by omega
                    rw [hsuid, huid', hnext, ← hindex]
                    rfl
                · exact href.after hlevel hevents hu hsame
              · simp only [wp_bind, wp_modify, wp_pure]
                refine ⟨_, _, _, .last hlevel hevents hack (not_not.mp hend),
                  ⟨hu.transcript, hu.answered⟩, rfl, ?_⟩
                rw [huid', ← hindex]
                rfl
            · rcases hun.talk with hun' | ⟨bytes, run, hun'⟩
              · have hboth : Talk reader s events u := by
                  simpa using htalk.trans hun'
                exact ⟨hun.failed, huid ▸ hun.same, events, .stopped hlevel hevents.tries, hboth⟩
              · have hboth := htalk.trans hun'
                rw [← List.append_nil (_ ++ _)] at hboth
                exact ⟨hun.failed, huid ▸ hun.same, _, .next bytes run hlevel hevents .nil, hboth⟩
          · obtain ⟨events, htries, htalk⟩ := hstop.tries
            have huid : t.uid = s.uid := hstop.uid
            have hsame : SameCard s.uid t.uid := by
              rw [huid]
              exact ⟨hs.uidByte, rfl, rfl⟩
            exact ⟨hstop.failed, hsame, events, .stopped hlevel htries,
              ⟨htalk.transcript, htalk.answered⟩⟩

/-! ## The selection -/

/-- The parts have a cascade tag where there is another level, and only there. -/
structure Tagged (parts : List (List Byte)) : Prop where
  front : ∀ part ∈ parts.dropLast, part.getD 0 0 = piccCmdCt
  last : ∀ part ∈ parts.getLast?, part.getD 0 0 ≠ piccCmdCt

theorem Level.length {command : Byte} {k : ℕ} {events : List Event} {part : List Byte}
    {x : Exchange} (h : Level command k events part x) : part.length = 4 := by
  induction h with
  | select hframe hx => exact hframe.length
  | ask hframe hk hlevel ih => exact ih

theorem Cascade.parts {level : ℕ} {events : List Event} {parts : List (List Byte)} {sak : Byte}
    (h : Cascade level events parts sak) :
    parts ≠ [] ∧ level + parts.length ≤ 4 ∧ ∀ part ∈ parts, part.length = 4 := by
  induction h with
  | last hlevel hevents hack hsak =>
      obtain ⟨hle, hle', -⟩ := levelOf_some hlevel
      refine ⟨List.cons_ne_nil _ _, ?_, List.forall_mem_singleton.mpr hevents.length⟩
      rw [List.length_singleton]
      omega
  | next hlevel hevents hack hsak hrest ih =>
      refine ⟨List.cons_ne_nil _ _, ?_, List.forall_mem_cons.mpr ⟨hevents.length, ih.2.2⟩⟩
      rw [List.length_cons]
      omega

theorem put_take {bytes new : List Byte} {i : ℕ} (hi : i ≤ bytes.length) :
    (put bytes i new).take (i + new.length) = bytes.take i ++ new := by
  rw [put, List.take_append_of_le_length, List.take_of_length_le]
  · rw [List.length_append, List.length_take, Nat.min_eq_left hi]
  · rw [List.length_append, List.length_take, Nat.min_eq_left hi]

/-- Of parts that are tagged, the bytes come one after another. -/
theorem written_tagged {parts : List (List Byte)} {uidByte : List Byte} {i : ℕ} (hne : parts ≠ [])
    (hlength : ∀ part ∈ parts, part.length = 4) (htagged : Tagged parts)
    (hi : i + 3 * parts.length + 1 ≤ uidByte.length) :
    (written i parts uidByte).take (i + 3 * parts.length + 1) =
      uidByte.take i ++ parts.flatMap ownBytes := by
  induction parts generalizing i uidByte with
  | nil => exact absurd rfl hne
  | cons part parts ih =>
      obtain ⟨hpart, hparts⟩ := List.forall_mem_cons.mp hlength
      rw [List.length_cons] at hi ⊢
      cases parts with
      | nil =>
          have hlast : part.getD 0 0 ≠ piccCmdCt := htagged.last part rfl
          have hown : ownBytes part = part := if_neg hlast
          have hsize : i + 3 * (([] : List (List Byte)).length + 1) + 1 = i + part.length := by
            rw [hpart]
            rfl
          simp only [written, List.flatMap_cons, List.flatMap_nil, List.append_nil, hown]
          rw [hsize, put_take (by omega)]
      | cons next parts =>
          have hfront : part.getD 0 0 = piccCmdCt := htagged.front part List.mem_cons_self
          have hown : (ownBytes part).length = 3 := by
            rw [ownBytes, if_pos hfront, List.length_drop, hpart]
          have hrest : Tagged (next :: parts) :=
            ⟨fun p hp => htagged.front p (List.mem_cons_of_mem _ hp), htagged.last⟩
          have hput : (put uidByte i (ownBytes part)).length = uidByte.length :=
            put_length (by omega)
          have hstep : (written (i + 3) (next :: parts) (put uidByte i (ownBytes part))).take
              (i + 3 + 3 * (next :: parts).length + 1) =
                (put uidByte i (ownBytes part)).take (i + 3) ++ (next :: parts).flatMap ownBytes :=
            ih (List.cons_ne_nil _ _) hparts hrest (by rw [hput]; omega)
          have htake : (put uidByte i (ownBytes part)).take (i + 3) =
              uidByte.take i ++ ownBytes part := by
            rw [← hown, put_take (by omega)]
          have hsize : i + 3 * ((next :: parts).length + 1) + 1 =
              i + 3 + 3 * (next :: parts).length + 1 := by omega
          rw [written, hsize, hstep, htake, List.append_assoc]
          exact congrArg (uidByte.take i ++ ·) List.flatMap_cons.symm

theorem Cascade.bytes {events : List Event} {parts : List (List Byte)} {sak : Byte} {uid uid' : Uid}
    (h : Cascade 1 events parts sak) (huid : uid.uidByte.length = 10)
    (hsize : uid'.size.toNat = 3 * parts.length + 1)
    (hwritten : uid'.uidByte = written 0 parts uid.uidByte) (htagged : Tagged parts) :
    uid'.uidByte.take uid'.size.toNat = parts.flatMap ownBytes := by
  obtain ⟨hne, hlevels, hlength⟩ := h.parts
  have hbytes : (written 0 parts uid.uidByte).take (0 + 3 * parts.length + 1) =
      uid.uidByte.take 0 ++ parts.flatMap ownBytes :=
    written_tagged hne hlength htagged (by omega)
  rw [Nat.zero_add, List.take_zero, List.nil_append] at hbytes
  rw [hsize, hwritten, hbytes]

/-- What a call returns, and what it leaves; nothing where it goes wrong. -/
def returned : EStateM.Result Exit (Selection σ) StatusCode → Option (StatusCode × Selection σ)
  | .ok status s => some (status, s)
  | .error (.returned status) s => some (status, s)
  | .error _ _ => none

/-- A selection that succeeds wrote the parts of its levels, one that fails was refused. -/
theorem wp_rfidPiccSelect (reader : Reader σ) (field : σ) {uid : Uid} {buffer : List Byte}
    (huid : uid.uidByte.length = 10) (hbuffer : buffer.length = 9) :
    wp (rfidPiccSelect reader)
      (fun status s' => status = .ok ∧ ∃ parts, Cascade 1 s'.transcript parts s'.uid.sak ∧
        Answered reader field s'.transcript s'.field ∧
        s'.uid.size.toNat = 3 * parts.length + 1 ∧
        s'.uid.uidByte = written 0 parts uid.uidByte)
      (Refused reader 1 ⟨field, [], uid, buffer⟩) ⟨field, [], uid, buffer⟩ := by
  have hs : Sized (⟨field, [], uid, buffer⟩ : Selection σ) := ⟨hbuffer, huid⟩
  rw [rfidPiccSelect, wp_bind]
  refine wp_mono (wp_cascadeLoop hs (by decide) (by decide)) (fun cascadeLevel s' h => ?_)
    fun _ _ h => h
  obtain ⟨events, parts, sak, hcascade, htalk, hlevel, huid'⟩ := h
  obtain rfl : s'.transcript = events := htalk.transcript
  simp only [wp_bind, wp_modify, wp_pure]
  obtain ⟨hne, hlevels, hlength⟩ := hcascade.parts
  have hparts : cascadeLevel = parts.length := by omega
  have hsize : (BitVec.ofNat 8 (3 * parts.length + 1)).toNat = 3 * parts.length + 1 := by
    rw [BitVec.toNat_ofNat]
    omega
  rw [huid', hparts]
  exact ⟨trivial, parts, hcascade, htalk.answered, hsize, rfl⟩

/-- Whatever the reader answers: the selection stays in its arrays, ends after at most 99
frames, and sends only frames of its levels, with ever more known bits in a level.  It
succeeds only when in each level a SELECT of four known bytes got its SAK with the CRC; the
UID then is made of these bytes, and of nothing else if the cascade tags are where the SAKs
say.  When it fails, the size and the SAK are those of the card before. -/
theorem rfidPiccSelect_ends (reader : Reader σ) (field : σ) (uid : Uid) (buffer : List Byte)
    (huid : uid.uidByte.length = 10) (hbuffer : buffer.length = 9) :
    ∃ status s', returned (rfidPiccSelect reader ⟨field, [], uid, buffer⟩) = some (status, s') ∧
      (frames s'.transcript).length ≤ 99 ∧ Attempts 1 s'.transcript ∧
      Answered reader field s'.transcript s'.field ∧
      (status ≠ .ok → SameCard uid s'.uid) ∧
      (status = .ok → ∃ parts, Cascade 1 s'.transcript parts s'.uid.sak ∧
        s'.uid.size.toNat = 3 * parts.length + 1 ∧
        s'.uid.uidByte = written 0 parts uid.uidByte ∧
        (Tagged parts → s'.uid.uidByte.take s'.uid.size.toNat = parts.flatMap ownBytes)) := by
  have hrun := wp_rfidPiccSelect reader field huid hbuffer
  cases hresult : rfidPiccSelect reader ⟨field, [], uid, buffer⟩ with
  | ok status s' =>
      rw [wp, hresult] at hrun
      obtain ⟨rfl, parts, hcascade, hanswered, hsize, hwritten⟩ := hrun
      refine ⟨.ok, s', rfl, hcascade.attempts.length, hcascade.attempts, hanswered,
        fun h => absurd rfl h, fun _ => ?_⟩
      exact ⟨parts, hcascade, hsize, hwritten, hcascade.bytes huid hsize hwritten⟩
  | error e s' =>
      rw [wp, hresult] at hrun
      obtain ⟨status, rfl, hstatus⟩ := hrun.failed
      obtain ⟨events, hattempts, htalk⟩ := hrun.attempts
      obtain rfl : s'.transcript = events := htalk.transcript
      exact ⟨status, s', rfl, hattempts.length, hattempts, htalk.answered, fun _ => hrun.same,
        fun h => absurd h hstatus⟩

/-- A reader with two cards in its field, of which the UIDs first differ in their second
bit. -/
def twoCards : Reader Unit where
  calculateCrc _ data :=
    (⟨fun _ => 0x04, if data = [0x08] then (0xB6, 0xDD) else (0xB9, 0x9C)⟩, ())
  transceive _ frame :=
    let reply : List Byte :=
      if frame.data = [0x93, 0x20] then [0, 0, 0, 0, 0]
      else if frame.data = [0x93, 0x22, 0x02] then [0xDC, 0xAD, 0xBE, 0xEF, 0x22]
      else if frame.data = [0x93, 0x70, 0xDE, 0xAD, 0xBE, 0xEF, 0x22, 0xB9, 0x9C] then
        [0x08, 0xB6, 0xDD]
      else []
    (⟨fun _ => if reply = [] then 0x01 else 0x30, if frame.data = [0x93, 0x20] then 0x08 else 0,
      BitVec.ofNat 8 reply.length, fun i => reply.getD i 0, 0, 0x02⟩, ())

/-- The card with the bit set is selected. -/
theorem rfidPiccSelect_ends_two :
    ∃ s' parts, returned (rfidPiccSelect twoCards
        ⟨(), [], ⟨0, List.replicate 10 0, 0⟩, List.replicate 9 0⟩) = some (.ok, s') ∧
      Cascade 1 s'.transcript parts s'.uid.sak ∧
      s'.uid.uidByte.take 4 = [0xDE, 0xAD, 0xBE, 0xEF] := by
  obtain ⟨status, s', h, -, -, -, -, hok⟩ := rfidPiccSelect_ends twoCards ()
    ⟨0, List.replicate 10 0, 0⟩ (List.replicate 9 0) rfl rfl
  have hstatus : (returned (rfidPiccSelect twoCards
      ⟨(), [], ⟨0, List.replicate 10 0, 0⟩, List.replicate 9 0⟩)).map
        (fun r => (r.1, r.2.uid.uidByte.take 4)) = some (.ok, [0xDE, 0xAD, 0xBE, 0xEF]) := by
    decide +kernel
  rw [h] at hstatus
  obtain ⟨rfl, huid⟩ := Prod.mk.inj (Option.some.inj hstatus)
  obtain ⟨parts, hcascade, -⟩ := hok rfl
  exact ⟨s', parts, h, hcascade, huid⟩

end PasswordWallet.Rfid
