import PasswordWallet.Communication.Process
import PasswordWallet.Framing.Reader

/-!
# What the parser reads

The passes of `com_process_data`, seen as a reader of frames: `Reads` says which
reader the parser is, and a pass feeds that reader the bytes that the pointer of
the pass points to.  Those need not be the next bytes of the packet.
-/

namespace PasswordWallet

open PowerLoss Framing

/-! ## The commands as they are presented to `com_exec` -/

/-- Data for the last frame. -/
def extendLast (data : List Byte) : List Frame → List Frame
  | [] => []
  | [f] => [{ f with data := f.data ++ data }]
  | f :: g :: rest => f :: extendLast data (g :: rest)

@[simp] theorem extendLast_concat (data : List Byte) (frames : List Frame) (f : Frame) :
    extendLast data (frames ++ [f]) = frames ++ [{ f with data := f.data ++ data }] := by
  induction frames with
  | nil => rfl
  | cons g rest ih =>
      cases rest with
      | nil => rfl
      | cons g' rest => exact congrArg (g :: ·) ih

/-- The calls that belong to one command, put together. -/
def addCall (frames : List Frame) (call : Call) : List Frame :=
  if call.first then frames ++ [⟨call.id, call.totalSize, call.data⟩]
  else extendLast call.data frames

/-- The same, for the call that a pass makes or does not make. -/
def addPass (frames : List Frame) : Option Call → List Frame
  | none => frames
  | some call => addCall frames call

/-- The commands that a log shows: for each its id, its `totalSize`, and the
concatenation of the data that the calls of `com_exec` for it were given. -/
def parsed : List Event → List Frame
  | [] => []
  | .exec call _ :: earlier => addCall (parsed earlier) call
  | _ :: earlier => parsed earlier

/-! ## The parser as a reader -/

/-- The reader is that far in the header that the parser is at, or in the data. -/
def ReadsTo (parser : Parser) (r : Reader) : ComState → Prop
  | .id => r.current = none ∧ r.header = []
  | .size1 => r.current = none ∧ r.header = [parser.id]
  | .size2 => r.current = none ∧ ∃ low, r.header = [parser.id, low] ∧
      parser.totalSize = low.toNat
  | .size3 => r.current = none ∧ ∃ low mid, r.header = [parser.id, low, mid] ∧
      parser.totalSize = low.toNat ||| mid.toNat <<< 8
  | .data => ∃ frames f, r = Reader.file frames f ∧ f.id = parser.id ∧
      f.size = parser.totalSize ∧ f.data.length = parser.bytesProcessed

/-- The parser, with the commands it has presented, is the reader. -/
structure Reads (parser : Parser) (frames : List Frame) (r : Reader) : Prop where
  seen : r.seen = frames
  state : ReadsTo parser r parser.comState
  lacks : parser.comState = .data → parser.bytesProcessed < parser.totalSize

theorem or_shiftLeft_eight {low high : ℕ} (hlow : low < 256) :
    low ||| high <<< 8 = low + 256 * high := by
  rw [Nat.or_comm, ← Nat.shiftLeft_add_eq_or_of_lt (show low < 2 ^ 8 from hlow),
    Nat.shiftLeft_eq]
  omega

theorem sizeOf_eq (low mid high : Byte) :
    (low.toNat ||| mid.toNat <<< 8) ||| high.toNat <<< 16 = Framing.sizeOf low mid high := by
  have hlow := low.isLt
  have hmid := mid.isLt
  rw [or_shiftLeft_eight hlow, Nat.or_comm, ← Nat.shiftLeft_add_eq_or_of_lt
    (show low.toNat + 256 * mid.toNat < 2 ^ 16 by omega), Nat.shiftLeft_eq, Framing.sizeOf]
  omega

/-- At a command boundary the parser is the empty reader. -/
theorem reads_empty {parser : Parser} (h : parser.comState = .id) :
    Reads parser [] Reader.empty := by
  refine ⟨rfl, ?_, fun hdata => ?_⟩
  · rw [h]
    exact ⟨rfl, rfl⟩
  · rw [h] at hdata
    cases hdata

/-! ## The header -/

/-- How far a parser is in its header. -/
def ComState.rank : ComState → ℕ
  | .id => 0
  | .size1 => 1
  | .size2 => 2
  | .size3 => 3
  | .data => 4

/-- The field that the parser is at takes its byte. -/
def Parser.pickField (parser : Parser) (b : Byte) : Parser :=
  match parser.comState with
  | .id => { parser with id := b, comState := .size1 }
  | .size1 => { parser with totalSize := b.toNat, comState := .size2 }
  | .size2 => { parser with
      totalSize := parser.totalSize ||| b.toNat <<< 8, comState := .size3 }
  | .size3 => { parser with
      totalSize := parser.totalSize ||| b.toNat <<< 16, bytesProcessed := 0, comState := .data }
  | .data => parser

/-- The fields of the header, one after the other. -/
def pickFields : ℕ → Parser × Cursor → Parser × Cursor
  | 0, x => x
  | n + 1, x =>
      if x.1.comState ≠ .data ∧ x.2.lenght ≠ 0 then
        pickFields n (x.1.pickField x.2.byte, x.2.next)
      else x

theorem readHeader_eq {parser : Parser} {c : Cursor} (hc : c.lenght ≠ 0) :
    readHeader parser c = pickFields 4 (parser, c) := by
  obtain ⟨state, id, totalSize, processed⟩ := parser
  cases state <;>
    simp only [readHeader, readId, readSize1, readSize2, readSize3, pickFields, Parser.pickField,
      reduceCtorEq, if_true, if_false, false_and, true_and, ne_eq, not_false_eq_true, not_true, hc]
  all_goals repeat' split_ifs
  all_goals simp_all

/-- In a header no frame is open. -/
theorem ReadsTo.current_eq_none {parser : Parser} {r : Reader} {state : ComState}
    (h : ReadsTo parser r state) (hheader : state ≠ .data) : r.current = none := by
  cases state with
  | id => exact h.1
  | size1 => exact h.1
  | size2 => exact h.1
  | size3 => exact h.1
  | data => exact absurd rfl hheader

theorem ReadsTo.seen_eq {parser : Parser} {r : Reader} {state : ComState}
    (h : ReadsTo parser r state) (hheader : state ≠ .data) : r.seen = r.frames := by
  simp [Reader.seen, h.current_eq_none hheader]

/-- In the data of a command a frame is open. -/
theorem Reads.current_eq {parser : Parser} {frames : List Frame} {r : Reader}
    (h : Reads parser frames r) (hdata : parser.comState = .data) :
    ∃ f, r.current = some f ∧ f.id = parser.id ∧ f.size = parser.totalSize := by
  have hstate := h.state
  rw [hdata] at hstate
  obtain ⟨full, f, rfl, hid, hsize, hlength⟩ := hstate
  have hlacks := h.lacks hdata
  rw [Reader.file, if_neg (by omega)]
  exact ⟨f, rfl, hid, hsize⟩

/-- The reader once the header has ended, before any data. -/
def opened (r : Reader) (parser : Parser) : Reader :=
  Reader.file r.frames ⟨parser.id, parser.totalSize, []⟩

/-- A byte of the header: the header goes on, or ends. -/
theorem ReadsTo.feed {parser : Parser} {r : Reader} (h : ReadsTo parser r parser.comState)
    (hheader : parser.comState ≠ .data) (b : Byte) :
    (parser.pickField b).comState.rank = parser.comState.rank + 1 ∧
      if (parser.pickField b).comState = .data then
        (parser.pickField b).bytesProcessed = 0 ∧ r.feed b = opened r (parser.pickField b)
      else
        ReadsTo (parser.pickField b) (r.feed b) (parser.pickField b).comState ∧
          (r.feed b).frames = r.frames := by
  obtain ⟨state, id, totalSize, processed⟩ := parser
  cases state with
  | data => exact absurd rfl hheader
  | id =>
      obtain ⟨hnone, hnil⟩ := h
      simp [Parser.pickField, ComState.rank, ReadsTo, Reader.feed, hnone, hnil]
  | size1 =>
      obtain ⟨hnone, hbytes⟩ := h
      simp [Parser.pickField, ComState.rank, ReadsTo, Reader.feed, hnone, hbytes]
  | size2 =>
      obtain ⟨hnone, low, hbytes, hlow⟩ := h
      obtain rfl : totalSize = low.toNat := hlow
      simp [Parser.pickField, ComState.rank, ReadsTo, Reader.feed, hnone, hbytes]
  | size3 =>
      obtain ⟨hnone, low, mid, hbytes, hmid⟩ := h
      obtain rfl : totalSize = low.toNat ||| mid.toNat <<< 8 := hmid
      simp [Parser.pickField, ComState.rank, Reader.feed, hnone, hbytes, opened, sizeOf_eq]

theorem Cursor.next_eq {c : Cursor} (hpos : c.lenght ≠ 0) (hle : c.lenght ≤ 255) :
    c.next = ⟨c.data.drop 1, c.lenght - 1⟩ := by
  rw [Cursor.next, List.drop_one, show (c.lenght + 255) % 256 = c.lenght - 1 by omega]

theorem take_succ_eq {c : Cursor} (hdata : c.lenght ≤ c.data.length) (hpos : c.lenght ≠ 0)
    (k : ℕ) : c.data.take (k + 1) = c.byte :: (c.data.drop 1).take k := by
  cases hc : c.data with
  | nil => simp [hc] at hdata; exact absurd hdata hpos
  | cons b rest => simp [Cursor.byte, hc]

/-- What reading a header leaves, `k` bytes on: the packet is used up, or the
header has ended. -/
structure HeaderRead (r : Reader) (c : Cursor) (k : ℕ) (x : Parser × Cursor) : Prop where
  le : k ≤ c.lenght
  cursor : x.2 = ⟨c.data.drop k, c.lenght - k⟩
  before : ∀ i < k, (r.feedAll (c.data.take i)).frames = r.frames
  result :
    if x.1.comState = .data then
      x.1.bytesProcessed = 0 ∧ r.feedAll (c.data.take k) = opened r x.1
    else
      x.2.lenght = 0 ∧ ReadsTo x.1 (r.feedAll (c.data.take k)) x.1.comState ∧
        (r.feedAll (c.data.take k)).frames = r.frames

theorem pickFields_read {n : ℕ} {parser : Parser} {r : Reader} {c : Cursor}
    (h : ReadsTo parser r parser.comState) (hheader : parser.comState ≠ .data)
    (hn : 4 ≤ parser.comState.rank + n) (hle : c.lenght ≤ 255)
    (hdata : c.lenght ≤ c.data.length) :
    ∃ k, (c.lenght ≠ 0 → 0 < k) ∧ HeaderRead r c k (pickFields n (parser, c)) := by
  induction n generalizing parser r c with
  | zero => cases hstate : parser.comState <;> simp [hstate, ComState.rank] at hn hheader
  | succ n ih =>
      by_cases hpos : c.lenght = 0
      · have hstop : pickFields (n + 1) (parser, c) = (parser, c) := by
          rw [pickFields, if_neg fun hpick => hpick.2 hpos]
        rw [hstop]
        refine ⟨0, fun hne => absurd hpos hne, ⟨Nat.zero_le _, rfl, fun _ hi => ?_, ?_⟩⟩
        · omega
        · rw [if_neg hheader]
          exact ⟨hpos, h, rfl⟩
      · have hpick : pickFields (n + 1) (parser, c) =
            pickFields n (parser.pickField c.byte, c.next) := by
          rw [pickFields, if_pos ⟨hheader, hpos⟩]
        obtain ⟨hrank, hfeed⟩ := h.feed hheader c.byte
        have hnext := Cursor.next_eq hpos hle
        have htake := take_succ_eq hdata hpos
        rw [hpick]
        by_cases hend : (parser.pickField c.byte).comState = .data
        · rw [if_pos hend] at hfeed
          have hstop : pickFields n (parser.pickField c.byte, c.next) =
              (parser.pickField c.byte, c.next) := by
            cases n with
            | zero => rfl
            | succ n => rw [pickFields, if_neg (by simp [hend])]
          refine ⟨1, fun _ => Nat.one_pos, ⟨Nat.one_le_iff_ne_zero.mpr hpos, ?_, ?_, ?_⟩⟩
          · rw [hstop, hnext]
          · intro i hi
            obtain rfl : i = 0 := by omega
            rfl
          · rw [hstop, if_pos hend, htake 0]
            exact ⟨hfeed.1, by simpa using hfeed.2⟩
        · rw [if_neg hend] at hfeed
          obtain ⟨k, -, hread⟩ := ih (c := c.next) hfeed.1 hend (by omega)
            (by rw [hnext]; simp only; omega) (by rw [hnext]; simp; omega)
          rw [hnext] at hread ⊢
          have hk := hread.le
          simp only at hk
          have hfeedAll : ∀ k, r.feedAll (c.data.take (k + 1)) =
              (r.feed c.byte).feedAll ((c.data.drop 1).take k) := fun k => by
            rw [htake, Reader.feedAll_cons]
          refine ⟨k + 1, fun _ => Nat.succ_pos _, ⟨by omega, ?_, ?_, ?_⟩⟩
          · rw [hread.cursor]
            simp only [List.drop_drop, Cursor.mk.injEq]
            exact ⟨by rw [Nat.add_comm], by omega⟩
          · intro i hi
            cases i with
            | zero => rfl
            | succ i => rw [hfeedAll, hread.before i (by omega), hfeed.2]
          · have hresult := hread.result
            rw [hfeedAll]
            split_ifs at hresult ⊢ with hdone
            · rw [opened, hfeed.2] at hresult
              exact hresult
            · rw [hfeed.2] at hresult
              exact hresult

/-! ## The data -/

/-- What the data part of a pass takes. -/
theorem takeData_eq {first : Bool} {parser : Parser} {c : Cursor}
    (hstate : parser.comState = .data) :
    let d := min c.lenght (parser.totalSize - parser.bytesProcessed)
    (takeData first parser c).cursor = ⟨c.data, c.lenght - d⟩ ∧
      (∃ received, (takeData first parser c).call =
        some ⟨first, parser.id, parser.totalSize, received, c.data.take d⟩) ∧
      (takeData first parser c).parser =
        if c.lenght < parser.totalSize - parser.bytesProcessed then
          { parser with bytesProcessed := parser.bytesProcessed + d }
        else { parser with bytesProcessed := parser.totalSize, comState := .id } := by
  by_cases hlt : c.lenght < parser.totalSize - parser.bytesProcessed
  · simp only [takeData, if_pos hstate, if_pos hlt, min_eq_left hlt.le, Nat.sub_self]
    exact ⟨trivial, ⟨_, rfl⟩, trivial⟩
  · simp only [takeData, if_pos hstate, if_neg hlt, min_eq_right (not_lt.mp hlt)]
    exact ⟨trivial, ⟨_, rfl⟩, trivial⟩

theorem Reader.frames_file_of_lt {frames : List Frame} {f : Frame} (h : f.data.length < f.size) :
    (Reader.file frames f).frames = frames := by
  rw [Reader.file, if_neg h.ne]

/-- What a pass does to the reader, `k` bytes on. -/
structure PassRead (r : Reader) (c : Cursor) (parser : Parser) (pass : Pass) (k : ℕ) : Prop where
  pos : 0 < k
  le : k ≤ c.lenght
  lenght : pass.cursor.lenght = c.lenght - k
  reads : Reads pass.parser (addPass r.seen pass.call) (r.feedAll (c.data.take k))
  before : ∀ i < k, (r.feedAll (c.data.take i)).frames = r.frames
  rest : pass.cursor.lenght ≠ 0 → pass.parser.comState = .id ∧
    ∃ f, (r.feedAll (c.data.take k)).frames = r.frames ++ [f] ∧
      pass.cursor.data = c.data.drop (k - min f.data.length k) ∧
      (parser.comState = .id → f.data.length ≤ k)

/-- The data part of a pass, `h` bytes after its beginning. -/
theorem takeData_read {r : Reader} {c : Cursor} {parser₀ parser : Parser} {f : Frame} {h : ℕ}
    {first : Bool} (hdata : c.lenght ≤ c.data.length) (hle : h ≤ c.lenght)
    (hbefore : ∀ i < h, (r.feedAll (c.data.take i)).frames = r.frames)
    (hreader : r.feedAll (c.data.take h) = Reader.file r.frames f)
    (hstate : parser.comState = .data) (hid : f.id = parser.id)
    (hsize : f.size = parser.totalSize) (hlength : f.data.length = parser.bytesProcessed)
    (hfits : parser.bytesProcessed ≤ parser.totalSize)
    (hpos : 0 < h ∨ 0 < c.lenght ∧ parser.bytesProcessed < parser.totalSize)
    (hseen : ∀ received data, addCall r.seen ⟨first, parser.id, parser.totalSize, received, data⟩ =
      r.frames ++ [{ f with data := f.data ++ data }])
    (hwhole : parser₀.comState = .id → f.data = [])
    (hmin : f.data.length = 0 ∨ h = 0) :
    ∃ k, PassRead r c parser₀ (takeData first parser ⟨c.data.drop h, c.lenght - h⟩) k := by
  obtain ⟨hcursor, ⟨received, hcall⟩, hparser⟩ :=
    @takeData_eq first parser ⟨c.data.drop h, c.lenght - h⟩ hstate
  simp only at hcursor hcall hparser
  generalize hd : min (c.lenght - h) (parser.totalSize - parser.bytesProcessed) = d at *
  have htake : ∀ i, r.feedAll (c.data.take (h + i)) =
      (Reader.file r.frames f).feedAll ((c.data.drop h).take i) := fun i => by
    rw [List.take_add, Reader.feedAll_append, hreader]
  have hlen : ∀ i ≤ d, ((c.data.drop h).take i).length = i := fun i hi => by
    rw [List.length_take, List.length_drop]
    omega
  have hread : ∀ i ≤ d, r.feedAll (c.data.take (h + i)) =
      Reader.file r.frames { f with data := f.data ++ (c.data.drop h).take i } := fun i hi => by
    rw [htake, Reader.feedAll_data]
    rw [hlen i hi]
    omega
  have hcount := hlen d le_rfl
  refine ⟨h + d, ⟨by omega, by omega, ?_, ?_, ?_, ?_⟩⟩
  · rw [hcursor]
    simp only
    omega
  · rw [hread d le_rfl, hcall]
    refine ⟨?_, ?_, ?_⟩
    · rw [Reader.seen_file]
      exact (hseen _ _).symm
    · rw [hparser]
      split_ifs with hlt
      · simp only [hstate, ReadsTo]
        exact ⟨_, _, rfl, hid, hsize, by simp [hlength, hcount]⟩
      · simp only [ReadsTo]
        rw [Reader.file, if_pos (by simp; omega)]
        exact ⟨rfl, rfl⟩
    · rw [hparser]
      split_ifs with hlt
      · intro _
        simp only
        omega
      · intro hdone
        simp at hdone
  · intro i hi
    rcases Nat.lt_or_ge i h with hlow | hhigh
    · exact hbefore i hlow
    · obtain ⟨j, rfl⟩ := Nat.exists_eq_add_of_le hhigh
      rw [hread j (by omega), Reader.frames_file_of_lt]
      simp only [List.length_append, hlen j (by omega)]
      omega
  · intro hrest
    rw [hcursor] at hrest ⊢
    simp only at hrest
    have hdone : ¬ c.lenght - h < parser.totalSize - parser.bytesProcessed := by omega
    refine ⟨by rw [hparser, if_neg hdone], { f with data := f.data ++ (c.data.drop h).take d },
      ?_, ?_, fun hstart => ?_⟩
    · rw [hread d le_rfl, Reader.file, if_pos (by simp; omega)]
    · simp only [List.length_append, hcount]
      congr 1
      omega
    · simp only [hwhole hstart, List.nil_append, hcount]
      omega

/-- A pass feeds the reader what its pointer points to. -/
theorem pass_read {r : Reader} {c : Cursor} {parser : Parser} {frames : List Frame}
    (hreads : Reads parser frames r) (hpos : c.lenght ≠ 0) (hle : c.lenght ≤ 255)
    (hdata : c.lenght ≤ c.data.length) : ∃ k, PassRead r c parser (parser.pass c) k := by
  rw [Parser.pass, readHeader_eq hpos]
  by_cases hstate : parser.comState = .data
  · have hstay : pickFields 4 (parser, c) = (parser, c) := by
      rw [pickFields, if_neg fun hpick => hpick.1 hstate]
    rw [hstay]
    have hlacks := hreads.lacks hstate
    have hf := hreads.state
    rw [hstate] at hf
    obtain ⟨full, f, rfl, hid, hsize, hlength⟩ := hf
    have hframes : (Reader.file full f).frames = full :=
      Reader.frames_file_of_lt (by omega)
    refine takeData_read (h := 0) (f := f) hdata (Nat.zero_le _) (fun i hi => by omega) ?_ hstate
      hid hsize hlength hlacks.le (Or.inr ⟨by omega, hlacks⟩) (fun _ data => ?_) (fun hid => ?_)
      (Or.inr rfl)
    · rw [hframes]
      rfl
    · rw [Reader.seen_file, hframes, addCall, if_neg (by simp [hstate]), extendLast_concat]
    · rw [hstate] at hid
      cases hid
  · obtain ⟨h, hh, hread⟩ := pickFields_read hreads.state hstate (Nat.le_add_left 4 _) hle hdata
    generalize pickFields 4 (parser, c) = x at hread ⊢
    obtain ⟨parser', c'⟩ := x
    obtain rfl : c' = _ := hread.cursor
    have hseen := hreads.state.seen_eq hstate
    have hresult := hread.result
    simp only at hresult ⊢
    split_ifs at hresult with hdone
    · refine takeData_read (f := ⟨parser'.id, parser'.totalSize, []⟩) hdata hread.le hread.before
        hresult.2 hdone rfl rfl hresult.1.symm (by omega) (Or.inl (hh hpos)) (fun _ data => ?_)
        (fun _ => rfl) (Or.inl rfl)
      rw [addCall, if_pos (by simp [hstate]), hseen, List.nil_append]
    · rw [takeData, if_neg hdone]
      refine ⟨h, ⟨hh hpos, hread.le, rfl, ⟨?_, hresult.2.1, fun h => absurd h hdone⟩,
        hread.before, fun hrest => absurd hresult.1 hrest⟩⟩
      rw [addPass, hresult.2.1.seen_eq hdone, hresult.2.2, hseen]

/-! ## The call of a pass -/

/-- A call carries the header of the command, and is the first one of its command
if the header has just ended. -/
theorem pass_call {parser : Parser} {c : Cursor} {call : Call}
    (h : (parser.pass c).call = some call) : call.first = decide (parser.comState ≠ .data) ∧
      call.id = (parser.pass c).parser.id ∧
      call.totalSize = (parser.pass c).parser.totalSize := by
  unfold Parser.pass at h ⊢
  generalize readHeader parser c = x at h ⊢
  obtain ⟨parser', c'⟩ := x
  simp only at h ⊢
  by_cases hstate : parser'.comState = .data
  · obtain ⟨-, ⟨_, hcall⟩, hparser⟩ :=
      @takeData_eq (decide (parser.comState ≠ .data)) parser' c' hstate
    rw [hcall] at h
    obtain rfl := Option.some.inj h
    rw [hparser]
    refine ⟨rfl, ?_, ?_⟩
    · split_ifs <;> rfl
    · split_ifs <;> rfl
  · rw [takeData, if_neg hstate] at h
    cases h

/-- In the data of a command every pass makes a call, and keeps the header. -/
theorem pass_call_of_data {parser : Parser} {c : Cursor} (h : parser.comState = .data) :
    (∃ call, (parser.pass c).call = some call) ∧ (parser.pass c).parser.id = parser.id ∧
      (parser.pass c).parser.totalSize = parser.totalSize := by
  have hheader : readHeader parser c = (parser, c) := by
    simp [readHeader, readId, readSize1, readSize2, readSize3, h]
  rw [Parser.pass, hheader]
  obtain ⟨-, ⟨_, hcall⟩, hparser⟩ :=
    @takeData_eq (decide (parser.comState ≠ .data)) parser c h
  simp only at hparser ⊢
  rw [hparser]
  refine ⟨⟨_, hcall⟩, ?_, ?_⟩
  · split_ifs <;> rfl
  · split_ifs <;> rfl

end PasswordWallet
