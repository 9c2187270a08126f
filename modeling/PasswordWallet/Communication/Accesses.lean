import PasswordWallet.Communication.Position

/-!
# Where the parser reads

`com_process_data` along a run, for the places of the packet that it goes to:
`pick` reads a byte at the pointer, and `com_exec` is given the bytes from the
pointer on.  A place is an offset from the first byte of the packet.  `Scan`
follows the pointer and the count through the header of a pass; that it follows
the passes of `Communication/Process.lean` is `Scan.Follows`.
-/

namespace PasswordWallet

open PowerLoss

inductive Access
  /-- `pick` reads the byte at this offset; so many are left of the packet before
  it does. -/
  | pick (offset left : ℕ)
  /-- `CURRENT_COMMAND.data` and `availableSize`, as `com_exec` gets them. -/
  | present (offset size : ℕ)
  deriving DecidableEq

/-- The access stays in a packet of this size, and takes nothing from a packet that
is used up. -/
def Access.Inside (size : ℕ) : Access → Prop
  | .pick offset left => offset < size ∧ left ≠ 0
  | .present offset count => offset + count ≤ size

/-! ## The header -/

/-- Where a pass is in the packet, and what it has read. -/
structure Scan where
  comState : ComState
  offset : ℕ
  lenght : ℕ
  accesses : List Access

/-- `pick`, and `++com_state`. -/
def Scan.pick (x : Scan) (next : ComState) : Scan :=
  ⟨next, x.offset + 1, (x.lenght + 255) % 256, x.accesses ++ [.pick x.offset x.lenght]⟩

/-- The field of the id, which is read whatever is left. -/
def Scan.id (x : Scan) : Scan := if x.comState = .id then x.pick .size1 else x

/-- A field of the size. -/
def Scan.size (x : Scan) (field next : ComState) : Scan :=
  if x.comState = field ∧ x.lenght ≠ 0 then x.pick next else x

def Scan.header (x : Scan) : Scan :=
  ((x.id.size .size1 .size2).size .size2 .size3).size .size3 .data

/-- The header of a pass that starts at `offset`. -/
def Parser.scan (parser : Parser) (offset lenght : ℕ) : Scan :=
  (⟨parser.comState, offset, lenght, []⟩ : Scan).header

/-- The scan is where the pass is. -/
structure Scan.Follows (memory : List Byte) (x : Scan) (y : Parser × Cursor) : Prop where
  comState : x.comState = y.1.comState
  cursor : y.2 = ⟨memory.drop x.offset, x.lenght⟩

section Follows

variable {memory : List Byte} {x : Scan} {y : Parser × Cursor}

theorem Scan.Follows.pick (h : x.Follows memory y) {parser : Parser} {next : ComState}
    (hstate : parser.comState = next) : (x.pick next).Follows memory (parser, y.2.next) := by
  refine ⟨hstate.symm, ?_⟩
  rw [h.cursor]
  simp [Cursor.next, Scan.pick]

theorem Scan.Follows.id (h : x.Follows memory y) : x.id.Follows memory (readId y) := by
  obtain ⟨parser, c⟩ := y
  have hstate : x.comState = parser.comState := h.comState
  unfold Scan.id readId
  simp only [hstate]
  split_ifs
  · exact h.pick rfl
  · exact h

/-- A field of the size, for any parser that the field leaves. -/
theorem Scan.Follows.size (h : x.Follows memory y) {field next : ComState} {parser : Parser}
    (hstate : parser.comState = next) :
    (x.size field next).Follows memory
      (if y.1.comState = field ∧ y.2.lenght ≠ 0 then (parser, y.2.next) else y) := by
  have hlenght : y.2.lenght = x.lenght := by rw [h.cursor]
  unfold Scan.size
  rw [h.comState, hlenght]
  split_ifs
  · exact h.pick hstate
  · exact h

theorem Scan.Follows.header (h : x.Follows memory y) :
    x.header.Follows memory (readSize3 (readSize2 (readSize1 (readId y)))) := by
  have hsize1 : (x.id.size .size1 .size2).Follows memory (readSize1 (readId y)) :=
    h.id.size rfl
  have hsize2 : ((x.id.size .size1 .size2).size .size2 .size3).Follows memory
      (readSize2 (readSize1 (readId y))) := hsize1.size rfl
  exact hsize2.size rfl

end Follows

theorem Parser.scan_follows (memory : List Byte) (parser : Parser) (offset lenght : ℕ) :
    (parser.scan offset lenght).Follows memory
      (readHeader parser ⟨memory.drop offset, lenght⟩) :=
  Scan.Follows.header ⟨rfl, rfl⟩

/-! ## A pass -/

/-- `availableSize`. -/
def Parser.availableSize (parser : Parser) (lenght : ℕ) : ℕ :=
  if lenght < parser.totalSize - parser.bytesProcessed then lenght
  else parser.totalSize - parser.bytesProcessed

/-- The accesses of a pass. -/
def Parser.accesses (parser : Parser) (memory : List Byte) (offset lenght : ℕ) : List Access :=
  let x := parser.scan offset lenght
  let parser' := (readHeader parser ⟨memory.drop offset, lenght⟩).1
  if x.comState = .data then x.accesses ++ [.present x.offset (parser'.availableSize x.lenght)]
  else x.accesses

/-- `com_exec` is given what the pass presents. -/
theorem present_mem_accesses {parser : Parser} {memory : List Byte} {offset lenght : ℕ}
    {call : Call} (h : (parser.pass ⟨memory.drop offset, lenght⟩).call = some call) :
    ∃ start size, .present start size ∈ parser.accesses memory offset lenght ∧
      call.data = (memory.drop start).take size := by
  have hfollows := parser.scan_follows memory offset lenght
  unfold Parser.pass at h
  unfold Parser.accesses
  generalize readHeader parser ⟨memory.drop offset, lenght⟩ = y at h hfollows ⊢
  obtain ⟨parser', c⟩ := y
  obtain rfl : c = _ := hfollows.cursor
  have hstate : (parser.scan offset lenght).comState = parser'.comState := hfollows.comState
  simp only [takeData, hstate] at h ⊢
  split_ifs at h ⊢ with hdata hshort
  · refine ⟨_, _, List.mem_append_right _ (List.mem_singleton.mpr rfl), ?_⟩
    rw [← Option.some.inj h, Parser.availableSize, if_pos hshort]
  · refine ⟨_, _, List.mem_append_right _ (List.mem_singleton.mpr rfl), ?_⟩
    rw [← Option.some.inj h, Parser.availableSize, if_neg hshort]

/-! ## A run -/

/-- How the loop ends: with so many bytes left; not at all, since the program waits
in a command for ever; or it is still running. -/
inductive Outcome
  | ended (lenght : ℕ)
  | waits
  | running
  deriving DecidableEq

section Run

variable (exec : List Byte → Com Unit) (abort : Com Unit) (memory : List Byte)

/-- The accesses of the loop, in order, and how it ends. -/
def loopAccesses : ℕ → ℕ → ℕ → Image → Session → List Access × Outcome
  | 0, _, _, _, _ => ([], .running)
  | fuel + 1, offset, lenght, p, s =>
      let reads := s.parser.accesses memory offset lenght
      match processPass exec ⟨memory.drop offset, lenght⟩ p s with
      | ⟨_, _, none⟩ => (reads, .waits)
      | ⟨trace, s', some c⟩ =>
          if c.lenght = 0 then (reads, .ended c.lenght)
          else
            let rest := loopAccesses fuel (s.parser.scan offset lenght).offset c.lenght
              (replay p trace) s'
            (reads ++ rest.1, rest.2)

/-- The accesses of `com_process_data`, on a packet that stands at the beginning of
`memory`. -/
def processAccesses (lenght : ℕ) (p : Image) (s : Session) : List Access × Outcome :=
  match abortLate abort p s with
  | ⟨_, _, none⟩ => ([], .waits)
  | ⟨trace, s', some _⟩ =>
      loopAccesses exec memory passes 0 lenght (replay p trace) { s' with timedOut := false }

end Run

/-- All accesses stay in the packet, and the loop ends with no byte left, if the
commands come to their end. -/
structure InPacket (size : ℕ) (run : List Access × Outcome) : Prop where
  inside : ∀ access ∈ run.1, access.Inside size
  ends : run.2 ≠ .running
  remaining : ∀ lenght, run.2 = .ended lenght → lenght = 0

/-- The accesses of `com_process_data`, with the commands of the device. -/
def comProcessAccesses (t : Target) (env : Env) (memory : List Byte) (lenght : ℕ) (p : Image)
    (s : Session) : List Access × Outcome :=
  processAccesses (comExec t env) (comAbort env) memory lenght p s

/-! ## The run that the accesses are those of -/

section Run

variable {exec : List Byte → Com Unit} {abort : Com Unit} {memory : List Byte} {p : Image}
  {s : Session}

/-- A pass leaves the cursor where its parser puts it. -/
theorem processPass_cursor {c c' : Cursor} {p' : Image} {s' : Session}
    (h : Completes (processPass exec c) p s c' p' s') : c' = (s.parser.pass c).cursor := by
  have hpass : wp (processPass exec c) (fun c' _ _ => c' = (s.parser.pass c).cursor)
      (fun _ _ => True) (fun _ _ => True) p s := by
    simp only [processPass, wp_bind, wp_noteStart, wp_ram, wp_modifySession, wp_pure,
      Session.noted_parser]
    exact wp_always _ (fun _ _ _ => trivial) fun _ _ => trivial
  exact wp_completes hpass h

/-- The pass goes on where the scan of its header ends. -/
theorem pass_cursor {parser : Parser} {offset lenght : ℕ} :
    ∃ left, (parser.pass ⟨memory.drop offset, lenght⟩).cursor =
      ⟨memory.drop (parser.scan offset lenght).offset, left⟩ := by
  have hfollows := parser.scan_follows memory offset lenght
  rw [Parser.pass]
  generalize readHeader parser ⟨memory.drop offset, lenght⟩ = y at hfollows ⊢
  obtain ⟨parser', c⟩ := y
  obtain rfl : c = _ := hfollows.cursor
  simp only [takeData]
  split_ifs
  · exact ⟨_, rfl⟩
  · exact ⟨_, rfl⟩
  · exact ⟨_, rfl⟩

/-- The loop ends in the accesses if it ends in the program. -/
theorem loopAccesses_ended_iff {fuel offset lenght : ℕ} :
    (∃ left, (loopAccesses exec memory fuel offset lenght p s).2 = .ended left) ↔
      ((processLoop exec fuel ⟨memory.drop offset, lenght⟩) p s).result = some () := by
  induction fuel generalizing offset lenght p s with
  | zero => simp [loopAccesses, processLoop, Program.hang]
  | succ fuel ih =>
      rw [loopAccesses, processLoop]
      show _ ↔ (Program.bind _ _ p s).result = some ()
      unfold Program.bind
      cases hrun : processPass exec ⟨memory.drop offset, lenght⟩ p s with
      | mk trace s' result =>
          cases result with
          | none => simp
          | some c =>
              obtain ⟨left, hcursor⟩ := @pass_cursor memory s.parser offset lenght
              have hc := processPass_cursor (show Completes (processPass exec
                ⟨memory.drop offset, lenght⟩) p s c (replay p trace) s' from
                  ⟨by rw [hrun], by rw [hrun], by rw [hrun]⟩)
              rw [hcursor] at hc
              subst hc
              simp only
              by_cases hzero : left = 0
              · simp [hzero, pure]
              · simp [hzero, ih]

theorem processAccesses_ended_iff {lenght : ℕ} :
    (∃ left, (processAccesses exec abort memory lenght p s).2 = .ended left) ↔
      (processData exec abort memory lenght p s).result = some () := by
  rw [processAccesses, processData]
  show _ ↔ (Program.bind _ _ p s).result = some ()
  unfold Program.bind
  cases abortLate abort p s with
  | mk trace s' result =>
      cases result with
      | none => simp
      | some _ =>
          have hstart := @loopAccesses_ended_iff exec memory (replay p trace)
            { s' with timedOut := false } passes 0 lenght
          rw [List.drop_zero] at hstart
          simp only
          rw [hstart, bind_silent (show modifySession _ _ s' = ⟨[], _, some ()⟩ from rfl)]

end Run

end PasswordWallet
