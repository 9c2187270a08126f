import PasswordWallet.Communication.Commands

/-!
# The parser of the host's bytes

`com_process_data`.  A pass of its loop reads what there is of a header and then
what there is of the data, and calls `com_exec` with that.  The pointer into the
packet moves over the bytes of a header and not over data, only the count of the
bytes that are left does.
-/

namespace PasswordWallet

open PowerLoss

/-- The arguments of `com_process_data`: the memory from the pointer on, and how
many bytes of the packet are left. -/
structure Cursor where
  data : List Byte
  lenght : ℕ

/-- `*data`. -/
def Cursor.byte (c : Cursor) : Byte := c.data.headD 0

/-- What `pick` leaves; `lenght` has 8 bits. -/
def Cursor.next (c : Cursor) : Cursor := ⟨c.data.tail, (c.lenght + 255) % 256⟩

/-! ## The passes of the loop -/

def readId (x : Parser × Cursor) : Parser × Cursor :=
  match x with
  | (parser, c) =>
      if parser.comState = .id then ({ parser with id := c.byte, comState := .size1 }, c.next)
      else (parser, c)

def readSize1 (x : Parser × Cursor) : Parser × Cursor :=
  match x with
  | (parser, c) =>
      if parser.comState = .size1 ∧ c.lenght ≠ 0 then
        ({ parser with totalSize := c.byte.toNat, comState := .size2 }, c.next)
      else (parser, c)

def readSize2 (x : Parser × Cursor) : Parser × Cursor :=
  match x with
  | (parser, c) =>
      if parser.comState = .size2 ∧ c.lenght ≠ 0 then
        ({ parser with
            totalSize := parser.totalSize ||| c.byte.toNat <<< 8, comState := .size3 }, c.next)
      else (parser, c)

def readSize3 (x : Parser × Cursor) : Parser × Cursor :=
  match x with
  | (parser, c) =>
      if parser.comState = .size3 ∧ c.lenght ≠ 0 then
        ({ parser with
            totalSize := parser.totalSize ||| c.byte.toNat <<< 16
            bytesProcessed := 0
            comState := .data }, c.next)
      else (parser, c)

def readHeader (parser : Parser) (c : Cursor) : Parser × Cursor :=
  readSize3 (readSize2 (readSize1 (readId (parser, c))))

/-- What a pass leaves, and the call of `com_exec` that it makes. -/
structure Pass where
  parser : Parser
  cursor : Cursor
  call : Option Call

/-- The data part of a pass. -/
def takeData (first : Bool) (parser : Parser) (c : Cursor) : Pass :=
  if parser.comState = .data then
    let remaining := parser.totalSize - parser.bytesProcessed
    if c.lenght < remaining then
      { parser := { parser with bytesProcessed := parser.bytesProcessed + c.lenght }
        cursor := { c with lenght := 0 }
        call := some ⟨first, parser.id, parser.totalSize, parser.bytesProcessed + c.lenght,
          c.data.take c.lenght⟩ }
    else
      { parser := { parser with bytesProcessed := parser.totalSize, comState := .id }
        cursor := { c with lenght := c.lenght - remaining }
        call := some ⟨first, parser.id, parser.totalSize, parser.totalSize,
          c.data.take remaining⟩ }
  else ⟨parser, c, none⟩

/-- One pass of the loop, up to the call of `com_exec`. -/
def Parser.pass (parser : Parser) (c : Cursor) : Pass :=
  match readHeader parser c with
  | (parser', c') => takeData (parser.comState ≠ .data) parser' c'

/-! ## The loop -/

section Loop

variable (exec : List Byte → Com Unit) (abort : Com Unit)

def callExec : Option Call → Com Unit
  | none => pure ()
  | some call => do
      modifySession fun s => s.emit (.exec call s.enabled)
      exec call.data

/-- A pass that starts with an id byte starts a command. -/
def noteStart : Com Unit := do
  let s ← Program.ram
  if s.parser.comState = .id then emit (.start s.comPos s.comParameter) else pure ()

/-- A pass, with the call of `com_exec`. -/
def processPass (c : Cursor) : Com Cursor := do
  noteStart
  let s ← Program.ram
  let pass := s.parser.pass c
  modifySession fun s => { s with parser := pass.parser }
  callExec exec pass.call
  pure pass.cursor

/-- `do … while(lenght)`. -/
def processLoop : ℕ → Cursor → Com Unit
  | 0, _ => Program.hang
  | fuel + 1, c => do
      let c' ← processPass exec c
      if c'.lenght = 0 then pure () else processLoop fuel c'

/-- A packet takes at most this many passes. -/
def passes : ℕ := 512

/-- A command that has not come to its end before the timeout is given up. -/
def abortLate : Com Unit := do
  let s ← Program.ram
  if s.timedOut = true ∧ s.parser.comState ≠ .id then do
    abort
    modifySession fun s => { s with parser := { s.parser with comState := .id } }
  else pure ()

/-- `com_process_data`, on the memory that its pointer points to. -/
def processData (data : List Byte) (lenght : ℕ) : Com Unit := do
  abortLate abort
  modifySession fun s => { s with timedOut := false }
  processLoop exec passes ⟨data, lenght⟩

end Loop

/-- `com_process_data`, with the commands of the device. -/
def comProcessData (t : Target) (env : Env) (data : List Byte) (lenght : ℕ) : Com Unit :=
  processData (comExec t env) (comAbort env) data lenght

/-- The session with the start of a command in its log, if one starts. -/
def Session.noted (s : Session) : Session :=
  if s.parser.comState = .id then s.emit (.start s.comPos s.comParameter) else s

@[simp] theorem Session.noted_parser (s : Session) : s.noted.parser = s.parser := by
  unfold Session.noted
  split_ifs <;> rfl

@[simp] theorem wp_noteStart {Q : Unit → Image → Session → Prop} {H : Image → Session → Prop}
    {C : Step Write → Image → Prop} {p : Image} {s : Session} :
    wp noteStart Q H C p s ↔ Q () p s.noted := by
  rw [noteStart, wp_bind, wp_ram, Session.noted]
  split_ifs
  · exact wp_emit _
  · exact wp_pure _

end PasswordWallet
