import PasswordWallet.Communication.Replies
import PasswordWallet.Proofs.MemoryPatch

/-!
# A session of `transfer_fram`

The program of the host together with the device at the other end of the line.  What the
host writes comes to the device cut into packets, all of it or a first part, and what the
device has sent by then comes to the host cut into reads; a `Line` says how, and where the
port times out in writing or in reading.  It may depend on the session, which has the log
of all that went before, so one line stands for any sequence of choices.

The session is a program over the device's own state, so that the rules for the firmware
apply to it.  Each reply is read to its end before the next command is written; what a
`Line` leaves unsent or unread ends the session.  The packets of one command follow each
other before the device's own timer runs out.
-/

namespace PasswordWallet

open PowerLoss Framing Patching

/-! ## The line -/

/-- The bytes that go out with an event. -/
def Event.wire : Event → List Byte
  | .header id size => id :: sizeBytes size
  | .payload _ bytes _ => bytes
  | _ => []

/-- The bytes that have gone out. -/
def wire : List Event → List Byte
  | [] => []
  | event :: earlier => wire earlier ++ event.wire

/-- How the bytes arrive at either end. -/
structure Line where
  /-- Before the port gives up writing. -/
  packets : Session → List Byte → List (List Byte)
  flatten_packets : ∀ s command, (packets s command).flatten <+: command
  length_packet : ∀ s command, ∀ packet ∈ packets s command,
    packet ≠ [] ∧ packet.length ≤ 255
  /-- What `waitForBytesWritten` returns. -/
  bytesWritten : Session → List Byte → Bool
  /-- Before the port times out. -/
  reads : Session → List Byte → List (List Byte)
  flatten_reads : ∀ s reply, (reads s reply).flatten <+: reply

/-- Nothing is lost. -/
structure Line.Complete (line : Line) : Prop where
  packets : ∀ s command, (line.packets s command).flatten = command
  bytesWritten : ∀ s command, line.bytesWritten s command = true
  reads : ∀ s reply, (line.reads s reply).flatten = reply

/-- `waitForReadyRead` and `readAll`, until there are `num` bytes in `out`: these, and the
reads that are left, or `none` after a timeout. -/
def readUntil (num : ℕ) : (out : List Byte) → List (List Byte) →
    Option (List Byte × List (List Byte))
  | out, reads =>
      if num ≤ out.length then some (out, reads)
      else match reads with
        | [] => none
        | r :: reads => readUntil num (out ++ r) reads

/-- `read`. -/
def read (num : ℕ) (reads : List (List Byte)) : Option (List Byte) :=
  (readUntil num [] reads).map Prod.fst

/-! ## Replies -/

/-- The size in the header of a reply; a `char` has a sign. -/
def framSize (data : List Byte) : ℕ :=
  ((data.getD 3 0).signExtend 32 <<< 16 ||| (data.getD 2 0).signExtend 32 <<< 8 |||
    (data.getD 1 0).signExtend 32).toNat

/-- What `get_fram` makes of the reply: an empty array if it is not what was expected. -/
def framOfReply (reads : List (List Byte)) : List Byte :=
  match readUntil 4 [] reads with
  | none => []
  | some (data, reads) =>
      if data.getD 0 0 ≠ comFram then []
      else match readUntil (framSize data) (data.drop 4) reads with
        | none => []
        | some (data', _) => data'.take (framSize data)

/-- What `send_slice` makes of the reply. -/
def replyIsOk (reads : List (List Byte)) : Bool :=
  match read 4 reads with
  | none => false
  | some rep => rep.getD 0 0 = comOk

/-! ## The program -/

/-- How the program ends. -/
inductive Ending
  /-- "Writing timed out." -/
  | writingTimedOut
  /-- "Reading timed out." -/
  | readingTimedOut
  /-- "Access denied." -/
  | denied
  /-- "Unexpected data." -/
  | unexpected
  /-- "Unable to create .fram.backup" -/
  | noBackup
  /-- "No update required." -/
  | upToDate
  /-- A slice could not be written: it timed out, or the reply is not `COM_OK`. -/
  | notSent
  /-- "Size mismatch." -/
  | sizeMismatch
  | different (mismatch : ℕ)
  /-- "Memory successfuly written" -/
  | written
  deriving DecidableEq

/-- What the program leaves: the content of `.fram.backup`, if it has been written, and its
last message. -/
structure Result where
  backup : Option (List Byte)
  ending : Ending
  deriving DecidableEq

instance : DecidablePred InEntropyPool := fun i =>
  inferInstanceAs (Decidable (offsetEntropyPool ≤ i ∧ i < offsetEntropyPool + sizeEntropyPool))

/-- The comparison behind "Veririfying memory.", which passes over the whole pool. -/
def verify (mem newMemDevice : List Byte) : Ending :=
  if mem.length ≠ newMemDevice.length then .sizeMismatch
  else
    let mismatch := ((List.range mem.length).filter fun i =>
      ¬ InEntropyPool i ∧ mem[i]? ≠ newMemDevice[i]?).length
    if mismatch ≠ 0 then .different mismatch else .written

section Program

variable (t : Target) (env : Env) (line : Line)

/-- `serial.write`, and what arrives in return, or `none` if writing times out. -/
def exchange (command : List Byte) : Com (Option (List (List Byte))) := do
  let before ← Program.ram
  receive (comExec t env) (comAbort env) (line.packets before command)
  let after ← Program.ram
  let reply := (wire after.log).drop (wire before.log).length
  pure (if line.bytesWritten before command then some (line.reads after reply) else none)

/-- A command without data. -/
def bareCommand (id : Byte) : Frame := ⟨id, 0, []⟩

/-- `get_fram`. -/
def getFram : Com (List Byte) := do
  let reply ← exchange t env line (bareCommand comGetFram).bytes
  pure ((reply.map framOfReply).getD [])

/-- `send_slice`, for the commands of all slices; the first that fails is the last. -/
def sendCommands : List Frame → Com Bool
  | [] => pure true
  | command :: rest => do
      let reply ← exchange t env line command.bytes
      if reply.any replyIsOk then sendCommands rest else pure false

/-- What follows the backup.  An index of `diff` that is out of range would end the
program. -/
def update (memDevice mem : List Byte) : Com Ending :=
  match diff memDevice mem with
  | none => Program.hang
  | some slices =>
      if slices = [] then pure .upToDate
      else do
        let sent ← sendCommands t env line (patchCommands slices)
        if sent then do
          let newMemDevice ← getFram t env line
          pure (verify mem newMemDevice)
        else pure .notSent

/-- What follows the answer to `COM_INIT`; `backupOpens` says whether `.fram.backup` can be
opened. -/
def transferAccepted (backupOpens : Bool) (mem : List Byte) : Com Result := do
  let memDevice ← getFram t env line
  if backupOpens then do
    let ending ← update t env line memDevice mem
    pure ⟨some memDevice, ending⟩
  else pure ⟨none, .noBackup⟩

/-- `main`, from the connection on; `mem` is the content of the file. -/
def transferFram (backupOpens : Bool) (mem : List Byte) : Com Result := do
  let reply ← exchange t env line (bareCommand comInit).bytes
  match reply with
  | none => pure ⟨none, .writingTimedOut⟩
  | some reads =>
      match read 4 reads with
      | none => pure ⟨none, .readingTimedOut⟩
      | some received =>
          if received.getD 0 0 = comOk then transferAccepted t env line backupOpens mem
          else pure ⟨none, if received.getD 0 0 = comEnd then .denied else .unexpected⟩

end Program

end PasswordWallet
