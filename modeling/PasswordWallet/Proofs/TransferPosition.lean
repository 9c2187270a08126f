import PasswordWallet.Communication.Transfer

/-!
# The position between commands, and the bounds of `KEY`

`COM_POS` is set back by the commands that move it and by an abort, and by nothing
else.  A full reset closes the gate and leaves it, and so the packets that are left
of a transfer no longer move it: it stays where it is, for the next command.  A user
who opens the gate in the middle of a transfer makes it lag behind as well.
Without these two, each command starts at its first byte.

`COM_SET_KEY` stores as many bytes as its header announces, wherever `KEY` ends.
-/

namespace PasswordWallet

open PowerLoss

/-- If the gate is neither opened nor fully reset in the middle of data that is
stored, then the position is at the beginning whenever the parser is between two
commands, and each command that was started began there. -/
theorem transfer_starts_clean (t : Target) :
    (∀ p s, Reachable t .unhurried p s → s.parser.comState = .id →
      s.comPos = 0 ∧ s.comParameter = 0) ∧
      ∀ s, Seen t .unhurried s → StartsClean s.log := by
  refine ⟨fun p s h hid => ?_, fun s h => h.traced.starts⟩
  have hcomPos := h.positioned.idle fun hstoring => by
    have hdata := hstoring.1
    rw [hid] at hdata
    cases hdata
  exact ⟨hcomPos, h.positioned.comParameter_eq_zero hcomPos⟩

/-! ## Concrete runs -/

theorem unhurried_patient : World.unhurried.grants .patient := by
  intro _ s hyes _ hdata
  rw [of_decide_eq_true hyes] at hdata
  cases hdata

/-- The first half of a `COM_SET_FRAM`. -/
def halfTransfer : List Byte := [0x20, 8, 0, 0, 0x00, 0x10, 0x00, 0xAA]

/-- It was started from the beginning. -/
theorem transfer_starts_clean_half :
    .start 0 0 ∈ (allowed ⟨.exact, .xorKey⟩ halfTransfer .zero .fresh).ram.log ∧
      StartsClean (allowed ⟨.exact, .xorKey⟩ halfTransfer .zero .fresh).ram.log :=
  ⟨by decide +kernel, (transfer_starts_clean ⟨.exact, .xorKey⟩).2 _
    ⟨_, _, _, .boot _ _, background_allowed unhurried_patient (by decide) (by decide), rfl⟩⟩

/-- A packet arrives while the screen of a `COM_INIT` is shown, and the user says yes. -/
def Env.hurried (t : Target) (packet : List Byte) : Env where
  poll _ := pure ()
  screen := packetIn t packet
  answer _ _ := true
  framId := Vector.replicate 4 0

/-- The user opens the gate in the middle of it: the second half then counts as the
beginning, and when the parser has come to the end of the transfer the position has not. -/
theorem transfer_position_left :
    ∃ p s, Reachable ⟨.exact, .xorKey⟩ .any p s ∧ s.parser.comState = .id ∧ s.comPos = 4 ∧
      s.comParameter = 0x030201 := by
  have hscreen : Background ⟨.exact, .xorKey⟩ .any (packetIn ⟨.exact, .xorKey⟩ halfTransfer) :=
    background_packetIn trivial (by decide) (by decide)
  have hopened := (Reachable.boot .zero (.reset (fun _ => Vector.replicate 4 0) zeroIv)).step
    (.packet (.hurried ⟨.exact, .xorKey⟩ halfTransfer) [0x02, 0, 0, 0] 4 trivial (fun _ => .idle)
      hscreen (by decide) (by decide)) ⟨by decide +kernel, rfl, rfl⟩
  refine ⟨_, _, hopened.step (background_packetIn trivial (show [1, 2, 3, 4] ≠ [] by decide)
    (by decide)) ⟨by decide +kernel, rfl, rfl⟩, ?_⟩
  decide +kernel

/-! ## The bounds of `KEY` -/

/-- If the gate is neither opened nor fully reset in the middle of data that is
stored: every byte is stored inside `KEY` if and only if `COM_SET_KEY` is never
given more than 16 bytes of data while the gate is open. -/
theorem key_writes_in_range_iff (t : Target) {s : Session} (h : Seen t .unhurried s) :
    KeyInRange s.log ↔ KeyShort s.log := h.traced.key

/-- It is not a call that `KEY` is too small for. -/
def Event.shortKey : Event → Bool
  | .exec call true => call.id ≠ comSetKey ∨ call.received ≤ 16
  | _ => true

theorem keyShort_iff {log : List Event} :
    KeyShort log ↔ ∀ event ∈ log, event.shortKey = true := by
  refine ⟨fun h event hmem => ?_, fun h call hmem hid => ?_⟩
  · match event with
    | .exec call true =>
        simp only [Event.shortKey, decide_eq_true_eq]
        by_cases hid : call.id = comSetKey
        · exact .inr (h call hmem hid)
        · exact .inl hid
    | .exec _ false | .start _ _ | .header _ _ | .payload _ _ _ | .framRead _ | .framWrite _ _
    | .keyWrite _ | .screen | .accepted | .stopped | .reset => rfl
  · have hshort := h _ hmem
    simp only [Event.shortKey, decide_eq_true_eq] at hshort
    exact hshort.resolve_left fun hne => hne hid

instance (log : List Event) : Decidable (KeyShort log) := decidable_of_iff _ keyShort_iff.symm

/-- A `COM_SET_KEY` of 16 bytes stays inside `KEY`. -/
theorem key_writes_in_range_sixteen :
    KeyInRange (allowed ⟨.exact, .xorKey⟩ ([0x21, 16, 0, 0] ++ List.replicate 16 0xAA)
      .zero .fresh).ram.log := by
  have hseen : Seen ⟨.exact, .xorKey⟩ .unhurried (allowed ⟨.exact, .xorKey⟩
      ([0x21, 16, 0, 0] ++ List.replicate 16 0xAA) .zero .fresh).ram :=
    ⟨_, _, _, .boot _ _, background_allowed unhurried_patient (by decide) (by decide), rfl⟩
  exact (key_writes_in_range_iff _ hseen).mpr (by decide +kernel)

/-- A `COM_SET_KEY` of 17 bytes does not. -/
theorem key_write_outside :
    Seen ⟨.exact, .xorKey⟩ .unhurried (allowed ⟨.exact, .xorKey⟩
      ([0x21, 17, 0, 0] ++ List.replicate 17 0xAA) .zero .fresh).ram ∧
      .keyWrite 16 ∈ (allowed ⟨.exact, .xorKey⟩
        ([0x21, 17, 0, 0] ++ List.replicate 17 0xAA) .zero .fresh).ram.log :=
  ⟨⟨_, _, _, .boot _ _, background_allowed unhurried_patient (by decide) (by decide), rfl⟩,
    by decide +kernel⟩

end PasswordWallet
