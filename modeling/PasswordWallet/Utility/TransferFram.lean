import PasswordWallet.Patching.Slice
import PasswordWallet.Proofs.SetFram

/-!
# The memory patch of `transfer_fram`

`diff` lists what has to be written to make one memory image of another: a slice
for every run of bytes that differ, and slices that are close merged into one.
`send_slice` makes `COM_SET_FRAM` commands of a slice.
-/

namespace PasswordWallet

open Framing Patching

/-- `pslice`. -/
abbrev PSlice := Slice Byte

/-! ## `diff` -/

/-- The addresses that `diff` passes over, as the entropy pool. -/
def Ignored (i : ℕ) : Prop := offsetEntropyPool < i ∧ i < offsetEntropyPool + sizeEntropyPool

instance : DecidablePred Ignored := fun i =>
  inferInstanceAs (Decidable (offsetEntropyPool < i ∧ i < offsetEntropyPool + sizeEntropyPool))

/-- Continues the last slice, or begins a new one. -/
def addDifference (slices : List PSlice) (i : ℕ) (byte : Byte) : List PSlice :=
  match slices.getLast? with
  | some last =>
      if last.second.length + last.first = i then
        slices.dropLast ++ [⟨last.first, last.second ++ [byte]⟩]
      else slices ++ [⟨i, [byte]⟩]
  | none => slices ++ [⟨i, [byte]⟩]

/-- One turn of the first loop; `none` if an index is out of range, here and below. -/
def compareAt (oldData newData : List Byte) (slices : List PSlice) (i : ℕ) :
    Option (List PSlice) :=
  if Ignored i then some slices
  else do
    let old ← oldData[i]?
    let new ← newData[i]?
    if old ≠ new then some (addDifference slices i new) else some slices

/-- A slice every time bytes are not equal. -/
def differences (oldData newData : List Byte) : Option (List PSlice) :=
  (List.range oldData.length).foldlM (compareAt oldData newData) []

/-- The "optimum threshold". -/
def threshold : ℕ := 7

/-- The number of bytes between two slices, in the 32 bits of `uint32_t`. -/
def delta (curr next : PSlice) : ℕ :=
  (BitVec.ofNat 32 next.first - BitVec.ofNat 32 (curr.first + curr.second.length)).toNat

/-- What completes a slice up to the next: `oldData[i+delta]` for every `i`. -/
def complete (oldData : List Byte) (delta : ℕ) : Option (List Byte) :=
  (List.range delta).mapM fun i => oldData[i + delta]?

/-- The current slice, completed, with the next appended. -/
def append (curr next : PSlice) (bytes : List Byte) : PSlice :=
  ⟨curr.first, curr.second ++ bytes ++ next.second⟩

/-- The second loop.  Every turn takes a slice away or steps over one, so the
number of slices is fuel enough (`mergeFrom_eq`). -/
def mergeFrom (oldData : List Byte) : ℕ → List PSlice → ℕ → Option (List PSlice)
  | 0, _, _ => none
  | fuel + 1, slices, i =>
      match slices[i]?, slices[i + 1]? with
      | some curr, some next =>
          if delta curr next ≤ threshold then do
            let bytes ← complete oldData (delta curr next)
            mergeFrom oldData fuel ((slices.set i (append curr next bytes)).erase next) i
          else mergeFrom oldData fuel slices (i + 1)
      | _, _ => some slices

def diff (oldData newData : List Byte) : Option (List PSlice) :=
  if oldData.length ≠ newData.length then some []
  else do
    let slices ← differences oldData newData
    if slices.length ≤ 1 then some slices
    else mergeFrom oldData slices.length slices 0

/-! ## `send_slice` -/

/-- The commands of a slice, when each is answered by `COM_OK`.  A slice that is
too big is divided. -/
def sendSlice (slice : PSlice) : List Frame :=
  if 0xFFFFFF - 3 < slice.second.length then
    sendSlice ⟨slice.first, slice.second.take (slice.second.length / 2)⟩ ++
      sendSlice ⟨slice.first + slice.second.length / 2,
        slice.second.drop (slice.second.length / 2)⟩
  else [setFramCommand slice.first slice.second]
termination_by slice.second.length
decreasing_by
  · rw [List.length_take]
    omega
  · rw [List.length_drop]
    omega

/-! ## The device -/

/-- What a `COM_SET_FRAM` does to the memory of a device. -/
def execSetFram (mem : List Byte) (f : Frame) : List Byte :=
  match f.data with
  | low :: mid :: high :: payload => overwrite mem (sizeOf low mid high) payload
  | _ => mem

/-- The addresses that a `COM_SET_FRAM` writes. -/
def WritesAt (f : Frame) (x : ℕ) : Prop :=
  match f.data with
  | low :: mid :: high :: payload => Slice.Has ⟨sizeOf low mid high, payload⟩ x
  | _ => False

variable {addr : ℕ} {payload : List Byte}

theorem execSetFram_setFramCommand (haddr : addr < 2 ^ 24) (mem : List Byte) :
    execSetFram mem (setFramCommand addr payload) = overwrite mem addr payload := by
  show overwrite mem (sizeOf _ _ _) payload = _
  rw [sizeOf_ofNat haddr]

theorem writesAt_setFramCommand (haddr : addr < 2 ^ 24) {x : ℕ} :
    WritesAt (setFramCommand addr payload) x ↔ Slice.Has ⟨addr, payload⟩ x := by
  show Slice.Has ⟨sizeOf _ _ _, payload⟩ x ↔ _
  rw [sizeOf_ofNat haddr]

theorem getElem?_bytes (p : Image) {x : ℕ} (hx : x < framByteSize) :
    (p.bytes 0 framByteSize)[x]? = some (p.byte x) := by
  rw [Image.bytes, List.getElem?_map, List.getElem?_range hx, Option.map_some, Nat.zero_add]

/-- The firmware stores the payload of the command as `execSetFram` does, in the
memory it has. -/
theorem bytes_store_eq_execSetFram (hfit : addr + payload.length ≤ framByteSize) (p : Image) :
    (p.store addr payload).bytes 0 framByteSize =
      execSetFram (p.bytes 0 framByteSize) (setFramCommand addr payload) := by
  rw [execSetFram_setFramCommand (lt_of_le_of_lt (Nat.le_of_add_right_le hfit) (by decide))]
  refine List.ext_getElem? fun x => ?_
  by_cases hx : x < framByteSize
  · by_cases hinside : addr ≤ x ∧ x < addr + payload.length
    · obtain ⟨i, rfl⟩ := Nat.exists_eq_add_of_le hinside.1
      have hi : i < payload.length := by omega
      rw [getElem?_overwrite (by simpa [Image.bytes] using hx) hinside, getElem?_bytes _ hx,
        Image.byte_store_getElem hfit hi, Nat.add_sub_cancel_left, List.getElem?_eq_getElem hi]
    · rw [getElem?_overwrite_of_not hinside, getElem?_bytes _ hx, getElem?_bytes _ hx,
        Image.byte_store_of_disjoint hfit hx (by omega)]
  · have hlen : (p.bytes 0 framByteSize).length ≤ x := by simpa [Image.bytes] using not_lt.mp hx
    rw [List.getElem?_eq_none (by simpa [Image.bytes] using not_lt.mp hx),
      List.getElem?_eq_none (by rwa [length_overwrite])]

end PasswordWallet
