import Mathlib.Order.Basic
import PasswordWallet.Memory.Image

/-!
# Strings on the host

A `QString` is a list of UTF-16 units.  Of its conversions those from and to Latin-1 are
here.
-/

namespace PasswordWallet.Desktop

/-- The units of a `QString`. -/
abbrev QString := List (BitVec 16)

def fromLatin1 (array : List Byte) : QString := array.map (BitVec.setWidth 16)

/-- A character that is not in Latin-1 becomes a question mark. -/
def toLatin1 (s : QString) : List Byte :=
  s.map fun c => if c.toNat < 256 then c.setWidth 8 else 0x3F

/-- `QString::resize`. -/
def resize (s : QString) (size : ℕ) (fillChar : BitVec 16) : QString :=
  (s ++ List.replicate (size - s.length) fillChar).take size

theorem toLatin1_fromLatin1 (array : List Byte) : toLatin1 (fromLatin1 array) = array := by
  rw [toLatin1, fromLatin1, List.map_map]
  refine List.map_id'' (fun b => ?_) array
  have hb : (b.setWidth 16).toNat < 256 := by
    rw [BitVec.toNat_setWidth]
    exact lt_of_le_of_lt (Nat.mod_le _ _) b.isLt
  simp only [Function.comp_apply, if_pos hb]
  simp

theorem resize_self {s : QString} {size : ℕ} (h : s.length = size) (fillChar : BitVec 16) :
    resize s size fillChar = s := by
  rw [resize, h, Nat.sub_self, List.replicate_zero, List.append_nil, ← h, List.take_length]

end PasswordWallet.Desktop
