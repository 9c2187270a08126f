import Mathlib.Algebra.Group.Basic
import Mathlib.Logic.Function.Basic

/-!
# Chained blocks

Blocks of a group are chained by adding to each one the block enciphered before it; the
first is added to an initial vector.  Where `decrypt` undoes `encrypt` the chains undo each
other (`unchain_chain`).  A chain that is undone only in part, the rest being left as it is,
is `unchainUntil`.
-/

namespace Rijndael

variable {G : Type*} [AddGroup G] {encrypt decrypt : G → G}

/-- `C i = E (P i + C (i - 1))`. -/
def chain (encrypt : G → G) : (iv : G) → List G → List G
  | _, [] => []
  | iv, p :: plain => encrypt (p + iv) :: chain encrypt (encrypt (p + iv)) plain

/-- `P i = D (C i) - C (i - 1)`. -/
def unchain (decrypt : G → G) : (iv : G) → List G → List G
  | _, [] => []
  | iv, c :: text => (decrypt c - iv) :: unchain decrypt c text

theorem unchain_chain (h : Function.LeftInverse decrypt encrypt) (iv : G) (plain : List G) :
    unchain decrypt iv (chain encrypt iv plain) = plain := by
  induction plain generalizing iv with
  | nil => rfl
  | cons p plain ih => rw [chain, unchain, h, add_sub_cancel_right, ih]

@[simp] theorem length_chain (iv : G) (plain : List G) :
    (chain encrypt iv plain).length = plain.length := by
  induction plain generalizing iv with
  | nil => rfl
  | cons p plain ih => rw [chain, List.length_cons, ih, List.length_cons]

@[simp] theorem length_unchain (iv : G) (text : List G) :
    (unchain decrypt iv text).length = text.length := by
  induction text generalizing iv with
  | nil => rfl
  | cons c text ih => rw [unchain, List.length_cons, ih, List.length_cons]

/-- The chain undone up to the first block that `stops`, this one included. -/
def unchainUntil (decrypt : G → G) (stops : G → Bool) (iv : G) (text : List G) : List G :=
  let plain := unchain decrypt iv text
  let n := plain.findIdx stops + 1
  plain.take n ++ text.drop n

theorem unchainUntil_cons (stops : G → Bool) (iv c : G) (text : List G) :
    unchainUntil decrypt stops iv (c :: text) = (decrypt c - iv) ::
      if stops (decrypt c - iv) then text else unchainUntil decrypt stops c text := by
  rw [unchainUntil, unchain, List.findIdx_cons]
  cases stops (decrypt c - iv) <;> rfl

end Rijndael
