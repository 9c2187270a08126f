import Mathlib.Order.Lex
import Mathlib.Data.List.Lex
import PasswordWallet.Security.Encryption
import PasswordWallet.Security.PasswordList

/-!
# The two orders

What the proofs need of one of the two orders is where it keeps its links and
its head, that its key is read from the other bytes of the chunk, and that its
comparison is the strict part of a total preorder (`PwdOrder.At`).

For the order by name the last part is a fact about `strcmp`: it is the
lexicographic order of the characters in front of the first zero.
-/

namespace PasswordWallet

/-! ## Strings -/

/-- The characters of a string, up to its first zero. -/
def characters (str : List Byte) : List ℕ := (str.takeWhile (· ≠ 0#8)).map BitVec.toNat

@[simp] theorem characters_nil : characters [] = [] := rfl

@[simp] theorem characters_zero (str : List Byte) : characters (0#8 :: str) = [] := by
  simp [characters]

theorem characters_cons {c : Byte} (hc : c ≠ 0#8) (str : List Byte) :
    characters (c :: str) = c.toNat :: characters str := by
  rw [characters, List.takeWhile_cons_of_pos (by simpa using hc), List.map_cons, characters]

theorem toNat_pos {c : Byte} (hc : c ≠ 0#8) : 0 < c.toNat :=
  Nat.pos_of_ne_zero fun h => hc (BitVec.eq_of_toNat_eq h)

/-- `strcmp` compares the characters. -/
theorem strcmpLt_iff (s1 s2 : List Byte) :
    strcmpLt s1 s2 = true ↔ characters s1 < characters s2 := by
  induction s1 generalizing s2 with
  | nil =>
      cases s2 with
      | nil => simp [strcmpLt]
      | cons d s2 =>
          by_cases hd : d = 0#8
          · subst hd
            simp [strcmpLt]
          · simp [strcmpLt, characters_cons hd, toNat_pos hd]
  | cons c s1 ih =>
      cases s2 with
      | nil => simp [strcmpLt]
      | cons d s2 =>
          by_cases hc : c = 0#8
          · subst hc
            by_cases hd : d = 0#8
            · subst hd
              simp [strcmpLt]
            · have hne : ¬ 0#8 = d := fun h => hd h.symm
              simp [strcmpLt, hne, characters_cons hd, toNat_pos hd]
          · by_cases hd : d = 0#8
            · subst hd
              simp [strcmpLt, hc]
            · rw [characters_cons hc, characters_cons hd, List.cons_lt_cons_iff, strcmpLt]
              by_cases hne : c = d
              · subst hne
                simp [hc, ih]
              · have hval : c.toNat ≠ d.toNat := fun h => hne (BitVec.eq_of_toNat_eq h)
                simp [hne, hval]
/-! ## Where an order lives -/

variable {K : Type}

/-- The order `o` keeps its links from the byte `link` of a chunk on, and its
head in the header. -/
structure PwdOrder.At (t : Target) (o : PwdOrder K) (link : ℕ) : Prop where
  link_cases : link = 0 ∨ link = 4
  first : o.offsetFirst = 1 + link / 2
  readPrev : ∀ pwdId p, o.readPrev pwdId p = p.word (pwdAddr t.addressing pwdId link)
  readNext : ∀ pwdId p, o.readNext pwdId p = p.word (pwdAddr t.addressing pwdId (link + 2))
  setPrev : ∀ pwdId val, o.setPrev pwdId val =
    passwordWriteId (pwdAddr t.addressing pwdId link) val
  setNext : ∀ pwdId val, o.setNext pwdId val =
    passwordWriteId (pwdAddr t.addressing pwdId (link + 2)) val
  readKey_congr : ∀ {pwdId p p'}, pwdId < t.addressing.capacity →
    (∀ i, 8 ≤ i → i < 42 → p'.chunkByte pwdId i = p.chunkByte pwdId i) →
    o.readKey pwdId p' = o.readKey pwdId p
  before_asymm : ∀ {a b}, o.before a b = true → o.before b a = false
  before_trans : ∀ {a b c}, o.before b a = false → o.before c b = false → o.before c a = false

theorem orderUse_at (t : Target) : (orderUse t).At t 0 where
  link_cases := Or.inl rfl
  first := rfl
  readPrev _ _ := rfl
  readNext _ _ := rfl
  setPrev _ _ := rfl
  setNext _ _ := rfl
  readKey_congr hid h := passwordReadCounter_congr (Addressing.plain_of_lt hid) fun i hi hi' =>
    h i hi (by omega)
  before_asymm {a b} h := by
    simp only [orderUse, decide_eq_true_eq, decide_eq_false_iff_not] at h ⊢
    omega
  before_trans {a b c} h h' := by
    simp only [orderUse, decide_eq_false_iff_not] at h h' ⊢
    omega

theorem strcmpLt_eq_false_iff (s1 s2 : List Byte) :
    strcmpLt s1 s2 = false ↔ characters s2 ≤ characters s1 := by
  rw [← Bool.not_eq_true, strcmpLt_iff, not_lt]

theorem orderAlpha_at (t : Target) : (orderAlpha t).At t 4 where
  link_cases := Or.inr rfl
  first := rfl
  readPrev _ _ := rfl
  readNext _ _ := rfl
  setPrev _ _ := rfl
  setNext _ _ := rfl
  readKey_congr hid h := congrArg upper
    (passwordReadName_congr (Addressing.plain_of_lt hid) fun i hi hi' => h i (by omega) hi')
  before_asymm {a b} h := by
    rw [orderAlpha, strcmpLt_eq_false_iff]
    exact ((strcmpLt_iff a b).mp h).le
  before_trans {a b c} h h' := by
    rw [orderAlpha, strcmpLt_eq_false_iff] at h h' ⊢
    exact h.trans h'

end PasswordWallet
