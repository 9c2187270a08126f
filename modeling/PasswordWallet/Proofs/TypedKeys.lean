import Mathlib.Data.List.GetD
import PasswordWallet.USB.Keyboard

/-!
# The keys that a string is typed with

`keyboard_send` types a character and lets go of it.  Behind a dead key it steps back
by two, in the 8 bits of its index, and finds the space that it has put in the place
of the character; so a dead key is followed by a space, wherever it stands.

`Sending.characters` are the characters whose key codes go to `wait_for_sent`, in the
order of the calls, with what the loop leaves.
-/

namespace PasswordWallet

/-- The characters that so many iterations at most give to `ascii_to_keycode`, and the
variables of the loop behind them. -/
def Sending.characters : ℕ → Sending → List Byte × Sending
  | 0, x => ([], x)
  | n + 1, x =>
      if x.i < x.data.length * 2 then
        let (c, x') := x.iterate
        let (rest, last) := characters n x'
        (c :: rest, last)
      else ([], x)

/-- The loop comes to its end. -/
def Sending.Done (x : Sending) : Prop := ¬ x.i < x.data.length * 2

/-- `wait_for_sent` with this key code. -/
def queueKey (pattern : ℕ → Conditions) (k : Keyboard) (keycode : Byte) : Keyboard :=
  waitForSent pattern { k with keycodeToSend := keycode }

/-- The character that lets go of a key, `'~'+1`. -/
def releaseCharacter : Byte := 0x7F

/-- The characters that one character is typed with. -/
def typedAs (c : Byte) : List Byte :=
  if c = 0x5E ∨ c = 0x60 then [c, releaseCharacter, 0x20, releaseCharacter]
  else [c, releaseCharacter]

/-- A dead key is overwritten with a space. -/
def overwritten (c : Byte) : Byte := if c = 0x5E ∨ c = 0x60 then 0x20 else c

variable {front rest : List Byte} {c : Byte} {n : ℕ}

/-! ## The calls of `wait_for_sent` -/

/-- The keyboard only sees the key codes, one call for each. -/
theorem sendLoop_eq (pattern : ℕ → Conditions) (m : KeyMap) (n : ℕ) (x : Sending) (k : Keyboard) :
    sendLoop pattern m n x k =
      ((x.characters n).1.map (asciiToKeycode m)).foldl (queueKey pattern) k := by
  induction n generalizing x k with
  | zero => rfl
  | succ n ih =>
      rw [sendLoop, Sending.characters]
      split_ifs with hlt
      · show sendLoop pattern m n x.iterate.2 _ = _
        rw [ih]
        rfl
      · rfl

/-! ## One character -/

theorem getD_current : (front ++ c :: rest).getD (2 * front.length / 2) 0 = c := by
  rw [Nat.mul_div_cancel_left _ (by decide), List.getD_append_right _ _ _ _ le_rfl, Nat.sub_self]
  rfl

theorem characters_succ (hlt : 2 * front.length < (front ++ c :: rest).length * 2)
    (hnot : ¬ (c = 0x5E ∨ c = 0x60)) (hfit : 2 * front.length + 2 < 256) (n : ℕ) :
    Sending.characters (n + 2) ⟨front ++ c :: rest, 2 * front.length, false⟩ =
      (c :: releaseCharacter ::
        (Sending.characters n ⟨front ++ c :: rest, 2 * (front.length + 1), false⟩).1,
        (Sending.characters n ⟨front ++ c :: rest, 2 * (front.length + 1), false⟩).2) := by
  have hpress : Sending.iterate ⟨front ++ c :: rest, 2 * front.length, false⟩ =
      (c, ⟨front ++ c :: rest, 2 * front.length + 1, false⟩) := by
    simp only [Sending.iterate, Nat.mul_mod_right, if_true, getD_current, if_neg hnot,
      Nat.mod_eq_of_lt (show 2 * front.length + 1 < 256 by omega)]
  have hrelease : Sending.iterate ⟨front ++ c :: rest, 2 * front.length + 1, false⟩ =
      (releaseCharacter, ⟨front ++ c :: rest, 2 * (front.length + 1), false⟩) := by
    have hodd : ¬ (2 * front.length + 1) % 2 = 0 := by omega
    simp only [Sending.iterate, if_neg hodd, Bool.false_eq_true, if_false,
      Nat.mod_eq_of_lt (show 2 * front.length + 1 + 1 < 256 by omega)]
    rfl
  have hlt' : 2 * front.length + 1 < (front ++ c :: rest).length * 2 := by omega
  simp only [Sending.characters, if_pos hlt, hpress, if_pos hlt', hrelease]

/-- A dead key and the way back to it. -/
theorem characters_dead (hlt : 2 * front.length < (front ++ c :: rest).length * 2)
    (hdead : c = 0x5E ∨ c = 0x60) (hfit : 2 * front.length + 2 < 256) (n : ℕ) :
    Sending.characters (n + 2) ⟨front ++ c :: rest, 2 * front.length, false⟩ =
      (c :: releaseCharacter ::
        (Sending.characters n ⟨front ++ 0x20 :: rest, 2 * front.length, false⟩).1,
        (Sending.characters n ⟨front ++ 0x20 :: rest, 2 * front.length, false⟩).2) := by
  have hset : (front ++ c :: rest).set (2 * front.length / 2) 0x20 = front ++ 0x20 :: rest := by
    rw [Nat.mul_div_cancel_left _ (by decide), List.set_append_right _ _ le_rfl, Nat.sub_self]
    rfl
  have hpress : Sending.iterate ⟨front ++ c :: rest, 2 * front.length, false⟩ =
      (c, ⟨front ++ 0x20 :: rest, 2 * front.length + 1, true⟩) := by
    simp only [Sending.iterate, Nat.mul_mod_right, if_true, getD_current, if_pos hdead, hset,
      Nat.mod_eq_of_lt (show 2 * front.length + 1 < 256 by omega)]
  -- the index goes round below zero for the first character
  have hback : (2 * front.length + 1 + 254 + 1) % 256 = 2 * front.length := by omega
  have hrelease : Sending.iterate ⟨front ++ 0x20 :: rest, 2 * front.length + 1, true⟩ =
      (releaseCharacter, ⟨front ++ 0x20 :: rest, 2 * front.length, false⟩) := by
    have hodd : ¬ (2 * front.length + 1) % 2 = 0 := by omega
    simp only [Sending.iterate, if_neg hodd, if_true, hback]
    rfl
  have hlt' : 2 * front.length + 1 < (front ++ 0x20 :: rest).length * 2 := by
    simp only [List.length_append, List.length_cons] at hlt ⊢
    omega
  simp only [Sending.characters, if_pos hlt, hpress, if_pos hlt', hrelease]

/-! ## The loop -/

/-- From a character on, the rest of the string is typed; what is in front of it has
been overwritten. -/
theorem characters_eq (hfit : front.length + rest.length < 128) (hn : 4 * rest.length ≤ n) :
    Sending.characters n ⟨front ++ rest, 2 * front.length, false⟩ =
      (rest.flatMap typedAs,
        ⟨front ++ rest.map overwritten, 2 * (front.length + rest.length), false⟩) := by
  induction rest generalizing front n with
  | nil =>
      have hdone : ¬ 2 * front.length < (front ++ []).length * 2 := by
        rw [List.append_nil]
        omega
      cases n with
      | zero => rfl
      | succ n =>
          rw [Sending.characters, if_neg hdone]
          rfl
  | cons c rest ih =>
      simp only [List.length_cons] at hfit hn
      have hlt : ∀ c' : Byte, 2 * front.length < (front ++ c' :: rest).length * 2 := fun c' => by
        simp only [List.length_append, List.length_cons]
        omega
      have hlength : ∀ c' : Byte, (front ++ [c']).length = front.length + 1 := fun c' => by simp
      have hrest : ∀ (c' : Byte) (n : ℕ), 4 * rest.length ≤ n →
          Sending.characters n ⟨front ++ c' :: rest, 2 * (front.length + 1), false⟩ =
            (rest.flatMap typedAs, ⟨front ++ c' :: rest.map overwritten,
              2 * (front.length + 1 + rest.length), false⟩) := by
        intro c' n hn
        have htyped := @ih (front ++ [c']) n (by rw [hlength]; omega) hn
        rwa [hlength, List.append_assoc, List.append_assoc, List.singleton_append,
          List.singleton_append] at htyped
      have htotal : front.length + 1 + rest.length = front.length + (rest.length + 1) := by omega
      rw [List.flatMap_cons, List.map_cons, List.length_cons, ← htotal]
      by_cases hdead : c = 0x5E ∨ c = 0x60
      · obtain ⟨n, rfl⟩ := Nat.exists_eq_add_of_le' (show 4 ≤ n by omega)
        -- the space that is put in its place is no dead key
        have hspace : ¬ ((0x20 : Byte) = 0x5E ∨ (0x20 : Byte) = 0x60) := by decide
        rw [show n + 4 = n + 2 + 2 from rfl, characters_dead (hlt c) hdead (by omega),
          characters_succ (hlt 0x20) hspace (by omega), hrest 0x20 n (by omega), typedAs,
          if_pos hdead, overwritten, if_pos hdead]
        rfl
      · obtain ⟨n, rfl⟩ := Nat.exists_eq_add_of_le' (show 2 ≤ n by omega)
        rw [characters_succ (hlt c) hdead (by omega), hrest c n (by omega), typedAs, if_neg hdead,
          overwritten, if_neg hdead]
        rfl

theorem characters_start {data : List Byte} (hlength : data.length < 128)
    (hn : 4 * data.length ≤ n) :
    (Sending.start data).characters n =
      (data.flatMap typedAs, ⟨data.map overwritten, 2 * data.length, false⟩) := by
  have htyped := @characters_eq [] data n (by rwa [List.length_nil, Nat.zero_add]) hn
  rwa [List.length_nil, Nat.zero_add] at htyped

end PasswordWallet
