import Mathlib.Data.List.Basic
import Mathlib.Algebra.Order.Ring.Nat
import Mathlib.Tactic.Ring

/-!
# Numbers by their digits, the highest first

`value ds ws` is what digits are worth under weights, and `greedy ws n` takes a number
apart by dividing by one weight after the other.  Under the weights
`b ^ (k - 1), …, b, 1` the two undo each other, for the numbers below `b ^ k` and the
`k` digits below `b`.
-/

namespace Radix

variable {b k n : ℕ} {ds : List ℕ}

def weights (b : ℕ) : ℕ → List ℕ
  | 0 => []
  | k + 1 => b ^ k :: weights b k

def value : List ℕ → List ℕ → ℕ
  | d :: ds, w :: ws => d * w + value ds ws
  | _, _ => 0

def greedy : List ℕ → ℕ → List ℕ
  | [], _ => []
  | w :: ws, n => n / w :: greedy ws (n % w)

@[simp]
theorem length_greedy (ws : List ℕ) (n : ℕ) : (greedy ws n).length = ws.length := by
  induction ws generalizing n with
  | nil => rfl
  | cons w ws ih => rw [greedy, List.length_cons, List.length_cons, ih]

@[simp]
theorem length_weights (b k : ℕ) : (weights b k).length = k := by
  induction k with
  | zero => rfl
  | succ k ih => rw [weights, List.length_cons, ih]

theorem value_lt (hds : ∀ d ∈ ds, d < b) (hlength : ds.length = k) :
    value ds (weights b k) < b ^ k := by
  induction k generalizing ds with
  | zero => cases ds <;> simp [value, weights]
  | succ k ih =>
      obtain ⟨d, ds, rfl⟩ := List.exists_cons_of_length_eq_add_one hlength
      have hrest := ih (fun d hd => hds d (List.mem_cons_of_mem _ hd)) (Nat.succ_inj.mp hlength)
      have hd : d + 1 ≤ b := hds d (List.mem_cons_self ..)
      calc value (d :: ds) (weights b (k + 1))
          = d * b ^ k + value ds (weights b k) := rfl
        _ < d * b ^ k + b ^ k := Nat.add_lt_add_left hrest _
        _ = (d + 1) * b ^ k := by ring
        _ ≤ b * b ^ k := Nat.mul_le_mul_right _ hd
        _ = b ^ (k + 1) := by ring

theorem greedy_lt (hn : n < b ^ k) : ∀ d ∈ greedy (weights b k) n, d < b := by
  induction k generalizing n with
  | zero => exact fun d hd => absurd hd List.not_mem_nil
  | succ k ih =>
      have hpos : 0 < b ^ k := by
        rcases Nat.eq_zero_or_pos (b ^ k) with hzero | hpos
        · rw [pow_succ, hzero, Nat.zero_mul] at hn
          exact absurd hn (Nat.not_lt_zero n)
        · exact hpos
      intro d hd
      rcases List.mem_cons.mp hd with rfl | hd
      · exact Nat.div_lt_of_lt_mul (by rwa [pow_succ] at hn)
      · exact ih (Nat.mod_lt n hpos) d hd

theorem value_greedy (hn : n < b ^ k) : value (greedy (weights b k) n) (weights b k) = n := by
  induction k generalizing n with
  | zero => exact (Nat.lt_one_iff.mp hn).symm
  | succ k ih =>
      rcases Nat.eq_zero_or_pos (b ^ k) with hzero | hpos
      · rw [pow_succ, hzero, Nat.zero_mul] at hn
        exact absurd hn (Nat.not_lt_zero n)
      · rw [weights, greedy, value, ih (Nat.mod_lt n hpos), Nat.mul_comm]
        exact Nat.div_add_mod n (b ^ k)

theorem greedy_value (hds : ∀ d ∈ ds, d < b) (hlength : ds.length = k) :
    greedy (weights b k) (value ds (weights b k)) = ds := by
  induction k generalizing ds with
  | zero => rw [List.eq_nil_of_length_eq_zero hlength]; rfl
  | succ k ih =>
      obtain ⟨d, ds, rfl⟩ := List.exists_cons_of_length_eq_add_one hlength
      have hds' : ∀ d ∈ ds, d < b := fun d hd => hds d (List.mem_cons_of_mem _ hd)
      have hrest := value_lt hds' (Nat.succ_inj.mp hlength)
      have hpos : 0 < b ^ k := Nat.zero_lt_of_lt hrest
      rw [weights, value, greedy, Nat.mul_comm, Nat.mul_add_div hpos, Nat.div_eq_of_lt hrest,
        Nat.mul_add_mod, Nat.mod_eq_of_lt hrest, ih hds' (Nat.succ_inj.mp hlength), Nat.add_zero]

end Radix
