import PasswordWallet.Options.CallbackAdvanced

/-!
# The erase loop of the full reset

`opt_callback_full_reset` clears the FRAM in 1024 bursts of 128 bytes.  On the AVR the
address of a burst is computed in the 16 bits of an `int` and widened with its sign, so
the bursts of the upper half of the loop do not follow those of the lower half: they go to
the last quarter of the memory, twice.  The quarters in between are never written, and
`fullReset_erases_iff` says that the memory is erased exactly if they are zero already.
-/

namespace PasswordWallet

open PowerLoss

/-! ## Clearing -/

/-- The bytes of `S` are cleared, and nothing else of the FRAM is touched. -/
structure Cleared (S : Set ℕ) (p p' : Image) : Prop where
  zero : ∀ x ∈ S, p'.fram x = 0
  other : ∀ x ∉ S, p'.fram x = p.fram x

variable {S S' : Set ℕ} {p p' p'' : Image} {v : Ram}

theorem Cleared.refl (p : Image) : Cleared ∅ p p := ⟨fun _ => False.elim, fun _ _ => rfl⟩

theorem Cleared.trans (h : Cleared S p p') (h' : Cleared S' p' p'') :
    Cleared (S ∪ S') p p'' := by
  refine ⟨fun x hx => ?_, fun x hx => ?_⟩
  · by_cases hx' : x ∈ S'
    · exact h'.zero x hx'
    · exact (h'.other x hx').trans (h.zero x (hx.resolve_right hx'))
  · exact (h'.other x fun hx' => hx (.inr hx')).trans (h.other x fun hx' => hx (.inl hx'))

/-- After clearing, what is not zero was left alone. -/
theorem Cleared.fram_eq_zero_iff (h : Cleared S p p') (x : ℕ) :
    p'.fram x = 0 ↔ x ∈ S ∨ p.fram x = 0 := by
  by_cases hx : x ∈ S
  · exact ⟨fun _ => .inl hx, fun _ => h.zero x hx⟩
  · rw [h.other x hx]
    exact ⟨.inr, fun hzero => hzero.resolve_left hx⟩

theorem wp_framSet (addr : ℕ) {num : ℕ} (hnum : num ≤ framByteSize) :
    wp (framSet addr 0 num) (fun _ p' v' => v' = v ∧ Cleared (burst addr num) p p')
      (fun _ _ => False) (fun _ _ => True) p v := by
  refine wp_framWriteBytes (fun _ _ => trivial) ⟨rfl, fun x hx => ?_, fun x hx => ?_⟩
  · obtain ⟨i, hi, rfl⟩ := hx
    rw [Image.store_fram_getElem (by simpa using hnum) (by simpa using hi),
      List.getElem_replicate]
  · exact Image.store_fram_of_ne fun i hi heq => hx ⟨i, by simpa using hi, heq⟩

/-! ## The loop -/

/-- What the first `j` bursts of turn `i` clear. -/
def turnRegion (a : Addressing) (i j : ℕ) : Set ℕ :=
  {x | ∃ k < j, x ∈ burst (eraseAddr a i k) 128}

/-- What the last `n` turns of the loop clear. -/
def erasedRegion (a : Addressing) (n : ℕ) : Set ℕ :=
  {x | ∃ i < n, x ∈ turnRegion a i (framSizeDivider / 128)}

theorem turnRegion_zero (a : Addressing) (i : ℕ) : turnRegion a i 0 = ∅ := by
  apply Set.eq_empty_of_forall_notMem
  intro x hx
  obtain ⟨k, hk, -⟩ := hx
  exact Nat.not_lt_zero k hk

theorem turnRegion_succ (a : Addressing) (i j : ℕ) :
    turnRegion a i (j + 1) = turnRegion a i j ∪ burst (eraseAddr a i j) 128 := by
  ext x
  constructor
  · intro hx
    obtain ⟨k, hk, hmem⟩ := hx
    rcases Nat.lt_succ_iff_lt_or_eq.mp hk with hlt | rfl
    · exact .inl ⟨k, hlt, hmem⟩
    · exact .inr hmem
  · intro hx
    rcases hx with ⟨k, hk, hmem⟩ | hmem
    · exact ⟨k, Nat.lt_succ_of_lt hk, hmem⟩
    · exact ⟨j, Nat.lt_succ_self j, hmem⟩

theorem erasedRegion_zero (a : Addressing) : erasedRegion a 0 = ∅ := by
  apply Set.eq_empty_of_forall_notMem
  intro x hx
  obtain ⟨i, hi, -⟩ := hx
  exact Nat.not_lt_zero i hi

theorem erasedRegion_succ (a : Addressing) (n : ℕ) :
    erasedRegion a (n + 1) = turnRegion a n (framSizeDivider / 128) ∪ erasedRegion a n := by
  ext x
  constructor
  · intro hx
    obtain ⟨i, hi, hmem⟩ := hx
    rcases Nat.lt_succ_iff_lt_or_eq.mp hi with hlt | rfl
    · exact .inr ⟨i, hlt, hmem⟩
    · exact .inl hmem
  · intro hx
    rcases hx with hmem | ⟨i, hi, hmem⟩
    · exact ⟨n, Nat.lt_succ_self n, hmem⟩
    · exact ⟨i, Nat.lt_succ_of_lt hi, hmem⟩

variable (t : Target)

/-- One turn of the loop. -/
theorem wp_eraseTurn (i : ℕ) :
    wp (Program.forUp 0 (framSizeDivider / 128) fun j => framSet (eraseAddr t.addressing i j) 0 128)
      (fun _ p' v' => v' = v ∧ Cleared (turnRegion t.addressing i (framSizeDivider / 128)) p p')
      (fun _ _ => False) (fun _ _ => True) p v := by
  have hloop := wp_forUp (H := fun _ _ => False) (C := fun _ _ => True)
    (fun j => framSet (eraseAddr t.addressing i j) 0 128)
    (fun j p' v' => v' = v ∧ Cleared (turnRegion t.addressing i j) p p') 0 (framSizeDivider / 128)
    ⟨rfl, turnRegion_zero t.addressing i ▸ Cleared.refl p⟩ fun j p' v' _ _ hinv => by
      obtain ⟨rfl, hcleared⟩ := hinv
      refine wp_imp (wp_framSet _ (by decide)) fun _ p'' v'' hset => ⟨hset.1, ?_⟩
      rw [turnRegion_succ]
      exact hcleared.trans hset.2
  rwa [Nat.zero_add] at hloop

/-- The turns of the loop from `n - 1` down. -/
theorem wp_eraseFram (n : ℕ) :
    wp (eraseFram t n) (fun _ p' v' => v' = v ∧ Cleared (erasedRegion t.addressing n) p p')
      (fun _ _ => False) (fun _ _ => True) p v := by
  induction n generalizing p v with
  | zero =>
      rw [erasedRegion_zero]
      exact (wp_pure _).mpr ⟨rfl, Cleared.refl p⟩
  | succ n ih =>
      rw [eraseFram, wp_bind]
      refine wp_imp (wp_eraseTurn t n) fun _ p₁ v₁ hturn => ?_
      obtain ⟨rfl, hcleared⟩ := hturn
      refine wp_imp ih fun _ p₂ v₂ hrest => ⟨hrest.1, ?_⟩
      rw [erasedRegion_succ]
      exact hcleared.trans hrest.2

/-! ## What the loop covers -/

/-- From 32768 on the `int` is negative, and the address is near the end of the 32 bits. -/
theorem eraseAddr_avr : ∀ i < 128, ∀ j < 8, eraseAddr .avr i j =
    if (i * 1024 + j * 128) % 65536 < 32768 then (i * 1024 + j * 128) % 65536
    else 2 ^ 32 - 65536 + (i * 1024 + j * 128) % 65536 := by
  decide +kernel

/-- On the AVR the first and the last quarter of the memory are cleared. -/
theorem mem_erasedRegion_avr (x : ℕ) :
    x ∈ erasedRegion .avr (framByteSize / framSizeDivider) ↔
      x < 32768 ∨ 98304 ≤ x ∧ x < framByteSize := by
  simp only [framByteSize, framSizeDivider]
  constructor
  · intro hx
    obtain ⟨i, hi, j, hj, k, hk, rfl⟩ := hx
    rw [eraseAddr_avr i (by omega) j (by simp at hj; omega)]
    simp only [framByteSize]
    split_ifs <;> omega
  · intro hx
    -- the burst whose low 16 bits are those of the address
    refine ⟨x % 65536 / 1024, by omega, x % 1024 / 128, by simp; omega, x % 128, by omega, ?_⟩
    rw [eraseAddr_avr _ (by omega) _ (by omega)]
    simp only [framByteSize]
    split_ifs <;> omega

/-- As integer arithmetic the whole memory is. -/
theorem mem_erasedRegion_exact (x : ℕ) :
    x ∈ erasedRegion .exact (framByteSize / framSizeDivider) ↔ x < framByteSize := by
  simp only [framByteSize, framSizeDivider]
  constructor
  · intro hx
    obtain ⟨i, -, j, -, k, -, rfl⟩ := hx
    exact Nat.mod_lt _ (by decide)
  · intro hx
    refine ⟨x / 1024, by omega, x % 1024 / 128, by simp; omega, x % 128, by omega, ?_⟩
    simp only [eraseAddr, framByteSize, framSizeDivider]
    omega

/-- Either way the header is. -/
theorem wp_eraseFram_header :
    wp (eraseFram t (framByteSize / framSizeDivider))
      (fun _ p' v' => v' = v ∧ ∀ x < 535, p'.fram x = 0) (fun _ _ => False) (fun _ _ => True)
      p v := by
  refine wp_imp (wp_eraseFram t _) fun _ p' v' ⟨hv, hcleared⟩ => ⟨hv, fun x hx => ?_⟩
  refine hcleared.zero x ?_
  cases haddressing : t.addressing with
  | exact => exact (mem_erasedRegion_exact x).mpr (hx.trans (by decide))
  | avr => exact (mem_erasedRegion_avr x).mpr (Or.inl (hx.trans (by decide)))

/-- On the AVR the erase loop leaves a memory of zeros if and only if the quarters it
never comes to are zero before. -/
theorem fullReset_erases_iff (cipher : BlockCipher) (p : Image) (v : Ram) :
    ∃ p' v', Completes (eraseFram ⟨.avr, cipher⟩ (framByteSize / framSizeDivider)) p v () p' v' ∧
      ((∀ x < framByteSize, p'.fram x = 0) ↔ ∀ x, 32768 ≤ x → x < 98304 → p.fram x = 0) := by
  obtain ⟨_, p', v', hrun, -, hcleared⟩ := exists_completes
    (wp_eraseFram (p := p) (v := v) ⟨.avr, cipher⟩ (framByteSize / framSizeDivider))
  refine ⟨p', v', hrun, fun hall x hle hlt => ?_, fun hquarters x hx => ?_⟩
  · have hzero := hall x (by simp only [framByteSize]; omega)
    rw [hcleared.fram_eq_zero_iff, mem_erasedRegion_avr] at hzero
    exact hzero.resolve_left (by omega)
  · rw [hcleared.fram_eq_zero_iff, mem_erasedRegion_avr]
    by_cases hquarter : 32768 ≤ x ∧ x < 98304
    · exact .inr (hquarters x hquarter.1 hquarter.2)
    · exact .inl (by omega)

/-- A byte of the name of chunk 232, at 40000, is still there. -/
theorem fullReset_leaves_byte :
    ∃ p' v', Completes (eraseFram ⟨.avr, .xorKey⟩ (framByteSize / framSizeDivider))
        { Image.zero with fram := Function.update Image.zero.fram 40000 7 }
        (.reset (fun _ => Vector.replicate 4 0) (Vector.replicate 16 0)) () p' v' ∧
      ¬∀ x < framByteSize, p'.fram x = 0 := by
  obtain ⟨_, p', v', hrun, -, hcleared⟩ := exists_completes
    (wp_eraseFram (p := { Image.zero with fram := Function.update Image.zero.fram 40000 7 })
      (v := .reset (fun _ => Vector.replicate 4 0) (Vector.replicate 16 0)) ⟨.avr, .xorKey⟩
      (framByteSize / framSizeDivider))
  refine ⟨p', v', hrun, fun hall => ?_⟩
  have hzero := hall 40000 (by decide)
  rw [hcleared.fram_eq_zero_iff, mem_erasedRegion_avr] at hzero
  revert hzero
  decide

end PasswordWallet
