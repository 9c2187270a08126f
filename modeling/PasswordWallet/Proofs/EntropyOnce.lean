import Mathlib.Data.List.GetD
import PasswordWallet.Security.Entropy
import PasswordWallet.Supply.Stock

/-!
# Entropy is used once

In every run of interrupts, transfers, requests and resets the pool stays inside its
256 bytes, and every byte that is returned is a byte of a double word made of 32
samples, no byte twice.  Two invariants carry this: which samples a double word is the
hash of (`Sampled`), and which byte of which double word a cell of the pool holds
(`Stocked`).
-/

namespace PasswordWallet

open Supply

namespace Generator

/-- The byte at a position: the double word it is of, and its place in it. -/
def byteOf (saved : List (BitVec 32)) (pos : ℕ × ℕ) : Byte :=
  (dwordBytes (saved.getD pos.1 0)).toList.getD pos.2 0

/-- What `random_dword` and the saved double words are the hash of: 32 samples each. -/
structure Sampled (s : Generator) : Prop where
  count_lt : s.sampleCount < numSample
  length : s.samples.length = numSample * s.saved.length +
    if s.randomTransfer then numSample else s.sampleCount
  collecting : s.randomTransfer = false → s.randomDword =
    (s.samples.drop (numSample * s.saved.length)).foldl jenkinOneAtATimeStep 0
  complete : s.randomTransfer = true → s.sampleCount = 0 ∧
    s.randomDword = dwordOf (s.samples.drop (numSample * s.saved.length))
  saved : ∀ k (hk : k < s.saved.length),
    s.saved[k] = dwordOf ((s.samples.drop (numSample * k)).take numSample)

/-- What the cells of the pool hold, what has been returned, and where the memory has
been accessed. -/
structure Stocked (s : Generator) (stock : Stock 4) : Prop where
  blocks : stock.blocks = s.saved.length
  size : s.entropyPoolSize = stock.cells.length
  size_le : s.entropyPoolSize ≤ sizeEntropyPool
  cell : ∀ i (hi : i < stock.cells.length),
    s.image.byte (offsetEntropyPool + i) = byteOf s.saved stock.cells[i]
  returned : s.returned = stock.given.map (byteOf s.saved)
  accesses : ∀ addr ∈ s.accesses,
    offsetEntropyPool ≤ addr ∧ addr < offsetEntropyPool + sizeEntropyPool

variable {s s' : Generator} {stock : Stock 4}

/-! ## The samples -/

/-- One more sample does not change what the saved double words are made of. -/
theorem Sampled.saved_append (h : Sampled s) (val : Byte) (k : ℕ) (hk : k < s.saved.length) :
    s.saved[k] = dwordOf (((s.samples ++ [val]).drop (numSample * k)).take numSample) := by
  have hlength := h.length
  have hfit : numSample * (k + 1) ≤ s.samples.length :=
    (Nat.mul_le_mul_left _ hk).trans (by omega)
  simp only [numSample] at hfit
  rw [h.saved k hk]
  refine congrArg dwordOf ?_
  simp only [numSample]
  rw [List.drop_append_of_le_length (by omega), List.take_append_of_le_length]
  rw [List.length_drop]
  omega

theorem Sampled.interrupt (h : Sampled s) (val : Byte) : Sampled (s.isrHardwareNeutral val) := by
  simp only [isrHardwareNeutral]
  split_ifs with htransfer hcount
  · exact h
  all_goals
    have htransfer : s.randomTransfer = false := Bool.eq_false_iff.mpr htransfer
    have hlt := h.count_lt
    have hlength := h.length
    have hdword := h.collecting htransfer
    rw [htransfer, if_neg Bool.false_ne_true] at hlength
    simp only [numSample] at hlt hcount hlength
    have hdrop : (s.samples ++ [val]).drop (numSample * s.saved.length) =
        s.samples.drop (numSample * s.saved.length) ++ [val] :=
      List.drop_append_of_le_length (by simp only [numSample]; omega)
  · exact {
      count_lt := Nat.zero_lt_succ 31
      -- the last sample of a double word
      length := by simp only [List.length_append, List.length_singleton, numSample, if_true]; omega
      collecting := fun hnot => absurd hnot (by simp)
      complete := fun _ => ⟨rfl, by
        rw [hdrop, dwordOf, List.foldl_append, ← hdword]
        rfl⟩
      saved := h.saved_append val }
  · exact {
      count_lt := by simp only [numSample]; omega
      length := by
        rw [if_neg (by simp [htransfer])]
        simp only [List.length_append, List.length_singleton, numSample]
        omega
      collecting := fun _ => by
        show jenkinOneAtATimeStep s.randomDword val = _
        rw [hdrop, List.foldl_append, ← hdword]
        rfl
      complete := fun hnot => absurd (htransfer.symm.trans hnot) Bool.false_ne_true
      saved := h.saved_append val }

theorem Sampled.save (h : Sampled s) : Sampled s.randomSaveEntropy := by
  rw [randomSaveEntropy]
  split_ifs with htransfer hfull
  · exact h
  -- the double word is saved, and the next one has no samples yet
  · obtain ⟨hcount, hdword⟩ := h.complete htransfer
    have hlength := h.length
    rw [if_pos htransfer] at hlength
    have hrest : s.samples.drop (numSample * (s.saved.length + 1)) = [] :=
      List.drop_eq_nil_of_le (by rw [hlength, Nat.mul_add, Nat.mul_one])
    exact {
      count_lt := h.count_lt
      length := by
        simp only [List.length_append, List.length_singleton, hlength, hcount, Nat.mul_add]
        rfl
      collecting := fun _ => by
        simp only [List.length_append, List.length_singleton, hrest]
        rfl
      complete := fun hnot => absurd hnot Bool.false_ne_true
      saved := fun k hk => by
        simp only [List.length_append, List.length_singleton] at hk
        rcases Nat.lt_succ_iff_lt_or_eq.mp hk with hlt | rfl
        · rw [List.getElem_append_left hlt]
          exact h.saved k hlt
        -- the double word that is saved has all the samples that are left
        · rw [List.getElem_append_right le_rfl, List.take_of_length_le]
          · simpa using hdword
          · rw [List.length_drop, hlength]
            omega }
  · exact h

theorem Sampled.step (h : Sampled s) (hstep : Step s s') : Sampled s' := by
  cases hstep with
  | interrupt val => exact h.interrupt val
  | save => exact h.save
  | request available => exact ⟨h.count_lt, h.length, h.collecting, h.complete, h.saved⟩

theorem sampled_reset (s : Generator) : Sampled s.randomReset where
  count_lt := Nat.zero_lt_succ 31
  length := rfl
  collecting _ := rfl
  complete h := absurd h Bool.false_ne_true
  saved k hk := absurd hk (Nat.not_lt_zero k)

/-! ## The cells -/

theorem byteOf_append (saved : List (BitVec 32)) (dword : BitVec 32) {pos : ℕ × ℕ}
    (hpos : pos.1 < saved.length) : byteOf (saved ++ [dword]) pos = byteOf saved pos := by
  rw [byteOf, byteOf, List.getD_append _ _ _ _ hpos]

theorem byteOf_last (saved : List (BitVec 32)) (dword : BitVec 32) (i : ℕ) :
    byteOf (saved ++ [dword]) (saved.length, i) = (dwordBytes dword).toList.getD i 0 := by
  rw [byteOf, List.getD_append_right _ _ _ _ le_rfl, Nat.sub_self]
  rfl

theorem Stocked.save (h : Stocked s stock) :
    ∃ stock', Stocked s.randomSaveEntropy stock' := by
  rw [randomSaveEntropy]
  split_ifs with htransfer hfull
  · exact ⟨stock, h⟩
  · refine ⟨stock.push, ?_⟩
    have hsize := h.size
    have hroom : s.entropyPoolSize + 4 ≤ 256 := by
      simp only [sizeEntropyPool] at hfull
      omega
    have hold : ∀ pos ∈ stock.cells ++ stock.given,
        byteOf (s.saved ++ [s.randomDword]) pos = byteOf s.saved pos := fun pos hpos =>
      byteOf_append _ _ (h.blocks ▸ (stock.inside pos hpos).1)
    have hlength : (dwordBytes s.randomDword).toList.length = 4 := by simp
    have hpool : offsetEntropyPool = 7 := rfl
    exact {
      blocks := by simp [Stock.push, h.blocks]
      size := by
        simp only [Stock.push, List.length_append, length_positions]
        omega
      size_le := by
        simp only [sizeEntropyPool]
        omega
      cell := fun i hi => by
        simp only [Stock.push, List.length_append, length_positions] at hi ⊢
        -- a cell that is not written, or one of the four that are
        rcases Nat.lt_or_ge i stock.cells.length with hlt | hge
        · rw [List.getElem_append_left hlt, hold _ (by simp),
            Image.byte_store_of_disjoint (by simp; omega) (by simp; omega) (Or.inl (by omega))]
          exact h.cell i hlt
        · obtain ⟨j, rfl⟩ := Nat.exists_eq_add_of_le hge
          have hbyte := @Image.byte_store_getElem s.image (offsetEntropyPool + s.entropyPoolSize) j
            (dwordBytes s.randomDword).toList (by simp; omega) (by omega)
          rw [List.getElem_append_right hge, getElem_positions, h.blocks, byteOf_last,
            Nat.add_sub_cancel_left, List.getD_eq_getElem _ _ (by omega), ← hbyte, hsize,
            Nat.add_assoc]
      returned := by
        rw [h.returned]
        exact List.map_congr_left fun pos hpos => (hold pos (List.mem_append_right _ hpos)).symm
      accesses := fun addr hmem => by
        rcases List.mem_append.mp hmem with hmem | hmem
        · exact h.accesses addr hmem
        · obtain ⟨k, hk, rfl⟩ := List.mem_map.mp hmem
          rw [List.mem_range] at hk
          simp only [sizeEntropyPool]
          omega }
  · exact ⟨stock, h⟩

theorem Stocked.request (h : Stocked s stock) (available : 0 < s.entropyPoolSize) :
    ∃ stock', Stocked s.randomRequestByte.2 stock' := by
  have hsize := h.size
  have hle := h.size_le
  have hne : stock.cells ≠ [] := List.ne_nil_of_length_pos (by omega)
  have hpool : offsetEntropyPool = 7 := rfl
  simp only [sizeEntropyPool] at hle
  refine ⟨stock.pop hne, ?_⟩
  exact {
    blocks := h.blocks
    size := by
      simp only [randomRequestByte, Stock.pop, List.length_dropLast]
      omega
    size_le := by
      simp only [randomRequestByte, sizeEntropyPool]
      omega
    cell := fun i hi => by
      simp only [Stock.pop, List.length_dropLast, List.getElem_dropLast] at hi ⊢
      rw [randomRequestByte, Image.byte_store_of_disjoint (by simp; omega) (by simp; omega)
        (Or.inl (by omega))]
      exact h.cell i (by omega)
    returned := by
      -- the byte that is returned is the one of the last cell
      have htop : s.image.byte (offsetEntropyPool + s.entropyPoolSize - 1) =
          byteOf s.saved (stock.cells.getLast hne) := by
        rw [List.getLast_eq_getElem, ← h.cell _ (by omega)]
        exact congrArg s.image.byte (by omega)
      simp only [randomRequestByte, Stock.pop, List.map_append, List.map_singleton, htop,
        h.returned]
    accesses := fun addr hmem => by
      rcases List.mem_append.mp hmem with hmem | hmem
      · exact h.accesses addr hmem
      · have haddr : addr = offsetEntropyPool + s.entropyPoolSize - 1 := by simpa using hmem
        simp only [sizeEntropyPool]
        omega }

/-- The interrupt has nothing to do with the pool. -/
theorem isrHardwareNeutral_pool (s : Generator) (val : Byte) :
    (s.isrHardwareNeutral val).saved = s.saved ∧
      (s.isrHardwareNeutral val).entropyPoolSize = s.entropyPoolSize ∧
      (s.isrHardwareNeutral val).image = s.image ∧
      (s.isrHardwareNeutral val).returned = s.returned ∧
      (s.isrHardwareNeutral val).accesses = s.accesses := by
  simp only [isrHardwareNeutral]
  split_ifs <;> exact ⟨rfl, rfl, rfl, rfl, rfl⟩

theorem Stocked.interrupt (h : Stocked s stock) (val : Byte) :
    Stocked (s.isrHardwareNeutral val) stock := by
  obtain ⟨hsaved, hsize, himage, hreturned, haccesses⟩ := isrHardwareNeutral_pool s val
  exact {
    blocks := hsaved ▸ h.blocks
    size := hsize ▸ h.size
    size_le := hsize ▸ h.size_le
    cell := by
      rw [himage, hsaved]
      exact h.cell
    returned := by rw [hreturned, hsaved, h.returned]
    accesses := haccesses ▸ h.accesses }

theorem Stocked.step (h : Stocked s stock) (hstep : Step s s') :
    ∃ stock', Stocked s' stock' := by
  cases hstep with
  | interrupt val => exact ⟨stock, h.interrupt val⟩
  | save => exact h.save
  | request available => exact h.request available

theorem stocked_reset (haccesses : ∀ addr ∈ s.accesses,
    offsetEntropyPool ≤ addr ∧ addr < offsetEntropyPool + sizeEntropyPool) :
    Stocked s.randomReset (.empty 4) where
  blocks := rfl
  size := rfl
  size_le := Nat.zero_le _
  cell i hi := absurd hi (Nat.not_lt_zero i)
  returned := rfl
  accesses := haccesses

/-! ## Runs -/

theorem invariant {image : Image} (hrun : Relation.ReflTransGen StepOrReset (init image) s) :
    Sampled s ∧ ∃ stock, Stocked s stock := by
  induction hrun with
  | refl =>
      exact ⟨sampled_reset (init image), .empty 4,
        stocked_reset (s := init image) fun _ h => absurd h List.not_mem_nil⟩
  | tail _ hstep ih =>
      obtain ⟨hsampled, stock, hstocked⟩ := ih
      cases hstep with
      | step hstep => exact ⟨hsampled.step hstep, hstocked.step hstep⟩
      | reset => exact ⟨sampled_reset _, .empty 4, stocked_reset hstocked.accesses⟩

/-- Until a double word that is complete is saved, nothing but a reset changes it. -/
theorem pending_kept (hpending : s.randomTransfer = true)
    (hrun : Relation.ReflTransGen Step s s') :
    s'.saved = s.saved ∧ s'.randomTransfer = true ∧ s'.randomDword = s.randomDword ∨
      s.saved ++ [s.randomDword] <+: s'.saved := by
  induction hrun with
  | refl => exact Or.inl ⟨rfl, hpending, rfl⟩
  | @tail s₁ s₂ _ hstep ih =>
      rcases ih with ⟨hsaved, htransfer, hdword⟩ | hextends
      · cases hstep with
        | interrupt val =>
            -- the sample is ignored
            rw [isrHardwareNeutral, if_pos htransfer]
            exact Or.inl ⟨hsaved, htransfer, hdword⟩
        | save =>
            rw [randomSaveEntropy, if_pos htransfer]
            split_ifs with hfull
            · exact Or.inl ⟨hsaved, htransfer, hdword⟩
            · exact Or.inr (by rw [← hsaved, ← hdword])
        | request available => exact Or.inl ⟨hsaved, htransfer, hdword⟩
      -- double words are only added to those that are saved
      · refine Or.inr (hextends.trans ?_)
        cases hstep with
        | interrupt val => exact (isrHardwareNeutral_pool s₁ val).1 ▸ List.prefix_rfl
        | save =>
            rw [randomSaveEntropy]
            split_ifs
            · exact List.prefix_rfl
            · exact List.prefix_append _ _
            · exact List.prefix_rfl
        | request available => exact List.prefix_rfl

end Generator

open Generator

/-- In every state of every run from `random_init`: the pool has not overflowed, and no
access was outside it; every saved double word is the hash of its own 32 samples; the
bytes that were returned are bytes of saved double words, at different positions; the
next request clears its cell; and a complete double word stays as it is until it is
saved. -/
theorem entropy_used_once {image : Image} {s : Generator}
    (hrun : Relation.ReflTransGen StepOrReset (.init image) s) :
    s.entropyPoolSize ≤ sizeEntropyPool ∧
    (∀ addr ∈ s.accesses,
      offsetEntropyPool ≤ addr ∧ addr < offsetEntropyPool + sizeEntropyPool) ∧
    (∀ k (hk : k < s.saved.length), numSample * (k + 1) ≤ s.samples.length ∧
      s.saved[k] = dwordOf ((s.samples.drop (numSample * k)).take numSample)) ∧
    (∃ source : List (ℕ × ℕ), source.Nodup ∧ s.returned = source.map (byteOf s.saved) ∧
      ∀ pos ∈ source, pos.1 < s.saved.length ∧ pos.2 < 4) ∧
    (0 < s.entropyPoolSize →
      s.randomRequestByte.2.image.byte (offsetEntropyPool + s.entropyPoolSize - 1) = 0) ∧
    (s.randomTransfer = true → ∀ s', Relation.ReflTransGen Step s s' →
      s'.saved = s.saved ∧ s'.randomTransfer = true ∧ s'.randomDword = s.randomDword ∨
        s.saved ++ [s.randomDword] <+: s'.saved) := by
  obtain ⟨hsampled, stock, hstocked⟩ := invariant hrun
  have hle := hstocked.size_le
  refine ⟨hle, hstocked.accesses, fun k hk => ⟨?_, hsampled.saved k hk⟩,
    ⟨stock.given, stock.nodup_given, hstocked.returned, fun pos hpos => ?_⟩, fun available => ?_,
    fun hpending s' hrun' => pending_kept hpending hrun'⟩
  · have hlength := hsampled.length
    exact (Nat.mul_le_mul_left numSample (Nat.succ_le_of_lt hk)).trans (by omega)
  · exact hstocked.blocks ▸ stock.given_inside hpos
  · simp only [sizeEntropyPool] at hle
    have hpool : offsetEntropyPool = 7 := rfl
    exact @Image.byte_store_getElem s.image _ 0 [0] (by simp; omega) (by simp)

/-- Thirty-two interrupts, a transfer and a request. -/
theorem entropy_used_once_request :
    let s := ((List.replicate 32 7).foldl isrHardwareNeutral (.init .zero)).randomSaveEntropy
    s.randomRequestByte.2.entropyPoolSize = 3 ∧
      ∃ source : List (ℕ × ℕ), source.Nodup ∧
        s.randomRequestByte.2.returned = source.map (byteOf s.randomRequestByte.2.saved) := by
  intro s
  have hinterrupts : ∀ (samples : List Byte) (s₀ : Generator), Relation.ReflTransGen StepOrReset s₀
      (samples.foldl isrHardwareNeutral s₀) := by
    intro samples
    induction samples with
    | nil => exact fun _ => .refl
    | cons val rest ih => exact fun s₀ => .head (.step (.interrupt s₀ val)) (ih _)
  have hrun : Relation.ReflTransGen StepOrReset (.init .zero) s.randomRequestByte.2 :=
    .tail (.tail (hinterrupts _ _) (.step (.save _))) (.step (.request _ (by decide +kernel)))
  obtain ⟨-, -, -, ⟨source, hnodup, hreturned, -⟩, -⟩ := entropy_used_once hrun
  exact ⟨by decide +kernel, source, hnodup, hreturned⟩

end PasswordWallet
