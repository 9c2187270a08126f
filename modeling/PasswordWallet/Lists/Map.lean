import PasswordWallet.Lists.Links

/-!
# The memory map

The bits of the memory map, as they are set and cleared, and the scans over
them.  A scan looks for the first id with a property from some id on: a free
one, to allocate it, or a used one, to walk through the passwords in no order.
-/

namespace PasswordWallet

open PowerLoss

variable {p p' : Image} {v : Ram} {pwdId : ℕ} {H : Image → Ram → Prop}

/-- The bytes of the memory map. -/
def mapRegion : Set ℕ := {x | 263 ≤ x ∧ x < 362}

/-! ## One bit -/

/-- Writing one byte of the map changes its bits only. -/
theorem used_store {row id : ℕ} {byte : Byte} (hrow : row < sizeMemoryMap)
    (hid : id < 8 * sizeMemoryMap) :
    (p.store (offsetMemoryMap + row) [byte]).used id =
      if id / 8 = row then byte.getLsbD (id % 8) else p.used id := by
  simp only [sizeMemoryMap] at hrow hid
  have hfit : offsetMemoryMap + row + [byte].length ≤ framByteSize := by
    simp
    omega
  rw [Image.used]
  split
  · next heq =>
      rw [heq]
      exact congrArg (BitVec.getLsbD · (id % 8)) (Image.byte_store_getElem (i := 0) hfit (by simp))
  · next hne =>
      rw [Image.byte_store_of_disjoint hfit (by simp; omega) (by simp; omega), Image.used]

theorem sameOff_store_map {row : ℕ} (byte : Byte) (hrow : row < sizeMemoryMap) :
    SameOff mapRegion p (p.store (offsetMemoryMap + row) [byte]) := by
  refine Write.Within.sameOff (w := .fram ((offsetMemoryMap + row) % framByteSize) byte) ?_ p
  simp only [Write.Within, mapRegion, Set.mem_ofPred_eq]
  simp at hrow ⊢
  omega

theorem getLsbD_one_shiftLeft :
    ∀ i < 8, ∀ j < 8, ((1 : Byte) <<< i).getLsbD j = decide (j = i) := by
  decide

theorem getLsbD_setBit (b : Byte) {i j : ℕ} (hi : i < 8) (hj : j < 8) :
    (b ||| (1 : Byte) <<< i).getLsbD j = (b.getLsbD j || decide (j = i)) := by
  rw [BitVec.getLsbD_or, getLsbD_one_shiftLeft i hi j hj]

theorem getLsbD_clearBit (b : Byte) {i j : ℕ} (hi : i < 8) (hj : j < 8) :
    (b &&& ~~~((1 : Byte) <<< i)).getLsbD j = (b.getLsbD j && decide (j ≠ i)) := by
  rw [BitVec.getLsbD_and, BitVec.getLsbD_not, getLsbD_one_shiftLeft i hi j hj, decide_eq_true hj,
    Bool.true_and, decide_not]

/-- The write that setting a bit and clearing one have in common: all other bits
of the byte are kept. -/
theorem wp_writeMapByte {f : Bool → Bool} {byte : Byte} (hid : pwdId < 8 * sizeMemoryMap)
    (hbyte : ∀ j < 8, byte.getLsbD j =
      if j = pwdId % 8 then f (p.used pwdId) else
        (p.byte (offsetMemoryMap + pwdId / 8)).getLsbD j) :
    wp (framWriteByte (offsetMemoryMap + pwdId / 8) byte)
      (fun _ p' v' => v' = v ∧ SameOff mapRegion p p' ∧ ∀ id < 8 * sizeMemoryMap,
        p'.used id = if id = pwdId then f (p.used pwdId) else p.used id)
      H
      (fun step p' => step.write.Within mapRegion ∧ SameOff mapRegion p p' ∧
        ∀ id < 8 * sizeMemoryMap,
          p'.used id = if id = pwdId then f (p.used pwdId) else p.used id) p v := by
  have hrow : pwdId / 8 < sizeMemoryMap := by omega
  have hused : ∀ id < 8 * sizeMemoryMap,
      (p.store (offsetMemoryMap + pwdId / 8) [byte]).used id =
        if id = pwdId then f (p.used pwdId) else p.used id := by
    intro id hid'
    rw [used_store hrow hid']
    split
    · next hrow' =>
        have hmod : id % 8 = pwdId % 8 ↔ id = pwdId := by omega
        have hkept : p.used id = (p.byte (offsetMemoryMap + pwdId / 8)).getLsbD (id % 8) := by
          rw [Image.used, hrow']
        rw [hbyte _ (Nat.mod_lt _ (by decide)), hkept]
        simp only [hmod]
    · next hrow' =>
        have hne : id ≠ pwdId := fun h => hrow' (by rw [h])
        rw [if_neg hne]
  rw [wp_framWriteByte]
  have hsame := sameOff_store_map (p := p) byte hrow
  refine ⟨⟨?_, hsame, hused⟩, rfl, hsame, hused⟩
  simp only [Write.Within, mapRegion, Set.mem_ofPred_eq]
  simp at hrow ⊢
  omega

theorem wp_setMapBit (hid : pwdId < 8 * sizeMemoryMap) :
    wp (setMapBit pwdId)
      (fun _ p' v' => v' = v ∧ SameOff mapRegion p p' ∧ ∀ id < 8 * sizeMemoryMap,
        p'.used id = if id = pwdId then true else p.used id)
      H
      (fun step p' => step.write.Within mapRegion ∧ SameOff mapRegion p p' ∧
        ∀ id < 8 * sizeMemoryMap, p'.used id = if id = pwdId then true else p.used id) p v := by
  rw [setMapBit, wp_bind, wp_framReadByte]
  refine wp_writeMapByte (f := fun _ => true) hid fun j hj => ?_
  rw [getLsbD_setBit _ (Nat.mod_lt _ (by decide)) hj]
  split
  · next heq => simp [heq]
  · next hne => simp [hne]

theorem wp_clearMapBit (hid : pwdId < 8 * sizeMemoryMap) :
    wp (clearMapBit pwdId)
      (fun _ p' v' => v' = v ∧ SameOff mapRegion p p' ∧ ∀ id < 8 * sizeMemoryMap,
        p'.used id = if id = pwdId then false else p.used id)
      H
      (fun step p' => step.write.Within mapRegion ∧ SameOff mapRegion p p' ∧
        ∀ id < 8 * sizeMemoryMap, p'.used id = if id = pwdId then false else p.used id) p v := by
  rw [clearMapBit, wp_bind, wp_framReadByte]
  refine wp_writeMapByte (f := fun _ => false) hid fun j hj => ?_
  rw [getLsbD_clearBit _ (Nat.mod_lt _ (by decide)) hj]
  split
  · next heq => simp [heq]
  · next hne => simp [hne]

/-! ## Scans -/

/-- The first id from `low` on, and below `high`, that satisfies `P` and has a
chunk; `none` when there is none. -/
def FirstIn (P : ℕ → Prop) (low high : ℕ) : Option ℕ → Prop
  | some id => low ≤ id ∧ id < high ∧ id < maximumNumberOfPwd ∧ P id ∧
      ∀ other, low ≤ other → other < id → ¬ P other
  | none => ∀ id, low ≤ id → id < high → id < maximumNumberOfPwd → ¬ P id

theorem FirstIn.of_none {P : ℕ → Prop} {low mid high : ℕ} {found : Option ℕ}
    (hnone : FirstIn P low mid none) (h : FirstIn P mid high found) (hle : low ≤ mid) :
    FirstIn P low high found := by
  cases found with
  | none =>
      intro id hlow hhigh hid
      rcases Nat.lt_or_ge id mid with hlt | hge
      · exact hnone id hlow hlt hid
      · exact h id hge hhigh hid
  | some found =>
      obtain ⟨hmid, hhigh, hid, hfound, hfirst⟩ := h
      refine ⟨hle.trans hmid, hhigh, hid, hfound, fun other hlow hother => ?_⟩
      rcases Nat.lt_or_ge other mid with hlt | hge
      · exact hnone other hlow hlt (hother.trans hid)
      · exact hfirst other hge hother

theorem FirstIn.here {P : ℕ → Prop} {low high : ℕ} (hid : low < maximumNumberOfPwd)
    (hhigh : low < high) (h : P low) : FirstIn P low high (some low) :=
  ⟨le_rfl, hhigh, hid, h, fun _ hle hlt => absurd hle (not_le.mpr hlt)⟩

theorem FirstIn.step {P : ℕ → Prop} {low high : ℕ} {found : Option ℕ} (h : ¬ P low)
    (hrest : FirstIn P (low + 1) high found) : FirstIn P low high found := by
  refine .of_none (fun id hlow hhigh _ => ?_) hrest (Nat.le_succ low)
  rwa [show id = low by omega]

/-- The bits of a byte of the map are those of eight ids. -/
theorem getLsbD_byte (i : ℕ) {j : ℕ} (hj : j < 8) :
    (p.byte (offsetMemoryMap + i)).getLsbD j = p.used (i * 8 + j) := by
  rw [Image.used, show (i * 8 + j) / 8 = i by omega, show (i * 8 + j) % 8 = j by omega]

theorem freeInByte_first (i : ℕ) {j count : ℕ} (h : j + count ≤ 8) :
    FirstIn (fun id => p.used id = false) (i * 8 + j) (i * 8 + (j + count))
      (freeInByte (p.byte (offsetMemoryMap + i)) i j count) := by
  induction count generalizing j with
  | zero => exact fun id hlow hhigh _ => absurd hlow (by omega)
  | succ count ih =>
      rw [freeInByte]
      split
      · exact fun id hlow _ hid => absurd hid (by omega)
      · next hid =>
          rw [getLsbD_byte i (by omega)]
          split
          · next hused =>
              refine .step (by simp [hused]) ?_
              have := ih (j := j + 1) (by omega)
              rwa [← Nat.add_assoc, show j + 1 + count = j + (count + 1) by omega] at this
          · next hfree => exact .here (by omega) (by omega) (by simpa using hfree)

/-- The search for a free chunk finds the first one. -/
theorem freeScan_first (i count : ℕ) :
    FirstIn (fun id => p.used id = false) (i * 8) ((i + count) * 8) (freeScan p i count) := by
  induction count generalizing i with
  | zero => exact fun id hlow hhigh _ => absurd hlow (by omega)
  | succ count ih =>
      have hbyte : FirstIn _ _ _ (freeInByte (p.byte (offsetMemoryMap + i)) i 0 8) :=
        freeInByte_first i le_rfl
      rw [freeScan]
      cases hfound : freeInByte (p.byte (offsetMemoryMap + i)) i 0 8 with
      | none =>
          rw [hfound] at hbyte
          have := ih (i + 1)
          rw [show i + 1 + count = i + (count + 1) by omega] at this
          refine .of_none hbyte ?_ (by omega)
          rwa [show i * 8 + (0 + 8) = (i + 1) * 8 by omega]
      | some found =>
          rw [hfound] at hbyte
          obtain ⟨hlow, hhigh, hid, hfree, hfirst⟩ := hbyte
          exact ⟨by omega, by omega, hid, hfree, fun other h => hfirst other (by omega)⟩

end PasswordWallet
