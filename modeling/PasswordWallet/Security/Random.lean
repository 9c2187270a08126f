import PasswordWallet.Memory.Image

/-!
# Random bytes

`Random.c` keeps random bytes in the entropy pool of the FRAM.  The watchdog
interrupt completes a random double word now and then (`Ram.dwords` lists those
to come); `random_save_entropy` moves it to the pool, and `random_request_byte`
takes the last byte of the pool and clears its cell, waiting for a double word
when the pool is empty.
-/

namespace PasswordWallet

open PowerLoss

/-- `random_save_entropy`, once a double word is complete. -/
def randomSaveEntropy : Dev Unit := do
  let v ← Program.ram
  if h : v.pool.size > sizeEntropyPool - 4 then pure ()
  else do
    framWriteBytes (offsetEntropyPool + v.pool.size) (v.dwords 0).toList
    Program.setRam { v with
      pool := ⟨v.pool.size + 4, by simp at h ⊢; omega⟩
      dwords := fun n => v.dwords (n + 1) }

/-- The wait of `random_request_byte`: with an empty pool it spins until the
next double word is saved. -/
def randomWait : Dev Unit := do
  let v ← Program.ram
  if v.pool.size = 0 then randomSaveEntropy else pure ()

/-- `random_request_byte`. -/
def randomRequestByte : Dev Byte := do
  randomWait
  let v ← Program.ram
  let random ← framReadByte (offsetEntropyPool + v.pool.size - 1)
  framWriteByte (offsetEntropyPool + v.pool.size - 1) 0
  Program.setRam { v with pool := ⟨v.pool.size - 1, (Nat.sub_le _ _).trans v.pool.size_le⟩ }
  pure random

/-- The loop that fills a buffer with random bytes, in the order they are
drawn. -/
def randomFill (draw : Dev Byte) : ℕ → Dev (List Byte)
  | 0 => pure []
  | count + 1 => do
      let byte ← draw
      let rest ← randomFill draw count
      pure (byte :: rest)

/-- `random_request_printable`, in the range `[' '; '~'[`.  Bytes too large for
an unbiased division are drawn again, `fuel` times at most. -/
def randomRequestPrintable : ℕ → Dev Byte
  | 0 => Program.hang
  | fuel + 1 => do
      let byte ← randomRequestByte
      let retVal := byte.toNat / 2
      if retVal ≥ 94 then randomRequestPrintable fuel
      else pure (BitVec.ofNat 8 (retVal + 32))

/-! ## What drawing touches -/

/-- The bytes of the entropy pool. -/
def poolRegion : Set ℕ := {x | 7 ≤ x ∧ x < 263}

/-- Nothing but the entropy differs. -/
def Drawn (v v' : Ram) : Prop := v' = { v with pool := v'.pool, dwords := v'.dwords }

theorem Drawn.refl (v : Ram) : Drawn v v := rfl

theorem Drawn.setNumPwd {v v' : Ram} (h : Drawn v v') (numPwd : ℕ) :
    Drawn { v with numPwd := numPwd } { v' with numPwd := numPwd } := by
  unfold Drawn at *
  rw [h]

theorem Drawn.trans {v₁ v₂ v₃ : Ram} (h₁ : Drawn v₁ v₂) (h₂ : Drawn v₂ v₃) : Drawn v₁ v₃ := by
  unfold Drawn at *
  rw [h₂, h₁]

section Fields

variable {v v' : Ram} (h : Drawn v v')
include h

theorem Drawn.key : v'.key = v.key := by rw [h]
theorem Drawn.numPwd : v'.numPwd = v.numPwd := by rw [h]
theorem Drawn.currentPasswordId : v'.currentPasswordId = v.currentPasswordId := by rw [h]
theorem Drawn.optionsFlag : v'.optionsFlag = v.optionsFlag := by rw [h]
theorem Drawn.keyEntered : v'.keyEntered = v.keyEntered := by rw [h]
theorem Drawn.stack : v'.stack = v.stack := by rw [h]

end Fields

variable {p : Image} {v : Ram}

theorem wp_randomSaveEntropy :
    wp randomSaveEntropy (fun _ _ v' => Drawn v v' ∧ (v.pool.size = 0 → v'.pool.size = 4))
      (fun _ _ => False) (fun step _ => step.write.Within poolRegion) p v := by
  simp only [randomSaveEntropy, wp_bind, wp_ram, wp_dite, wp_pure]
  refine ⟨fun h => ⟨Drawn.refl v, fun hzero => by simp [hzero] at h⟩, fun h => ?_⟩
  simp only [sizeEntropyPool] at h
  refine wp_framWriteBytes (fun k hk => ?_) ?_
  · simp only [Vector.length_toList] at hk
    simp only [Write.Within, poolRegion, Set.mem_ofPred_eq, framByteSize, offsetEntropyPool,
      offsetNumPwd, offsetFirstPwdAlpha, offsetFirstPwdUse, offsetOptionsFlag, sizeOptionFlag,
      pAddrSz]
    omega
  · rw [wp_setRam]
    exact ⟨rfl, fun hzero => by simp [hzero]⟩

theorem wp_randomWait :
    wp randomWait (fun _ _ v' => Drawn v v' ∧ 0 < v'.pool.size)
      (fun _ _ => False) (fun step _ => step.write.Within poolRegion) p v := by
  simp only [randomWait, wp_bind, wp_ram, wp_ite, wp_pure]
  refine ⟨fun hzero => ?_, fun hpos => ⟨Drawn.refl v, Nat.pos_of_ne_zero hpos⟩⟩
  exact wp_imp wp_randomSaveEntropy fun _ _ _ h => ⟨h.1, by rw [h.2 hzero]; decide⟩

theorem wp_randomRequestByte :
    wp randomRequestByte (fun _ _ v' => Drawn v v') (fun _ _ => False)
      (fun step _ => step.write.Within poolRegion) p v := by
  simp only [randomRequestByte, wp_bind, wp_ram, wp_framReadByte, wp_framWriteByte, wp_setRam,
    wp_pure]
  refine wp_imp wp_randomWait fun _ p' v' hwait => ⟨?_, hwait.1.trans rfl⟩
  obtain ⟨-, hpos⟩ := hwait
  have hle := v'.pool.size_le
  simp only [Write.Within, poolRegion, Set.mem_ofPred_eq, framByteSize, offsetEntropyPool,
    offsetNumPwd, offsetFirstPwdAlpha, offsetFirstPwdUse, offsetOptionsFlag, sizeOptionFlag,
    pAddrSz, sizeEntropyPool] at hle ⊢
  omega

theorem wp_randomFill {draw : Dev Byte} {P : Byte → Prop} {H : Image → Ram → Prop}
    {C : Step Write → Image → Prop}
    (hdraw : ∀ p v, wp draw (fun byte _ v' => P byte ∧ Drawn v v') H C p v) (count : ℕ) :
    wp (randomFill draw count)
      (fun bytes _ v' => (bytes.length = count ∧ ∀ byte ∈ bytes, P byte) ∧ Drawn v v') H C p v := by
  induction count generalizing p v with
  | zero => exact (wp_pure _).mpr ⟨⟨rfl, by simp⟩, Drawn.refl v⟩
  | succ count ih =>
      simp only [randomFill, wp_bind, wp_pure]
      refine wp_imp (hdraw p v) ?_
      intro byte p' v' hpost
      obtain ⟨hbyte, hfirst⟩ := hpost
      refine wp_imp ih ?_
      intro rest p'' v'' hpost
      obtain ⟨⟨hlength, hbytes⟩, hrest⟩ := hpost
      refine ⟨⟨?_, ?_⟩, ?_⟩
      · rw [List.length_cons, hlength]
      · exact List.forall_mem_cons.mpr ⟨hbyte, hbytes⟩
      · exact hfirst.trans hrest

/-- Drawing from the entropy pool for ever is no way to hang. -/
theorem wp_randomBytes (count : ℕ) :
    wp (randomFill randomRequestByte count)
      (fun bytes _ v' => bytes.length = count ∧ Drawn v v') (fun _ _ => False)
      (fun step _ => step.write.Within poolRegion) p v := by
  have hdraw : ∀ p v, wp randomRequestByte (fun _ _ v' => True ∧ Drawn v v') (fun _ _ => False)
      (fun step _ => step.write.Within poolRegion) p v := fun _ _ =>
    wp_imp wp_randomRequestByte fun _ _ _ h => ⟨trivial, h⟩
  exact wp_imp (wp_randomFill hdraw count) fun _ _ _ h => ⟨h.1.1, h.2⟩

/-- The range of a printable character. -/
theorem wp_randomRequestPrintable (fuel : ℕ) :
    wp (randomRequestPrintable fuel)
      (fun byte _ v' => (32 ≤ byte.toNat ∧ byte.toNat ≤ 125) ∧ Drawn v v') (fun _ _ => True)
      (fun step _ => step.write.Within poolRegion) p v := by
  induction fuel generalizing p v with
  | zero => exact wp_hang.mpr trivial
  | succ fuel ih =>
      simp only [randomRequestPrintable, wp_bind, wp_ite, wp_pure]
      refine wp_mono wp_randomRequestByte (fun byte p' v' hdrawn => ?_) (fun _ _ => False.elim)
        fun _ _ => id
      refine ⟨fun _ => wp_imp ih fun _ _ _ h => ⟨h.1, hdrawn.trans h.2⟩, fun hlow => ⟨?_, hdrawn⟩⟩
      rw [BitVec.toNat_ofNat]
      omega

end PasswordWallet
