import PasswordWallet.Security.Random

/-!
# Where the random bytes come from

The other half of `Random.c`: the watchdog interrupt hashes 32 samples to a double
word and leaves it in `random_dword` until `random_save_entropy` has moved it to the
pool.  The interrupt, the transfer, a request and `random_reset` are taken as atomic,
in any order; a request finds entropy available.

A `Generator` also keeps what has happened since the last `random_reset`, and the
addresses of the FRAM that have been accessed.  Nothing of the firmware reads them.

`Security/Random.lean` only knows the double words, one after the other; the transfer
and the request here are those there (`completes_randomSaveEntropy`,
`completes_randomRequestByte`).
-/

namespace PasswordWallet

open PowerLoss

def numSample : ℕ := 32

def jenkinOneAtATimeStep (dword : BitVec 32) (val : Byte) : BitVec 32 :=
  let dword := dword + val.setWidth 32
  let dword := dword + (dword <<< 10)
  dword ^^^ (dword >>> 6)

def jenkinOneAtATimeFinal (dword : BitVec 32) : BitVec 32 :=
  let dword := dword + (dword <<< 3)
  let dword := dword ^^^ (dword >>> 11)
  dword + (dword <<< 15)

/-- What samples are hashed to. -/
def dwordOf (samples : List Byte) : BitVec 32 :=
  jenkinOneAtATimeFinal (samples.foldl jenkinOneAtATimeStep 0)

/-- The bytes of a double word, in the order they are stored. -/
def dwordBytes (dword : BitVec 32) : Vector Byte 4 :=
  Vector.ofFn fun i : Fin 4 => (dword >>> (8 * i.val)).setWidth 8

/-- The variables of `Random.c` and the memories, with the addresses that have been
accessed, and since the last `random_reset` the samples that the interrupt has taken,
the double words that have been saved and the bytes that have been returned. -/
structure Generator where
  sampleCount : ℕ
  randomDword : BitVec 32
  randomTransfer : Bool
  entropyPoolSize : ℕ
  image : Image
  accesses : List ℕ
  samples : List Byte
  saved : List (BitVec 32)
  returned : List Byte

namespace Generator

/-- `isr_hardware_neutral`. -/
def isrHardwareNeutral (s : Generator) (val : Byte) : Generator :=
  -- until the transfer the samples are dropped
  if s.randomTransfer then s
  else
    let dword := jenkinOneAtATimeStep s.randomDword val
    let count := (s.sampleCount + 1) % 256
    if count ≥ numSample then
      { s with
        randomDword := jenkinOneAtATimeFinal dword
        sampleCount := 0
        randomTransfer := true
        samples := s.samples ++ [val] }
    else { s with randomDword := dword, sampleCount := count, samples := s.samples ++ [val] }

/-- `random_save_entropy`. -/
def randomSaveEntropy (s : Generator) : Generator :=
  if s.randomTransfer then
    -- without room in the pool the double word waits
    if s.entropyPoolSize > sizeEntropyPool - 4 then s
    else
      let addr := offsetEntropyPool + s.entropyPoolSize
      { s with
        image := s.image.store addr (dwordBytes s.randomDword).toList
        entropyPoolSize := (s.entropyPoolSize + 4) % 65536
        randomDword := 0
        randomTransfer := false
        accesses := s.accesses ++ (List.range 4).map (addr + ·)
        saved := s.saved ++ [s.randomDword] }
  else s

/-- `random_request_byte` behind its loop. -/
def randomRequestByte (s : Generator) : Byte × Generator :=
  let addr := offsetEntropyPool + s.entropyPoolSize - 1
  let random := s.image.byte addr
  (random, { s with
    image := s.image.store addr [0]
    entropyPoolSize := s.entropyPoolSize - 1
    accesses := s.accesses ++ [addr, addr]
    returned := s.returned ++ [random] })

/-- `random_reset`. -/
def randomReset (s : Generator) : Generator where
  sampleCount := 0
  randomDword := 0
  randomTransfer := false
  entropyPoolSize := 0
  image := s.image
  accesses := s.accesses
  samples := []
  saved := []
  returned := []

/-- After `random_init`, with any memories. -/
def init (image : Image) : Generator where
  sampleCount := 0
  randomDword := 0
  randomTransfer := false
  entropyPoolSize := 0
  image := image
  accesses := []
  samples := []
  saved := []
  returned := []

/-- A step, but for `random_reset`. -/
inductive Step : Generator → Generator → Prop
  | interrupt (s : Generator) (val : Byte) : Step s (s.isrHardwareNeutral val)
  | save (s : Generator) : Step s s.randomSaveEntropy
  | request (s : Generator) (available : 0 < s.entropyPoolSize) : Step s s.randomRequestByte.2

/-- A step, `random_reset` included. -/
inductive StepOrReset : Generator → Generator → Prop
  | step {s s' : Generator} (h : Step s s') : StepOrReset s s'
  | reset (s : Generator) : StepOrReset s s.randomReset

end Generator

/-! ## The functions on the memories -/

section Memories

variable {s : Generator} {v : Ram}

/-- The transfer of a complete double word is `random_save_entropy` on the memories. -/
theorem completes_randomSaveEntropy (hpending : s.randomTransfer = true)
    (hpool : v.pool.size = s.entropyPoolSize) (hdword : v.dwords 0 = dwordBytes s.randomDword) :
    ∃ v', Completes randomSaveEntropy s.image v () s.randomSaveEntropy.image v' ∧
      v'.pool.size = s.randomSaveEntropy.entropyPoolSize := by
  have hle := v.pool.size_le
  by_cases hfull : v.pool.size > sizeEntropyPool - 4
  · refine ⟨v, ?_⟩
    rw [Generator.randomSaveEntropy, if_pos hpending, if_pos (hpool ▸ hfull)]
    refine ⟨?_, hpool⟩
    have hrun : randomSaveEntropy s.image v = ⟨[], v, some ()⟩ := by
      show (if h : v.pool.size > sizeEntropyPool - 4 then _ else _ : Dev Unit) s.image v = _
      rw [dif_pos hfull]
      rfl
    rw [Completes, hrun]
    exact ⟨rfl, rfl, rfl⟩
  · have hpost : wp randomSaveEntropy (fun _ p' v' =>
        p' = s.image.store (offsetEntropyPool + v.pool.size) (v.dwords 0).toList ∧
          v'.pool.size = v.pool.size + 4) (fun _ _ => False) (fun _ _ => True) s.image v := by
      simp only [randomSaveEntropy, wp_bind, wp_ram, wp_dite]
      refine ⟨fun h => absurd h hfull, fun _ => wp_framWriteBytes (fun _ _ => trivial) ?_⟩
      rw [wp_setRam]
      exact ⟨rfl, rfl⟩
    obtain ⟨_, p', v', hrun, rfl, hsize⟩ := exists_completes hpost
    refine ⟨v', ?_, ?_⟩
    · rw [Generator.randomSaveEntropy, if_pos hpending, if_neg (hpool ▸ hfull), ← hpool, ← hdword]
      exact hrun
    · rw [Generator.randomSaveEntropy, if_pos hpending, if_neg (hpool ▸ hfull), hsize, hpool]
      simp only [sizeEntropyPool] at hle
      exact (Nat.mod_eq_of_lt (by omega)).symm

/-- A request is `random_request_byte` on the memories. -/
theorem completes_randomRequestByte (available : 0 < s.entropyPoolSize)
    (hpool : v.pool.size = s.entropyPoolSize) :
    ∃ v', Completes randomRequestByte s.image v s.randomRequestByte.1 s.randomRequestByte.2.image
        v' ∧ v'.pool.size = s.randomRequestByte.2.entropyPoolSize := by
  have hpost : wp randomRequestByte (fun random p' v' => random = s.randomRequestByte.1 ∧
      p' = s.randomRequestByte.2.image ∧ v'.pool.size = s.randomRequestByte.2.entropyPoolSize)
      (fun _ _ => False) (fun _ _ => True) s.image v := by
    simp only [randomRequestByte, randomWait, wp_bind, wp_ram, wp_ite, wp_pure, wp_framReadByte,
      wp_framWriteByte, wp_setRam]
    refine ⟨fun hzero => absurd hzero (by omega), fun _ => ⟨trivial, ?_⟩⟩
    rw [hpool]
    exact ⟨rfl, rfl, rfl⟩
  obtain ⟨_, p', v', hrun, rfl, rfl, hsize⟩ := exists_completes hpost
  exact ⟨v', hrun, hsize⟩

end Memories

end PasswordWallet
