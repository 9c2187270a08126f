import PasswordWallet.Rekey.Progress

/-!
# Which chunks a change of key re-encrypts

`encryption_update_key(new_key, 0)` visits the used chunks of the first byte of
the memory map and no others, since its inner counter stays at 8 afterwards.
Those eight are re-encrypted as they should be, and nothing else is touched.
The call is therefore complete exactly when every other used chunk happens to
read the same under both keys (`encryptionUpdateKey_rekeyed_iff`).

The chunk with the last id is left out.  It does not fit into the memory, its
last bytes being those of the option flag, the list heads and the entropy pool,
and `opt_callback_add_pwd` refuses to allocate it.
-/

namespace PasswordWallet

open PowerLoss

/-- The bytes a re-keying may write outside the entropy pool: the secrets of the
used chunks, and the backup section. -/
def rekeyRegion (p : Image) : Set ℕ :=
  {x | ∃ id < maximumNumberOfPwd, p.used id = true ∧ x ∈ secretRegion id} ∪ backupRegion

/-- Every used chunk reads under the new key as it did under the old one, the new
key is the master key, and nothing else has changed. -/
structure Rekeyed (t : Target) (newKey : Block) (p : Image) (v : Ram) (p' : Image) (v' : Ram) :
    Prop where
  data : ∀ id < maximumNumberOfPwd, p.used id = true →
    passwordReadData t id newKey p' = passwordReadData t id v.key p
  usrName : ∀ id < maximumNumberOfPwd, p.used id = true →
    passwordReadUsrName t id newKey p' = passwordReadUsrName t id v.key p
  key : v'.key = newKey
  frame : SameOff (drawing (rekeyRegion p)) p p'

variable {cipher : BlockCipher} {newKey : Block} {p : Image} {v : Ram}

/-- The bytes that are written: the secrets of the used chunks of the first byte
of the map, the backup section, the pool. -/
def firstByteRegion (p : Image) : Set ℕ :=
  drawing ({x | ∃ id < 8, p.used id = true ∧ x ∈ secretRegion id} ∪ backupRegion)

theorem firstByteRegion_subset (p : Image) : firstByteRegion p ⊆ drawing (rekeyRegion p) := by
  refine Set.union_subset_union_right _ (Set.union_subset_union_left _ ?_)
  rintro x ⟨id, hid, hused, hx⟩
  exact ⟨id, by simp; omega, hused, hx⟩

theorem chunkRegion_notMem_firstByte {id x : ℕ} (hlow : 8 ≤ id) (hhigh : id < 767)
    (hx : x ∈ chunkRegion id) : x ∉ firstByteRegion p := by
  have hge := ((mem_chunkRegion hhigh).mp hx).1
  refine notMem_drawing (by omega) ?_
  rintro (⟨other, hother, -, hmem⟩ | hmem)
  · exact chunkRegion_disjoint hhigh (by omega) (by omega) hx (secretRegion_subset hmem)
  · exact chunkRegion_notMem_backup (by omega) hx hmem

theorem wp_encryptionUpdateKey_within {t : Target} :
    wp (encryptionUpdateKey t newKey 0) (fun _ _ _ => True) (fun _ _ => False)
      (fun step _ => step.write.Within (firstByteRegion p)) p v := by
  refine wp_encryptionUpdateKey (fun _ _ _ => True) (by decide) trivial ?_
    (fun _ _ _ _ _ _ _ => trivial) fun _ _ _ => trivial
  intro id p' v' _ hrow hid hused _
  refine wp_mono (wp_updateChunk (plain_of_lt_eight (by omega)) hid) (fun _ _ _ _ => trivial)
    (fun _ _ h => h) fun step _ h => h.1.mono ?_
  refine Set.union_subset_union_right _ (Set.union_subset_union_left _ fun x hx => ?_)
  exact ⟨id, by omega, hused, hx⟩

/-- The call ends.  The chunks of the first byte are re-keyed, the later ones
read as before under every key, and the frame is kept. -/
theorem encryptionUpdateKey_completes (t : Target) (newKey : Block) (p : Image) (v : Ram) :
    ∃ p' v', Completes (encryptionUpdateKey t newKey 0) p v () p' v' ∧ v'.key = newKey ∧
      SameOff (firstByteRegion p) p p' ∧
      ∀ id < 8, p.used id = true → secrets t id newKey p' = secrets t id v.key p := by
  have hstart : RekeyDone (secretsProgress t p v.key newKey) 0 p v :=
    ⟨rfl, fun _ _ => rfl, fun id _ _ => by rw [if_neg (Nat.not_lt_zero id)]⟩
  -- only the chunks of the first byte are visited, and they are plain
  have hrekey : wp (encryptionUpdateKey t newKey 0)
      (fun _ p' v' => v'.key = newKey ∧ (secretsProgress t p v.key newKey).done 8 p')
      (fun _ _ => False) (fun _ _ => True) p v := by
    refine wp_encryptionUpdateKey (RekeyDone (secretsProgress t p v.key newKey)) (by decide)
      hstart ?_ ?_ fun _ _ hend => ⟨rfl, hend.done⟩
    · intro id p' v' _ hrow hid _ hinv
      exact wp_mono (wp_updateChunk_done (plain_of_lt_eight (by omega)) hid hinv)
        (fun _ _ _ h => h.1) (fun _ _ h => h) fun _ _ _ => trivial
    · exact fun id p' v' _ _ hskip hinv => hinv.skip hskip
  obtain ⟨_, p', v', hrun, ⟨hkey, hdone⟩, hsame, -⟩ := exists_completes
    (wp_mono (wp_and hrekey (wp_sameOff wp_encryptionUpdateKey_within)) (fun _ _ _ h => h)
      (fun _ _ h => h.1) fun _ _ h => h)
  refine ⟨p', v', hrun, hkey, hsame, fun id hid hused => ?_⟩
  have := hdone id hid hused
  rwa [if_pos hid] at this

theorem secrets_of_not_visited {t : Target} {p' : Image} (id : ℕ) (key : Block)
    (hplain : t.addressing.Plain id) (hlow : 8 ≤ id) (hhigh : id < 767)
    (hsame : SameOff (firstByteRegion p) p p') : secrets t id key p' = secrets t id key p :=
  secrets_congr hplain fun _ _ hi =>
    hsame.chunkByte hi fun _ hx => chunkRegion_notMem_firstByte hlow hhigh hx

/-- Re-keying is complete exactly when every used chunk from id 8 on reads the
same under both keys to begin with. -/
theorem encryptionUpdateKey_rekeyed_iff (cipher : BlockCipher) (newKey : Block) (p : Image)
    (v : Ram) (h767 : p.used 767 = false) :
    (∃ p' v', Completes (encryptionUpdateKey ⟨.exact, cipher⟩ newKey 0) p v () p' v' ∧
        Rekeyed ⟨.exact, cipher⟩ newKey p v p' v') ↔
      ∀ id < maximumNumberOfPwd, 8 ≤ id → p.used id = true →
        passwordReadData ⟨.exact, cipher⟩ id newKey p =
            passwordReadData ⟨.exact, cipher⟩ id v.key p ∧
          passwordReadUsrName ⟨.exact, cipher⟩ id newKey p =
            passwordReadUsrName ⟨.exact, cipher⟩ id v.key p := by
  set t : Target := ⟨.exact, cipher⟩
  have hlast : ∀ {id}, id < maximumNumberOfPwd → p.used id = true → id < 767 := by
    intro id hid hused
    simp at hid
    rcases Nat.lt_or_ge id 767 with hlt | hge
    · exact hlt
    · obtain rfl : id = 767 := by omega
      rw [h767] at hused
      exact absurd hused (by decide)
  obtain ⟨p', v', hrun, hkey, hsame, hfirst⟩ := encryptionUpdateKey_completes t newKey p v
  have hrest : ∀ {id} (key : Block), id < maximumNumberOfPwd → 8 ≤ id → p.used id = true →
      secrets t id key p' = secrets t id key p := fun key hid hlow hused =>
    secrets_of_not_visited _ _ (Addressing.plain_exact _) hlow (hlast hid hused) hsame
  constructor
  · rintro ⟨p'', v'', hrun', hrekeyed⟩ id hid hlow hused
    obtain ⟨-, rfl, rfl⟩ := hrun.unique hrun'
    have h := Prod.ext_iff.mp (hrest newKey hid hlow hused)
    exact ⟨h.1.symm.trans (hrekeyed.data id hid hused),
      h.2.symm.trans (hrekeyed.usrName id hid hused)⟩
  · intro hcond
    have hall : ∀ id < maximumNumberOfPwd, p.used id = true →
        secrets t id newKey p' = secrets t id v.key p := fun id hid hused => by
      rcases Nat.lt_or_ge id 8 with hlt | hge
      · exact hfirst id hlt hused
      · rw [hrest newKey hid hge hused]
        exact Prod.ext (hcond id hid hge hused).1 (hcond id hid hge hused).2
    exact ⟨p', v', hrun, fun id hid hused => congrArg Prod.fst (hall id hid hused),
      fun id hid hused => congrArg Prod.snd (hall id hid hused), hkey,
      hsame.mono (firstByteRegion_subset p)⟩

/-! ## Two stores with one password -/

/-- The store in which one chunk is marked as used. -/
def Image.usedOnly (pwdId : ℕ) : Image :=
  { Image.zero with
    fram := fun x => if x = offsetMemoryMap + pwdId / 8 then (1 : Byte) <<< (pwdId % 8) else 0 }

theorem used_usedOnly_zero {id : ℕ} (hid : id < 768) (hlow : 8 ≤ id) :
    (Image.usedOnly 0).used id = false := by
  have hne : (offsetMemoryMap + id / 8) % framByteSize ≠ offsetMemoryMap + 0 / 8 := by
    simp
    omega
  have hbyte : (Image.usedOnly 0).byte (offsetMemoryMap + id / 8) = 0 := if_neg hne
  rw [Image.used, hbyte]
  exact BitVec.getLsbD_zero

/-- With chunk 0 as the only one, re-keying is complete. -/
theorem encryptionUpdateKey_rekeyed_zero :
    ∃ p' v', Completes (encryptionUpdateKey ⟨.exact, .xorKey⟩ (Vector.replicate 16 64) 0)
        (Image.usedOnly 0) (Ram.reset (fun _ => Vector.replicate 4 7) zeroIv) () p' v' ∧
      Rekeyed ⟨.exact, .xorKey⟩ (Vector.replicate 16 64) (Image.usedOnly 0)
        (Ram.reset (fun _ => Vector.replicate 4 7) zeroIv) p' v' :=
  (encryptionUpdateKey_rekeyed_iff .xorKey _ _ _ (by decide)).mpr fun _ hid hlow hused =>
    absurd (used_usedOnly_zero (by simpa using hid) hlow) (by rw [hused]; decide)

theorem passwordReadData_usedOnly_eight :
    passwordReadData ⟨.exact, .xorKey⟩ 8 (Vector.replicate 16 64) (Image.usedOnly 8) ≠
      passwordReadData ⟨.exact, .xorKey⟩ 8 (Vector.replicate 16 0) (Image.usedOnly 8) := by
  decide +kernel

/-- With chunk 8 as the only one, it is not. -/
theorem encryptionUpdateKey_not_rekeyed_eight :
    ¬ ∀ (cipher : BlockCipher) (newKey : Block) (p : Image) (v : Ram),
      ∃ p' v', Completes (encryptionUpdateKey ⟨.exact, cipher⟩ newKey 0) p v () p' v' ∧
        Rekeyed ⟨.exact, cipher⟩ newKey p v p' v' := by
  intro hclaim
  let v := Ram.reset (fun _ => Vector.replicate 4 7) zeroIv
  obtain ⟨p', v', hrun, hrekeyed⟩ := hclaim .xorKey (Vector.replicate 16 64) (.usedOnly 8) v
  obtain ⟨p'', v'', hrun', -, hsame, -⟩ := encryptionUpdateKey_completes ⟨.exact, .xorKey⟩
    (Vector.replicate 16 64) (.usedOnly 8) v
  obtain ⟨-, rfl, rfl⟩ := hrun.unique hrun'
  have hkept := secrets_of_not_visited (t := ⟨.exact, .xorKey⟩) 8 (Vector.replicate 16 64)
    (Addressing.plain_exact 8) le_rfl (by decide) hsame
  have hread := hrekeyed.data 8 (by decide) (by decide)
  exact passwordReadData_usedOnly_eight ((congrArg Prod.fst hkept).symm.trans hread)

end PasswordWallet
