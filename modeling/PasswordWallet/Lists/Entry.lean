import PasswordWallet.Lists.Store

/-!
# What a chunk says

An `Entry` is what a used chunk says to the user: its name, its counter and its
two texts, as they are read under a key.  It depends on the bytes of the chunk
behind the links only, and a chunk that has just been filled says what was put
there.

A text comes back with everything from its first byte below 32 on cleared
(`cleared`).
-/

namespace PasswordWallet

open PowerLoss

variable {t : Target} {pwdId id : ℕ} {key : Block} {p p' : Image} {v : Ram}

/-- What a password says: its name, its counter and its texts. -/
structure Entry where
  name : List Byte
  counter : ℕ
  data : List Byte
  usrName : List Byte
  deriving DecidableEq

def readEntry (t : Target) (key : Block) (pwdId : ℕ) (p : Image) : Entry where
  name := passwordReadName t pwdId p
  counter := passwordReadCounter t pwdId p
  data := passwordReadData t pwdId key p
  usrName := passwordReadUsrName t pwdId key p

/-- A text up to its first byte below 32, and zeros behind it. -/
def cleared (text : List Byte) : List Byte :=
  let front := text.takeWhile fun byte => 32 ≤ byte.toNat
  front ++ List.replicate (text.length - front.length) 0

theorem removePadding_eq (text : List Byte) : removePadding false text = cleared text := by
  induction text with
  | nil => rfl
  | cons byte rest ih =>
      rw [removePadding]
      by_cases hbyte : 32 ≤ byte.toNat
      · have hnot : ¬ byte.toNat < 32 := not_lt.mpr hbyte
        simp only [Bool.false_or, hnot, decide_false, Bool.false_eq_true, if_false]
        rw [ih, cleared, cleared, List.takeWhile_cons_of_pos (by simpa using hbyte)]
        simp
      · have hlow : byte.toNat < 32 := not_le.mp hbyte
        simp only [Bool.false_or, hlow, decide_true, if_true]
        rw [removePadding_true, cleared, List.takeWhile_cons_of_neg (by simpa using hbyte)]
        simp [List.replicate_succ]

/-! ## Frames -/

theorem readEntry_congr (hplain : t.addressing.Plain id)
    (h : ∀ i, 8 ≤ i → i < 170 → p'.chunkByte id i = p.chunkByte id i) :
    readEntry t key id p' = readEntry t key id p := by
  rw [readEntry, readEntry,
    passwordReadName_congr hplain fun i hi hi' => h i (by omega) (by omega),
    passwordReadCounter_congr hplain fun i hi hi' => h i (by omega) (by omega),
    passwordReadData_congr hplain fun i hi hi' => h i (by omega) (by omega),
    passwordReadUsrName_congr hplain fun i hi hi' => h i (by omega) (by omega)]

/-- Neither the lists nor another chunk have a part in what a chunk says. -/
theorem SameOff.readEntry (hsame : SameOff (pwdRegion t pwdId) p p')
    (hid : id < t.addressing.capacity) (hpwd : pwdId < 767) (hne : id ≠ pwdId) :
    PasswordWallet.readEntry t key id p' = PasswordWallet.readEntry t key id p :=
  readEntry_congr (Addressing.plain_of_lt hid) fun _ => hsame.chunkByte_of_pwd hid hpwd hne

theorem SameOff.readEntry_of_list (hsame : SameOff (listRegion t) p p')
    (hid : id < t.addressing.capacity) :
    PasswordWallet.readEntry t key id p' = PasswordWallet.readEntry t key id p :=
  readEntry_congr (Addressing.plain_of_lt hid) fun _ => hsame.chunkByte_of_list hid

/-- Writing one field of a chunk leaves the others alone. -/
theorem chunkByte_of_field {field size i : ℕ} (hid : id < 767) (hpwd : pwdId < 767)
    (hsame : SameOff (drawing (burst (535 + 170 * pwdId + field) size)) p p')
    (hfield : field + size ≤ 170) (hi : i < 170)
    (hout : id ≠ pwdId ∨ i < field ∨ field + size ≤ i) :
    p'.chunkByte id i = p.chunkByte id i := by
  have hsize : framByteSize = 131072 := rfl
  refine hsame.byte ?_
  rw [Nat.mod_eq_of_lt (by omega)]
  refine notMem_drawing (by omega) fun hmem => ?_
  rw [mem_burst (by omega)] at hmem
  omega

/-! ## Filling a chunk -/

theorem drawing_burst_subset {field size : ℕ} (hlow : 8 ≤ field) (hhigh : field + size ≤ 170) :
    drawing (burst (535 + 170 * pwdId + field) size) ⊆ fieldsRegion pwdId := by
  refine Set.union_subset_union_right _ ?_
  have hsub : burst (535 + 170 * pwdId + 8 + (field - 8)) size ⊆
      burst (535 + 170 * pwdId + 8) 162 := burst_subset (by omega)
  rwa [show 535 + 170 * pwdId + 8 + (field - 8) = 535 + 170 * pwdId + field by omega] at hsub

theorem wp_passwordSetCounter {val : ℕ} (hid : pwdId < t.addressing.capacity) (hval : val < 65536) :
    wp (passwordSetCounter t pwdId val)
      (fun _ p' v' => v' = v ∧ SameOff (drawing (burst (535 + 170 * pwdId + 8) 2)) p p' ∧
        passwordReadCounter t pwdId p' = val)
      (fun _ _ => False)
      (fun step _ => step.write.Within (drawing (burst (535 + 170 * pwdId + 8) 2))) p v := by
  refine wp_mono (wp_writeField hid (by decide) hval) ?_ (fun _ _ => id)
    fun _ _ h => h.mono Set.subset_union_right
  intro _ p' v' ⟨hv, hword, hsame⟩
  refine ⟨hv, hsame.mono Set.subset_union_right, ?_⟩
  rw [passwordReadCounter, pwdAddr_eq hid (by decide)]
  exact hword

theorem wp_passwordSetName {name : Vector Byte 32} (hid : pwdId < t.addressing.capacity) :
    wp (passwordSetName t pwdId name)
      (fun _ p' v' => v' = v ∧ SameOff (drawing (burst (535 + 170 * pwdId + 10) 32)) p p' ∧
        passwordReadName t pwdId p' = name.toList)
      (fun _ _ => False)
      (fun step _ => step.write.Within (drawing (burst (535 + 170 * pwdId + 10) 32))) p v := by
  have hlt := lt_of_lt_capacity hid
  have haddr := pwdAddr_eq hid (show pwdOffsetPwdName < 170 by decide)
  have hlength : name.toList.length = 32 := by simp
  rw [passwordSetName, haddr]
  refine wp_mono (wp_sameOff (wp_framWriteBytes_within (R := drawing (burst (535 + 170 * pwdId + 10)
    32)) ?_)) ?_ (fun _ _ => id) fun _ _ h => h.1
  · rw [hlength]
    exact Set.subset_union_right
  · intro _ p' v' ⟨hsame, hp', hv⟩
    refine ⟨hv, hsame, ?_⟩
    rw [passwordReadName, haddr, hp']
    refine Image.bytes_store_self ?_ hlength
    simp
    omega

/-- A chunk that has been filled says what was put there. -/
theorem wp_fillChunk {counter : ℕ} (name : Vector Byte 32) {data usrName : List Byte}
    (hid : pwdId < t.addressing.capacity) (hcounter : counter < 65536) (hdata : data.length = 32)
    (husr : usrName.length = 64) :
    wp (do
        passwordSetCounter t pwdId counter
        passwordSetName t pwdId name
        let v ← Program.ram
        passwordSetData t pwdId data v.key
        passwordSetUsrName t pwdId usrName v.key)
      (fun _ p' v' => Drawn v v' ∧ SameOff (fieldsRegion pwdId) p p' ∧
        readEntry t v.key pwdId p' = ⟨name.toList, counter, cleared data, cleared usrName⟩)
      (fun _ _ => False) (fun step _ => step.write.Within (fieldsRegion pwdId)) p v := by
  have hlt := lt_of_lt_capacity hid
  have hplain := Addressing.plain_of_lt hid
  have hfill : wp (do
        passwordSetCounter t pwdId counter
        passwordSetName t pwdId name
        let v ← Program.ram
        passwordSetData t pwdId data v.key
        passwordSetUsrName t pwdId usrName v.key)
      (fun _ p' v' => Drawn v v' ∧
        readEntry t v.key pwdId p' = ⟨name.toList, counter, cleared data, cleared usrName⟩)
      (fun _ _ => False) (fun step _ => step.write.Within (fieldsRegion pwdId)) p v := by
    rw [wp_bind]
    refine wp_mono (wp_passwordSetCounter hid hcounter) ?_ (fun _ _ => id)
      fun _ _ h => h.mono (drawing_burst_subset (by decide) (by decide))
    intro _ p₁ v₁ ⟨hv₁, hsame₁, hcounter₁⟩
    rw [wp_bind]
    refine wp_mono (wp_passwordSetName hid) ?_ (fun _ _ => id)
      fun _ _ h => h.mono (drawing_burst_subset (by decide) (by decide))
    intro _ p₂ v₂ ⟨hv₂, hsame₂, hname₂⟩
    rw [wp_bind, wp_ram, wp_bind]
    refine wp_mono (wp_sameOff (wp_passwordSetData hplain)) ?_ (fun _ _ => id)
      fun _ _ h => h.1.mono (drawing_burst_subset (by decide) (by decide))
    intro _ p₃ v₃ ⟨hsame₃, hdrawn₃, hdata₃⟩
    refine wp_mono (wp_sameOff (wp_passwordSetUsrName hplain)) ?_ (fun _ _ => id)
      fun _ _ h => h.1.mono (drawing_burst_subset (by decide) (by decide))
    intro _ p₄ v₄ ⟨hsame₄, hdrawn₄, husr₄⟩
    subst hv₁ hv₂
    refine ⟨hdrawn₃.trans hdrawn₄, ?_⟩
    have hcounter₄ : passwordReadCounter t pwdId p₄ = counter := by
      rw [← hcounter₁]
      refine passwordReadCounter_congr hplain fun i hi hi' => ?_
      rw [chunkByte_of_field hlt hlt hsame₄ (by decide) (by omega) (by omega),
        chunkByte_of_field hlt hlt hsame₃ (by decide) (by omega) (by omega),
        chunkByte_of_field hlt hlt hsame₂ (by decide) (by omega) (by omega)]
    have hname₄ : passwordReadName t pwdId p₄ = name.toList := by
      rw [← hname₂]
      refine passwordReadName_congr hplain fun i hi hi' => ?_
      rw [chunkByte_of_field hlt hlt hsame₄ (by decide) (by omega) (by omega),
        chunkByte_of_field hlt hlt hsame₃ (by decide) (by omega) (by omega)]
    have hdata₄ : passwordReadData t pwdId v₂.key p₄ = cleared data := by
      rw [← removePadding_eq, ← hdata₃ hlt hdata]
      exact passwordReadData_congr hplain fun i hi hi' =>
        chunkByte_of_field hlt hlt hsame₄ (by decide) (by omega) (by omega)
    rw [readEntry, hcounter₄, hname₄, hdata₄, husr₄ hlt husr, removePadding_eq]
  exact wp_mono (wp_sameOff hfill) (fun _ _ _ h => ⟨h.2.1, h.1, h.2.2⟩) (fun _ _ => id)
    fun _ _ h => h.1

end PasswordWallet
