import PasswordWallet.Lists.Table

/-!
# The store refines the password table

`pwd_list_add_pwd` and `pwd_list_delete_pwd` do to the store what `Table.Inserted`
and `Table.erase` say of the table it represents, whatever the fragmentation of
the memory map.  When no chunk is free adding a password does nothing at all.
-/

namespace PasswordWallet

open PowerLoss

variable {t : Target} {p : Image} {v : Ram} {T : Table} {fuel : ℕ}

theorem pwdListAddPwd_refines (h : Represents t p v T) (hexact : t.addressing = .exact)
    (hfuel : sortTurns ≤ fuel) (hroom : v.numPwd < maximumNumberOfPwd - 1)
    (name data : Vector Byte 32) (usrName : Vector Byte 64) :
    ∃ p' v' pwdId T',
      Completes (pwdListAddPwd t fuel name data.toList usrName.toList) p v true p' v' ∧
      Represents t p' v' T' ∧
      T.Inserted pwdId ⟨name.toList, 0, cleared data.toList, cleared usrName.toList⟩ T' := by
  have hlength : T.use.length < t.addressing.capacity := by
    rw [h.wellFormed.numPwd] at hroom
    rwa [hexact]
  have hdata : data.toList.length = 32 := by simp
  have husr : usrName.toList.length = 64 := by simp
  have hadd := @wp_pwdListAddPwd t p v T.use T.alpha fuel name data.toList usrName.toList
    h.wellFormed hfuel hlength hdata husr
  obtain ⟨done, p', v', hrun, rfl, pwdId, hbound, hnew, hlowest, hadded⟩ := exists_completes hadd
  obtain ⟨T', hrep, hinserted⟩ := h.insert hadded hnew hlowest hbound
  exact ⟨p', v', pwdId, T', hrun, hrep, hinserted⟩

theorem pwdListDeletePwd_refines (h : Represents t p v T) {pwdId : ℕ}
    (hid : pwdId < maximumNumberOfPwd) (hused : p.used pwdId = true) :
    ∃ p' v', Completes (pwdListDeletePwd t pwdId) p v () p' v' ∧
      Represents t p' v' (T.erase pwdId) ∧ ∀ i < 170, p'.chunkByte pwdId i = 0 := by
  have hmem : pwdId ∈ T.use := by
    simp only [maximumNumberOfPwd] at hid
    exact (h.wellFormed.mem_use pwdId (by simp at hid ⊢; omega)).mp hused
  obtain ⟨_, p', v', hrun, hsame, hv, hwell, hzero⟩ :=
    exists_completes (wp_pwdListDeletePwd h.wellFormed hmem)
  have hlt := lt_of_lt_capacity (h.wellFormed.threadedUse.bound pwdId hmem)
  exact ⟨p', v', hrun, h.erase hsame (by rw [hv]) hlt hwell, hzero⟩

theorem pwdListAddPwd_refused (hfull : ∀ id < maximumNumberOfPwd, p.used id = true)
    (name : Vector Byte 32) (data usrName : List Byte) :
    Completes (pwdListAddPwd t fuel name data usrName) p v false p v := by
  have hadd : wp (pwdListAddPwd t fuel name data usrName)
      (fun done p' v' => done = false ∧ p' = p ∧ v' = v) (fun _ _ => False)
      (fun _ _ => False) p v :=
    wp_pwdListAddPwd_full hfull
  obtain ⟨done, p', v', hrun, rfl, rfl, rfl⟩ := exists_completes hadd
  exact hrun

/-- Adding and deleting act on a well-formed store as on the table it represents,
and a full store is left alone. -/
theorem store_refines_table (hexact : t.addressing = .exact) (hfuel : sortTurns ≤ fuel) :
    (∀ p v T, Represents t p v T →
      (∀ (name data : Vector Byte 32) (usrName : Vector Byte 64),
        v.numPwd < maximumNumberOfPwd - 1 → ∃ p' v' pwdId T',
          Completes (pwdListAddPwd t fuel name data.toList usrName.toList) p v true p' v' ∧
          Represents t p' v' T' ∧
          T.Inserted pwdId ⟨name.toList, 0, cleared data.toList, cleared usrName.toList⟩ T') ∧
      (∀ pwdId < maximumNumberOfPwd, p.used pwdId = true → ∃ p' v',
        Completes (pwdListDeletePwd t pwdId) p v () p' v' ∧
        Represents t p' v' (T.erase pwdId) ∧ ∀ i < 170, p'.chunkByte pwdId i = 0)) ∧
    (∀ p v (name : Vector Byte 32) (data usrName : List Byte),
      (∀ id < maximumNumberOfPwd, p.used id = true) →
      Completes (pwdListAddPwd t fuel name data usrName) p v false p v) :=
  ⟨fun _ _ _ h => ⟨fun name data usrName hroom =>
      pwdListAddPwd_refines h hexact hfuel hroom name data usrName,
    fun _ hid hused => pwdListDeletePwd_refines h hid hused⟩,
  fun _ _ name data usrName hfull => pwdListAddPwd_refused hfull name data usrName⟩

/-- A third password is added to two, and the first of them deleted. -/
theorem store_refines_table_three :
    ∃ p₁ v₁ p₂ v₂ T, Completes (pwdListAddPwd ⟨.exact, .xorKey⟩ sortTurns (Vector.replicate 32 65)
        (Vector.replicate 32 66).toList (Vector.replicate 64 67).toList) .twoPwds .twoPwds true
        p₁ v₁ ∧
      Completes (pwdListDeletePwd ⟨.exact, .xorKey⟩ 0) p₁ v₁ () p₂ v₂ ∧
      Represents ⟨.exact, .xorKey⟩ p₂ v₂ T ∧ T.use.Perm [1, 2] := by
  have hexact : (⟨.exact, .xorKey⟩ : Target).addressing = .exact := rfl
  have hrefines := (store_refines_table hexact (le_refl sortTurns)).1
  obtain ⟨p₁, v₁, pwdId, T₁, hadd, hrep₁, hinserted⟩ :=
    (hrefines _ _ _ wellFormed_twoPwds.represents).1 (Vector.replicate 32 65)
      (Vector.replicate 32 66) (Vector.replicate 64 67) (by decide)
  have huse : T₁.use.Perm ([0, 1] ++ [pwdId]) := hinserted.use
  have htwo : pwdId = 2 := by
    have hnodup := huse.nodup_iff.mp T₁.nodup
    have hlowest : ∀ other < pwdId, other ∈ [0, 1] := fun other hlt =>
      (wellFormed_twoPwds.table.mem_use other).mpr (hinserted.lowest other hlt)
    have hnew : pwdId ∉ [0, 1] := fun hmem =>
      (List.nodup_append.mp hnodup).2.2 pwdId hmem pwdId (List.mem_singleton_self _) rfl
    have hlt : pwdId < 3 := by
      by_contra! hge
      exact absurd (hlowest 2 (by omega)) (by decide)
    simp only [List.mem_cons, List.not_mem_nil, or_false] at hnew
    omega
  subst htwo
  have hused : p₁.used 0 = true :=
    (hrep₁.used_iff (by decide)).mpr ((T₁.mem_use 0).mp (huse.mem_iff.mpr (by decide)))
  obtain ⟨p₂, v₂, hdelete, hrep₂, -⟩ := (hrefines _ _ _ hrep₁).2 0 (by decide) hused
  exact ⟨p₁, v₁, p₂, v₂, _, hadd, hdelete, hrep₂, huse.erase 0⟩

end PasswordWallet
