import PasswordWallet.Lists.Add
import PasswordWallet.Lists.Delete

/-!
# The password table

What the store is for.  A `Table` has an entry for each used id and lists the
ids in two orders; deleting takes one entry away (`Table.erase`), adding puts
one in at an id that had none (`Table.Inserted`).

A store represents a table when it is well formed with the table's orders and
each chunk says what its entry is (`Represents`).
-/

namespace PasswordWallet

open PowerLoss

/-- Entries under ids, and the ids in two orders. -/
structure Table where
  entry : ℕ → Option Entry
  use : List ℕ
  alpha : List ℕ
  mem_use : ∀ id, id ∈ use ↔ (entry id).isSome
  nodup : use.Nodup
  perm : alpha.Perm use

/-- The table with nothing in it. -/
def Table.empty : Table where
  entry _ := none
  use := []
  alpha := []
  mem_use _ := by simp
  nodup := .nil
  perm := .refl _

/-- Takes an entry away; the others stay in the order they were in. -/
def Table.erase (T : Table) (id : ℕ) : Table where
  entry := Function.update T.entry id none
  use := T.use.erase id
  alpha := T.alpha.erase id
  mem_use other := by
    rw [T.nodup.mem_erase_iff, T.mem_use]
    by_cases heq : other = id
    · simp [heq]
    · simp [heq]
  nodup := T.nodup.erase id
  perm := T.perm.erase id

/-- A new entry at the lowest id that had none; nothing is said of where the
orders have it. -/
structure Table.Inserted (T : Table) (id : ℕ) (e : Entry) (T' : Table) : Prop where
  unused : T.entry id = none
  lowest : ∀ other < id, (T.entry other).isSome
  entry : T'.entry = Function.update T.entry id (some e)
  use : T'.use.Perm (T.use ++ [id])
  alpha : T'.alpha.Perm (T.alpha ++ [id])

variable {t : Target} {p p' : Image} {v v' : Ram} {use alpha : List ℕ} {T T' : Table} {pwdId : ℕ}

/-- The store is well formed, and its used chunks say what the entries are. -/
structure Represents (t : Target) (p : Image) (v : Ram) (T : Table) : Prop where
  wellFormed : WellFormed t p v T.use T.alpha
  entry : ∀ id ∈ T.use, T.entry id = some (readEntry t v.key id p)

/-- The table of a well-formed store. -/
def WellFormed.table (h : WellFormed t p v use alpha) : Table where
  entry id := if id ∈ use then some (readEntry t v.key id p) else none
  use := use
  alpha := alpha
  mem_use id := by by_cases hid : id ∈ use <;> simp [hid]
  nodup := h.threadedUse.nodup
  perm := h.perm

theorem WellFormed.represents (h : WellFormed t p v use alpha) : Represents t p v h.table :=
  ⟨h, fun _ hid => if_pos hid⟩

/-- Away from its use list a table has no entry. -/
theorem Table.entry_eq_none (T : Table) {id : ℕ} (hid : id ∉ T.use) : T.entry id = none := by
  rwa [T.mem_use, Bool.not_eq_true, Option.isSome_eq_false_iff, Option.isNone_iff_eq_none] at hid

theorem Represents.used_iff (h : Represents t p v T) {id : ℕ} (hid : id < 8 * sizeMemoryMap) :
    p.used id = true ↔ (T.entry id).isSome := by
  rw [h.wellFormed.mem_use id hid, T.mem_use]

/-! ## Simulation -/

/-- What is left alone by a change to one chunk still says what it said. -/
theorem Represents.readEntry_eq (h : Represents t p v T) (hsame : SameOff (pwdRegion t pwdId) p p')
    (hkey : v'.key = v.key) (hpwd : pwdId < 767) {id : ℕ} (hid : id ∈ T.use) (hne : id ≠ pwdId) :
    T.entry id = some (readEntry t v'.key id p') := by
  rw [h.entry id hid, hkey,
    hsame.readEntry (h.wellFormed.threadedUse.bound id hid) hpwd hne]

/-- Deleting a password takes its entry out of the table. -/
theorem Represents.erase (h : Represents t p v T) (hsame : SameOff (pwdRegion t pwdId) p p')
    (hkey : v'.key = v.key) (hpwd : pwdId < 767)
    (hwell : WellFormed t p' v' (T.use.erase pwdId) (T.alpha.erase pwdId)) :
    Represents t p' v' (T.erase pwdId) := by
  refine ⟨hwell, fun id hid => ?_⟩
  obtain ⟨hne, hmem⟩ := T.nodup.mem_erase_iff.mp hid
  show Function.update T.entry pwdId none id = _
  rw [Function.update_of_ne hne]
  exact h.readEntry_eq hsame hkey hpwd hmem hne

/-- Adding a password puts its entry into the table. -/
theorem Represents.insert {e : Entry} (h : Represents t p v T)
    (hadded : Added t p v T.use T.alpha pwdId e p' v') (hnew : pwdId ∉ T.use)
    (hlowest : ∀ other < pwdId, other ∈ T.use) (hpwd : pwdId < 767) :
    ∃ T', Represents t p' v' T' ∧ T.Inserted pwdId e T' := by
  obtain ⟨use', alpha', huse, halpha, hwell, -⟩ := hadded.lists
  have hkey : v'.key = v.key := hadded.ram.key
  refine ⟨hwell.table, hwell.represents, T.entry_eq_none hnew,
    fun other hlt => (T.mem_use other).mp (hlowest other hlt), funext fun id => ?_, huse, halpha⟩
  show (if id ∈ use' then some (readEntry t v'.key id p') else none) = _
  by_cases heq : id = pwdId
  · subst heq
    rw [if_pos (huse.mem_iff.mpr (by simp)), Function.update_self, hkey, hadded.entry]
  · rw [Function.update_of_ne heq]
    by_cases hmem : id ∈ T.use
    · rw [if_pos (huse.mem_iff.mpr (by simp [hmem])),
        h.readEntry_eq hadded.frame hkey hpwd hmem heq]
    · rw [if_neg fun hmem' => ?_, T.entry_eq_none hmem]
      rcases List.mem_append.mp (huse.mem_iff.mp hmem') with hmem' | hmem'
      · exact hmem hmem'
      · exact heq (List.mem_singleton.mp hmem')

end PasswordWallet
