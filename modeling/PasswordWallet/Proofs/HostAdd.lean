import Mathlib.Data.List.GetD
import Mathlib.Data.List.Perm.Subperm
import PasswordWallet.DesktopApp.DeviceData
import PasswordWallet.LinkedList.Linked
import PasswordWallet.Lists.Map
import PasswordWallet.Proofs.AesBuffers

/-!
# A password that the host adds

With a password in the image, `addPassword` ends the list by name with a last element that
is followed by itself (`appendLinks_loops`), and the new password is in no list.  With none,
the lists are left to what the first chunk happens to hold, for the new password is not
written at all.  So the image is as it should be only if nothing is added, or if it already
was (`added_markUsed_iff`).
-/

namespace PasswordWallet.DesktopApp

open Desktop Patching LinkedList

variable {d : DeviceData} {use alpha l : List ℕ} {id i : ℕ} {cipher : BlockCipher}
  {ivPwd ivUsr : Block} {input : Vector Byte 32} {name pwd usrName : QString}

namespace DeviceData

/-! ## A well-formed image -/

def useLinks (d : DeviceData) : Links ℕ where
  next id := (d.password id).nextPwdUse
  prev id := (d.password id).prevPwdUse

def alphaLinks (d : DeviceData) : Links ℕ where
  next id := (d.password id).nextPwdAlpha
  prev id := (d.password id).prevPwdAlpha

/-- The chunk is marked as used in the memory map. -/
def Marked (d : DeviceData) (id : ℕ) : Prop :=
  d.memoryMap.getD (id / 8) 0 &&& ((1 : Byte) <<< (id % 8)) ≠ 0

/-- A list of identifiers that begins at `first` and whose links end with `maxNumPwd`. -/
structure Listed (d : DeviceData) (links : Links ℕ) (first : ℕ) (l : List ℕ) : Prop where
  nodup : l.Nodup
  id_lt : ∀ id ∈ l, id < d.maxNumPwd
  linked : Linked links d.maxNumPwd l d.maxNumPwd
  first_eq : l ≠ [] → first = l.headD d.maxNumPwd

/-- The image has the size of the FRAM, and its lists, its memory map and its count are
those of the passwords in `use`. -/
structure WellFormed (d : DeviceData) (use alpha : List ℕ) : Prop where
  size : d.memorySize = 8192 ∨ d.memorySize = 32768
  length : d.memory.length = d.memorySize
  inUse : d.Listed d.useLinks d.firstPwdUse use
  inAlpha : d.Listed d.alphaLinks d.firstPwdAlpha alpha
  perm : alpha.Perm use
  map : ∀ id < d.maxNumPwd, d.Marked id ↔ id ∈ use
  count : d.passwordNum = use.length

/-! ## The layout -/

/-- Where things are in the image. -/
structure Layout (d : DeviceData) : Prop where
  pos : 0 < d.maxNumPwd
  lt : d.maxNumPwd < 256
  chunks : d.firstPwdOffset + d.maxNumPwd * 166 ≤ d.memory.length
  bits : d.maxNumPwd ≤ d.memoryMapSize * 8
  map : d.memoryMapOffset + d.memoryMapSize ≤ d.firstPwdOffset
  header : 260 ≤ d.memoryMapOffset

theorem WellFormed.layout (h : d.WellFormed use alpha) : d.Layout := by
  have hlength := h.length
  rcases h.size with hsize | hsize <;> cases hscreen : d.storeScreenBufferInFram <;>
    constructor <;>
    simp [maxNumPwd, firstPwdOffset, memoryMapSize, memoryMapOffset, offsetNumPwd, sizeNumPwd,
      hsize, hscreen, hlength]

theorem length_memoryMap (h : d.Layout) : d.memoryMap.length = d.memoryMapSize := by
  have hmap := h.map
  have hchunks := h.chunks
  rw [memoryMap, mid, List.length_take, List.length_drop]
  omega

/-- A chunk, as it stands in the memory. -/
theorem password_eq (h : d.Layout) (hid : id < d.maxNumPwd) :
    d.password id = ⟨id, mid d.memory (d.firstPwdOffset + id * 166) 166⟩ := by
  have hchunks := h.chunks
  have hlength : (mid d.memory (d.firstPwdOffset + id * 166) 166).length = 166 := by
    rw [mid, List.length_take, List.length_drop]
    omega
  have hsize : ¬ (mid d.memory (d.firstPwdOffset + id * 166) 166).length ≠ sizeOfPwdBlock :=
    not_not.2 hlength
  rw [password, if_neg (Nat.not_le.2 hid), Password.ofData, if_neg hsize]

/-- The memory without what is in front of the chunks says what the chunks are. -/
theorem password_congr {memory : List Byte}
    (hmemory : memory.drop d.firstPwdOffset = d.memory.drop d.firstPwdOffset) (id : ℕ) :
    ({ d with memory := memory } : DeviceData).password id = d.password id := by
  have hmid : ∀ n, mid memory (d.firstPwdOffset + n) 166 =
      mid d.memory (d.firstPwdOffset + n) 166 := by
    intro n
    rw [mid, mid, ← List.drop_drop, hmemory, List.drop_drop]
  show (if id ≥ d.maxNumPwd then Password.ofData 0 [] else
    .ofData id (mid memory (d.firstPwdOffset + id * 166) 166)) = _
  rw [hmid]
  rfl

/-- Marking a chunk leaves the chunks. -/
theorem password_markUsed (h : d.Layout) (hid : id < d.maxNumPwd) (id' : ℕ) :
    (d.markUsed id).password id' = d.password id' := by
  have hmap := h.map
  have hheader := h.header
  have hbits := h.bits
  refine password_congr ?_ id'
  rw [List.drop_set_of_lt (by omega), List.drop_set_of_lt]
  rw [offsetNumPwd]
  omega

theorem Layout.of_length {memory : List Byte} (h : d.Layout)
    (hlength : memory.length = d.memory.length) :
    ({ d with memory := memory } : DeviceData).Layout where
  pos := h.pos
  lt := h.lt
  chunks := h.chunks.trans hlength.ge
  bits := h.bits
  map := h.map
  header := h.header

theorem maxNumPwd_updatePassword (d : DeviceData) (pass : Password) :
    (d.updatePassword pass).maxNumPwd = d.maxNumPwd := rfl

theorem layout_updatePassword (h : d.Layout) (pass : Password) : (d.updatePassword pass).Layout :=
  h.of_length (length_overwrite _ _ _)

/-- A chunk that is written is read back. -/
theorem password_updatePassword (h : d.Layout) {pass : Password} (hid : pass.id < d.maxNumPwd)
    (hdata : pass.data.length = 166) : (d.updatePassword pass).password pass.id = pass := by
  have hchunks := h.chunks
  have hfits : d.firstPwdOffset + pass.id * 166 + pass.data.length ≤ d.memory.length := by omega
  have hread := take_drop_overwrite hfits
  rw [hdata] at hread
  rw [password_eq (layout_updatePassword h pass) hid]
  show (⟨pass.id, mid (overwrite d.memory (d.firstPwdOffset + pass.id * 166) (pass.data.take 166))
    (d.firstPwdOffset + pass.id * 166) 166⟩ : Password) = pass
  rw [List.take_of_length_le hdata.le, mid, hread]

/-! ## The search for a chunk -/

theorem marked_iff {j : ℕ} (hj : j < 8) :
    d.Marked (i * 8 + j) ↔ d.memoryMap.getD i 0 &&& ((1 : Byte) <<< j) ≠ 0 := by
  have hdiv : (i * 8 + j) / 8 = i := by omega
  have hmod : (i * 8 + j) % 8 = j := by omega
  rw [Marked, hdiv, hmod]

theorem findFree_some (h : d.findFree = some id) : id < d.maxNumPwd ∧ ¬ d.Marked id := by
  obtain ⟨i, -, hi⟩ := List.exists_of_findSome?_eq_some h
  obtain ⟨j, hj, rfl⟩ := Option.map_eq_some_iff.1 hi
  have hmem := List.mem_range.1 (List.mem_of_find?_eq_some hj)
  have hfree : i * 8 + j < d.maxNumPwd ∧ d.memoryMap.getD i 0 &&& ((1 : Byte) <<< j) = 0 := by
    simpa using List.find?_some hj
  exact ⟨hfree.1, fun hmarked => (marked_iff hmem).1 hmarked hfree.2⟩

theorem findFree_eq_none_iff (h : d.Layout) :
    d.findFree = none ↔ ∀ id < d.maxNumPwd, d.Marked id := by
  constructor
  · intro hnone id hid hclear
    have hbits := h.bits
    have hbyte := List.findSome?_eq_none_iff.1 hnone (id / 8)
      (List.mem_range.2 (by rw [length_memoryMap h]; omega))
    have hbit := List.find?_eq_none.1 (Option.map_eq_none_iff.1 hbyte) (id % 8)
      (List.mem_range.2 (Nat.mod_lt _ (by decide)))
    refine hbit (decide_eq_true ⟨?_, hclear⟩)
    omega
  · intro hall
    cases hfree : d.findFree with
    | none => rfl
    | some id => exact absurd (hall id (findFree_some hfree).1) (findFree_some hfree).2

theorem findSome?_range_of_zero {f : ℕ → Option ℕ} {n : ℕ} (hn : 0 < n) (h : f 0 = some i) :
    (List.range n).findSome? f = some i := by
  obtain ⟨n, rfl⟩ := Nat.exists_eq_succ_of_ne_zero hn.ne'
  rw [List.range_succ_eq_map, List.findSome?_cons, h]

/-- The first chunk comes first. -/
theorem findFree_eq_zero (h : d.Layout) (hclear : ¬ d.Marked 0) : d.findFree = some 0 := by
  have hbits := h.bits
  have hpos := h.pos
  have hbit : d.memoryMap.getD 0 0 &&& ((1 : Byte) <<< 0) = 0 := not_not.1 hclear
  have hzero : 0 * 8 + 0 < d.maxNumPwd := by rwa [Nat.zero_mul, Nat.zero_add]
  have hrange : List.range 8 = 0 :: [1, 2, 3, 4, 5, 6, 7] := rfl
  have hfirst : ((List.range 8).find? fun j => 0 * 8 + j < d.maxNumPwd ∧
      d.memoryMap.getD 0 0 &&& ((1 : Byte) <<< j) = 0) = some 0 := by
    rw [hrange]
    exact List.find?_cons_of_pos (decide_eq_true ⟨hzero, hbit⟩)
  -- the first bit of the first byte is the first to be looked at
  refine findSome?_range_of_zero (by rw [length_memoryMap h]; omega) ?_
  rw [hfirst, Option.map_some]

/-! ## The walk to the last password -/

theorem lastFrom_linked {s : Links ℕ} {next : Password → ℕ}
    (hnext : ∀ id, s.next id = next (d.password id)) {before : ℕ}
    (h : Linked s before l d.maxNumPwd) (hlt : ∀ id ∈ l, id < d.maxNumPwd) {fuel : ℕ}
    (hfuel : l.length < fuel) (idPrev : ℕ) :
    d.lastFrom next fuel (l.headD d.maxNumPwd) idPrev = some (l.getLastD idPrev) := by
  induction l generalizing before fuel idPrev with
  | nil =>
      cases fuel with
      | zero => cases hfuel
      | succ fuel =>
          -- behind the list there is the identifier of no password, and the walk ends
          rw [List.headD_nil, lastFrom, if_pos rfl]
          rfl
  | cons id rest ih =>
      cases fuel with
      | zero => cases hfuel
      | succ fuel =>
          obtain ⟨-, hid, hrest⟩ := linked_cons.1 h
          have hne : id ≠ d.maxNumPwd := (hlt id List.mem_cons_self).ne
          have hlt' := fun id hid => hlt id (List.mem_cons_of_mem _ hid)
          rw [List.headD_cons, lastFrom, if_neg hne, ← hnext, hid,
            ih hrest hlt' (Nat.lt_of_succ_lt_succ hfuel), List.getLastD_cons]

theorem Listed.length_le {links : Links ℕ} {first : ℕ} (h : d.Listed links first l) :
    l.length ≤ d.maxNumPwd := by
  have hsub := h.nodup.subperm fun id hid => List.mem_range.2 (h.id_lt id hid)
  simpa using hsub.length_le

/-- The walk comes to the last password of a list. -/
theorem getPrev_listed {s : Links ℕ} {next prev : Password → ℕ} {first : ℕ} (hd : d.Layout)
    (hnext : ∀ id, s.next id = next (d.password id))
    (hprev : ∀ id, s.prev id = prev (d.password id)) (h : d.Listed s first l) (hl : l ≠ []) :
    d.getPrev prev next first = some (l.getLastD d.maxNumPwd) := by
  have hfirst : prev (d.password first) = d.maxNumPwd := by
    rw [← hprev, h.first_eq hl]
    cases l with
    | nil => exact absurd rfl hl
    | cons id rest => exact (linked_cons.1 h.linked).1
  have hfuel : l.length < 257 := by
    have hlength := h.length_le
    have hlt := hd.lt
    omega
  -- nothing is in front of the first password: the walk is from there to the end
  rw [getPrev, if_pos hfirst, hfirst, h.first_eq hl]
  exact lastFrom_linked hnext h.linked h.id_lt hfuel _

/-! ## What is added -/

/-- The three checks of `addPassword`: the name is there, and nothing is too long. -/
def Storable (name pwd usrName : QString) : Prop :=
  (name ≠ [] ∧ name.length ≤ pwdSizePwdName) ∧ pwd.length ≤ pwdSizePwdData ∧
    usrName.length ≤ pwdSizeUsrName

instance : Decidable (Storable name pwd usrName) :=
  inferInstanceAs (Decidable ((name ≠ [] ∧ name.length ≤ pwdSizePwdName) ∧
    pwd.length ≤ pwdSizePwdData ∧ usrName.length ≤ pwdSizeUsrName))

theorem setName_fst (p : Password) (name : QString) :
    (p.setName name).1 = decide (name ≠ [] ∧ name.length ≤ pwdSizePwdName) := by
  by_cases h : name.length > pwdSizePwdName ∨ name = []
  · rw [Password.setName, if_pos h, decide_eq_false]
    rintro ⟨hne, hle⟩
    exact h.elim (Nat.not_lt.2 hle) hne
  · rw [Password.setName, if_neg h, decide_eq_true]
    exact ⟨fun hnil => h (Or.inr hnil), Nat.not_lt.1 fun hgt => h (Or.inl hgt)⟩

theorem setPassword_fst (p : Password) (cipher : BlockCipher) (pwd : QString) (key iv : Block)
    (input : Vector Byte 32) :
    (p.setPassword cipher pwd key iv input).1 = decide (pwd.length ≤ pwdSizePwdData) := by
  by_cases h : pwd.length > pwdSizePwdData
  · rw [Password.setPassword, if_pos h, decide_eq_false (Nat.not_le.2 h)]
  · rw [Password.setPassword, if_neg h, decide_eq_true (Nat.not_lt.1 h)]

theorem setUserName_fst (p : Password) (cipher : BlockCipher) (usr : QString) (key iv : Block) :
    (p.setUserName cipher usr key iv).1 = decide (usr.length ≤ pwdSizeUsrName) := by
  by_cases h : usr.length > pwdSizeUsrName
  · rw [Password.setUserName, if_pos h, decide_eq_false (Nat.not_le.2 h)]
  · rw [Password.setUserName, if_neg h, decide_eq_true (Nat.not_lt.1 h)]

/-- Of the new password only its place in the memory map and in the count is left. -/
theorem addPassword_eq {r : ℕ × ℕ × DeviceData} (hfree : d.findFree = some id)
    (hlast : d.appendLast id = some r) :
    d.addPassword cipher ivPwd ivUsr input name pwd usrName = some
      (if Storable name pwd usrName then (true, r.2.2.markUsed id) else (false, r.2.2)) := by
  simp only [addPassword, hfree, hlast, Option.map_some, setName_fst, setPassword_fst,
    setUserName_fst]
  by_cases hname : name ≠ [] ∧ name.length ≤ pwdSizePwdName
  · by_cases hpwd : pwd.length ≤ pwdSizePwdData
    · by_cases husr : usrName.length ≤ pwdSizeUsrName
      · simp [Storable, hname, hpwd, husr]
      · simp [Storable, hname, hpwd, husr]
    · simp [Storable, hname, hpwd]
  · simp [Storable, hname]

/-! ## With a password in the image -/

theorem length_password (h : d.Layout) (hid : id < d.maxNumPwd) :
    (d.password id).data.length = 166 := by
  have hchunks := h.chunks
  rw [password_eq h hid]
  show (mid d.memory (d.firstPwdOffset + id * 166) 166).length = 166
  rw [mid, List.length_take, List.length_drop]
  omega

theorem nextPwdAlpha_updatePassword (h : d.Layout) {p : Password} (hid : p.id < d.maxNumPwd)
    (hdata : p.data.length = 166) :
    ((d.updatePassword (p.setNextPwdAlpha p.id)).password p.id).nextPwdAlpha = p.id := by
  have hbyte : p.id < 256 := hid.trans h.lt
  have hlength : (p.setNextPwdAlpha p.id).data.length = 166 := List.length_set.trans hdata
  have hset : (p.data.set pwdOffsetNextPwdAlpha (BitVec.ofNat 8 p.id)).getD
      pwdOffsetNextPwdAlpha 0 = BitVec.ofNat 8 p.id := by
    rw [List.getD_eq_getElem?_getD, List.getElem?_set_self (by rw [hdata]; decide)]
    rfl
  have hread : (d.updatePassword (p.setNextPwdAlpha p.id)).password p.id = p.setNextPwdAlpha p.id :=
    password_updatePassword h hid hlength
  rw [hread, Password.nextPwdAlpha, Password.setNextPwdAlpha, Password.set, hset,
    BitVec.toNat_ofNat]
  exact Nat.mod_eq_of_lt hbyte

theorem layout_appendLinks (h : d.Layout) (pwdId prevUse prevAlpha : ℕ) :
    (d.appendLinks pwdId prevUse prevAlpha).Layout :=
  layout_updatePassword (layout_updatePassword h _) _

theorem maxNumPwd_appendLinks (d : DeviceData) (pwdId prevUse prevAlpha : ℕ) :
    (d.appendLinks pwdId prevUse prevAlpha).maxNumPwd = d.maxNumPwd := by
  rw [appendLinks, maxNumPwd_updatePassword, maxNumPwd_updatePassword]

theorem updatePassword_eq_self {pass pass' : Password}
    (h : ((d.updatePassword pass).updatePassword pass').memory = d.memory) :
    (d.updatePassword pass).updatePassword pass' = d := by
  cases d with
  | mk key memory framId storeScreenBufferInFram =>
      simp only [updatePassword] at h ⊢
      rw [h]

/-- The password at the end of the list by name is followed by itself. -/
theorem appendLinks_loops (h : d.Layout) (pwdId prevUse : ℕ) {prevAlpha : ℕ}
    (hlt : prevAlpha < d.maxNumPwd) :
    ((d.appendLinks pwdId prevUse prevAlpha).password prevAlpha).nextPwdAlpha = prevAlpha := by
  have hlayout := layout_updatePassword h ((d.password prevUse).setNextPwdUse pwdId)
  have hlt' := hlt.trans_eq
    (maxNumPwd_updatePassword d ((d.password prevUse).setNextPwdUse pwdId)).symm
  have hid := congrArg Password.id (password_eq hlayout hlt')
  have hloops := nextPwdAlpha_updatePassword hlayout (hid.trans_lt hlt')
    (length_password hlayout hlt')
  rw [hid] at hloops
  exact hloops

theorem appendLast_eq (h : d.WellFormed use alpha) (hne : use ≠ []) (pwdId : ℕ) :
    d.appendLast pwdId = some (use.getLastD d.maxNumPwd, alpha.getLastD d.maxNumPwd,
      d.appendLinks pwdId (use.getLastD d.maxNumPwd) (alpha.getLastD d.maxNumPwd)) := by
  have hnum : d.passwordNum ≠ 0 := by
    rw [h.count]
    exact fun hzero => hne (List.length_eq_zero_iff.1 hzero)
  have halpha : alpha ≠ [] := fun hnil => hne (List.nil_perm.1 (hnil ▸ h.perm))
  have huse : d.getPrevUse d.firstPwdUse = some (use.getLastD d.maxNumPwd) :=
    getPrev_listed h.layout (s := d.useLinks) (fun _ => rfl) (fun _ => rfl) h.inUse hne
  have hlast : d.getPrevAlpha d.firstPwdAlpha = some (alpha.getLastD d.maxNumPwd) :=
    getPrev_listed h.layout (s := d.alphaLinks) (fun _ => rfl) (fun _ => rfl) h.inAlpha halpha
  rw [appendLast, if_pos hnum, huse, hlast]
  rfl

/-- A list that is as it should be has no password that is followed by itself. -/
theorem Listed.next_ne_self {links : Links ℕ} {first : ℕ} (h : d.Listed links first l)
    (hid : id ∈ l) : links.next id ≠ id :=
  h.linked.next_ne_self h.nodup (fun hmax => (h.id_lt _ hmax).false) hid

theorem getLastD_mem (hl : l ≠ []) (a : ℕ) : l.getLastD a ∈ l := by
  rw [List.getLastD_eq_getLast?, List.getLast?_eq_some_getLast hl]
  exact List.getLast_mem hl

/-! ## The result -/

/-- What is to be read of a password that stays. -/
structure SameEntry (cipher : BlockCipher) (key : Block) (p p' : Password) : Prop where
  count : p'.count = p.count
  name : p'.name = p.name
  password : ∀ behind, p'.password cipher key behind = p.password cipher key behind
  userName : ∀ behind, p'.userName cipher key behind = p.userName cipher key behind

/-- The texts that a chunk holds. -/
structure Holds (cipher : BlockCipher) (key : Block) (p : Password)
    (name pwd usrName : QString) : Prop where
  name : p.name = name
  password : ∀ behind, p.password cipher key behind = pwd
  userName : ∀ behind, p.userName cipher key behind = usrName

/-- The image with a new password behind those that were there. -/
structure Added (cipher : BlockCipher) (d d' : DeviceData) (use alpha : List ℕ)
    (name pwd usrName : QString) (newId : ℕ) (use' alpha' : List ℕ) : Prop where
  isNew : newId ∉ use
  wellFormed : d'.WellFormed use' alpha'
  inUse : use'.Perm (newId :: use)
  inAlpha : alpha'.Perm (newId :: alpha)
  holds : Holds cipher d.key (d'.password newId) name pwd usrName
  others : ∀ id ∈ use, SameEntry cipher d.key (d.password id) (d'.password id)

/-- The result says which: a new password, or nothing at all. -/
def AddedOrUntouched (cipher : BlockCipher) (d : DeviceData) (use alpha : List ℕ)
    (name pwd usrName : QString) : Bool × DeviceData → Prop
  | (true, d') =>
      ∃ newId use' alpha', Added cipher d d' use alpha name pwd usrName newId use' alpha'
  | (false, d') => d'.memory = d.memory

/-- With a password in the image and a chunk that is free, the image is damaged. -/
theorem not_added_of_nonempty (h : d.WellFormed use alpha) (hne : use ≠ [])
    (hfree : d.findFree = some id) {r : Bool × DeviceData}
    (hr : d.addPassword cipher ivPwd ivUsr input name pwd usrName = some r) :
    ¬ AddedOrUntouched cipher d use alpha name pwd usrName r := by
  have halpha : alpha ≠ [] := fun hnil => hne (List.nil_perm.1 (hnil ▸ h.perm))
  have hmem := getLastD_mem halpha d.maxNumPwd
  have hloops := appendLinks_loops h.layout id (use.getLastD d.maxNumPwd)
    (h.inAlpha.id_lt _ hmem)
  have hid := (findFree_some hfree).1.trans_eq (maxNumPwd_appendLinks d id
    (use.getLastD d.maxNumPwd) (alpha.getLastD d.maxNumPwd)).symm
  rw [addPassword_eq hfree (appendLast_eq h hne id)] at hr
  obtain rfl := Option.some.inj hr
  by_cases hstorable : Storable name pwd usrName
  · rw [if_pos hstorable]
    rintro ⟨newId, use', alpha', hadded⟩
    -- the password that is followed by itself would be in a list that ends
    have hmem' : alpha.getLastD d.maxNumPwd ∈ alpha' :=
      hadded.inAlpha.mem_iff.2 (List.mem_cons_of_mem _ hmem)
    refine hadded.wellFormed.inAlpha.next_ne_self hmem' ?_
    refine Eq.trans (congrArg Password.nextPwdAlpha ?_) hloops
    exact password_markUsed (layout_appendLinks h.layout _ _ _) hid _
  · rw [if_neg hstorable]
    intro hmemory
    -- an image that is untouched would have been followed by itself before
    refine h.inAlpha.next_ne_self hmem (Eq.trans ?_ hloops)
    rw [show d.appendLinks _ _ _ = d from updatePassword_eq_self hmemory]
    rfl

/-! ## Marking a chunk -/

/-- A byte of the header, other than the count. -/
theorem getD_markUsed (h : d.Layout) {addr : ℕ} (haddr : addr < offsetNumPwd) :
    (d.markUsed id).memory.getD addr 0 = d.memory.getD addr 0 := by
  have hheader := h.header
  have hnum : offsetNumPwd = 3 := rfl
  rw [markUsed, List.getD_eq_getElem?_getD, List.getElem?_set_ne (by omega),
    List.getElem?_set_ne (by omega), ← List.getD_eq_getElem?_getD]

theorem passwordNum_markUsed (h : d.Layout) (hzero : d.passwordNum = 0) :
    (d.markUsed id).passwordNum = 1 := by
  have hheader := h.header
  have hchunks := h.chunks
  have hmap := h.map
  have hnum : offsetNumPwd = 3 := rfl
  have hbyte : d.memory.getD offsetNumPwd 0 = 0 := BitVec.eq_of_toNat_eq hzero
  have hread : (d.markUsed id).memory.getD offsetNumPwd 0 = d.memory.getD offsetNumPwd 0 + 1 := by
    rw [markUsed, List.getD_eq_getElem?_getD, List.getElem?_set_ne (by omega),
      List.getElem?_set_self (by omega), Option.getD_some]
  rw [passwordNum, hread, hbyte]
  rfl

/-- The bit of a chunk, in the memory. -/
theorem marked_iff_getD (h : d.Layout) (hid : id < d.maxNumPwd) :
    d.Marked id ↔
      d.memory.getD (d.memoryMapOffset + id / 8) 0 &&& ((1 : Byte) <<< (id % 8)) ≠ 0 := by
  have hbits := h.bits
  have hread : d.memoryMap.getD (id / 8) 0 = d.memory.getD (d.memoryMapOffset + id / 8) 0 := by
    rw [memoryMap, mid, List.getD_eq_getElem?_getD, List.getElem?_take_of_lt (by omega),
      List.getElem?_drop, ← List.getD_eq_getElem?_getD]
  rw [Marked, hread]

theorem and_bit_ne_zero (b : Byte) {k : ℕ} (hk : k < 8) :
    b &&& ((1 : Byte) <<< k) ≠ 0 ↔ b.getLsbD k = true := by
  have hmask : (1 : Byte) <<< k = BitVec.twoPow 8 k := (BitVec.twoPow_eq 8 k).symm
  have hne : BitVec.twoPow 8 k ≠ 0 := by
    intro hzero
    have hbit := congrArg (BitVec.getLsbD · k) hzero
    simp [hk] at hbit
  rw [hmask, BitVec.and_twoPow]
  cases b.getLsbD k with
  | true => exact iff_of_true hne rfl
  | false => exact iff_of_false (not_not.2 rfl) Bool.false_ne_true

/-- A byte of the memory map, after a chunk is marked. -/
theorem getD_markUsed_map (h : d.Layout) {newId row : ℕ} (hrow : row < d.memoryMapSize) :
    (d.markUsed newId).memory.getD (d.memoryMapOffset + row) 0 =
      if row = newId / 8 then
        d.memory.getD (d.memoryMapOffset + row) 0 ||| ((1 : Byte) <<< (newId % 8))
      else d.memory.getD (d.memoryMapOffset + row) 0 := by
  have hmap := h.map
  have hchunks := h.chunks
  have hheader := h.header
  have hnum : offsetNumPwd = 3 := rfl
  have hother : ∀ (b : Byte) (addr : ℕ), offsetNumPwd ≠ addr →
      (d.memory.set offsetNumPwd b).getD addr 0 = d.memory.getD addr 0 := by
    intro b addr hne
    rw [List.getD_eq_getElem?_getD, List.getElem?_set_ne hne, ← List.getD_eq_getElem?_getD]
  rw [markUsed]
  split
  · next heq =>
      subst heq
      rw [List.getD_eq_getElem?_getD, List.getElem?_set_self (by rw [List.length_set]; omega),
        Option.getD_some, hother _ _ (by omega)]
  · next hne =>
      rw [List.getD_eq_getElem?_getD, List.getElem?_set_ne (by omega),
        ← List.getD_eq_getElem?_getD, hother _ _ (by omega)]

/-- Marking a chunk leaves the marks of the others. -/
theorem marked_markUsed (h : d.Layout) {newId : ℕ} (hid : id < d.maxNumPwd) :
    (d.markUsed newId).Marked id ↔ id = newId ∨ d.Marked id := by
  have hbits := h.bits
  have hbit : id % 8 < 8 := Nat.mod_lt _ (by decide)
  have hbit' : newId % 8 < 8 := Nat.mod_lt _ (by decide)
  have hlayout : (d.markUsed newId).Layout :=
    h.of_length ((List.length_set).trans List.length_set)
  have hoffset : (d.markUsed newId).memoryMapOffset = d.memoryMapOffset := rfl
  rw [marked_iff_getD hlayout hid, marked_iff_getD h hid, hoffset,
    getD_markUsed_map h (by omega), and_bit_ne_zero _ hbit]
  split
  · next heq =>
      -- the byte of the new chunk, whose other bits stay
      rw [getLsbD_setBit _ hbit' hbit, Bool.or_eq_true, decide_eq_true_iff, and_bit_ne_zero _ hbit,
        or_comm]
      refine or_congr_left ⟨fun hmod => ?_, fun hid => by rw [hid]⟩
      omega
  · next hne =>
      -- another byte of the memory map
      rw [and_bit_ne_zero _ hbit, iff_or_self]
      exact fun hid => absurd (congrArg (· / 8) hid) hne

/-! ## With no password in the image -/

/-- The first chunk and the header already are what they have to become. -/
structure Prepared (cipher : BlockCipher) (d : DeviceData) (name pwd usrName : QString) : Prop where
  firstUse : d.firstPwdUse = 0
  firstAlpha : d.firstPwdAlpha = 0
  prevUse : (d.password 0).prevPwdUse = d.maxNumPwd
  nextUse : (d.password 0).nextPwdUse = d.maxNumPwd
  prevAlpha : (d.password 0).prevPwdAlpha = d.maxNumPwd
  nextAlpha : (d.password 0).nextPwdAlpha = d.maxNumPwd
  holds : Holds cipher d.key (d.password 0) name pwd usrName

theorem listed_singleton {links : Links ℕ} {first : ℕ} :
    d.Listed links first [id] ↔
      id < d.maxNumPwd ∧ links.prev id = d.maxNumPwd ∧ links.next id = d.maxNumPwd ∧
        first = id := by
  constructor
  · intro h
    exact ⟨h.id_lt id List.mem_cons_self, h.linked.1, h.linked.2.1,
      h.first_eq (List.cons_ne_nil _ _)⟩
  · rintro ⟨hlt, hprev, hnext, hfirst⟩
    exact ⟨List.nodup_singleton id, List.forall_mem_singleton.2 hlt, ⟨hprev, hnext, trivial⟩,
      fun _ => hfirst⟩

theorem password_markUsed_zero (h : d.WellFormed [] []) (id : ℕ) :
    (d.markUsed 0).password id = d.password id :=
  password_markUsed h.layout h.layout.pos id

theorem marked_markUsed_zero (h : d.WellFormed [] []) (hid : id < d.maxNumPwd) :
    (d.markUsed 0).Marked id ↔ id = 0 := by
  rw [marked_markUsed h.layout hid, h.map id hid]
  simp

theorem firstPwdUse_markUsed (h : d.Layout) : (d.markUsed id).firstPwdUse = d.firstPwdUse :=
  congrArg BitVec.toNat (getD_markUsed h (by decide))

theorem firstPwdAlpha_markUsed (h : d.Layout) : (d.markUsed id).firstPwdAlpha = d.firstPwdAlpha :=
  congrArg BitVec.toNat (getD_markUsed h (by decide))

/-- The mark and the count make an image with one password of one that was prepared. -/
theorem wellFormed_markUsed (h : d.WellFormed [] [])
    (hprepared : Prepared cipher d name pwd usrName) : (d.markUsed 0).WellFormed [0] [0] := by
  have hpos := h.layout.pos
  have huse : (d.markUsed 0).useLinks = d.useLinks := by
    simp only [useLinks, password_markUsed_zero h]
  have halpha : (d.markUsed 0).alphaLinks = d.alphaLinks := by
    simp only [alphaLinks, password_markUsed_zero h]
  exact
    { size := h.size
      length := (List.length_set.trans List.length_set).trans h.length
      inUse := by
        rw [huse, firstPwdUse_markUsed h.layout]
        exact listed_singleton.2 ⟨hpos, hprepared.prevUse, hprepared.nextUse, hprepared.firstUse⟩
      inAlpha := by
        rw [halpha, firstPwdAlpha_markUsed h.layout]
        exact listed_singleton.2
          ⟨hpos, hprepared.prevAlpha, hprepared.nextAlpha, hprepared.firstAlpha⟩
      perm := List.Perm.refl _
      map := fun id hid => (marked_markUsed_zero h hid).trans List.mem_singleton.symm
      count := passwordNum_markUsed h.layout h.count }

/-- With the mark and the count a password is added if and only if all else is prepared. -/
theorem added_markUsed_iff (h : d.WellFormed [] []) :
    (∃ newId use' alpha',
      Added cipher d (d.markUsed 0) [] [] name pwd usrName newId use' alpha') ↔
      Prepared cipher d name pwd usrName := by
  constructor
  · rintro ⟨newId, use', alpha', hadded⟩
    -- the lists have one password, and its mark says that it is in the first chunk
    obtain rfl := List.perm_singleton.1 hadded.inUse
    obtain rfl := List.perm_singleton.1 hadded.inAlpha
    obtain ⟨hlt, hprevUse, hnextUse, huseEq⟩ := listed_singleton.1 hadded.wellFormed.inUse
    obtain ⟨-, hprevAlpha, hnextAlpha, halphaEq⟩ := listed_singleton.1 hadded.wellFormed.inAlpha
    obtain rfl : newId = 0 :=
      (marked_markUsed_zero h hlt).1 ((hadded.wellFormed.map newId hlt).2 List.mem_cons_self)
    have hholds := hadded.holds
    simp only [useLinks, password_markUsed_zero h] at hprevUse hnextUse
    simp only [alphaLinks, password_markUsed_zero h] at hprevAlpha hnextAlpha
    rw [password_markUsed_zero h] at hholds
    exact ⟨(firstPwdUse_markUsed h.layout).symm.trans huseEq,
      (firstPwdAlpha_markUsed h.layout).symm.trans halphaEq, hprevUse, hnextUse, hprevAlpha,
      hnextAlpha, hholds⟩
  · intro hprepared
    refine ⟨0, [0], [0], List.not_mem_nil, wellFormed_markUsed h hprepared, List.Perm.refl _,
      List.Perm.refl _, ?_, nofun⟩
    rw [password_markUsed_zero h]
    exact hprepared.holds

theorem addPassword_empty (h : d.WellFormed [] []) :
    d.addPassword cipher ivPwd ivUsr input name pwd usrName = some
      (if Storable name pwd usrName then (true, d.markUsed 0) else (false, d)) := by
  have hclear : ¬ d.Marked 0 := fun hmarked =>
    List.not_mem_nil ((h.map 0 h.layout.pos).1 hmarked)
  have hnum : ¬ d.passwordNum ≠ 0 := not_not.2 h.count
  exact addPassword_eq (findFree_eq_zero h.layout hclear) (if_neg hnum)

/-! ## When the image is as it should be -/

/-- After `addPassword` the image is as it should be, with the new password or untouched,
if no chunk is free, if nothing can be added to an image without passwords, or if the first
chunk of such an image already holds what is added to it.  Otherwise it never is. -/
theorem added_or_untouched_iff (h : d.WellFormed use alpha) :
    (∃ r, d.addPassword cipher ivPwd ivUsr input name pwd usrName = some r ∧
      AddedOrUntouched cipher d use alpha name pwd usrName r) ↔
      (∀ id < d.maxNumPwd, id ∈ use) ∨
      use = [] ∧ (¬ Storable name pwd usrName ∨ Prepared cipher d name pwd usrName) := by
  cases hfree : d.findFree with
  | none =>
      -- every chunk is marked: nothing is done
      have hall := (findFree_eq_none_iff h.layout).1 hfree
      have hresult : d.addPassword cipher ivPwd ivUsr input name pwd usrName =
          some (false, d) := by
        rw [addPassword, hfree]
      exact iff_of_true ⟨_, hresult, rfl⟩ (Or.inl fun id hid => (h.map id hid).1 (hall id hid))
  | some id =>
      obtain ⟨hid, hclear⟩ := findFree_some hfree
      have hnotAll : ¬ ∀ id < d.maxNumPwd, id ∈ use := fun hall =>
        hclear ((h.map id hid).2 (hall id hid))
      rw [or_iff_right hnotAll]
      by_cases huse : use = []
      · subst huse
        -- only the mark and the count are written
        obtain rfl := List.perm_nil.1 h.perm
        rw [addPassword_empty h, and_iff_right rfl]
        by_cases hstorable : Storable name pwd usrName
        · rw [if_pos hstorable, or_iff_right (not_not.2 hstorable), ← added_markUsed_iff h]
          constructor
          · rintro ⟨r, hr, hadded⟩
            obtain rfl := Option.some.inj hr
            exact hadded
          · exact fun hadded => ⟨_, rfl, hadded⟩
        · rw [if_neg hstorable]
          exact iff_of_true ⟨_, rfl, rfl⟩ (Or.inl hstorable)
      · refine iff_of_false ?_ fun hempty => huse hempty.1
        rintro ⟨r, hr, hadded⟩
        exact not_added_of_nonempty h huse hfree hr hadded

/-! ## An erased image -/

/-- A device with 8 KiB of zeros. -/
def erased : DeviceData where
  key := Vector.replicate 16 0
  memory := List.replicate 8192 0
  framId := ⟨0x7F, 0x04, 0x03, 0⟩
  storeScreenBufferInFram := false

theorem getD_replicate_zero (n i : ℕ) : (List.replicate n (0 : Byte)).getD i 0 = 0 := by
  rw [List.getD_eq_getElem?_getD, List.getElem?_replicate]
  split <;> rfl

theorem erased_wellFormed : erased.WellFormed [] [] := by
  have hsize : erased.memorySize = 8192 := by decide
  have hempty : ∀ links first, erased.Listed links first [] := fun links first =>
    ⟨List.nodup_nil, nofun, trivial, fun hne => absurd rfl hne⟩
  have hclear : ∀ id, ¬ erased.Marked id := by
    intro id
    have hbyte : erased.memoryMap.getD (id / 8) 0 = 0 := by
      rw [memoryMap, mid, erased, List.drop_replicate, List.take_replicate]
      exact getD_replicate_zero _ _
    rw [Marked, hbyte]
    exact not_not.2 BitVec.zero_and
  exact
    { size := Or.inl hsize
      length := List.length_replicate.trans hsize.symm
      inUse := hempty _ _
      inAlpha := hempty _ _
      perm := List.Perm.refl _
      map := fun id _ => iff_of_false (hclear id) List.not_mem_nil
      count := congrArg BitVec.toNat (getD_replicate_zero 8192 offsetNumPwd) }

/-- The first password of an erased image: its links are not written. -/
theorem first_password_unlinked :
    ¬∀ (d : DeviceData) (use alpha : List ℕ), d.WellFormed use alpha →
      ∀ (cipher : BlockCipher) (ivPwd ivUsr : Block) (input : Vector Byte 32)
          (name pwd usrName : QString),
        ∃ r, d.addPassword cipher ivPwd ivUsr input name pwd usrName = some r ∧
          AddedOrUntouched cipher d use alpha name pwd usrName r := by
  intro h
  obtain ⟨r, hr, hadded⟩ := h erased [] [] erased_wellFormed .xorKey (Vector.replicate 16 0)
    (Vector.replicate 16 0) (Vector.replicate 32 0) [0x41] [] []
  have hstorable : Storable [0x41] [] [] := by decide
  rw [addPassword_empty erased_wellFormed, if_pos hstorable] at hr
  obtain rfl := Option.some.inj hr
  -- the link of the first chunk would be the identifier of no password, and it is 0
  have hnext := ((added_markUsed_iff erased_wellFormed).1 hadded).nextUse
  have hzero : (erased.password 0).nextPwdUse = 0 := by
    rw [password_eq erased_wellFormed.layout erased_wellFormed.layout.pos, Password.nextPwdUse, mid,
      erased, List.drop_replicate, List.take_replicate, getD_replicate_zero]
    rfl
  exact erased_wellFormed.layout.pos.ne (hzero.symm.trans hnext)

/-! ## The texts of a chunk -/

/-- Bytes that are not written are the bytes before. -/
theorem mid_overwrite_of_disjoint {mem data : List Byte} {addr pos len : ℕ}
    (h : pos + len ≤ addr ∨ addr + data.length ≤ pos) :
    mid (overwrite mem addr data) pos len = mid mem pos len := by
  refine List.ext_getElem? fun i => ?_
  by_cases hi : i < len
  · rw [mid, mid, List.getElem?_take_of_lt hi, List.getElem?_take_of_lt hi, List.getElem?_drop,
      List.getElem?_drop, getElem?_overwrite_of_not (by omega)]
  · rw [mid, mid, List.getElem?_take_eq_none (by omega), List.getElem?_take_eq_none (by omega)]

theorem mid_overwrite {mem data : List Byte} {addr n : ℕ} (hn : data.length = n)
    (h : addr + n ≤ mem.length) : mid (overwrite mem addr data) addr n = data := by
  subst hn
  exact take_drop_overwrite h

/-- An initial vector and what is encrypted with it, as they are stored, are decrypted. -/
theorem decrypt_stored {mem input : List Byte} (addr : ℕ) {blocks : ℕ} {key iv : Block}
    (hfits : addr + 16 + 16 * blocks ≤ mem.length) (hinput : input.length = 16 * blocks) :
    cbcDecryptAll (cipher.decrypt key) blocks
      (mid (overwrite (overwrite mem addr iv.toList) (addr + 16)
        (cbcEncrypt (cipher.encrypt key) blocks input iv)) (addr + 16) (16 * blocks))
      (blockAt (mid (overwrite (overwrite mem addr iv.toList) (addr + 16)
        (cbcEncrypt (cipher.encrypt key) blocks input iv)) addr 16)) = input := by
  have hout : (cbcEncrypt (cipher.encrypt key) blocks input iv).length = 16 * blocks :=
    length_cbcEncrypt ..
  have hiv : iv.toList.length = 16 := length_block iv
  have hfits' : addr + 16 + 16 * blocks ≤ (overwrite mem addr iv.toList).length := by
    rwa [length_overwrite]
  have hblock : blockAt iv.toList = iv := by
    simpa using blockAt_toList_append iv []
  rw [mid_overwrite hout hfits', mid_overwrite_of_disjoint (Or.inl le_rfl),
    mid_overwrite hiv (by omega), hblock, cbcDecryptAll_cbcEncrypt _ _ _ _ _ hinput]

/-- A password that is set is read back up to its padding. -/
theorem password_setPassword {p : Password} {key iv : Block} (hdata : p.data.length = 166)
    (hpwd : pwd.length ≤ pwdSizePwdData) (behind : List Byte) :
    (p.setPassword cipher pwd key iv input).2.password cipher key behind =
      fromLocal8Bit
        (removePadding false (overwrite input.toList 0 (toLatin1 pwd)) ++ behind) := by
  have hinput : (overwrite input.toList 0 (toLatin1 pwd)).length = 16 * 2 :=
    (length_overwrite _ _ _).trans (Vector.length_toList ..)
  rw [Password.setPassword, if_neg (Nat.not_lt.2 hpwd)]
  exact congrArg (fun output => fromLocal8Bit (removePadding false output ++ behind))
    (decrypt_stored pwdOffsetPwdIv (by rw [hdata]; decide) hinput)

/-- A user name that is set is read back up to its padding. -/
theorem userName_setUserName {p : Password} {key iv : Block} (hdata : p.data.length = 166)
    (husr : usrName.length ≤ pwdSizeUsrName) (behind : List Byte) :
    (p.setUserName cipher usrName key iv).2.userName cipher key behind =
      fromLocal8Bit (removePadding false (toLatin1 usrName ++
        List.replicate (pwdSizeUsrName - (toLatin1 usrName).length) 0) ++ behind) := by
  have hsize : pwdSizeUsrName = 64 := rfl
  have hlatin : (toLatin1 usrName).length = usrName.length := List.length_map ..
  have hpadded : (toLatin1 usrName ++
      List.replicate (pwdSizeUsrName - (toLatin1 usrName).length) 0).length = 16 * 4 := by
    rw [List.length_append, List.length_replicate]
    omega
  rw [Password.setUserName, if_neg (Nat.not_lt.2 husr)]
  exact congrArg (fun output => fromLocal8Bit (removePadding false output ++ behind))
    (decrypt_stored pwdOffsetUsrIv (by rw [hdata]; decide) hpadded)

/-- The password leaves what is in front of its initial vector. -/
theorem mid_setPassword {p : Password} {key iv : Block} {pos len : ℕ}
    (h : pos + len ≤ pwdOffsetPwdIv) :
    mid (p.setPassword cipher pwd key iv input).2.data pos len = mid p.data pos len := by
  rw [Password.setPassword]
  split
  · rfl
  · rw [mid_overwrite_of_disjoint (Or.inl (h.trans (by decide))),
      mid_overwrite_of_disjoint (Or.inl h)]

/-- The user name leaves what is in front of its initial vector. -/
theorem mid_setUserName {p : Password} {key iv : Block} {pos len : ℕ}
    (h : pos + len ≤ pwdOffsetUsrIv) :
    mid (p.setUserName cipher usrName key iv).2.data pos len = mid p.data pos len := by
  rw [Password.setUserName]
  split
  · rfl
  · rw [mid_overwrite_of_disjoint (Or.inl (h.trans (by decide))),
      mid_overwrite_of_disjoint (Or.inl h)]

theorem password_setUserName {p : Password} {key key' iv : Block} (behind : List Byte) :
    (p.setUserName cipher usrName key iv).2.password cipher key' behind =
      p.password cipher key' behind := by
  rw [Password.password, Password.password, mid_setUserName (by decide),
    mid_setUserName (by decide)]

theorem length_setPassword {p : Password} {key iv : Block} :
    (p.setPassword cipher pwd key iv input).2.data.length = p.data.length := by
  rw [Password.setPassword]
  split
  · rfl
  · rw [length_overwrite, length_overwrite]

theorem length_setUserName {p : Password} {key iv : Block} :
    (p.setUserName cipher usrName key iv).2.data.length = p.data.length := by
  rw [Password.setUserName]
  split
  · rfl
  · rw [length_overwrite, length_overwrite]

theorem getD_eq_mid (data : List Byte) (i : ℕ) : data.getD i 0 = (mid data i 1).getD 0 0 := by
  rw [mid, List.getD_eq_getElem?_getD, List.getD_eq_getElem?_getD,
    List.getElem?_take_of_lt Nat.one_pos, List.getElem?_drop, Nat.add_zero]

/-! ## An image whose first chunk is left from before -/

/-- A password with the name `Mail`, alone in its lists. -/
def named : Password :=
  (((((Password.ofData 0 []).setPrevPwdUse 46).setNextPwdUse 46).setPrevPwdAlpha
    46).setNextPwdAlpha 46 |>.setName [0x4D, 0x61, 0x69, 0x6C]).2

/-- The password is `secret` and the user name is `me`. -/
def mail : Password :=
  ((named.setPassword aesBlockCipher [0x73, 0x65, 0x63, 0x72, 0x65, 0x74] erased.key
    (Vector.replicate 16 1) (Vector.replicate 32 0)).2.setUserName aesBlockCipher [0x6D, 0x65]
    erased.key (Vector.replicate 16 2)).2

/-- No password is stored, and the first chunk has what a password left there. -/
def leftover : DeviceData := erased.updatePassword mail

theorem mid_mail {pos len : ℕ} (h : pos + len ≤ pwdOffsetPwdIv) :
    mid mail.data pos len = mid named.data pos len :=
  (mid_setUserName (h.trans (by decide))).trans (mid_setPassword h)

theorem getD_mail {i : ℕ} (h : i < pwdOffsetPwdIv) : mail.data.getD i 0 = named.data.getD i 0 := by
  rw [getD_eq_mid, mid_mail h, ← getD_eq_mid]

theorem length_named : named.data.length = 166 := by decide +kernel

theorem length_mail : mail.data.length = 166 :=
  length_setUserName.trans (length_setPassword.trans length_named)

/-- An image without passwords has none when a chunk is written. -/
theorem wellFormed_updatePassword (h : d.WellFormed [] []) (pass : Password) :
    (d.updatePassword pass).WellFormed [] [] := by
  have hlayout := layout_updatePassword h.layout pass
  have hmap := h.layout.map
  have hheader := h.layout.header
  have hbefore : ∀ addr < d.firstPwdOffset,
      (d.updatePassword pass).memory.getD addr 0 = d.memory.getD addr 0 := by
    intro addr haddr
    rw [updatePassword, List.getD_eq_getElem?_getD, getElem?_overwrite_of_not (by omega),
      ← List.getD_eq_getElem?_getD]
  have hempty : ∀ links first, (d.updatePassword pass).Listed links first [] := fun links first =>
    ⟨List.nodup_nil, nofun, trivial, fun hne => absurd rfl hne⟩
  exact
    { size := h.size
      length := (length_overwrite _ _ _).trans h.length
      inUse := hempty _ _
      inAlpha := hempty _ _
      perm := List.Perm.refl _
      map := by
        intro id hid
        have hbits := h.layout.bits
        have hid' : id < d.maxNumPwd := hid
        have hoffset : (d.updatePassword pass).memoryMapOffset = d.memoryMapOffset := rfl
        rw [← h.map id hid', marked_iff_getD hlayout hid, marked_iff_getD h.layout hid', hoffset,
          hbefore _ (by omega)]
      count := by
        have hnum : offsetNumPwd = 3 := rfl
        have hread := congrArg BitVec.toNat (hbefore offsetNumPwd (by omega))
        exact hread.trans h.count }

theorem leftover_wellFormed : leftover.WellFormed [] [] :=
  wellFormed_updatePassword erased_wellFormed mail

/-- A text ends at its first zero, whatever is behind it. -/
theorem fromLocal8Bit_append {str : List Byte} (h : 0 ∈ str) (behind : List Byte) :
    fromLocal8Bit (str ++ behind) = fromLocal8Bit str := by
  have hstop : (str.takeWhile (· ≠ 0)).length ≠ str.length := by
    intro hlength
    have hself := (List.takeWhile_prefix _).eq_of_length hlength
    exact of_decide_eq_true (List.takeWhile_eq_self_iff.1 hself 0 h) rfl
  rw [fromLocal8Bit, List.takeWhile_append, if_neg hstop]
  rfl

theorem password_leftover : leftover.password 0 = mail :=
  password_updatePassword erased_wellFormed.layout erased_wellFormed.layout.pos length_mail

theorem leftover_prepared :
    Prepared aesBlockCipher leftover [0x4D, 0x61, 0x69, 0x6C]
      [0x73, 0x65, 0x63, 0x72, 0x65, 0x74] [0x6D, 0x65] where
  firstUse := by decide +kernel
  firstAlpha := by decide +kernel
  prevUse := by
    rw [password_leftover, Password.prevPwdUse, getD_mail (by decide)]
    decide
  nextUse := by
    rw [password_leftover, Password.nextPwdUse, getD_mail (by decide)]
    decide
  prevAlpha := by
    rw [password_leftover, Password.prevPwdAlpha, getD_mail (by decide)]
    decide
  nextAlpha := by
    rw [password_leftover, Password.nextPwdAlpha, getD_mail (by decide)]
    decide
  holds := by
    rw [password_leftover]
    refine ⟨?_, fun behind => ?_, fun behind => ?_⟩
    · rw [Password.name, mid_mail (by decide)]
      decide
    · rw [mail, password_setUserName]
      refine (password_setPassword length_named (by decide) behind).trans ?_
      exact fromLocal8Bit_append (by decide) behind
    · refine (userName_setUserName (length_setPassword.trans length_named) (by decide)
        behind).trans ?_
      exact fromLocal8Bit_append (by decide) behind

/-- What is added is what the first chunk held, and a second password is not added. -/
theorem added_or_untouched_iff_leftover :
    (∃ r, leftover.addPassword aesBlockCipher (Vector.replicate 16 1) (Vector.replicate 16 2)
        (Vector.replicate 32 5) [0x4D, 0x61, 0x69, 0x6C] [0x73, 0x65, 0x63, 0x72, 0x65, 0x74]
        [0x6D, 0x65] = some r ∧
      AddedOrUntouched aesBlockCipher leftover [] [] [0x4D, 0x61, 0x69, 0x6C]
        [0x73, 0x65, 0x63, 0x72, 0x65, 0x74] [0x6D, 0x65] r) ∧
      ¬ ∃ r, (leftover.markUsed 0).addPassword aesBlockCipher (Vector.replicate 16 3)
          (Vector.replicate 16 4) (Vector.replicate 32 5) [0x42, 0x61, 0x6E, 0x6B]
          [0x70, 0x69, 0x6E] [] = some r ∧
        AddedOrUntouched aesBlockCipher (leftover.markUsed 0) [0] [0] [0x42, 0x61, 0x6E, 0x6B]
          [0x70, 0x69, 0x6E] [] r := by
  have hone := wellFormed_markUsed leftover_wellFormed leftover_prepared
  refine ⟨(added_or_untouched_iff leftover_wellFormed).2 (Or.inr ⟨rfl, Or.inr leftover_prepared⟩),
    fun hadded => ?_⟩
  rcases (added_or_untouched_iff hone).1 hadded with hfull | ⟨hnil, -⟩
  · exact absurd (hfull 1 (by decide +kernel)) (by decide)
  · cases hnil

end DeviceData

end PasswordWallet.DesktopApp
