import PasswordWallet.Security.Password

/-!
# The password lists

`Password_List.c`.  The memory map says which chunks are used; two doubly linked
lists thread the used chunks, one by the number of uses and one by name.  Both
end with `MAXIMUM_NUMBER_OF_PWD`, which is no chunk.

The functions on the two lists are the same up to the fields they use, and the
code passes these fields as function pointers where it shares a body.  Here a
`PwdOrder` collects them: where the head is, how the links are read and set, and
the key that the sort compares.

Loops that follow links have no bound of their own.  They take `fuel`, the
number of turns after which a run is counted as hanging.

The sections that rewire links, during which a list is not one, are put in a
`Program.group`.
-/

namespace PasswordWallet

open PowerLoss

variable (t : Target)

@[simp] def pwdSortingNone : ℕ := 0
@[simp] def pwdSortingUse : ℕ := 1
@[simp] def pwdSortingAlpha : ℕ := 2

/-- `pwd_list_get_sorting_method`, the two low bits of the option flag. -/
def pwdListGetSortingMethod (optionsFlag : Byte) : ℕ := optionsFlag.toNat % 4

/-! ## The memory map -/

/-- The bit of a chunk in the memory map. -/
def Image.used (p : Image) (pwdId : ℕ) : Bool :=
  (p.byte (offsetMemoryMap + pwdId / 8)).getLsbD (pwdId % 8)

/-- The bits of the map survive what happens outside it. -/
theorem SameOff.used {p p' : Image} {R : Set ℕ} (h : SameOff R p p')
    (hR : ∀ x, 263 ≤ x → x < 362 → x ∉ R) {pwdId : ℕ} (hid : pwdId < 8 * sizeMemoryMap) :
    p'.used pwdId = p.used pwdId := by
  refine congrArg (BitVec.getLsbD · (pwdId % 8)) (h.byte ?_)
  simp only [sizeMemoryMap] at hid
  rw [Nat.mod_eq_of_lt (by simp; omega)]
  exact hR _ (by simp) (by simp; omega)

/-- The inner loop of `get_first_entry_from`: `some none` is the jump to
`nothingFound`. -/
def firstEntryInByte (memoryByte : Byte) (i : ℕ) : ℕ → ℕ → Option (Option ℕ)
  | _, 0 => none
  | j, count + 1 =>
      if i * 8 + j ≥ maximumNumberOfPwd then some none
      else if memoryByte.getLsbD j then some (some (i * 8 + j))
      else firstEntryInByte memoryByte i (j + 1) count

def firstEntryScan (p : Image) (index : ℕ) : ℕ → ℕ → Option ℕ
  | _, 0 => none
  | i, count + 1 =>
      let j := if i = index / 8 then index % 8 else 0
      match firstEntryInByte (p.byte (offsetMemoryMap + i)) i j (8 - j) with
      | some found => found
      | none => firstEntryScan p index (i + 1) count

def getFirstEntryFrom (index : ℕ) (p : Image) : ℕ :=
  match firstEntryScan p index (index / 8) (sizeMemoryMap - index / 8) with
  | some pwdId => pwdId
  | none => if index ≠ 0 then (firstEntryScan p 0 0 sizeMemoryMap).getD 0 else index

/-- The inner loop of `pwd_list_get_prev_pwd_id_sort_none`, downwards: an error
is the id it returns. -/
def prevEntryInByte (memoryByte : Byte) (i pwdId : ℕ) : ℕ → ℕ → Except ℕ ℕ
  | 0, found => .ok found
  | j + 1, found =>
      if memoryByte.getLsbD j then
        if i * 8 + j < pwdId then .error (i * 8 + j)
        else prevEntryInByte memoryByte i pwdId j
          (if found = maximumNumberOfPwd then i * 8 + j else found)
      else prevEntryInByte memoryByte i pwdId j found

def prevEntryScan (p : Image) (pwdId : ℕ) : ℕ → ℕ → ℕ
  | 0, found => found
  | i + 1, found =>
      let searchFrom := maximumNumberOfPwd - 1
      match prevEntryInByte (p.byte (offsetMemoryMap + i)) i pwdId
        (if i = searchFrom / 8 then searchFrom % 8 + 1 else 8) found with
      | .ok found => prevEntryScan p pwdId i found
      | .error pwdId => pwdId

def pwdListGetFirstPwdIdSortNone : Image → ℕ := getFirstEntryFrom 0

def pwdListGetNextPwdIdSortNone (pwdId : ℕ) : Image → ℕ := getFirstEntryFrom (pwdId + 1)

def pwdListGetPrevPwdIdSortNone (pwdId : ℕ) (p : Image) : ℕ :=
  prevEntryScan p pwdId ((maximumNumberOfPwd - 1) / 8 + 1) maximumNumberOfPwd

/-! ## The two orders -/

/-- One of the two lists: where its head is, its links, and the key it is sorted
by; `before` is the comparison of the sort. -/
structure PwdOrder (K : Type) where
  offsetFirst : ℕ
  readPrev : ℕ → Image → ℕ
  readNext : ℕ → Image → ℕ
  setPrev : ℕ → ℕ → Dev Unit
  setNext : ℕ → ℕ → Dev Unit
  readKey : ℕ → Image → K
  before : K → K → Bool

/-- The list by use, most used first. -/
def orderUse : PwdOrder ℕ where
  offsetFirst := offsetFirstPwdUse
  readPrev := passwordReadPrevPwdUse t
  readNext := passwordReadNextPwdUse t
  setPrev := passwordSetPrevPwdUse t
  setNext := passwordSetNextPwdUse t
  readKey := passwordReadCounter t
  before current prev := current > prev

/-- `upper`, on a string that ends with its first zero. -/
def upper : List Byte → List Byte
  | [] => []
  | c :: str =>
      if c = 0 then c :: str
      else (if 97 ≤ c.toNat ∧ c.toNat ≤ 122 then c - 32 else c) :: upper str

/-- `strcmp(s1, s2) < 0`. -/
def strcmpLt : List Byte → List Byte → Bool
  | _, [] => false
  | [], c :: _ => 0 < c.toNat
  | c :: s1, d :: s2 =>
      if c ≠ d then c.toNat < d.toNat else if c = 0 then false else strcmpLt s1 s2

/-- The list by name; names are compared in upper case. -/
def orderAlpha : PwdOrder (List Byte) where
  offsetFirst := offsetFirstPwdAlpha
  readPrev := passwordReadPrevPwdAlpha t
  readNext := passwordReadNextPwdAlpha t
  setPrev := passwordSetPrevPwdAlpha t
  setNext := passwordSetNextPwdAlpha t
  readKey pwdId p := upper (passwordReadName t pwdId p)
  before := strcmpLt

section Order

variable {K : Type} (o : PwdOrder K)

/-- `pwd_list_get_first_pwd_id_sort_use` and `_sort_alpha`. -/
def getFirstPwdIdSorted : Image → ℕ := passwordReadId o.offsetFirst

/-- The loop that goes to the end of a list. -/
def lastPwdId (p : Image) : ℕ → ℕ → ℕ → Option ℕ
  | 0, _, _ => none
  | fuel + 1, id, pwdId =>
      if pwdId ≠ maximumNumberOfPwd then lastPwdId p fuel pwdId (o.readNext pwdId p) else some id

/-- `pwd_list_get_prev_pwd_id_sort_use` and `_sort_alpha`. -/
def getPrevPwdIdSorted (fuel pwdId : ℕ) (p : Image) : Option ℕ :=
  let id := o.readPrev pwdId p
  if id = maximumNumberOfPwd then lastPwdId o p fuel id pwdId else some id

/-- `pwd_list_get_next_pwd_id_sort_use` and `_sort_alpha`. -/
def getNextPwdIdSorted (pwdId : ℕ) (p : Image) : ℕ :=
  let id := o.readNext pwdId p
  if id = maximumNumberOfPwd then getFirstPwdIdSorted o p else id

end Order

def pwdListGetFirstPwdId (optionsFlag : Byte) (p : Image) : ℕ :=
  if pwdListGetSortingMethod optionsFlag = pwdSortingNone then pwdListGetFirstPwdIdSortNone p
  else if pwdListGetSortingMethod optionsFlag = pwdSortingUse then
    getFirstPwdIdSorted (orderUse t) p
  else if pwdListGetSortingMethod optionsFlag = pwdSortingAlpha then
    getFirstPwdIdSorted (orderAlpha t) p
  else 0

def pwdListGetPrevPwdId (optionsFlag : Byte) (fuel pwdId : ℕ) (p : Image) : Option ℕ :=
  if pwdListGetSortingMethod optionsFlag = pwdSortingNone then
    some (pwdListGetPrevPwdIdSortNone pwdId p)
  else if pwdListGetSortingMethod optionsFlag = pwdSortingUse then
    getPrevPwdIdSorted (orderUse t) fuel pwdId p
  else if pwdListGetSortingMethod optionsFlag = pwdSortingAlpha then
    getPrevPwdIdSorted (orderAlpha t) fuel pwdId p
  else some pwdId

def pwdListGetNextPwdId (optionsFlag : Byte) (pwdId : ℕ) (p : Image) : ℕ :=
  if pwdListGetSortingMethod optionsFlag = pwdSortingNone then pwdListGetNextPwdIdSortNone pwdId p
  else if pwdListGetSortingMethod optionsFlag = pwdSortingUse then
    getNextPwdIdSorted (orderUse t) pwdId p
  else if pwdListGetSortingMethod optionsFlag = pwdSortingAlpha then
    getNextPwdIdSorted (orderAlpha t) pwdId p
  else pwdId

/-! ## Sorting -/

/-- The value of a walk, or a hang where it had no end. -/
def orHang {α : Type} : Option α → Dev α
  | none => Program.hang
  | some a => pure a

section Sorting

variable {K : Type} (o : PwdOrder K)

/-- What is done to an id unless it is the end of the list. -/
def unlessEnd (id : ℕ) (m : Dev Unit) : Dev Unit :=
  if id ≠ maximumNumberOfPwd then m else pure ()

def swapNeighbours (lower upper : ℕ) : Dev Unit := do
  let prevLower ← readImage (o.readPrev lower)
  let nextUpper ← readImage (o.readNext upper)
  o.setPrev lower upper
  o.setNext lower nextUpper
  o.setPrev upper prevLower
  o.setNext upper lower
  unlessEnd prevLower (o.setNext prevLower upper)
  unlessEnd nextUpper (o.setPrev nextUpper lower)

/-- The head is moved if the swap is with the first password; the result is the
new first. -/
def updateFirst (first prev current : ℕ) : Dev ℕ :=
  if prev = first then do
    passwordWriteId o.offsetFirst current
    pure current
  else pure first

def swapWithPrev (first prev current : ℕ) : Dev ℕ := do
  let first ← updateFirst o first prev current
  swapNeighbours o prev current
  pure first

/-- The inner loop of the sort, which moves `current` backwards; it yields the
first password and the sorting position. -/
def sortInner (current : ℕ) (currentKey : K) : ℕ → ℕ → ℕ → ℕ → Dev (ℕ × ℕ)
  | 0, _, _, _ => Program.hang
  | fuel + 1, first, prev, sortingPosition =>
      if prev ≠ maximumNumberOfPwd then do
        let prevKey ← readImage (o.readKey prev)
        if o.before currentKey prevKey then do
          let first ← Program.group (swapWithPrev o first prev current)
          let nextPrev ← readImage (o.readPrev current)
          sortInner current currentKey fuel first nextPrev prev
        else pure (first, sortingPosition)
      else pure (first, sortingPosition)

/-- The outer loop of the sort. -/
def sortOuter (turns : ℕ) : ℕ → ℕ → ℕ → Dev Unit
  | 0, _, _ => Program.hang
  | fuel + 1, first, current =>
      if current ≠ maximumNumberOfPwd then do
        let prev ← readImage (o.readPrev current)
        let currentKey ← readImage (o.readKey current)
        let (first, sortingPosition) ← sortInner o current currentKey turns first prev current
        let current ← readImage (o.readNext sortingPosition)
        sortOuter turns fuel first current
      else pure ()

def pwdListSort (fuel : ℕ) : Dev Unit := do
  let v ← Program.ram
  if v.numPwd < 2 then pure ()
  else do
    let first ← readImage (getFirstPwdIdSorted o)
    let current ← readImage (o.readNext first)
    sortOuter o fuel fuel first current

end Sorting

def pwdListSortUse (fuel : ℕ) : Dev Unit := pwdListSort (orderUse t) fuel

def pwdListSortAlpha (fuel : ℕ) : Dev Unit := pwdListSort (orderAlpha t) fuel

/-! ## Deleting -/

/-- The head takes the place of the previous link of the first password; an
empty list has the head 0. -/
def unlinkFirst {K : Type} (o : PwdOrder K) (prev next : ℕ) : Dev Unit :=
  if prev = maximumNumberOfPwd then
    if next ≠ maximumNumberOfPwd then passwordWriteId o.offsetFirst next
    else passwordWriteId o.offsetFirst 0
  else o.setNext prev next

/-- Takes a password out of one list. -/
def unlink {K : Type} (o : PwdOrder K) (prev next : ℕ) : Dev Unit := do
  unlessEnd next (o.setPrev next prev)
  unlinkFirst o prev next

def clearMapBit (pwdId : ℕ) : Dev Unit := do
  let memoryByte ← framReadByte (offsetMemoryMap + pwdId / 8)
  framWriteByte (offsetMemoryMap + pwdId / 8) (memoryByte &&& ~~~((1 : Byte) <<< (pwdId % 8)))

/-- `NUM_PWD` is changed and stored. -/
def writeNumPwd (f : ℕ → ℕ) : Dev Unit := do
  modifyRam fun v => { v with numPwd := f v.numPwd % 65536 }
  let v ← Program.ram
  passwordWriteId offsetNumPwd v.numPwd

def pwdListDeletePwd (pwdId : ℕ) : Dev Unit := do
  let prevUse ← readImage (passwordReadPrevPwdUse t pwdId)
  let nextUse ← readImage (passwordReadNextPwdUse t pwdId)
  let prevAlpha ← readImage (passwordReadPrevPwdAlpha t pwdId)
  let nextAlpha ← readImage (passwordReadNextPwdAlpha t pwdId)
  Program.group (unlink (orderUse t) prevUse nextUse)
  Program.group (unlink (orderAlpha t) prevAlpha nextAlpha)
  clearMapBit pwdId
  writeNumPwd fun n => n + 65535
  framSet (pwdAddr t.addressing pwdId 0) 0 sizeOfPwdBlock

/-! ## Adding -/

/-- The inner loop of the search for a free chunk. -/
def freeInByte (memoryByte : Byte) (i : ℕ) : ℕ → ℕ → Option ℕ
  | _, 0 => none
  | j, count + 1 =>
      if i * 8 + j ≥ maximumNumberOfPwd then none
      else if memoryByte.getLsbD j then freeInByte memoryByte i (j + 1) count
      else some (i * 8 + j)

def freeScan (p : Image) : ℕ → ℕ → Option ℕ
  | _, 0 => none
  | i, count + 1 =>
      match freeInByte (p.byte (offsetMemoryMap + i)) i 0 8 with
      | some pwdId => some pwdId
      | none => freeScan p (i + 1) count

def setMapBit (pwdId : ℕ) : Dev Unit := do
  let memoryByte ← framReadByte (offsetMemoryMap + pwdId / 8)
  framWriteByte (offsetMemoryMap + pwdId / 8) (memoryByte ||| (1 : Byte) <<< (pwdId % 8))

/-- The links that a new password starts with, `prevUse` and `prevAlpha` first:
it goes behind the last password of each list, if there is one. -/
def linkLast (fuel pwdId : ℕ) : Dev (ℕ × ℕ) := do
  let v ← Program.ram
  if v.numPwd ≠ 0 then do
    let lastPwdUse ← readImage fun p =>
      getPrevPwdIdSorted (orderUse t) fuel (getFirstPwdIdSorted (orderUse t) p) p
    let lastPwdUse ← orHang lastPwdUse
    let lastPwdAlpha ← readImage fun p =>
      getPrevPwdIdSorted (orderAlpha t) fuel (getFirstPwdIdSorted (orderAlpha t) p) p
    let lastPwdAlpha ← orHang lastPwdAlpha
    passwordSetNextPwdUse t lastPwdUse pwdId
    passwordSetNextPwdAlpha t lastPwdAlpha pwdId
    pure (lastPwdUse, lastPwdAlpha)
  else pure (maximumNumberOfPwd, maximumNumberOfPwd)

/-- Puts a new password at the end of both lists. -/
def linkNew (fuel pwdId : ℕ) : Dev Unit := do
  let (prevUse, prevAlpha) ← linkLast t fuel pwdId
  passwordSetPrevPwdUse t pwdId prevUse
  passwordSetNextPwdUse t pwdId maximumNumberOfPwd
  passwordSetPrevPwdAlpha t pwdId prevAlpha
  passwordSetNextPwdAlpha t pwdId maximumNumberOfPwd

/-- `pwd_list_add_pwd` once a chunk has been found. -/
def addInChunk (fuel pwdId : ℕ) (name : Vector Byte 32) (data usrName : List Byte) :
    Dev Unit := do
  setMapBit pwdId
  Program.group (linkNew t fuel pwdId)
  passwordSetCounter t pwdId 0
  passwordSetName t pwdId name
  let v ← Program.ram
  passwordSetData t pwdId data v.key
  passwordSetUsrName t pwdId usrName v.key
  writeNumPwd fun n => n + 1
  pwdListSortUse t fuel
  pwdListSortAlpha t fuel

/-- `pwd_list_add_pwd`, true for `RETURN_SUCCESS`. -/
def pwdListAddPwd (fuel : ℕ) (name : Vector Byte 32) (data usrName : List Byte) : Dev Bool := do
  let chunkFree ← readImage fun p => freeScan p 0 sizeMemoryMap
  match chunkFree with
  | none => pure false
  | some pwdId => do
      addInChunk t fuel pwdId name data usrName
      pure true

end PasswordWallet
