import PasswordWallet.Packing.Definitions
import PasswordWallet.Utility.MemoryRepresentation
import Mathlib.Data.BitVec

/-!
# What a layout becomes when it is loaded

`declared root` lists the blocks of a document, each with the offset that the sizes in
front of it add up to.  `loadFromFile` accepts a document if it is `Complete` and declares
names that are new and all different; then the table has what is declared
(`loadFromFile_accepts_iff`).
-/

namespace PasswordWallet

namespace MemoryRepresentation

open Packing

/-- The value of an attribute, empty if it is missing. -/
def attr (node : XmlNode) (name : String) : String := (node.attributeValue name).getD ""

abbrev Entry := (String × String) × MemoryBlock

/-! ## What a document declares -/

/-- The position that a bit is declared at. -/
def bitPosition (bitN : XmlNode) : Byte := (stringToInteger (attr bitN "pos")).setWidth 8

def bitEntry (sectionName nameByte : String) (byteBlock : MemoryBlock) (bitN : XmlNode) : Entry :=
  ((sectionName, nameByte ++ "_" ++ attr bitN "name"),
    { byteBlock with bitPos := bitPosition bitN })

/-- The bytes that a child of a section takes. -/
def childSize (childN : XmlNode) : BitVec 32 :=
  if childN.name = "byte" then 1
  else if childN.name = "block" then stringToInteger (attr childN "size")
  else 0

def childEntries (sectionName : String) (offset : BitVec 32) (childN : XmlNode) : List Entry :=
  if childN.name = "byte" then
    ((sectionName, attr childN "name"), { offset := offset, size := 1 }) ::
      (childN.childrenNamed "bit").map
        (bitEntry sectionName (attr childN "name") { offset := offset, size := 1 })
  else if childN.name = "block" then
    [((sectionName, attr childN "name"), { offset := offset, size := childSize childN })]
  else []

def sectionSize (sectionN : XmlNode) : BitVec 32 := (sectionN.children.map childSize).sum

def sectionEntries (offset : BitVec 32) (sectionN : XmlNode) : List Entry :=
  laidOut childSize (childEntries (attr sectionN "name")) offset sectionN.children ++
    [((attr sectionN "name", sectionKey), { offset := offset, size := sectionSize sectionN })]

def declared (root : XmlNode) : List Entry :=
  laidOut sectionSize sectionEntries 0 (root.childrenNamed "section")

/-! ## What a document must have -/

def HasAttribute (node : XmlNode) (name : String) : Prop := (node.attributeValue name).isSome

def CompleteBit (bitN : XmlNode) : Prop :=
  HasAttribute bitN "pos" ∧ bitPosition bitN ≠ 255 ∧ HasAttribute bitN "name"

def CompleteChild (childN : XmlNode) : Prop :=
  (childN.name = "byte" → HasAttribute childN "name" ∧
    ∀ bitN ∈ childN.childrenNamed "bit", CompleteBit bitN) ∧
  (childN.name = "block" → HasAttribute childN "size" ∧ childSize childN ≠ 0 ∧
    HasAttribute childN "name")

def CompleteSection (sectionN : XmlNode) : Prop :=
  HasAttribute sectionN "name" ∧ ∀ childN ∈ sectionN.children, CompleteChild childN

def Complete (root : XmlNode) : Prop :=
  ∀ sectionN ∈ root.childrenNamed "section", CompleteSection sectionN

/-! ## The rules of loading -/

variable {α β : Type}

/-- The loading succeeds if the document is as it must be and its entries can be defined,
and gives the result then. -/
def Loads (x : Loading α) (ok : Prop) (entries : List Entry) (a : α) : Prop :=
  ∀ m r m', x.run m = .ok r m' ↔ ok ∧ Defines entries m m' ∧ r = a

theorem loads_pure (a : α) : Loads (pure a) True [] a := by
  intro m r m'
  change EStateM.Result.ok a m = .ok r m' ↔ _
  rw [defines_nil, EStateM.Result.ok.injEq]
  constructor
  · rintro ⟨rfl, rfl⟩
    exact ⟨trivial, rfl, rfl⟩
  · rintro ⟨-, rfl, rfl⟩
    exact ⟨rfl, rfl⟩

theorem Loads.bind {x : Loading α} {f : α → Loading β} {ok ok' : Prop}
    {entries entries' : List Entry} {a : α} {b : β} (hx : Loads x ok entries a)
    (hf : ok → Loads (f a) ok' entries' b) :
    Loads (x >>= f) (ok ∧ ok') (entries ++ entries') b := by
  intro m r m''
  change EStateM.bind x f m = _ ↔ _
  rw [defines_append]
  cases h : x.run m with
  | error e m' =>
      simp only [EStateM.bind, show x m = _ from h, reduceCtorEq, false_iff]
      rintro ⟨⟨hok, -⟩, ⟨m', hdefines, -⟩, -⟩
      have := (hx m a m').mpr ⟨hok, hdefines, rfl⟩
      rw [h] at this
      cases this
  | ok a' m' =>
      obtain ⟨hok, hdefines, rfl⟩ := (hx m a' m').mp h
      simp only [EStateM.bind, show x m = _ from h]
      change (f a').run m' = _ ↔ _
      rw [hf hok m' r m'']
      constructor
      · rintro ⟨hok', hdefines', rfl⟩
        exact ⟨⟨hok, hok'⟩, ⟨m', hdefines, hdefines'⟩, rfl⟩
      · rintro ⟨⟨-, hok'⟩, ⟨m₁, hdefines₁, hdefines'⟩, rfl⟩
        have := (hx m a' m₁).mpr ⟨hok, hdefines₁, rfl⟩
        rw [h, EStateM.Result.ok.injEq] at this
        rw [← this.2] at hdefines'
        exact ⟨hok', hdefines', rfl⟩

theorem Loads.congr {x : Loading α} {ok ok' : Prop} {entries entries' : List Entry} {a a' : α}
    (hx : Loads x ok entries a) (hok : ok ↔ ok') (hentries : entries = entries') (ha : a = a') :
    Loads x ok' entries' a' := by
  subst hentries ha
  intro m r m'
  rw [hx m r m', hok]

/-- A check that ends the loading with an error. -/
theorem Loads.check {bad : Prop} [Decidable bad] (error : ErrorType) {x : Loading α}
    (f : β → Loading α) {ok : Prop} {entries : List Entry} {a : α}
    (hx : Loads x ok entries a) :
    Loads (if bad then throw error >>= f else x) (¬ bad ∧ ok) entries a := by
  by_cases h : bad
  · rw [if_pos h]
    intro m r m'
    simp only [not_true, h, false_and, iff_false]
    exact fun h => nomatch h
  · rw [if_neg h]
    exact hx.congr (by simp [h]) rfl rfl

theorem loads_attributeOf (node : XmlNode) (name : String) :
    Loads (attributeOf node name) (HasAttribute node name) [] (attr node name) := by
  unfold attributeOf HasAttribute attr
  cases node.attributeValue name with
  | none =>
      intro m r m'
      simp only [Option.isSome_none, Bool.false_eq_true, false_and, iff_false]
      exact fun h => nomatch h
  | some value => exact (loads_pure value).congr (by simp) rfl rfl

theorem loads_insertValue (sectionName name : String) (block : MemoryBlock) :
    Loads (insertValue sectionName name block) True [((sectionName, name), block)] () := by
  intro m r m'
  rw [defines_singleton]
  change (if (m (sectionName, name)).isSome then throw ErrorType.nameRedefinition
    else set (Function.update m (sectionName, name) (some block)) : Loading Unit).run m = _ ↔ _
  cases h : m (sectionName, name) with
  | some old =>
      simp only [Option.isSome_some, if_true, reduceCtorEq, false_and, and_false, iff_false]
      exact fun h => nomatch h
  | none =>
      simp only [Option.isSome_none, Bool.false_eq_true, if_false]
      change EStateM.Result.ok () (Function.update m (sectionName, name) (some block)) = _ ↔ _
      rw [EStateM.Result.ok.injEq]
      constructor
      · rintro ⟨rfl, rfl⟩
        exact ⟨trivial, ⟨trivial, rfl⟩, trivial⟩
      · rintro ⟨-, ⟨-, rfl⟩, -⟩
        exact ⟨rfl, rfl⟩

/-- A loop that passes the offset on. -/
theorem loads_foldlM {load : BitVec 32 → XmlNode → Loading (BitVec 32)} {ok : XmlNode → Prop}
    {size : XmlNode → BitVec 32} {entriesAt : BitVec 32 → XmlNode → List Entry}
    (hload : ∀ offset node, Loads (load offset node) (ok node) (entriesAt offset node)
      (offset + size node)) (nodes : List XmlNode) (offset : BitVec 32) :
    Loads (nodes.foldlM load offset) (∀ node ∈ nodes, ok node)
      (laidOut size entriesAt offset nodes) (offset + (nodes.map size).sum) := by
  induction nodes generalizing offset with
  | nil => exact (loads_pure offset).congr (by simp) rfl (by simp)
  | cons node rest ih =>
      rw [List.foldlM_cons]
      refine ((hload offset node).bind fun _ => ih (offset + size node)).congr ?_ rfl ?_
      · rw [List.forall_mem_cons]
      · rw [List.map_cons, List.sum_cons, add_assoc]

/-! ## The functions of the source -/

theorem loads_loadBit (sectionName nameByte : String) (byteBlock : MemoryBlock)
    (bitN : XmlNode) :
    Loads (loadBit sectionName nameByte byteBlock bitN) (CompleteBit bitN)
      [bitEntry sectionName nameByte byteBlock bitN] () := by
  refine Loads.congr (Loads.bind (loads_attributeOf bitN "pos") fun _ =>
    Loads.check .invalidAttribute _ (Loads.bind (loads_attributeOf bitN "name") fun _ =>
      loads_insertValue _ _ _)) ?_ rfl rfl
  simp only [and_true]
  exact Iff.rfl

theorem loads_loadBits (sectionName nameByte : String) (byteBlock : MemoryBlock)
    (bits : List XmlNode) :
    Loads (bits.forM (loadBit sectionName nameByte byteBlock)) (∀ bitN ∈ bits, CompleteBit bitN)
      (bits.map (bitEntry sectionName nameByte byteBlock)) () := by
  induction bits with
  | nil => exact (loads_pure ()).congr (by simp) rfl rfl
  | cons bitN rest ih =>
      refine ((loads_loadBit sectionName nameByte byteBlock bitN).bind fun _ => ih).congr ?_ rfl rfl
      rw [List.forall_mem_cons]

theorem loads_loadChild (sectionName : String) (offset : BitVec 32) (childN : XmlNode) :
    Loads (loadChild sectionName offset childN) (CompleteChild childN)
      (childEntries sectionName offset childN) (offset + childSize childN) := by
  unfold loadChild CompleteChild childEntries childSize
  by_cases hbyte : childN.name = "byte"
  · have hblock : childN.name ≠ "block" := by
      rw [hbyte]
      decide
    simp only [if_pos hbyte]
    refine Loads.congr (Loads.bind (loads_attributeOf childN "name") fun _ =>
      Loads.bind (loads_insertValue _ _ _) fun _ =>
        Loads.bind (loads_loadBits _ _ _ _) fun _ => loads_pure _) ?_ ?_ rfl
    · simp [hbyte]
    · simp
  by_cases hblock : childN.name = "block"
  · simp only [if_neg hbyte, if_pos hblock]
    refine Loads.congr (Loads.bind (loads_attributeOf childN "size") fun _ =>
      Loads.check .invalidAttribute _ (Loads.bind (loads_attributeOf childN "name") fun _ =>
        Loads.bind (loads_insertValue _ _ _) fun _ => loads_pure _)) ?_ ?_ rfl
    · simp [hblock]
    · simp
  · simp only [if_neg hbyte, if_neg hblock, add_zero]
    exact (loads_pure offset).congr (by simp [hbyte, hblock]) rfl rfl

theorem loads_loadSection (offset : BitVec 32) (sectionN : XmlNode) :
    Loads (loadSection offset sectionN) (CompleteSection sectionN)
      (sectionEntries offset sectionN) (offset + sectionSize sectionN) := by
  refine Loads.congr (Loads.bind (loads_attributeOf sectionN "name") fun _ =>
    Loads.bind (loads_foldlM (loads_loadChild _) sectionN.children offset) fun _ =>
      Loads.bind (loads_insertValue _ _ _) fun _ => loads_pure _) ?_ ?_ rfl
  · simp only [and_true]
    exact Iff.rfl
  · rw [add_sub_cancel_left, List.append_nil, List.nil_append]
    rfl

/-- A document is accepted if it has what it must have and no name is defined twice, and
what it declares is in the table then. -/
theorem loadFromFile_accepts_iff (doc : XmlNode) (rep rep' : MemoryRepresentation) :
    loadFromFile (some doc) rep = (true, rep') ↔
      ∃ root nameBlock, doc.child "root" = some root ∧ Complete root ∧
        Defines (declared root) rep.nameBlock nameBlock ∧
        rep' = { rep with nameBlock := nameBlock, valid := true } := by
  simp only [loadFromFile]
  cases doc.child "root" with
  | none => simp
  | some root =>
      have hload := loads_foldlM loads_loadSection (root.childrenNamed "section") 0 rep.nameBlock
      simp only [Option.some.injEq]
      cases h : ((root.childrenNamed "section").foldlM loadSection 0).run rep.nameBlock with
      | error e m =>
          simp only [Prod.mk.injEq, Bool.false_eq_true, false_and, false_iff]
          rintro ⟨_, nameBlock, rfl, hcomplete, hdefines, -⟩
          have := (hload _ nameBlock).mpr ⟨hcomplete, hdefines, rfl⟩
          rw [h] at this
          cases this
      | ok r m =>
          obtain ⟨hcomplete, hdefines, -⟩ := (hload r m).mp h
          simp only [Prod.mk.injEq, true_and]
          constructor
          · rintro rfl
            exact ⟨root, m, rfl, hcomplete, hdefines, rfl⟩
          · rintro ⟨_, nameBlock, rfl, -, hdefines', rfl⟩
            have := (hload _ nameBlock).mpr ⟨hcomplete, hdefines', rfl⟩
            rw [h, EStateM.Result.ok.injEq] at this
            rw [this.2]

/-! ## Where a byte and its bits are -/

/-- The section has a byte with the name, at the offset, and with the bits. -/
def HasByte (root : XmlNode) (sectionName nameByte : String) (offset : BitVec 32)
    (bits : List XmlNode) : Prop :=
  ∃ before sectionN after front byteN back,
    root.childrenNamed "section" = before ++ sectionN :: after ∧
    sectionN.attributeValue "name" = some sectionName ∧
    sectionN.children = front ++ byteN :: back ∧
    byteN.name = "byte" ∧ byteN.attributeValue "name" = some nameByte ∧
    byteN.childrenNamed "bit" = bits ∧
    offset = (before.map sectionSize).sum + (front.map childSize).sum

variable {doc root : XmlNode} {rep rep' : MemoryRepresentation} {sectionName nameByte : String}
  {offset : BitVec 32} {bits : List XmlNode}

theorem HasByte.declares (h : HasByte root sectionName nameByte offset bits) {entry : Entry}
    (hentry : entry ∈ ((sectionName, nameByte), { offset := offset, size := 1 }) ::
      bits.map (bitEntry sectionName nameByte { offset := offset, size := 1 })) :
    entry ∈ declared root := by
  obtain ⟨before, sectionN, after, front, byteN, back, hsections, hsection, hchildren, hbyte,
    hname, rfl, rfl⟩ := h
  unfold declared
  rw [hsections]
  apply mem_laidOut
  unfold sectionEntries
  rw [hchildren, zero_add]
  apply List.mem_append_left
  apply mem_laidOut
  rw [childEntries, if_pos hbyte]
  simp only [attr, hsection, hname, Option.getD_some]
  exact hentry

/-- What an accepted document declares is found. -/
theorem position_of_declared (hdoc : doc.child "root" = some root)
    (hload : loadFromFile (some doc) rep = (true, rep')) {name : String} {block : MemoryBlock}
    (hblock : ((sectionName, name), block) ∈ declared root) :
    rep'.position sectionName name = block := by
  obtain ⟨root', nameBlock, hroot, -, hdefines, rfl⟩ :=
    (loadFromFile_accepts_iff doc rep rep').mp hload
  obtain rfl : root = root' := Option.some.inj (hdoc.symm.trans hroot)
  change (nameBlock (sectionName, name)).getD {} = block
  rw [hdefines.of_mem hblock, Option.getD_some]

theorem position_byte (hdoc : doc.child "root" = some root)
    (hload : loadFromFile (some doc) rep = (true, rep'))
    (hbyte : HasByte root sectionName nameByte offset bits) :
    rep'.position sectionName nameByte = { offset := offset, size := 1 } :=
  position_of_declared hdoc hload (hbyte.declares List.mem_cons_self)

theorem position_bit (hdoc : doc.child "root" = some root)
    (hload : loadFromFile (some doc) rep = (true, rep'))
    (hbyte : HasByte root sectionName nameByte offset bits) {bitN : XmlNode} (hbit : bitN ∈ bits)
    {nameBit : String} (hname : bitN.attributeValue "name" = some nameBit) :
    rep'.position sectionName (nameByte ++ "_" ++ nameBit) =
      { offset := offset, size := 1, bitPos := bitPosition bitN } := by
  have hentry := hbyte.declares (List.mem_cons_of_mem _ (List.mem_map_of_mem hbit))
  simp only [bitEntry, attr, hname, Option.getD_some] at hentry
  exact position_of_declared hdoc hload hentry

end MemoryRepresentation

end PasswordWallet
