import PasswordWallet.Memory.Image
import PasswordWallet.Utility.PugiXml

/-!
# The layout that the memory parser reads

`MemoryRepresentation::loadFromFile` makes a table of blocks of the document that
describes the memory.  The sections, bytes and blocks lie one behind the other; the bits
of a byte lie in it.
-/

namespace PasswordWallet

/-- `MemoryBlock`. -/
structure MemoryBlock where
  offset : BitVec 32 := 0
  size : BitVec 32 := 0
  bitPos : Byte := 255
deriving DecidableEq

/-- `valid`. -/
def MemoryBlock.valid (block : MemoryBlock) : Bool := block.size ≠ 0 && block.offset ≠ 0

/-- `ErrorType`. -/
inductive ErrorType
  | noError | invalidFile | missingNode | missingAttribute | invalidAttribute | nameRedefinition
deriving DecidableEq

/-- `m_nameBlock`, by the section and the name. -/
abbrev NameBlock := String × String → Option MemoryBlock

/-- `MemoryRepresentation`. -/
structure MemoryRepresentation where
  nameBlock : NameBlock := fun _ => none
  valid : Bool := false
  error : ErrorType := .noError

namespace MemoryRepresentation

/-- What `loadFromFile` does to `m_nameBlock`, or the error that it ends with. -/
abbrev Loading := EStateM ErrorType NameBlock

/-- `return_if_empty`. -/
def attributeOf (node : XmlNode) (name : String) : Loading String :=
  match node.attributeValue name with
  | none => throw .missingAttribute
  | some value => pure value

/-- `insertValue`, with the error of those that call it. -/
def insertValue (sectionName name : String) (block : MemoryBlock) : Loading Unit := do
  let nameBlock ← get
  if (nameBlock (sectionName, name)).isSome then throw .nameRedefinition
  else set (Function.update nameBlock (sectionName, name) (some block))

/-- A turn of the loop over the bits of a byte. -/
def loadBit (sectionName nameByte : String) (byteBlock : MemoryBlock) (bitN : XmlNode) :
    Loading Unit := do
  let pos ← attributeOf bitN "pos"
  let bitPos : Byte := (stringToInteger pos).setWidth 8
  if bitPos = 255 then throw .invalidAttribute
  let nameBit ← attributeOf bitN "name"
  insertValue sectionName (nameByte ++ "_" ++ nameBit) { byteBlock with bitPos := bitPos }

/-- A turn of the loop over the children of a section, from the size of what is in front. -/
def loadChild (sectionName : String) (totalSize : BitVec 32) (childN : XmlNode) :
    Loading (BitVec 32) := do
  if childN.name = "byte" then
    let nameByte ← attributeOf childN "name"
    let byteBlock : MemoryBlock := { offset := totalSize, size := 1 }
    insertValue sectionName nameByte byteBlock
    (childN.childrenNamed "bit").forM (loadBit sectionName nameByte byteBlock)
    pure (totalSize + 1)
  else if childN.name = "block" then
    let sizeA ← attributeOf childN "size"
    let size := stringToInteger sizeA
    if size = 0 then throw .invalidAttribute
    let name ← attributeOf childN "name"
    insertValue sectionName name { offset := totalSize, size := size }
    pure (totalSize + size)
  else pure totalSize

/-- What a section itself has for a name. -/
def sectionKey : String := "__special__section__"

/-- A turn of the loop over the sections, from the size of what is in front. -/
def loadSection (totalSize : BitVec 32) (sectionN : XmlNode) : Loading (BitVec 32) := do
  let sectionName ← attributeOf sectionN "name"
  let stop ← sectionN.children.foldlM (loadChild sectionName) totalSize
  insertValue sectionName sectionKey { offset := totalSize, size := stop - totalSize }
  pure stop

/-- `loadFromFile`, of a document or of a file that cannot be parsed. -/
def loadFromFile (doc : Option XmlNode) (rep : MemoryRepresentation) :
    Bool × MemoryRepresentation :=
  match doc with
  | none => (false, { rep with valid := false })
  | some doc =>
      match doc.child "root" with
      | none => (false, { rep with valid := false, error := .missingNode })
      | some root =>
          match ((root.childrenNamed "section").foldlM loadSection 0).run rep.nameBlock with
          | .error error nameBlock => (false, ⟨nameBlock, false, error⟩)
          | .ok _ nameBlock => (true, { rep with nameBlock := nameBlock, valid := true })

/-- `position`. -/
def position (rep : MemoryRepresentation) (sectionName name : String) : MemoryBlock :=
  (rep.nameBlock (sectionName, name)).getD {}

end MemoryRepresentation

end PasswordWallet
