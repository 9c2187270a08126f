import PasswordWallet.Options.Menu

/-!
# The option parser

`parser.py` makes the table of options from an XML file.  `parse_elem` reads the elements,
`structure` lays the nodes out in one list, a category in front of its children, and
`readable` gives the lines of the table.

A list of elements, and of what has been parsed of them, holds for each its children and
the elements behind it.  In a node the index of the child and of the neighbour is -1 when
there is none yet, and -2 when there is none to come.
-/

namespace PasswordWallet.OptionParser

/-- The children of an XML element. -/
inductive Elements
  | nil
  | cons (tag : String) (attrib : List (String × String)) (children rest : Elements)

/-- A list of the dictionaries that `parse_elem` makes, with the category's `children`. -/
inductive Info
  | nil
  | category (str : String) (aliasName : Option String) (children rest : Info)
  | action (str func : String) (aliasName : Option String) (rest : Info)
  | stop (rest : Info)

/-- `getAlias`; an empty one does not count. -/
def getAlias (attrib : List (String × String)) : Option String :=
  (attrib.lookup "alias").filter (· ≠ "")

/-- `parse_elem`, or what it prints before it quits. -/
def parseElem : Elements → Except String Info
  | .nil => .ok .nil
  | .cons tag attrib children rest =>
      if tag = "category" then
        match attrib.lookup "str" with
        | none => .error "Missing or invalid attribute."
        | some name => do
            let sub ← parseElem children
            let nodes ← parseElem rest
            .ok (.category name (getAlias attrib) sub nodes)
      else if tag = "action" then
        match attrib.lookup "str", attrib.lookup "func" with
        | some name, some func => do
            let nodes ← parseElem rest
            .ok (.action name func (getAlias attrib) nodes)
        | _, _ => .error "Missing or invalid attribute."
      else if tag = "stop" then do
        let nodes ← parseElem rest
        .ok (.stop nodes)
      else parseElem rest

/-! ## The layout -/

/-- An item of `structured`; a category has no `func`. -/
structure Node where
  child : ℤ
  neighbour : ℤ
  str : String
  func : Option String
  aliasName : Option String

/-- `offset`. -/
def offset (o : ℕ) (item : Node) : Node :=
  { item with
    child := if 0 ≤ item.child then item.child + o else item.child
    neighbour := if 0 ≤ item.neighbour then item.neighbour + o else item.neighbour }

/-- The variables of `structure`; `setNeighbour` is the index of the last item. -/
structure Layout where
  structured : List Node
  setNeighbour : Option ℕ

/-- The last node so far gets no neighbour any more. -/
def endLast (structured : List Node) : List Node :=
  structured.modify (structured.length - 1) fun item => { item with neighbour := -2 }

/-- The last item gets the next node for its neighbour. -/
def setLast (s : Layout) : List Node :=
  match s.setNeighbour with
  | none => s.structured
  | some i =>
      s.structured.modify i fun item =>
        -- behind a `<stop/>` it has no neighbour already
        if item.neighbour ≠ -2 then { item with neighbour := s.structured.length } else item

/-- The loop of `structure`, from the item with index `i` on, or what it prints before it
quits. -/
def layOut : Info → ℕ → Layout → Except String Layout
  | .nil, _, s => .ok s
  | .stop rest, i, s =>
      if i = 0 then .error "Invalid position of <stop/>"
      else if s.structured = [] then .error "Invalid <stop/> placement."
      -- the last node may be a child of the last item
      else layOut rest (i + 1) { s with structured := endLast s.structured }
  | .category str aliasName children rest, i, s => do
      let position := s.structured.length
      let structured := setLast s ++ [⟨position + 1, -1, str, none, aliasName⟩]
      -- the children are a list of their own, with indices from 0 on
      let sub ← layOut children 0 ⟨[], none⟩
      layOut rest (i + 1)
        ⟨structured ++ (endLast sub.structured).map (offset structured.length), some position⟩
  | .action str func aliasName rest, i, s =>
      let position := s.structured.length
      layOut rest (i + 1) ⟨setLast s ++ [⟨-1, -1, str, some func, aliasName⟩], some position⟩

/-- `structure`. -/
def structureNodes (info : Info) : Except String (List Node) := do
  let s ← layOut info 0 ⟨[], none⟩
  .ok (endLast s.structured)

/-! ## The table -/

/-- A line of the table; no child or neighbour is `OPTIONS_LIST_NONE`. -/
structure Row where
  func : String
  child : Option ℕ
  neighbour : Option ℕ
  str : String
deriving DecidableEq

/-- An index, where one is printed. -/
def printed (index : ℤ) : Option ℕ := if 0 ≤ index then some index.toNat else none

/-- `readable`. -/
def readable (nodes : List Node) : List Row :=
  nodes.map fun s => ⟨s.func.getD "NULL", printed s.child, printed s.neighbour, s.str⟩

/-- The aliases that are defined, each with the index of its node. -/
def aliases (nodes : List Node) : List (String × ℕ) :=
  nodes.zipIdx.filterMap fun (item, i) => item.aliasName.map fun aliasName => (aliasName, i)

/-- The table that the lines declare, with the places `STR` of the labels. -/
def declared (strIndex : String → ℕ) (rows : List Row) : OptionTable String where
  nodes := rows.map fun row =>
    ⟨if row.func = "NULL" then none else some row.func,
      BitVec.ofNat 8 (row.child.getD rows.length),
      BitVec.ofNat 8 (row.neighbour.getD rows.length), strIndex row.str⟩
  maxIntrication := 2

end PasswordWallet.OptionParser
