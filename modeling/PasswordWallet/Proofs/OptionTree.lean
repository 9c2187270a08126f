import PasswordWallet.LinkedList.Chain
import PasswordWallet.Options.List
import PasswordWallet.Utility.OptionParser

/-!
# The table keeps the tree

`structure` lays a forest out in document order, each category in front of its children
(`cells`).  The neighbour of an action is the item behind it, if no `<stop/>` is in
between.  A `<stop/>` only reaches the last node there is, which is not the category in
front of it but one of its children, so the neighbour of a category is the next item also
behind a `<stop/>` (`linkAfter`).

`structure` is called again for the children, and what it gives is moved; all but the
first item are laid out behind one whose neighbour is still open (`layOut_spec`).
-/

namespace PasswordWallet.OptionParser

open LinkedList

variable {o k n i : ℕ} {info rest children : Info} {structured : List Node} {s : Layout}

/-! ## Forests -/

namespace Info

/-- The number of nodes. -/
def size : Info → ℕ
  | nil => 0
  | stop rest => rest.size
  | action _ _ _ rest => 1 + rest.size
  | category _ _ children rest => 1 + children.size + rest.size

/-- There is an item in front. -/
def Begins : Info → Prop
  | nil => False
  | stop _ => False
  | action _ _ _ _ => True
  | category _ _ _ _ => True

/-- The children of a category: no `<stop/>`, and no category without children. -/
def Inner : Info → Prop
  | nil => True
  | stop _ => False
  | action _ _ _ rest => rest.Inner
  | category _ _ children rest => children.Begins ∧ children.Inner ∧ rest.Inner

/-- What may stand behind an item: a `<stop/>` is in front of an item, and no category is
without children. -/
def Outer : Info → Prop
  | nil => True
  | stop rest => rest.Begins ∧ rest.Outer
  | action _ _ _ rest => rest.Outer
  | category _ _ children rest => children.Begins ∧ children.Inner ∧ rest.Outer

/-- A document: no `<stop/>` is the first. -/
def Forest (info : Info) : Prop := info = nil ∨ info.Begins ∧ info.Outer

/-- No `<stop/>` is behind a category. -/
def Separated : Info → Prop
  | nil => True
  | stop rest => rest.Separated
  | action _ _ _ rest => rest.Separated
  | category _ _ _ rest => (rest = nil ∨ rest.Begins) ∧ rest.Separated

theorem Inner.outer (h : info.Inner) : info.Outer := by
  induction info with
  | nil => trivial
  | stop rest => exact h.elim
  | action str func aliasName rest ih => exact ih h
  | category str aliasName children rest _ ih => exact ⟨h.1, h.2.1, ih h.2.2⟩

end Info

/-! ## What is laid out -/

/-- A node as it is printed, and its alias. -/
structure Cell where
  row : Row
  aliasName : Option String

def Node.cell (item : Node) : Cell :=
  ⟨⟨item.func.getD "NULL", printed item.child, printed item.neighbour, item.str⟩, item.aliasName⟩

/-- The item behind, at index `o`. -/
def nextOf (o : ℕ) : Info → Option ℕ
  | .nil => none
  | .stop _ => none
  | .action _ _ _ _ => some o
  | .category _ _ _ _ => some o

/-- The item behind, at index `o`, a `<stop/>` or not. -/
def linkAfter (o : ℕ) : Info → Option ℕ
  | .nil => none
  | .stop rest => linkAfter o rest
  | .action _ _ _ _ => some o
  | .category _ _ _ _ => some o

/-- The nodes in document order, from index `o` on. -/
def cells (o : ℕ) : Info → List Cell
  | .nil => []
  | .stop rest => cells o rest
  | .action str func aliasName rest =>
      ⟨⟨func, none, nextOf (o + 1) rest, str⟩, aliasName⟩ :: cells (o + 1) rest
  | .category str aliasName children rest =>
      ⟨⟨"NULL", some (o + 1), linkAfter (o + 1 + children.size) rest, str⟩, aliasName⟩ ::
        (cells (o + 1) children ++ cells (o + 1 + children.size) rest)

theorem Info.Begins.link (h : info.Begins) (n : ℕ) :
    nextOf n info = some n ∧ linkAfter n info = some n := by
  cases info with
  | nil => exact h.elim
  | stop rest => exact h.elim
  | action str func aliasName rest => exact ⟨rfl, rfl⟩
  | category str aliasName children rest => exact ⟨rfl, rfl⟩

@[simp] theorem length_cells (o : ℕ) (info : Info) : (cells o info).length = info.size := by
  induction info generalizing o with
  | nil => rfl
  | stop rest ih => exact ih o
  | action str func aliasName rest ih => rw [cells, List.length_cons, ih, Info.size, Nat.add_comm]
  | category str aliasName children rest ihc ih =>
      rw [cells, List.length_cons, List.length_append, ihc, ih, Info.size]
      omega

def Cell.shift (o : ℕ) (cell : Cell) : Cell :=
  { cell with
    row := { cell.row with
      child := cell.row.child.map (· + o)
      neighbour := cell.row.neighbour.map (· + o) } }

theorem nextOf_shift (k : ℕ) (info : Info) : (nextOf k info).map (· + o) = nextOf (k + o) info := by
  cases info <;> rfl

theorem linkAfter_shift (k : ℕ) (info : Info) :
    (linkAfter k info).map (· + o) = linkAfter (k + o) info := by
  induction info with
  | stop rest ih => exact ih
  | nil => rfl
  | action str func aliasName rest _ => rfl
  | category str aliasName children rest _ _ => rfl

theorem cells_shift (k : ℕ) (info : Info) :
    (cells k info).map (Cell.shift o) = cells (k + o) info := by
  induction info generalizing k with
  | nil => rfl
  | stop rest ih => exact ih k
  | action str func aliasName rest ih =>
      rw [cells, cells, List.map_cons, ih, Cell.shift]
      simp only [Option.map_none, nextOf_shift, Nat.add_right_comm k 1 o]
  | category str aliasName children rest ihc ih =>
      have hbehind : k + 1 + children.size + o = k + o + 1 + children.size := by omega
      rw [cells, cells, List.map_cons, List.map_append, ihc, ih, Cell.shift]
      simp only [Option.map_some, linkAfter_shift, Nat.add_right_comm k 1 o, hbehind]

theorem printed_add (index : ℤ) (o : ℕ) :
    printed (if 0 ≤ index then index + o else index) = (printed index).map (· + o) := by
  rw [printed, printed]
  split_ifs
  · rw [Option.map_some, Option.some.injEq]
    omega
  · omega
  · rfl

theorem cell_offset (o : ℕ) (item : Node) :
    (OptionParser.offset o item).cell = item.cell.shift o := by
  rw [Node.cell, OptionParser.offset, Node.cell, Cell.shift]
  simp only [printed_add]

theorem printed_of_neg {index : ℤ} (h : index < 0) : printed index = none :=
  if_neg (by omega)

/-! ## Ending the last node -/

theorem modify_append (pre : List Node) (item : Node) (tail : List Node) (f : Node → Node) :
    (pre ++ item :: tail).modify pre.length f = pre ++ f item :: tail := by
  induction pre with
  | nil => rfl
  | cons x pre ih => rw [List.cons_append, List.length_cons, List.modify_succ_cons, ih]; rfl

theorem endLast_concat (pre : List Node) (item : Node) :
    endLast (pre ++ [item]) = pre ++ [{ item with neighbour := -2 }] := by
  rw [endLast, List.length_append, List.length_singleton, Nat.add_sub_cancel, modify_append]

/-- The last node has no neighbour. -/
def Ended (nodes : List Node) : Prop := ∀ item ∈ nodes.getLast?, item.neighbour < 0

theorem ended_concat {pre : List Node} {item : Node} :
    Ended (pre ++ [item]) ↔ item.neighbour < 0 := by
  rw [Ended, List.getLast?_concat]
  exact ⟨fun h => h item rfl, fun h other hother => Option.some.inj hother ▸ h⟩

theorem ended_endLast (nodes : List Node) : Ended (endLast nodes) := by
  rcases List.eq_nil_or_concat nodes with rfl | ⟨pre, item, rfl⟩
  · exact fun item hitem => absurd hitem (Option.not_mem_none item)
  · rw [List.concat_eq_append, endLast_concat, ended_concat]
    exact Int.negSucc_lt_zero 1

theorem cell_ended {item : Node} (h : item.neighbour < 0) :
    ({ item with neighbour := -2 } : Node).cell = item.cell := by
  rw [Node.cell, Node.cell, printed_of_neg h]
  rfl

theorem map_cell_endLast {nodes : List Node} (h : Ended nodes) :
    (endLast nodes).map Node.cell = nodes.map Node.cell := by
  rcases List.eq_nil_or_concat nodes with rfl | ⟨pre, item, rfl⟩
  · rfl
  · rw [List.concat_eq_append] at h ⊢
    rw [endLast_concat, List.map_append, List.map_append, List.map_singleton, List.map_singleton,
      cell_ended (ended_concat.mp h)]

theorem ended_map_offset {nodes : List Node} (h : Ended nodes) :
    Ended (nodes.map (OptionParser.offset o)) := by
  rcases List.eq_nil_or_concat nodes with rfl | ⟨pre, item, rfl⟩
  · exact h
  · rw [List.concat_eq_append] at h ⊢
    rw [List.map_append, List.map_singleton, ended_concat]
    have hneg := ended_concat.mp h
    rw [OptionParser.offset]
    simp only [if_neg (show ¬ 0 ≤ item.neighbour by omega)]
    exact hneg

/-! ## The loop -/

/-- The neighbour that the last item gets. -/
def pending (n : ℕ) (head : Node) (tail : List Node) (info : Info) : Option ℕ :=
  if head.neighbour = -2 then none
  else if tail = [] then nextOf n info
  else linkAfter n info

def Cell.withNeighbour (cell : Cell) (neighbour : Option ℕ) : Cell :=
  { cell with row := { cell.row with neighbour := neighbour } }

theorem cell_withNeighbour_none {item : Node} (h : item.neighbour < 0) :
    item.cell.withNeighbour none = item.cell := by
  rw [Node.cell, printed_of_neg h]
  rfl

theorem Ended.cons {head : Node} {tail : List Node} (h : Ended tail) (hne : tail ≠ []) :
    Ended (head :: tail) := by
  rw [Ended, List.getLast?_cons_of_ne_nil hne]
  exact h

theorem Ended.append {head : Node} {tail : List Node} (h : Ended (head :: tail)) (pre : List Node) :
    Ended (pre ++ head :: tail) := by
  rw [Ended, List.getLast?_append, List.getLast?_cons, Option.some_or]
  rwa [Ended, List.getLast?_cons] at h

/-- The loop has placed an item, `head`, with the nodes `tail` below it; its neighbour is
still open, or a `<stop/>` has been behind it. -/
structure Placed (s : Layout) (pre : List Node) (head : Node) (tail : List Node) : Prop where
  structured : s.structured = pre ++ head :: tail
  setNeighbour : s.setNeighbour = some pre.length
  first : head.neighbour = -1 ∨ head.neighbour = -2 ∧ tail = []
  ended : Ended (head :: tail)

theorem Placed.neg {pre tail : List Node} {head : Node} (h : Placed s pre head tail) :
    head.neighbour < 0 := by
  rcases h.first with hopen | ⟨hstop, -⟩ <;> omega

theorem length_setLast (s : Layout) : (setLast s).length = s.structured.length := by
  rw [setLast]
  cases s.setNeighbour with
  | none => rfl
  | some i => exact List.length_modify ..

/-- With an item behind it, the last one is as it will be. -/
theorem map_cell_setLast {pre tail : List Node} {head : Node} (h : Placed s pre head tail)
    (hbegins : info.Begins) :
    (setLast s).map Node.cell = pre.map Node.cell ++
      head.cell.withNeighbour (pending s.structured.length head tail info) ::
        tail.map Node.cell := by
  rw [setLast, h.setNeighbour]
  simp only
  rw [h.structured, modify_append, List.map_append, List.map_cons, ← h.structured, pending]
  by_cases hstop : head.neighbour = -2
  · rw [if_neg (not_not.mpr hstop), if_pos hstop, cell_withNeighbour_none h.neg]
  · rw [if_pos hstop, if_neg hstop, (hbegins.link _).1, (hbegins.link _).2, ite_self]
    have hprinted : printed (s.structured.length : ℤ) = some s.structured.length := by
      rw [printed, if_pos (Int.natCast_nonneg _), Int.toNat_natCast]
    simp only [Node.cell, Cell.withNeighbour, hprinted]

/-- A `<stop/>` ends the last node, which is the last item or a node below it. -/
theorem Placed.stop {pre tail : List Node} {head : Node} (h : Placed s pre head tail) :
    ∃ head' tail', Placed { s with structured := endLast s.structured } pre head' tail' ∧
      tail'.map Node.cell = tail.map Node.cell ∧
      ∀ n rest, head'.cell.withNeighbour (pending n head' tail' rest) =
        head.cell.withNeighbour (pending n head tail (.stop rest)) := by
  rcases List.eq_nil_or_concat tail with rfl | ⟨rest, item, rfl⟩
  -- the item has nothing below it and is the last node itself
  · refine ⟨{ head with neighbour := -2 }, [], ⟨?_, h.setNeighbour, Or.inr ⟨rfl, rfl⟩, ?_⟩, rfl, ?_⟩
    · exact (congrArg endLast h.structured).trans (endLast_concat pre head)
    · exact (@ended_concat [] _).mpr (Int.negSucc_lt_zero 1)
    · intro n rest
      rw [pending, pending, if_pos rfl, if_pos rfl]
      simp only [nextOf, ite_self]
      rfl
  · rw [List.concat_eq_append] at h ⊢
    -- the last node is below the item, and has no neighbour anyway
    have hopen : head.neighbour = -1 := h.first.resolve_right fun hstop => by simp at hstop
    refine ⟨head, rest ++ [{ item with neighbour := -2 }], ⟨?_, h.setNeighbour, Or.inl hopen, ?_⟩,
      ?_, fun n rest' => ?_⟩
    · have hlast := endLast_concat (pre ++ head :: rest) item
      simp only [List.append_assoc, List.cons_append] at hlast
      exact (congrArg endLast h.structured).trans hlast
    · exact (@ended_concat (head :: rest) _).mpr (Int.negSucc_lt_zero 1)
    · have hneg : item.neighbour < 0 := (@ended_concat (head :: rest) _).mp h.ended
      rw [List.map_append, List.map_append, List.map_singleton, List.map_singleton,
        cell_ended hneg]
    · have hne : ¬ head.neighbour = -2 := by omega
      rw [pending, pending, if_neg hne, if_neg hne, if_neg (by simp), if_neg (by simp)]
      rfl

/-- What the loop makes of the rest, with an item placed. -/
def LaysOut (info : Info) : Prop :=
  ∀ i s pre head tail, Placed s pre head tail →
    ∃ s', layOut info (i + 1) s = .ok s' ∧ Ended s'.structured ∧
      s'.structured.map Node.cell = pre.map Node.cell ++
        head.cell.withNeighbour (pending s.structured.length head tail info) ::
          (tail.map Node.cell ++ cells s.structured.length info)

/-- A list of items is laid out behind what there is. -/
def Appends (info : Info) : Prop :=
  ∀ i pre, ∃ s', (∀ s, setLast s = pre → layOut info i s = .ok s') ∧ Ended s'.structured ∧
    s'.structured.map Node.cell = pre.map Node.cell ++ cells pre.length info

theorem appends_action (str func : String) (aliasName : Option String) (h : LaysOut rest) :
    Appends (.action str func aliasName rest) := by
  intro i pre
  obtain ⟨s', hrun, hended, hcells⟩ := h i
    ⟨pre ++ [⟨-1, -1, str, some func, aliasName⟩], some pre.length⟩ pre _ []
    ⟨rfl, rfl, Or.inl rfl, (@ended_concat [] _).mpr (Int.negSucc_lt_zero 0)⟩
  refine ⟨s', fun s hs => ?_, hended, ?_⟩
  · rw [layOut, hs, ← length_setLast, hs]
    exact hrun
  · rw [hcells, List.length_append, List.length_singleton]
    rfl

theorem appends_category (str : String) (aliasName : Option String) (h : LaysOut rest)
    (hchildren : ∃ s', layOut children 0 ⟨[], none⟩ = .ok s' ∧ Ended s'.structured ∧
      s'.structured.map Node.cell = cells 0 children) (hbegins : children.Begins) :
    Appends (.category str aliasName children rest) := by
  intro i pre
  obtain ⟨sub, hsub, hended, hcells⟩ := hchildren
  -- the children, moved behind the category
  let moved := (endLast sub.structured).map (OptionParser.offset (pre.length + 1))
  have hmoved : moved.map Node.cell = cells (pre.length + 1) children := by
    rw [List.map_map, show Node.cell ∘ OptionParser.offset (pre.length + 1) =
        Cell.shift (pre.length + 1) ∘ Node.cell from funext (cell_offset _), ← List.map_map,
      map_cell_endLast hended, hcells, cells_shift, Nat.zero_add]
  have hlength : moved.length = children.size := by
    rw [← List.length_map Node.cell, hmoved, length_cells]
  have hne : moved ≠ [] := by
    intro hnil
    rw [hnil] at hlength
    cases children with
    | nil => exact hbegins
    | stop rest => exact hbegins
    | action str func aliasName rest => rw [Info.size, List.length_nil] at hlength; omega
    | category str aliasName children rest => rw [Info.size, List.length_nil] at hlength; omega
  obtain ⟨s', hrun, hended', hcells'⟩ := h i
    ⟨pre ++ [⟨pre.length + 1, -1, str, none, aliasName⟩] ++ moved, some pre.length⟩ pre
    ⟨pre.length + 1, -1, str, none, aliasName⟩ moved
    ⟨by simp, rfl, Or.inl rfl, (ended_map_offset (ended_endLast _)).cons hne⟩
  have hchild : printed ((pre.length : ℤ) + 1) = some (pre.length + 1) := by
    rw [printed, if_pos (by omega)]
    exact congrArg some (by omega)
  refine ⟨s', fun s hs => ?_, hended', ?_⟩
  · have hposition : s.structured.length = pre.length := by rw [← length_setLast, hs]
    rw [layOut]
    simp only [hs, hposition, hsub, bind, Except.bind, List.length_append, List.length_singleton]
    exact hrun
  · rw [hcells', hmoved, cells]
    simp only [List.length_append, List.length_singleton, hlength, pending, if_neg hne]
    simp only [Node.cell, Cell.withNeighbour, hchild]
    rfl

/-- Behind an item that is placed. -/
theorem Appends.laysOut (h : Appends info) (hbegins : info.Begins) : LaysOut info := by
  intro i s pre head tail hs
  obtain ⟨s', hrun, hended, hcells⟩ := h (i + 1) (setLast s)
  refine ⟨s', hrun s rfl, hended, ?_⟩
  rw [hcells, length_setLast, map_cell_setLast hs hbegins, List.append_assoc, List.cons_append]

theorem layOut_spec (h : info.Outer) :
    LaysOut info ∧ (info.Begins → Appends info) := by
  induction info with
  | nil =>
      refine ⟨fun i s pre head tail hs => ⟨s, rfl, ?_, ?_⟩, False.elim⟩
      · rw [hs.structured]
        exact hs.ended.append pre
      · have hpending : pending s.structured.length head tail .nil = none := by
          rw [pending, nextOf, linkAfter, ite_self, ite_self]
        rw [hs.structured, List.map_append, List.map_cons, ← hs.structured, hpending,
          cell_withNeighbour_none hs.neg, cells, List.append_nil]
  | stop rest ih =>
      refine ⟨fun i s pre head tail hs => ?_, False.elim⟩
      obtain ⟨head', tail', hplaced, htail, hpending⟩ := hs.stop
      obtain ⟨s', hrun, hended, hcells⟩ := (ih h.2).1 (i + 1) _ pre head' tail' hplaced
      have hlength : (endLast s.structured).length = s.structured.length := List.length_modify ..
      have hne : s.structured ≠ [] := by
        rw [hs.structured]
        simp
      refine ⟨s', ?_, hended, ?_⟩
      · rw [layOut, if_neg (Nat.succ_ne_zero i), if_neg hne]
        exact hrun
      · rw [hcells, hpending, htail, hlength]
        rfl
  | action str func aliasName rest ih =>
      have happends := appends_action str func aliasName (ih h).1
      exact ⟨happends.laysOut trivial, fun _ => happends⟩
  | category str aliasName children rest ihc ih =>
      -- the children are laid out from index 0 on, in a loop of their own
      have hchildren : ∃ s', layOut children 0 ⟨[], none⟩ = .ok s' ∧ Ended s'.structured ∧
          s'.structured.map Node.cell = cells 0 children := by
        obtain ⟨s', hrun, hended, hcells⟩ := (ihc h.2.1.outer).2 h.1 0 []
        exact ⟨s', hrun _ rfl, hended, hcells⟩
      have happends := appends_category str aliasName (ih h.2.2).1 hchildren h.1
      exact ⟨happends.laysOut trivial, fun _ => happends⟩

/-- A forest is laid out in document order. -/
theorem structureNodes_spec (h : info.Forest) :
    ∃ nodes, structureNodes info = .ok nodes ∧ nodes.map Node.cell = cells 0 info := by
  rcases h with rfl | ⟨hbegins, houter⟩
  · exact ⟨[], rfl, rfl⟩
  · obtain ⟨s', hrun, hended, hcells⟩ := (layOut_spec houter).2 hbegins 0 []
    refine ⟨endLast s'.structured, ?_, ?_⟩
    · rw [structureNodes, hrun _ rfl]
      rfl
    · rw [map_cell_endLast hended, hcells]
      rfl

/-! ## The tree -/

/-- The indices of the items up to the next `<stop/>` or the end. -/
def siblings (o : ℕ) : Info → List ℕ
  | .nil => []
  | .stop _ => []
  | .action _ _ _ rest => o :: siblings (o + 1) rest
  | .category _ _ children rest => o :: siblings (o + 1 + children.size) rest

variable {C : Type} (T : OptionTable String) (strIndex : String → ℕ) (defined : List (String × ℕ))

/-- Each node of the forest is the entry at its index, with its function and its label, and
its alias has this index; the children of a category are the list at its child. -/
def Entries (o : ℕ) : Info → Prop
  | .nil => True
  | .stop rest => Entries o rest
  | .action str func aliasName rest =>
      ((T.node o).callback = if func = "NULL" then none else some func) ∧
        (T.node o).str = strIndex str ∧ T.child o = T.listNone ∧
        (∀ name, aliasName = some name ↔ (name, o) ∈ defined) ∧ Entries (o + 1) rest
  | .category str aliasName children rest =>
      (T.node o).callback = none ∧ (T.node o).str = strIndex str ∧
        Chain T.neighbour T.listNone (T.child o) (siblings (o + 1) children) ∧
        (∀ name, aliasName = some name ↔ (name, o) ∈ defined) ∧
        Entries (o + 1) children ∧ Entries (o + 1 + children.size) rest

/-- The lists behind the `<stop/>`s. -/
def ListsBehind (o : ℕ) : Info → Prop
  | .nil => True
  | .stop rest => Chain T.neighbour T.listNone o (siblings o rest) ∧ ListsBehind o rest
  | .action _ _ _ rest => ListsBehind (o + 1) rest
  | .category _ _ children rest => ListsBehind (o + 1 + children.size) rest

/-- The lists of the document: from its start and from each `<stop/>` on. -/
def Lists (info : Info) : Prop :=
  Chain T.neighbour T.listNone 0 (siblings 0 info) ∧ ListsBehind T 0 info

variable {T strIndex defined}

/-- A table that the cells are the lines of. -/
structure Declares (T : OptionTable String) (strIndex : String → ℕ)
    (defined : List (String × ℕ)) (all : List Cell) : Prop where
  listNone : T.listNone = all.length
  small : all.length < 256
  node : ∀ o cell, all[o]? = some cell → T.node o =
    ⟨if cell.row.func = "NULL" then none else some cell.row.func,
      BitVec.ofNat 8 (cell.row.child.getD all.length),
      BitVec.ofNat 8 (cell.row.neighbour.getD all.length), strIndex cell.row.str⟩
  alias_iff : ∀ o cell, all[o]? = some cell →
    ∀ name, cell.aliasName = some name ↔ (name, o) ∈ defined

theorem declares {nodes : List Node} {all : List Cell} (hnodes : nodes.map Node.cell = all)
    (hsmall : all.length < 256) :
    Declares (declared strIndex (readable nodes)) strIndex (aliases nodes) all := by
  have hrows : readable nodes = all.map Cell.row := by
    rw [← hnodes, List.map_map]
    rfl
  have hlength : (readable nodes).length = all.length := by rw [hrows, List.length_map]
  refine ⟨?_, hsmall, fun o cell hcell => ?_, fun o cell hcell name => ?_⟩
  · rw [OptionTable.listNone, declared, List.length_map, hlength]
  · rw [OptionTable.node, declared, List.getD_eq_getElem?_getD, List.getElem?_map, hrows,
      List.getElem?_map, hcell, List.length_map]
    rfl
  · rw [← hnodes, List.getElem?_map] at hcell
    obtain ⟨item, hitem, rfl⟩ := Option.map_eq_some_iff.mp hcell
    rw [aliases, List.mem_filterMap]
    constructor
    · intro hname
      refine ⟨(item, o), List.mk_mem_zipIdx_iff_getElem?.mpr hitem, ?_⟩
      exact Option.map_eq_some_iff.mpr ⟨name, hname, rfl⟩
    · rintro ⟨⟨other, i⟩, hmem, hother⟩
      obtain ⟨name', hname', heq⟩ := Option.map_eq_some_iff.mp hother
      obtain ⟨rfl, rfl⟩ := Prod.mk.inj heq
      have hother' := List.mk_mem_zipIdx_iff_getElem?.mp hmem
      rw [hitem] at hother'
      exact Option.some.inj hother' ▸ hname'

/-- Some cells, from index `o` on. -/
def From (all : List Cell) (o : ℕ) (part : List Cell) : Prop := part <+: all.drop o

variable {all part part' : List Cell} {cell : Cell}

theorem From.head (h : From all o (cell :: part)) : all[o]? = some cell := by
  obtain ⟨post, hpost⟩ := h
  have hzero := congrArg (fun l => l[0]?) hpost
  simp only [List.cons_append, List.getElem?_cons_zero, List.getElem?_drop, Nat.add_zero] at hzero
  exact hzero.symm

theorem From.tail (h : From all o (cell :: part)) : From all (o + 1) part := by
  obtain ⟨post, hpost⟩ := h
  refine ⟨post, ?_⟩
  rw [← List.drop_drop, ← hpost]
  rfl

theorem From.left (h : From all o (part ++ part')) : From all o part :=
  (List.prefix_append part part').trans h

theorem From.right (h : From all o (part ++ part')) : From all (o + part.length) part' := by
  obtain ⟨post, hpost⟩ := h
  refine ⟨post, ?_⟩
  rw [← List.drop_drop, ← hpost, List.append_assoc, List.drop_left]

theorem From.length_le (h : From all o part) (hne : part ≠ []) : o + part.length ≤ all.length := by
  have hle := List.IsPrefix.length_le h
  have hpos := List.length_pos_iff.mpr hne
  rw [List.length_drop] at hle
  omega

/-! ## The lists -/

theorem Info.Begins.size_pos (h : info.Begins) : 0 < info.size := by
  cases info with
  | nil => exact h.elim
  | stop rest => exact h.elim
  | action str func aliasName rest => rw [Info.size]; omega
  | category str aliasName children rest => rw [Info.size]; omega

theorem Info.Inner.nil_or_begins (h : info.Inner) : info = .nil ∨ info.Begins := by
  cases info with
  | nil => exact Or.inl rfl
  | stop rest => exact h.elim
  | action str func aliasName rest => exact Or.inr trivial
  | category str aliasName children rest => exact Or.inr trivial

theorem Info.Inner.separated (h : info.Inner) : info.Separated := by
  induction info with
  | nil => trivial
  | stop rest => exact h.elim
  | action str func aliasName rest ih => exact ih h
  | category str aliasName children rest _ ih => exact ⟨h.2.2.nil_or_begins, ih h.2.2⟩

theorem Info.Begins.lt_length (hbegins : info.Begins)
    (h : From all o (cells o info)) : o < all.length := by
  have hpos := hbegins.size_pos
  have hne : cells o info ≠ [] := by
    rw [← List.length_pos_iff, length_cells]
    exact hpos
  have hle := h.length_le hne
  rw [length_cells] at hle
  omega

section Declared

variable (hT : Declares T strIndex defined all)
include hT

theorem ne_listNone (h : From all o (cell :: part)) : o ≠ T.listNone := by
  rw [hT.listNone]
  exact (List.getElem?_eq_some_iff.mp h.head).1.ne

theorem neighbour_none (h : From all o (cell :: part)) (hnext : cell.row.neighbour = none) :
    T.neighbour o = T.listNone := by
  rw [OptionTable.neighbour, hT.node o cell h.head, hnext, hT.listNone]
  exact Nat.mod_eq_of_lt hT.small

theorem neighbour_some (h : From all o (cell :: part)) {next : ℕ}
    (hnext : cell.row.neighbour = some next) (hlt : next < all.length) :
    T.neighbour o = next := by
  rw [OptionTable.neighbour, hT.node o cell h.head, hnext]
  exact Nat.mod_eq_of_lt (hlt.trans hT.small)

/-- An item with the one behind it for its neighbour. -/
theorem chain_item (h : From all o (cell :: part)) (hrest : From all n (cells n rest))
    (hlink : cell.row.neighbour = nextOf n rest) :
    Chain T.neighbour T.listNone o (o :: siblings n rest) ↔
      (rest.Begins → Chain T.neighbour T.listNone n (siblings n rest)) := by
  rw [chain_cons]
  by_cases hbegins : rest.Begins
  · rw [(hbegins.link n).1] at hlink
    rw [neighbour_some hT h hlink (hbegins.lt_length hrest)]
    exact ⟨fun hchain _ => hchain.2.2, fun hchain => ⟨rfl, ne_listNone hT h, hchain hbegins⟩⟩
  -- the list ends with this item
  · have hend : nextOf n rest = none ∧ siblings n rest = [] := by
      cases rest with
      | nil => exact ⟨rfl, rfl⟩
      | stop rest => exact ⟨rfl, rfl⟩
      | action str func aliasName rest => exact absurd trivial hbegins
      | category str aliasName children rest => exact absurd trivial hbegins
    rw [hend.1] at hlink
    rw [hend.2, neighbour_none hT h hlink]
    exact ⟨fun _ habsurd => absurd habsurd hbegins, fun _ => ⟨rfl, ne_listNone hT h, rfl⟩⟩

/-- The lists of a document are those of the table just when no `<stop/>` is behind a
category. -/
theorem lists_iff (houter : info.Outer) (h : From all o (cells o info)) :
    (info.Begins → Chain T.neighbour T.listNone o (siblings o info)) ∧ ListsBehind T o info ↔
      info.Separated := by
  induction info generalizing o with
  | nil => exact ⟨fun _ => trivial, fun _ => ⟨False.elim, trivial⟩⟩
  | stop rest ih =>
      rw [Info.Separated, ← ih houter.2 h]
      exact ⟨fun hlists => ⟨fun _ => hlists.2.1, hlists.2.2⟩,
        fun hlists => ⟨False.elim, hlists.1 houter.1, hlists.2⟩⟩
  | action str func aliasName rest ih =>
      rw [Info.Separated, ← ih houter h.tail, ListsBehind, siblings,
        ← chain_item hT h h.tail rfl]
      exact and_congr_left fun _ => ⟨fun hchain => hchain trivial, fun hchain _ => hchain⟩
  | category str aliasName children rest _ ih =>
      have hrest := h.tail.right
      rw [length_cells] at hrest
      rw [Info.Separated, ← ih houter.2.2 hrest, ListsBehind, siblings]
      by_cases hstop : rest = .nil ∨ rest.Begins
      · have hlink : linkAfter (o + 1 + children.size) rest =
            nextOf (o + 1 + children.size) rest := by
          rcases hstop with rfl | hbegins
          · rfl
          · rw [(hbegins.link _).1, (hbegins.link _).2]
        rw [← chain_item hT h hrest hlink]
        exact ⟨fun hlists => ⟨hstop, hlists.1 trivial, hlists.2⟩,
          fun hlists => ⟨fun _ => hlists.2.1, hlists.2.2⟩⟩
      · refine iff_of_false (fun hlists => hstop ?_) fun hlists => hstop hlists.1
        cases rest with
        | nil => exact Or.inl rfl
        | action str func aliasName rest => exact Or.inr trivial
        | category str aliasName children rest => exact Or.inr trivial
        | stop rest =>
            -- the neighbour is the item behind the stop, and the list should end
            have hbegins := houter.2.2.1
            have hnext := neighbour_some hT h (hbegins.link _).2 (hbegins.lt_length hrest)
            obtain ⟨-, -, hend⟩ := hlists.1 trivial
            rw [siblings, chain_nil, hnext, hT.listNone] at hend
            exact absurd hend (hbegins.lt_length hrest).ne

theorem entries_of (houter : info.Outer) (h : From all o (cells o info)) :
    Entries T strIndex defined o info := by
  induction info generalizing o with
  | nil => trivial
  | stop rest ih => exact ih houter.2 h
  | action str func aliasName rest ih =>
      have hnode := hT.node o _ h.head
      refine ⟨by rw [hnode], by rw [hnode], ?_, hT.alias_iff o _ h.head, ih houter h.tail⟩
      rw [OptionTable.child, hnode, hT.listNone]
      exact Nat.mod_eq_of_lt hT.small
  | category str aliasName children rest ihc ih =>
      have hnode := hT.node o _ h.head
      have hchildren := h.tail.left
      have hrest := h.tail.right
      rw [length_cells] at hrest
      have hchild : T.child o = o + 1 := by
        rw [OptionTable.child, hnode]
        exact Nat.mod_eq_of_lt ((houter.1.lt_length hchildren).trans hT.small)
      have hlists := (lists_iff hT houter.2.1.outer hchildren).mpr houter.2.1.separated
      refine ⟨by rw [hnode]; rfl, by rw [hnode], ?_, hT.alias_iff o _ h.head,
        ihc houter.2.1.outer hchildren, ih houter.2.2 hrest⟩
      rw [hchild]
      exact hlists.1 houter.1

end Declared

/-- For every document with fewer than 255 nodes, `structure` makes a table with an entry
for each node, in which the children of each category are a list.  The lists of the
document, from its start and from each `<stop/>` on, are those of the table just when no
`<stop/>` is behind a category. -/
theorem option_tree_iff {root : Elements} (hparse : parseElem root = .ok info)
    (hforest : info.Forest) (hsize : info.size < 255) (strIndex : String → ℕ) :
    ∃ nodes, (parseElem root >>= structureNodes) = .ok nodes ∧ nodes.length = info.size ∧
      Entries (declared strIndex (readable nodes)) strIndex (aliases nodes) 0 info ∧
      (Lists (declared strIndex (readable nodes)) info ↔ info.Separated) := by
  obtain ⟨nodes, hstructure, hcells⟩ := structureNodes_spec hforest
  have hlength : nodes.length = info.size := by
    rw [← List.length_map Node.cell, hcells, length_cells]
  have hT := @declares strIndex nodes _ hcells (by rw [length_cells]; omega)
  refine ⟨nodes, by rw [hparse]; exact hstructure, hlength, ?_⟩
  have hfrom : From (cells 0 info) 0 (cells 0 info) := List.prefix_rfl
  rcases hforest with rfl | ⟨hbegins, houter⟩
  · obtain rfl := List.map_eq_nil_iff.mp hcells
    exact ⟨trivial, fun _ => trivial, fun _ => ⟨rfl, trivial⟩⟩
  · refine ⟨entries_of hT houter hfrom, ?_⟩
    rw [Lists, ← lists_iff hT houter hfrom]
    exact and_congr_left fun _ => ⟨fun hchain _ => hchain, fun hchain => hchain hbegins⟩

/-! ## Documents -/

def document (elements : List (Elements → Elements)) : Elements :=
  elements.foldr (fun element rest => element rest) .nil

def category (str : String) (others : List (String × String))
    (children : List (Elements → Elements)) : Elements → Elements :=
  .cons "category" (("str", str) :: others) (document children)

def action (str func : String) (others : List (String × String)) : Elements → Elements :=
  .cons "action" (("str", str) :: ("func", func) :: others) .nil

def stop : Elements → Elements := .cons "stop" [] .nil

/-- The `<stop/>` behind a category does not end its list. -/
theorem option_list_runs_on :
    let root := document [category "keys" [] [action "show" "opt_show" []], stop,
      action "send" "opt_send" []]
    ∃ info nodes, parseElem root = .ok info ∧ info.Forest ∧ info.size < 255 ∧
      (parseElem root >>= structureNodes) = .ok nodes ∧
      ¬ Lists (declared (fun _ => 0) (readable nodes)) info := by
  intro root
  refine ⟨_, _, rfl, Or.inr ⟨trivial, trivial, trivial, trivial, trivial⟩, by decide, rfl, ?_⟩
  intro hlists
  exact absurd hlists.1 (by decide)

/-- `options.xml`. -/
def optionsXml : Elements := document [
  category "str_option_pwd" [("alias", "OPTIONS_LIST_NORMAL")] [
    action "str_option_change_pwd" "opt_callback_change_pwd" [],
    action "str_option_change_usr" "opt_callback_change_usr_name" [],
    action "str_option_change_name" "opt_callback_change_name" [],
    action "str_option_regen" "opt_callback_regenerate_pwd" [],
    action "str_option_delete" "opt_callback_delete_pwd" []],
  category "str_option_sort" [] [
    action "str_option_sort_no" "opt_callback_no_sort" [],
    action "str_option_sort_use" "opt_callback_sort_use" [],
    action "str_option_sort_alpha" "opt_callback_sort_alpha" []],
  category "str_option_param" [] [
    category "str_option_key" [] [
      action "str_option_change_key" "opt_callback_change_key" [],
      action "str_option_show_key" "opt_callback_show_key" [],
      action "str_option_force_card" "opt_callback_force_card" [],
      action "str_option_force_enter" "opt_callback_force_enter" []],
    action "str_option_keyboard_layout" "opt_callback_change_keyboard" [],
    action "str_option_orientation" "opt_callback_inverse_screen" [],
    action "str_option_self_test" "opt_callback_self_test" [],
    action "str_system_info" "opt_callback_system_info" [],
    action "str_option_full_reset" "opt_callback_full_reset" []],
  action "str_option_add" "opt_callback_add_pwd" [],
  stop,
  action "str_recovery_title" "NULL" [("alias", "OPTIONS_LIST_RECOVERY")],
  action "str_recovery_full" "opt_callback_full_reset" [],
  action "str_recovery_key" "opt_callback_enter_key" [],
  stop,
  action "str_option_send_both" "opt_callback_send_both" [("alias", "OPTIONS_LIST_SEND")],
  action "str_option_send_pwd" "opt_callback_send_pwd" [],
  action "str_option_send_usr" "opt_callback_send_usr" []]

/-- In `options.xml` both `<stop/>` are behind an action. -/
theorem option_tree_iff_options :
    ∃ info nodes, (parseElem optionsXml >>= structureNodes) = .ok nodes ∧
      Lists (declared String.length (readable nodes)) info := by
  have hparse : ∃ info, parseElem optionsXml = .ok info ∧ info.Forest ∧ info.size < 255 ∧
      info.Separated := by
    refine ⟨_, rfl, Or.inr ?_, ?_, ?_⟩
    · simp [Info.Begins, Info.Outer, Info.Inner]
    · decide
    · simp [Info.Separated, Info.Begins]
  obtain ⟨info, hinfo, hforest, hsize, hseparated⟩ := hparse
  obtain ⟨nodes, hnodes, -, -, hlists⟩ := option_tree_iff hinfo hforest hsize String.length
  exact ⟨info, nodes, hnodes, hlists.mpr hseparated⟩

/-- Its table is the one of the device. -/
example : ((parseElem optionsXml >>= structureNodes).toOption.map fun nodes =>
    (readable nodes).map fun row => (row.child.getD 28, row.neighbour.getD 28)) =
      some (listOptions.nodes.map fun node => (node.child.toNat, node.neighbour.toNat)) := by
  rfl

end PasswordWallet.OptionParser
