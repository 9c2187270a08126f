import Mathlib.Logic.Function.Basic
import PasswordWallet.Graphics.TypeString

/-!
# The menu of options

`Options.c`: a list of options is shown three at a time, with a rectangle over the chosen
one.  The options are the nodes of a table, each with the index of its neighbour and of
its first child; the index `OPTIONS_LIST_NONE`, one past the last node, stands for none.

`Menu` holds the local variables of `options_display` and what is on the screen since the
last `draw_update`.  One turn of its loop is `optionsTurn`, given what `events_get` returns
and how many passwords there are.
-/

namespace PasswordWallet

/-- `Option_Node`, for the functions `C` that a node can call. -/
structure OptionNode (C : Type) where
  callback : Option C
  child : Byte
  neighbour : Byte
  str : ℕ

/-- `list_options`, and the depth that its lists are nested to. -/
structure OptionTable (C : Type) where
  nodes : List (OptionNode C)
  maxIntrication : ℕ

variable {C : Type}

/-- `OPTIONS_LIST_NONE`. -/
def OptionTable.listNone (T : OptionTable C) : ℕ := T.nodes.length

/-- `ptr_from_list`; behind the table there is nothing to be read. -/
def OptionTable.node (T : OptionTable C) (id : ℕ) : OptionNode C :=
  T.nodes.getD id ⟨none, 0, 0, 0⟩

def OptionTable.neighbour (T : OptionTable C) (id : ℕ) : ℕ := (T.node id).neighbour.toNat

def OptionTable.child (T : OptionTable C) (id : ℕ) : ℕ := (T.node id).child.toNat

/-! ## The screen -/

/-- A label at the line `y`; `entry` is the node that it is the label of. -/
structure Label where
  y : ℕ
  str : ℕ
  entry : ℕ

/-- The labels, and the first line of the rectangle. -/
structure Picture where
  labels : List Label
  top : ℕ

/-- The entries with their labels in the 21 lines of the rectangle. -/
def Picture.covered (f : Picture) : List ℕ :=
  (f.labels.filter fun label => f.top ≤ label.y ∧ label.y < f.top + 21).map Label.entry

/-- `draw_nodes`: the labels that are drawn and the number of nodes; `fuel` bounds the walk
along the neighbours, which does not end where they go round. -/
def drawNodes (T : OptionTable C) : ℕ → ℕ → ℕ → Option (List Label × ℕ)
  | 0, _, _ => none
  | fuel + 1, node, numOpt =>
      let drawn : List Label :=
        if numOpt < 3 then [⟨numOpt * 23 + 2, (T.node node).str, node⟩] else []
      let numOpt' := (numOpt + 1) % 256
      if T.neighbour node = T.listNone then some (drawn, numOpt')
      else (drawNodes T fuel (T.neighbour node) numOpt').map fun r => (drawn ++ r.1, r.2)

/-- `draw_selection`: the line where the rectangle begins. -/
def drawSelection (current max : ℕ) : ℕ :=
  if current = 0 then 0
  else if current ≠ max - 1 then 20
  else 43

/-- `node_at`. -/
def nodeAt (T : OptionTable C) (base : ℕ) : ℕ → ℕ
  | 0 => base
  | pos + 1 => if T.neighbour base = T.listNone then base else nodeAt T (T.neighbour base) pos

/-! ## The loop -/

/-- What a turn is given: the mask of `events_get`, and `NUM_PWD`. -/
structure OptionInput where
  events : Byte
  numPwd : ℕ

/-- The state of `options_display`.  `missed` is no variable of the program: it counts the
turns since the last drawing with both `EVENT_BUTTON_1` and `EVENT_BUTTON_2`. -/
structure Menu where
  base : ℕ
  currentChoice : ℕ
  maxChoice : ℕ
  nodeStack : ℕ → ℕ
  nodeStackPos : ℕ
  frame : Picture
  missed : ℕ

/-- How `options_display` returns, or that it does not. -/
inductive OptionExit (C : Type)
  | errorNoPassword
  | callback (call : C)
  | back
  | endless

variable (T : OptionTable C)

/-- The list from a node on is drawn, and the rectangle over the first entry. -/
def drawList (m : Menu) : Except (OptionExit C) Menu :=
  match drawNodes T (T.listNone + 1) m.base 0 with
  | none => .error .endless
  | some (labels, maxChoice) =>
      .ok { m with
        maxChoice := maxChoice
        frame := ⟨labels, drawSelection m.currentChoice maxChoice⟩
        missed := 0 }

/-- The first node of the three that are shown when the menu is redrawn. -/
def firstShown (m : Menu) : ℕ :=
  if m.currentChoice = 0 ∨ m.maxChoice ≤ 3 then m.base
  else if m.currentChoice = m.maxChoice - 1 then nodeAt T m.base (m.currentChoice - 2)
  else nodeAt T m.base (m.currentChoice - 1)

/-- The menu is redrawn, for any event without `EVENT_BUTTON_2`. -/
def redraw (events : Byte) (m : Menu) : Except (OptionExit C) Menu :=
  if events ≠ 0 ∧ events &&& eventButton2 = 0 then
    match drawNodes T (T.listNone + 1) (firstShown T m) 0 with
    | none => .error .endless
    | some (labels, _) =>
        .ok { m with
          frame := ⟨labels, drawSelection m.currentChoice m.maxChoice⟩
          missed := 0 }
  else .ok m

/-- `EVENT_BUTTON_2`: the chosen entry. -/
def chooseEntry (numPwd : ℕ) (m : Menu) : Except (OptionExit C) Menu :=
  let id := nodeAt T m.base m.currentChoice
  if T.child id = 1 ∧ numPwd = 0 then .error .errorNoPassword
  else match (T.node id).callback with
    | some call => .error (.callback call)
    | none =>
        if T.child id ≠ T.listNone then
          drawList T { m with
            currentChoice := 0
            nodeStack := Function.update m.nodeStack m.nodeStackPos m.base
            nodeStackPos := m.nodeStackPos + 1
            base := T.child id }
        else .ok m

/-- The branches for the buttons. -/
def handleEvents (input : OptionInput) (m : Menu) : Except (OptionExit C) Menu :=
  if input.events &&& eventButton1 ≠ 0 then
    .ok { m with
      currentChoice := if m.currentChoice = 0 then m.maxChoice - 1 else m.currentChoice - 1
      missed := if input.events &&& eventButton2 ≠ 0 then m.missed + 1 else m.missed }
  else if input.events &&& eventButton2 ≠ 0 then chooseEntry T input.numPwd m
  else if input.events &&& eventButton3 ≠ 0 then
    let next := (m.currentChoice + 1) % 256
    .ok { m with currentChoice := if next = m.maxChoice then 0 else next }
  else if input.events &&& eventButton4 ≠ 0 then
    if m.nodeStackPos = 0 then .error .back
    else drawList T { m with
      base := m.nodeStack (m.nodeStackPos - 1)
      nodeStackPos := m.nodeStackPos - 1
      currentChoice := 0 }
  else .ok m

/-- One turn of the loop. -/
def optionsTurn (m : Menu) (input : OptionInput) : Except (OptionExit C) Menu := do
  let m ← handleEvents T input m
  redraw T input.events m

/-- `options_display`, for what happens in the turns of its loop. -/
def optionsDisplay (opt : ℕ) (inputs : List OptionInput) : Except (OptionExit C) Menu := do
  let m ← drawList T ⟨opt, 0, 0, fun _ => 0, 0, ⟨[], 0⟩, 0⟩
  inputs.foldlM (optionsTurn T) m

/-- The entry that is activated in a turn, if any: `EVENT_BUTTON_2` is looked at after
`EVENT_BUTTON_1`, and a node without function and children does nothing. -/
def activated (m : Menu) (input : OptionInput) : Option ℕ :=
  let id := nodeAt T m.base m.currentChoice
  if input.events &&& eventButton1 = 0 ∧ input.events &&& eventButton2 ≠ 0 ∧
      (T.child id = 1 ∧ input.numPwd = 0 ∨ (T.node id).callback.isSome ∨
        T.child id ≠ T.listNone) then
    some id
  else none

end PasswordWallet
