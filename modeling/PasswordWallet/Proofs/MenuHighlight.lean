import Mathlib.Data.List.GetD
import Mathlib.Data.List.Perm.Basic
import Mathlib.Tactic.IntervalCases
import PasswordWallet.LinkedList.Chain
import PasswordWallet.Options.List

/-!
# The menu and its rectangle

A table encodes the lists from a node on (`Nested`) when the neighbours of each list end
in `OPTIONS_LIST_NONE` and categories are nested to a bounded depth.  Over such lists the
menu keeps its place (`InList`): the choice is in the list that is displayed, and the stack
holds the lists on the way to it.

What is under the rectangle is the entry that was chosen when the menu was last drawn
(`Displayed`), but for the second of two entries, which is drawn in the second row while the
rectangle is over the third.  The choice moves on without a drawing only in the turns with
both `EVENT_BUTTON_1` and `EVENT_BUTTON_2`, by one entry each.
-/

namespace PasswordWallet

open LinkedList

variable {C : Type} {T : OptionTable C} {l : List ℕ} {base id depth opt : ℕ} {m m' : Menu}

/-! ## Tables -/

/-- An entry with a list of its own. -/
def OptionTable.IsCategory (T : OptionTable C) (id : ℕ) : Prop :=
  (T.node id).callback = none ∧ T.child id ≠ T.listNone

instance : Decidable (T.IsCategory id) := inferInstanceAs (Decidable (_ ∧ _))

structure Siblings (T : OptionTable C) (base : ℕ) (l : List ℕ) : Prop where
  chain : Chain T.neighbour T.listNone base l
  nonempty : l ≠ []
  inside : ∀ id ∈ l, id < T.listNone

/-- The list from a node on, and the lists of its categories to a depth. -/
def Nested (T : OptionTable C) : ℕ → ℕ → Prop
  | 0, base => ∃ l, Siblings T base l ∧ ∀ id ∈ l, ¬ T.IsCategory id
  | depth + 1, base => ∃ l, Siblings T base l ∧
      ∀ id ∈ l, T.IsCategory id → Nested T depth (T.child id)

theorem Siblings.length_pos (h : Siblings T base l) : 0 < l.length :=
  List.length_pos_iff.mpr h.nonempty

theorem Siblings.length_le (h : Siblings T base l) : l.length ≤ T.listNone := by
  have hsubset : l ⊆ List.range T.listNone := fun id hid => List.mem_range.mpr (h.inside id hid)
  have hle := (List.subperm_of_subset h.chain.nodup hsubset).length_le
  rwa [List.length_range] at hle

/-- The index of no node is the neighbour of the last one, a byte. -/
theorem Siblings.none_lt (h : Siblings T base l) : T.listNone < 256 := by
  have hpos := h.length_pos
  have hlast := h.chain.next_getElem (l.length - 1) (by omega)
  rw [List.getD_eq_default _ _ (by omega)] at hlast
  rw [← hlast]
  exact (T.node _).neighbour.isLt

theorem Siblings.length_lt (h : Siblings T base l) : l.length < 256 :=
  Nat.lt_of_le_of_lt h.length_le h.none_lt

theorem Siblings.head (h : Siblings T base l) : l[0]? = some base := by
  have hchain := h.chain
  cases l with
  | nil => exact absurd rfl h.nonempty
  | cons id l => rw [List.getElem?_cons_zero, hchain.1]

theorem Nested.siblings (h : Nested T depth base) : ∃ l, Siblings T base l := by
  cases depth with
  | zero => exact ⟨h.choose, h.choose_spec.1⟩
  | succ depth => exact ⟨h.choose, h.choose_spec.1⟩

/-- A category is not at the depth of 0, and its list is one step deeper. -/
theorem Nested.child (h : Nested T depth base) (hl : Siblings T base l) (hid : id ∈ l)
    (hcategory : T.IsCategory id) : 0 < depth ∧ Nested T (depth - 1) (T.child id) := by
  cases depth with
  | zero =>
      obtain ⟨l', hl', hleaves⟩ := h
      obtain rfl := hl.chain.unique hl'.chain
      exact absurd hcategory (hleaves id hid)
  | succ depth =>
      obtain ⟨l', hl', hnested⟩ := h
      obtain rfl := hl.chain.unique hl'.chain
      exact ⟨Nat.succ_pos depth, hnested id hid hcategory⟩

theorem nodeAt_eq (h : Chain T.neighbour T.listNone base l) (pos : ℕ) (hpos : pos < l.length) :
    nodeAt T base pos = l[pos] := by
  induction pos generalizing base l with
  | zero =>
      cases l with
      | nil => exact absurd hpos (Nat.not_lt_zero 0)
      | cons id l => exact h.1
  | succ pos ih =>
      cases l with
      | nil => exact absurd hpos (Nat.not_lt_zero _)
      | cons id l =>
          obtain ⟨rfl, -, hrest⟩ := h
          have hpos' : pos < l.length := Nat.lt_of_succ_lt_succ hpos
          have hne : T.neighbour base ≠ T.listNone := by
            cases l with
            | nil => exact absurd hpos' (Nat.not_lt_zero pos)
            | cons id l => exact hrest.1 ▸ hrest.2.1
          rw [nodeAt, if_neg hne, ih hrest hpos', List.getElem_cons_succ]

/-! ## What is drawn -/

/-- The labels of a list, from a row on. -/
def labelsFrom (T : OptionTable C) : ℕ → List ℕ → List Label
  | _, [] => []
  | row, id :: l =>
      (if row < 3 then [⟨row * 23 + 2, (T.node id).str, id⟩] else []) ++ labelsFrom T (row + 1) l

theorem drawNodes_eq {fuel row : ℕ} (h : Chain T.neighbour T.listNone base l) (hne : l ≠ [])
    (hfuel : l.length ≤ fuel) (hsmall : row + l.length < 256) :
    drawNodes T fuel base row = some (labelsFrom T row l, row + l.length) := by
  induction fuel generalizing base l row with
  | zero => exact absurd (List.eq_nil_of_length_eq_zero (Nat.le_zero.mp hfuel)) hne
  | succ fuel ih =>
      obtain ⟨id, rest, rfl⟩ := List.exists_cons_of_ne_nil hne
      obtain ⟨rfl, -, hrest⟩ := h
      rw [List.length_cons] at hfuel hsmall
      rw [drawNodes, Nat.mod_eq_of_lt (by omega), labelsFrom]
      cases rest with
      | nil =>
          rw [if_pos (chain_nil.mp hrest)]
          simp [labelsFrom]
      | cons next rest =>
          rw [if_neg (hrest.1 ▸ hrest.2.1), ih hrest (List.cons_ne_nil _ _) (by omega) (by omega)]
          simp [Nat.add_comm, Nat.add_left_comm]

/-- The first line of the rectangle over a row. -/
def rowTop : ℕ → ℕ
  | 0 => 0
  | 1 => 20
  | _ => 43

/-- A rectangle is over the label of its row, if there is one. -/
theorem covered_labelsFrom {row : ℕ} (hrow : row < 3) (first : ℕ) :
    Picture.covered ⟨labelsFrom T first l, rowTop row⟩ =
      if row < first then [] else l[row - first]?.toList := by
  induction l generalizing first with
  | nil => simp [Picture.covered, labelsFrom]
  | cons id l ih =>
      -- the label of the row that comes first, and the labels behind it
      have hsplit : Picture.covered ⟨labelsFrom T first (id :: l), rowTop row⟩ =
          Picture.covered ⟨if first < 3 then [⟨first * 23 + 2, (T.node id).str, id⟩] else [],
              rowTop row⟩ ++
            Picture.covered ⟨labelsFrom T (first + 1) l, rowTop row⟩ := by
        simp [Picture.covered, labelsFrom]
      have hone : Picture.covered
          ⟨if first < 3 then [⟨first * 23 + 2, (T.node id).str, id⟩] else [], rowTop row⟩ = if first = row then [id] else [] := by
        by_cases hfirst : first < 3
        · rw [if_pos hfirst]
          interval_cases row <;> interval_cases first <;> rfl
        · rw [if_neg hfirst, if_neg (by omega)]
          rfl
      rw [hsplit, ih, hone]
      rcases Nat.lt_trichotomy first row with hlt | rfl | hgt
      · obtain ⟨k, hk⟩ : ∃ k, row - first = k + 1 := ⟨row - first - 1, by omega⟩
        rw [if_neg hlt.ne, if_neg (by omega), if_neg (by omega), hk, List.getElem?_cons_succ,
          List.nil_append]
        congr 2
        omega
      · simp
      · rw [if_neg hgt.ne', if_pos (by omega), if_pos hgt]
        rfl

/-! ## Over a list -/

/-- What is under the rectangle of the menu that is drawn for a choice. -/
def covered (l : List ℕ) (choice : ℕ) : List ℕ :=
  if l.length = 2 ∧ choice = 1 then [] else l[choice]?.toList

/-- The variables, over the list that is displayed. -/
structure InList (T : OptionTable C) (l : List ℕ) (m : Menu) : Prop where
  siblings : Siblings T m.base l
  maxChoice : m.maxChoice = l.length
  choice : m.currentChoice < l.length
  stackPos : m.nodeStackPos ≤ T.maxIntrication
  nested : Nested T (T.maxIntrication - m.nodeStackPos) m.base
  below : ∀ i < m.nodeStackPos, Nested T (T.maxIntrication - i) (m.nodeStack i)

/-- The screen: it has been drawn for some choice, and the turns that have been missed lead
from this one to there. -/
def Displayed (l : List ℕ) (m : Menu) : Prop :=
  m.frame.covered = covered l ((m.currentChoice + m.missed) % l.length)

/-- Three rows from an entry on. -/
theorem drawn_from (h : Siblings T base l) {first row : ℕ} (hfirst : first < l.length)
    (hrow : row < 3) :
    ∃ labels numOpt, drawNodes T (T.listNone + 1) l[first] 0 = some (labels, numOpt) ∧
      Picture.covered ⟨labels, rowTop row⟩ = l[first + row]?.toList := by
  have hle := h.length_le
  have hlt := h.length_lt
  have hne : l.drop first ≠ [] := List.ne_nil_of_length_pos (by rw [List.length_drop]; omega)
  refine ⟨_, _, drawNodes_eq (h.chain.drop first hfirst) hne ?_ ?_, ?_⟩
  · rw [List.length_drop]
    omega
  · rw [List.length_drop]
    omega
  · rw [covered_labelsFrom hrow, if_neg (Nat.not_lt_zero row), List.getElem?_drop, Nat.sub_zero]

/-- Whatever the choice, the window is drawn so that the rectangle is over it, but for the
second of two entries. -/
theorem InList.drawn (h : InList T l m) :
    ∃ labels numOpt, drawNodes T (T.listNone + 1) (firstShown T m) 0 = some (labels, numOpt) ∧
      Picture.covered ⟨labels, drawSelection m.currentChoice m.maxChoice⟩ =
        covered l m.currentChoice := by
  have hpos := h.siblings.length_pos
  have hchoice := h.choice
  have hmax := h.maxChoice
  have hbase : m.base = l[0] := by
    have hhead := h.siblings.head
    rw [List.getElem?_eq_getElem hpos, Option.some.injEq] at hhead
    exact hhead.symm
  -- the entry that is drawn first and the row of the rectangle say what is under it
  have hwindow : ∀ first row (hfirst : first < l.length), row < 3 → firstShown T m = l[first] →
      drawSelection m.currentChoice m.maxChoice = rowTop row →
      l[first + row]?.toList = covered l m.currentChoice →
      ∃ labels numOpt, drawNodes T (T.listNone + 1) (firstShown T m) 0 = some (labels, numOpt) ∧
        Picture.covered ⟨labels, drawSelection m.currentChoice m.maxChoice⟩ =
          covered l m.currentChoice := by
    intro first row hfirst hrow hshown htop hcovered
    rw [hshown, htop, ← hcovered]
    exact drawn_from h.siblings hfirst hrow
  by_cases hzero : m.currentChoice = 0
  · refine hwindow 0 0 hpos (by decide) ?_ ?_ ?_
    · rw [firstShown, if_pos (Or.inl hzero), hbase]
    · rw [drawSelection, if_pos hzero]
      rfl
    · rw [covered, hzero, if_neg (by omega)]
  by_cases hlast : m.currentChoice = m.maxChoice - 1
  · have htop : drawSelection m.currentChoice m.maxChoice = rowTop 2 := by
      rw [drawSelection, if_neg hzero, if_neg (not_not.mpr hlast)]
      rfl
    -- the last entry is in the third row, which a list of two does not have
    rw [h.maxChoice] at hlast
    by_cases hfew : l.length ≤ 3
    · refine hwindow 0 2 hpos (by decide) ?_ htop ?_
      · rw [firstShown, if_pos (Or.inr (h.maxChoice ▸ hfew)), hbase]
      · rw [covered]
        split_ifs with htwo
        · rw [List.getElem?_eq_none (by omega)]
          rfl
        · rw [show m.currentChoice = 0 + 2 by omega]
    · refine hwindow (m.currentChoice - 2) 2 (by omega) (by decide) ?_ htop ?_
      · rw [firstShown, if_neg (by omega), if_pos (by omega), nodeAt_eq h.siblings.chain]
      · rw [covered, if_neg (by omega), Nat.sub_add_cancel (by omega)]
  · have htop : drawSelection m.currentChoice m.maxChoice = rowTop 1 := by
      rw [drawSelection, if_neg hzero, if_pos hlast]
      rfl
    -- any other entry is in the second row, with the one in front of it above
    rw [h.maxChoice] at hlast
    have hcovered : ∀ first, first + 1 = m.currentChoice →
        l[first + 1]?.toList = covered l m.currentChoice := by
      intro first hfirst
      rw [covered, if_neg (by omega), hfirst]
    by_cases hfew : l.length ≤ 3
    · refine hwindow 0 1 hpos (by decide) ?_ htop (hcovered 0 (by omega))
      rw [firstShown, if_pos (Or.inr (h.maxChoice ▸ hfew)), hbase]
    · refine hwindow (m.currentChoice - 1) 1 (by omega) (by decide) ?_ htop
        (hcovered _ (by omega))
      rw [firstShown, if_neg (by omega), if_neg (by omega), nodeAt_eq h.siblings.chain]

/-! ## A turn -/

theorem drawList_eq (h : Siblings T m.base l) (hchoice : m.currentChoice = 0)
    (hstack : m.nodeStackPos ≤ T.maxIntrication)
    (hnested : Nested T (T.maxIntrication - m.nodeStackPos) m.base)
    (hbelow : ∀ i < m.nodeStackPos, Nested T (T.maxIntrication - i) (m.nodeStack i)) :
    ∃ m', drawList T m = .ok m' ∧ InList T l m' ∧ Displayed l m' := by
  have hpos := h.length_pos
  have hlt := h.length_lt
  have hdrawn := @drawNodes_eq _ T l m.base _ 0 h.chain h.nonempty (Nat.le_succ_of_le h.length_le)
    (by omega)
  rw [Nat.zero_add] at hdrawn
  have hdraw : drawList T m = .ok { m with
      maxChoice := l.length
      frame := ⟨labelsFrom T 0 l, drawSelection m.currentChoice l.length⟩
      missed := 0 } := by
    rw [drawList, hdrawn]
  refine ⟨_, hdraw, ⟨h, rfl, ?_, hstack, hnested, hbelow⟩, ?_⟩
  · exact hchoice ▸ hpos
  · have hrow : drawSelection m.currentChoice l.length = rowTop 0 := by
      rw [drawSelection, if_pos hchoice]
      rfl
    simp only [Displayed, hrow]
    rw [covered_labelsFrom (by decide), if_neg (Nat.not_lt_zero 0), hchoice, Nat.add_zero,
      Nat.zero_mod, covered, if_neg (by omega)]

theorem inList_redraw (h : InList T l m) {events : Byte}
    (hdrawn : Displayed l m ∨ events ≠ 0 ∧ events &&& eventButton2 = 0) :
    ∃ m', redraw T events m = .ok m' ∧ InList T l m' ∧ Displayed l m' := by
  by_cases hevents : events ≠ 0 ∧ events &&& eventButton2 = 0
  · obtain ⟨labels, numOpt, hlabels, hcovered⟩ := h.drawn
    have hredraw : redraw T events m = .ok { m with
        frame := ⟨labels, drawSelection m.currentChoice m.maxChoice⟩
        missed := 0 } := by
      rw [redraw, if_pos hevents, hlabels]
    refine ⟨_, hredraw, { h with }, ?_⟩
    simp only [Displayed]
    rw [hcovered, Nat.add_zero, Nat.mod_eq_of_lt h.choice]
  · exact ⟨m, by rw [redraw, if_neg hevents], h, hdrawn.resolve_right hevents⟩

/-- The entry that `EVENT_BUTTON_2` chooses. -/
theorem InList.chosen (h : InList T l m) : nodeAt T m.base m.currentChoice ∈ l := by
  rw [nodeAt_eq h.siblings.chain _ h.choice]
  exact List.getElem_mem _

theorem inList_chooseEntry (h : InList T l m) (hdrawn : Displayed l m) (numPwd : ℕ) :
    (∃ e, chooseEntry T numPwd m = .error e ∧ e ≠ .endless) ∨
      ∃ m' l', chooseEntry T numPwd m = .ok m' ∧ InList T l' m' ∧ Displayed l' m' := by
  rw [chooseEntry]
  by_cases hnoPwd : T.child (nodeAt T m.base m.currentChoice) = 1 ∧ numPwd = 0
  · exact Or.inl ⟨_, if_pos hnoPwd, fun heq => by cases heq⟩
  simp only [if_neg hnoPwd]
  cases hcallback : (T.node (nodeAt T m.base m.currentChoice)).callback with
  | some call => exact Or.inl ⟨_, rfl, fun heq => by cases heq⟩
  | none =>
      by_cases hchild : T.child (nodeAt T m.base m.currentChoice) = T.listNone
      · exact Or.inr ⟨m, l, if_neg (not_not.mpr hchild), h, hdrawn⟩
      obtain ⟨hdepth, hnested⟩ := h.nested.child h.siblings h.chosen ⟨hcallback, hchild⟩
      obtain ⟨l', hsiblings⟩ := hnested.siblings
      have hstack : m.nodeStackPos + 1 ≤ T.maxIntrication := by omega
      -- the list that is left goes on the stack, on top of those that lead to it
      have hbelow : ∀ i < m.nodeStackPos + 1, Nested T (T.maxIntrication - i)
          (Function.update m.nodeStack m.nodeStackPos m.base i) := by
        intro i hi
        rcases Nat.lt_succ_iff_lt_or_eq.mp hi with hlt | rfl
        · rw [Function.update_of_ne hlt.ne]
          exact h.below i hlt
        · rw [Function.update_self]
          exact h.nested
      obtain ⟨m', hdraw, hinList⟩ := @drawList_eq C T l' { m with
          currentChoice := 0
          nodeStack := Function.update m.nodeStack m.nodeStackPos m.base
          nodeStackPos := m.nodeStackPos + 1
          base := T.child (nodeAt T m.base m.currentChoice) } hsiblings rfl hstack
        (by rwa [← Nat.sub_sub]) hbelow
      exact Or.inr ⟨m', l', (if_pos hchild).trans hdraw, hinList⟩

theorem ne_zero_of_and {events event : Byte} (h : events &&& event ≠ 0) : events ≠ 0 := by
  rintro rfl
  exact h (BitVec.zero_and ..)

/-- The buttons keep the place, and what is drawn, but for those after which it is drawn
anew. -/
theorem inList_handleEvents (h : InList T l m) (hdrawn : Displayed l m) (input : OptionInput) :
    (∃ e, handleEvents T input m = .error e ∧ e ≠ .endless) ∨
      ∃ m' l', handleEvents T input m = .ok m' ∧ InList T l' m' ∧
        (Displayed l' m' ∨ input.events ≠ 0 ∧ input.events &&& eventButton2 = 0) := by
  have hpos := h.siblings.length_pos
  have hlt := h.siblings.length_lt
  have hchoice := h.choice
  rw [handleEvents]
  by_cases hbutton1 : input.events &&& eventButton1 ≠ 0
  · refine Or.inr ⟨_, l, if_pos hbutton1, { h with choice := ?_ }, ?_⟩
    · simp only [h.maxChoice]
      split_ifs <;> omega
    · by_cases hboth : input.events &&& eventButton2 = 0
      · exact Or.inr ⟨ne_zero_of_and hbutton1, hboth⟩
      · refine Or.inl ?_
        simp only [Displayed, if_pos hboth, h.maxChoice]
        -- the screen stays, and the choice is one entry further from what it shows
        refine hdrawn.trans (congrArg (covered l) ?_)
        split_ifs with hzero
        · rw [hzero, Nat.zero_add,
            show l.length - 1 + (m.missed + 1) = m.missed + l.length by omega, Nat.add_mod_right]
        · congr 1
          omega
  rw [if_neg hbutton1]
  by_cases hbutton2 : input.events &&& eventButton2 ≠ 0
  · rw [if_pos hbutton2]
    rcases inList_chooseEntry h hdrawn input.numPwd with hexit | ⟨m', l', hok, hinList, hdrawn'⟩
    · exact Or.inl hexit
    · exact Or.inr ⟨m', l', hok, hinList, Or.inl hdrawn'⟩
  rw [if_neg hbutton2]
  by_cases hbutton3 : input.events &&& eventButton3 ≠ 0
  · refine Or.inr ⟨_, l, if_pos hbutton3, { h with choice := ?_ },
      Or.inr ⟨ne_zero_of_and hbutton3, not_not.mp hbutton2⟩⟩
    simp only [h.maxChoice]
    split_ifs <;> omega
  rw [if_neg hbutton3]
  by_cases hbutton4 : input.events &&& eventButton4 ≠ 0
  · rw [if_pos hbutton4]
    by_cases hback : m.nodeStackPos = 0
    · exact Or.inl ⟨_, if_pos hback, fun heq => by cases heq⟩
    rw [if_neg hback]
    -- back to the list on top of the stack
    have hbelow := h.below (m.nodeStackPos - 1) (by omega)
    obtain ⟨l', hsiblings⟩ := hbelow.siblings
    have hstack : m.nodeStackPos - 1 ≤ T.maxIntrication := (Nat.sub_le _ _).trans h.stackPos
    obtain ⟨m', hdraw, hinList, hdrawn'⟩ := @drawList_eq C T l' { m with
        base := m.nodeStack (m.nodeStackPos - 1)
        nodeStackPos := m.nodeStackPos - 1
        currentChoice := 0 } hsiblings rfl hstack hbelow
      fun i hi => h.below i (Nat.lt_of_lt_of_le hi (Nat.sub_le _ _))
    exact Or.inr ⟨m', l', hdraw, hinList, Or.inl hdrawn'⟩
  · exact Or.inr ⟨m, l, if_neg hbutton4, h, Or.inl hdrawn⟩

/-- A turn keeps the place and what is drawn. -/
theorem inList_optionsTurn (h : InList T l m) (hdrawn : Displayed l m) (input : OptionInput) :
    (∃ e, optionsTurn T m input = .error e ∧ e ≠ .endless) ∨
      ∃ m' l', optionsTurn T m input = .ok m' ∧ InList T l' m' ∧ Displayed l' m' := by
  rcases inList_handleEvents h hdrawn input with ⟨e, herror, hne⟩ | ⟨m₁, l₁, hok, hinList, hdrawn₁⟩
  · exact Or.inl ⟨e, by rw [optionsTurn, herror]; rfl, hne⟩
  · obtain ⟨m', hredraw, hkept⟩ := inList_redraw hinList hdrawn₁
    exact Or.inr ⟨m', l₁, by rw [optionsTurn, hok]; exact hredraw, hkept⟩

/-! ## A run -/

theorem inList_run (h : InList T l m) (hdrawn : Displayed l m) (inputs : List OptionInput) :
    (∃ e, inputs.foldlM (optionsTurn T) m = .error e ∧ e ≠ .endless) ∨
      ∃ m' l', inputs.foldlM (optionsTurn T) m = .ok m' ∧ InList T l' m' ∧ Displayed l' m' := by
  induction inputs generalizing m l with
  | nil => exact Or.inr ⟨m, l, rfl, h, hdrawn⟩
  | cons input inputs ih =>
      rw [List.foldlM_cons]
      rcases inList_optionsTurn h hdrawn input with ⟨e, herror, hne⟩ |
        ⟨m₁, l₁, hok, hinList, hdrawn₁⟩
      · exact Or.inl ⟨e, by rw [herror]; rfl, hne⟩
      · rw [hok]
        exact ih hinList hdrawn₁

theorem inList_optionsDisplay (h : Nested T T.maxIntrication opt) (inputs : List OptionInput) :
    (∃ e, optionsDisplay T opt inputs = .error e ∧ e ≠ .endless) ∨
      ∃ m l, optionsDisplay T opt inputs = .ok m ∧ InList T l m ∧ Displayed l m := by
  obtain ⟨l, hsiblings⟩ := h.siblings
  obtain ⟨m, hdraw, hinList, hdrawn⟩ := @drawList_eq C T l ⟨opt, 0, 0, fun _ => 0, 0, ⟨[], 0⟩, 0⟩
    hsiblings rfl (Nat.zero_le _) h fun i hi => absurd hi (Nat.not_lt_zero i)
  rw [optionsDisplay, hdraw]
  exact inList_run hinList hdrawn inputs

/-- The rectangle is over the entry that is chosen just when no turn is missed, or as many as
lead round the list. -/
theorem covered_eq_iff (h : InList T l m) (hdrawn : Displayed l m) :
    m.frame.covered = [nodeAt T m.base m.currentChoice] ↔
      ¬ (m.maxChoice = 2 ∧ m.currentChoice = 1) ∧ m.maxChoice ∣ m.missed := by
  have hpos := h.siblings.length_pos
  have hlt := Nat.mod_lt (m.currentChoice + m.missed) hpos
  have hchosen := nodeAt_eq h.siblings.chain _ h.choice
  have hdvd : m.maxChoice ∣ m.missed ↔
      (m.currentChoice + m.missed) % l.length = m.currentChoice := by
    rw [h.maxChoice]
    constructor
    · rintro ⟨k, hk⟩
      rw [hk, Nat.add_mul_mod_self_left, Nat.mod_eq_of_lt h.choice]
    · intro hmod
      have hsum := Nat.div_add_mod (m.currentChoice + m.missed) l.length
      exact ⟨(m.currentChoice + m.missed) / l.length, by omega⟩
  rw [hdrawn, covered, hchosen, hdvd, h.maxChoice]
  by_cases htwo : l.length = 2 ∧ (m.currentChoice + m.missed) % l.length = 1
  · rw [if_pos htwo]
    refine iff_of_false (List.cons_ne_nil _ _).symm fun hboth => hboth.1 ⟨htwo.1, ?_⟩
    rw [← hboth.2, htwo.2]
  · rw [if_neg htwo, List.getElem?_eq_getElem hlt, Option.toList_some, List.cons.injEq]
    refine ⟨fun heq => ?_, fun heq => ⟨?_, rfl⟩⟩
    -- the entries of a list are distinct, so an entry says where it stands
    · have hindex := (h.siblings.chain.nodup.getElem_inj_iff).mp heq.1
      exact ⟨fun hsecond => htwo ⟨hsecond.1, hindex.trans hsecond.2⟩, hindex⟩
    · simp only [heq.2]

/-- Whenever an entry is activated in a run, it is the one under the rectangle. -/
def RunsHighlighted (T : OptionTable C) (opt : ℕ) (inputs : List OptionInput) : Prop :=
  ∀ front input m id, front ++ [input] <+: inputs → optionsDisplay T opt front = .ok m →
    activated T m input = some id → m.frame.covered = [id]

/-- Whenever an entry is activated in a run, it is not the second of two, and the turns with
both buttons since the last drawing go round the list, if there are any. -/
def ActivatesDrawn (T : OptionTable C) (opt : ℕ) (inputs : List OptionInput) : Prop :=
  ∀ front input m id, front ++ [input] <+: inputs → optionsDisplay T opt front = .ok m →
    activated T m input = some id →
      ¬ (m.maxChoice = 2 ∧ m.currentChoice = 1) ∧ m.maxChoice ∣ m.missed

/-- Over the lists of any table the menu is never drawn without end, the choice is in the
list that is displayed and the stack holds what is on it; and it runs what it highlights
just when what is chosen has been drawn and is not the second of two entries. -/
theorem menu_highlights_iff (h : Nested T T.maxIntrication opt) (inputs : List OptionInput) :
    optionsDisplay T opt inputs ≠ .error .endless ∧
      (∀ front m, front <+: inputs → optionsDisplay T opt front = .ok m →
        (∃ l, Siblings T m.base l ∧ m.currentChoice < l.length ∧ m.maxChoice = l.length) ∧
          m.nodeStackPos ≤ T.maxIntrication) ∧
      (RunsHighlighted T opt inputs ↔ ActivatesDrawn T opt inputs) := by
  have hinList : ∀ front m, optionsDisplay T opt front = .ok m →
      ∃ l, InList T l m ∧ Displayed l m := by
    intro front m hrun
    rcases inList_optionsDisplay h front with ⟨e, herror, -⟩ | ⟨m', l, hok, hinList⟩
    · exact absurd (herror.symm.trans hrun) (by simp)
    · obtain rfl := Except.ok.inj (hok.symm.trans hrun)
      exact ⟨l, hinList⟩
  have hiff : ∀ front input m id, optionsDisplay T opt front = .ok m →
      activated T m input = some id →
        (m.frame.covered = [id] ↔
          ¬ (m.maxChoice = 2 ∧ m.currentChoice = 1) ∧ m.maxChoice ∣ m.missed) := by
    intro front input m id hrun hactivated
    obtain ⟨l, hl, hdrawn⟩ := hinList front m hrun
    have hid : nodeAt T m.base m.currentChoice = id := by
      rw [activated] at hactivated
      split_ifs at hactivated
      exact Option.some.inj hactivated
    exact hid ▸ covered_eq_iff hl hdrawn
  refine ⟨?_, fun front m _ hrun => ?_, fun hruns => ?_, fun hdrawn => ?_⟩
  · rcases inList_optionsDisplay h inputs with ⟨e, herror, hne⟩ | ⟨m, l, hok, -⟩
    · rw [herror]
      exact fun heq => hne (Except.error.inj heq)
    · rw [hok]
      exact fun heq => by cases heq
  · obtain ⟨l, hl, -⟩ := hinList front m hrun
    exact ⟨⟨l, hl.siblings, hl.choice, hl.maxChoice⟩, hl.stackPos⟩
  · intro front input m id hfront hrun hactivated
    exact (hiff front input m id hrun hactivated).mp (hruns front input m id hfront hrun hactivated)
  · intro front input m id hfront hrun hactivated
    exact (hiff front input m id hrun hactivated).mpr
      (hdrawn front input m id hfront hrun hactivated)

/-! ## The table of the device -/

/-- A list without categories. -/
theorem Nested.of_leaves (h : Siblings T base l) (hleaves : ∀ id ∈ l, ¬ T.IsCategory id) :
    Nested T depth base := by
  cases depth with
  | zero => exact ⟨l, h, hleaves⟩
  | succ depth => exact ⟨l, h, fun id hid hcategory => absurd hcategory (hleaves id hid)⟩

theorem nested_normal : Nested listOptions listOptions.maxIntrication optionsListNormal := by
  have hkeys : Nested listOptions 0 12 :=
    .of_leaves (l := [12, 13, 14, 15]) ⟨by decide, by decide, by decide⟩ (by decide)
  have hpasswords : Nested listOptions 1 1 :=
    .of_leaves (l := [1, 2, 3, 4, 5]) ⟨by decide, by decide, by decide⟩ (by decide)
  have hsort : Nested listOptions 1 7 :=
    .of_leaves (l := [7, 8, 9]) ⟨by decide, by decide, by decide⟩ (by decide)
  have hparam : Nested listOptions 1 11 := by
    refine ⟨[11, 16, 17, 18, 19, 20], ⟨by decide, by decide, by decide⟩, fun id hid hcategory => ?_⟩
    have honly : ∀ id ∈ [11, 16, 17, 18, 19, 20], listOptions.IsCategory id → id = 11 := by decide
    exact honly id hid hcategory ▸ hkeys
  refine ⟨[0, 6, 10, 21], ⟨by decide, by decide, by decide⟩, fun id hid hcategory => ?_⟩
  have honly : ∀ id ∈ [0, 6, 10, 21], listOptions.IsCategory id → id = 0 ∨ id = 6 ∨ id = 10 := by
    decide
  rcases honly id hid hcategory with rfl | rfl | rfl
  · exact hpasswords
  · exact hsort
  · exact hparam

theorem nested_recovery : Nested listOptions listOptions.maxIntrication optionsListRecovery :=
  .of_leaves (l := [22, 23, 24]) ⟨by decide, by decide, by decide⟩ (by decide)

theorem nested_send : Nested listOptions listOptions.maxIntrication optionsListSend :=
  .of_leaves (l := [25, 26, 27]) ⟨by decide, by decide, by decide⟩ (by decide)

/-- Both buttons at once in the recovery menu: the title stays under the rectangle, and the
next turn with `EVENT_BUTTON_2` runs `opt_callback_enter_key`. -/
theorem menu_runs_hidden :
    ¬ RunsHighlighted listOptions optionsListRecovery [⟨0x03, 0⟩, ⟨0x02, 0⟩] := by
  intro h
  have htitle := h [⟨0x03, 0⟩] ⟨0x02, 0⟩ _ 24 List.prefix_rfl rfl rfl
  exact absurd htitle (by decide)

/-- `EVENT_BUTTON_3` and then `EVENT_BUTTON_2` choose to sort, and this is shown. -/
theorem menu_highlights_iff_sort :
    RunsHighlighted listOptions optionsListNormal [⟨0x04, 1⟩, ⟨0x02, 1⟩] := by
  refine (menu_highlights_iff nested_normal _).2.2.mpr fun front input m id hfront hrun _ => ?_
  have hlength := hfront.length_le
  rw [List.length_append] at hlength
  rcases front with _ | ⟨first, _ | ⟨second, rest⟩⟩
  · obtain rfl := Except.ok.inj hrun
    exact ⟨by decide, dvd_zero _⟩
  · obtain ⟨rfl, -⟩ := List.cons_prefix_cons.mp hfront
    obtain rfl := Except.ok.inj hrun
    exact ⟨by decide, dvd_zero _⟩
  · simp at hlength

end PasswordWallet
