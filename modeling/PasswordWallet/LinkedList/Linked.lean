import Mathlib.Data.List.Nodup
import Mathlib.Logic.Function.Basic

/-!
# Doubly linked lists

`Links` is a forward and a backward link for each element.  `Linked s before l
after` says that the links thread the list `l`, with `before` behind the first
element and `after` ahead of the last.  The two outer elements are parameters,
so that a part of a list is linked in the same sense as a whole one
(`linked_append`), and a list with a sentinel is linked between the sentinel and
itself.

The operations below rewire the links one at a time, as a program would: the
swap of two neighbours, taking an element out, and putting one behind the last.
Each keeps the links threading a list, and says which.
-/

namespace LinkedList

variable {ι : Type*}

/-- A forward and a backward link for each element. -/
@[ext] structure Links (ι : Type*) where
  next : ι → ι
  prev : ι → ι

variable {s s' : Links ι} {before after e x y : ι} {l l₁ l₂ : List ι}

/-- The links thread the list between `before` and `after`. -/
def Linked (s : Links ι) : ι → List ι → ι → Prop
  | _, [], _ => True
  | before, x :: rest, after =>
      s.prev x = before ∧ s.next x = rest.headD after ∧ Linked s x rest after

@[simp] theorem linked_nil : Linked s before [] after := trivial

@[simp] theorem linked_cons :
    Linked s before (x :: l) after ↔
      s.prev x = before ∧ s.next x = l.headD after ∧ Linked s x l after := Iff.rfl

theorem headD_append (l₁ l₂ : List ι) (a : ι) :
    (l₁ ++ l₂).headD a = l₁.headD (l₂.headD a) := by
  cases l₁ <;> rfl

theorem getLastD_append (l₁ l₂ : List ι) (a : ι) :
    (l₁ ++ l₂).getLastD a = l₂.getLastD (l₁.getLastD a) := by
  induction l₁ generalizing a with
  | nil => rfl
  | cons x l₁ ih => rw [List.cons_append, List.getLastD_cons, List.getLastD_cons, ih]

/-- Linking is a matter of the parts. -/
theorem linked_append :
    Linked s before (l₁ ++ l₂) after ↔
      Linked s before l₁ (l₂.headD after) ∧ Linked s (l₁.getLastD before) l₂ after := by
  induction l₁ generalizing before with
  | nil => simp
  | cons y l₁ ih =>
      rw [List.cons_append, linked_cons, linked_cons, ih, headD_append, List.getLastD_cons]
      simp only [and_assoc]

theorem linked_snoc :
    Linked s before (l ++ [x]) after ↔
      Linked s before l x ∧ s.prev x = l.getLastD before ∧ s.next x = after := by
  simp [linked_append]

/-- Each element says which one comes next. -/
theorem Linked.next_getElem (h : Linked s before l after) (i : ℕ) (hi : i < l.length) :
    s.next l[i] = l.getD (i + 1) after := by
  induction l generalizing before i with
  | nil => exact absurd hi (Nat.not_lt_zero _)
  | cons x rest ih =>
      obtain ⟨-, hnext, hrest⟩ := linked_cons.mp h
      cases i with
      | zero =>
          rw [List.getElem_cons_zero, hnext]
          cases rest <;> rfl
      | succ i => exact ih hrest i (by simpa using hi)

/-- Each element but the first says which one came before. -/
theorem Linked.prev_getElem (h : Linked s before l after) (i : ℕ) (hi : i + 1 < l.length) :
    s.prev l[i + 1] = l[i] := by
  induction l generalizing before i with
  | nil => exact absurd hi (Nat.not_lt_zero _)
  | cons x rest ih =>
      obtain ⟨-, -, hrest⟩ := linked_cons.mp h
      cases i with
      | zero =>
          cases rest with
          | nil => exact absurd hi (by simp)
          | cons y rest => exact (linked_cons.mp hrest).1
      | succ i => exact ih hrest i (by simpa using hi)

/-- No element comes behind itself. -/
theorem Linked.next_ne_self (h : Linked s before l after) (hnodup : l.Nodup) (hafter : after ∉ l)
    (hx : x ∈ l) : s.next x ≠ x := by
  obtain ⟨i, hi, rfl⟩ := List.getElem_of_mem hx
  rw [h.next_getElem i hi]
  intro hself
  by_cases hnext : i + 1 < l.length
  · rw [List.getD_eq_getElem?_getD, List.getElem?_eq_getElem hnext, Option.getD_some] at hself
    exact absurd ((List.Nodup.getElem_inj_iff hnodup).1 hself) (Nat.succ_ne_self i)
  · rw [List.getD_eq_getElem?_getD, List.getElem?_eq_none (Nat.not_lt.1 hnext),
      Option.getD_none] at hself
    rw [hself] at hafter
    exact hafter (List.getElem_mem hi)

/-- Only the links of the elements count. -/
theorem Linked.congr (h : Linked s before l after) (hnext : ∀ y ∈ l, s'.next y = s.next y)
    (hprev : ∀ y ∈ l, s'.prev y = s.prev y) : Linked s' before l after := by
  induction l generalizing before with
  | nil => trivial
  | cons y l ih =>
      obtain ⟨hbefore, hafter, hrest⟩ := h
      have htail := ih hrest (fun z hz => hnext z (List.mem_cons_of_mem _ hz))
        fun z hz => hprev z (List.mem_cons_of_mem _ hz)
      exact ⟨(hprev y List.mem_cons_self).trans hbefore,
        (hnext y List.mem_cons_self).trans hafter, htail⟩

/-! ## Rewiring one link -/

section Rewiring

variable [DecidableEq ι]

def Links.setNext (s : Links ι) (x y : ι) : Links ι := { s with next := Function.update s.next x y }

def Links.setPrev (s : Links ι) (x y : ι) : Links ι := { s with prev := Function.update s.prev x y }

@[simp] theorem Links.next_setNext_self (s : Links ι) (x y : ι) : (s.setNext x y).next x = y :=
  Function.update_self ..

@[simp] theorem Links.prev_setPrev_self (s : Links ι) (x y : ι) : (s.setPrev x y).prev x = y :=
  Function.update_self ..

@[simp] theorem Links.prev_setNext (s : Links ι) (x y z : ι) :
    (s.setNext x y).prev z = s.prev z := rfl

@[simp] theorem Links.next_setPrev (s : Links ι) (x y z : ι) :
    (s.setPrev x y).next z = s.next z := rfl

theorem Links.next_setNext_of_ne {z : ι} (h : z ≠ x) : (s.setNext x y).next z = s.next z :=
  Function.update_of_ne h _ _

theorem Links.prev_setPrev_of_ne {z : ι} (h : z ≠ x) : (s.setPrev x y).prev z = s.prev z :=
  Function.update_of_ne h _ _

theorem Linked.setNext (h : Linked s before l after) (hx : x ∉ l) (y : ι) :
    Linked (s.setNext x y) before l after :=
  h.congr (fun _ hz => Links.next_setNext_of_ne (ne_of_mem_of_not_mem hz hx)) fun _ _ => rfl

theorem Linked.setPrev (h : Linked s before l after) (hx : x ∉ l) (y : ι) :
    Linked (s.setPrev x y) before l after :=
  h.congr (fun _ _ => rfl) fun _ hz => Links.prev_setPrev_of_ne (ne_of_mem_of_not_mem hz hx)

/-- Rewires the forward link of an element, unless it is the sentinel. -/
def Links.setNextUnless (s : Links ι) (e x y : ι) : Links ι :=
  if x ≠ e then s.setNext x y else s

def Links.setPrevUnless (s : Links ι) (e x y : ι) : Links ι :=
  if x ≠ e then s.setPrev x y else s

/-- The last element of a part is given another element to follow it. -/
theorem Linked.setNextUnless (h : Linked s e l after) (hnodup : l.Nodup) (he : e ∉ l) (y : ι) :
    Linked (s.setNextUnless e (l.getLastD e) y) e l y := by
  rcases List.eq_nil_or_concat l with rfl | ⟨front, last, rfl⟩
  · trivial
  · rw [List.concat_eq_append] at *
    have hne : last ≠ e := fun h => he (by simp [h])
    have hlast : last ∉ front := fun h => (List.nodup_append.mp hnodup).2.2 _ h _ (by simp) rfl
    rw [linked_snoc] at h
    rw [getLastD_append, List.getLastD_cons, List.getLastD_nil, Links.setNextUnless, if_pos hne,
      linked_snoc]
    exact ⟨h.1.setNext hlast y, h.2.1, s.next_setNext_self last y⟩

/-- The first element of a part is given another element to follow. -/
theorem Linked.setPrevUnless (h : Linked s before l e) (hnodup : l.Nodup) (he : e ∉ l) (y : ι) :
    Linked (s.setPrevUnless e (l.headD e) y) y l e := by
  cases l with
  | nil => trivial
  | cons first rest =>
      have hne : first ≠ e := fun h => he (by simp [h])
      rw [List.headD_cons, Links.setPrevUnless, if_pos hne, linked_cons]
      exact ⟨s.prev_setPrev_self first y, h.2.1, h.2.2.setPrev (List.nodup_cons.mp hnodup).1 y⟩

theorem Linked.setNextUnless_of_notMem (h : Linked s before l after) (hx : x ∉ l) (e y : ι) :
    Linked (s.setNextUnless e x y) before l after := by
  unfold Links.setNextUnless
  split
  · exact h.setNext hx y
  · exact h

theorem Linked.setPrevUnless_of_notMem (h : Linked s before l after) (hx : x ∉ l) (e y : ι) :
    Linked (s.setPrevUnless e x y) before l after := by
  unfold Links.setPrevUnless
  split
  · exact h.setPrev hx y
  · exact h

/-! ## Rewiring a list -/

omit [DecidableEq ι] in
theorem getLastD_notMem (hdisjoint : ∀ z ∈ l₁, z ∉ l₂) (he : e ∉ l₂) : l₁.getLastD e ∉ l₂ := by
  rcases List.eq_nil_or_concat l₁ with rfl | ⟨front, last, rfl⟩
  · exact he
  · rw [List.concat_eq_append] at *
    rw [getLastD_append]
    exact hdisjoint _ (by simp)

omit [DecidableEq ι] in
theorem headD_notMem (hdisjoint : ∀ z ∈ l₁, z ∉ l₂) (he : e ∉ l₂) : l₁.headD e ∉ l₂ := by
  cases l₁ with
  | nil => exact he
  | cons first rest => exact hdisjoint _ (by simp)

/-- Takes an element out of a list with the sentinel `e`. -/
def Links.unlink (s : Links ι) (e prev next : ι) : Links ι :=
  (s.setPrevUnless e next prev).setNextUnless e prev next

theorem Linked.unlink (h : Linked s e (l₁ ++ x :: l₂) e) (hnodup : (l₁ ++ x :: l₂).Nodup)
    (he : e ∉ l₁ ++ x :: l₂) :
    s.prev x = l₁.getLastD e ∧ s.next x = l₂.headD e ∧
      Linked (s.unlink e (s.prev x) (s.next x)) e (l₁ ++ l₂) e := by
  obtain ⟨hfront, hprev, hnext, hback⟩ := linked_append.mp h
  obtain ⟨hnodup₁, hnodup₂, hdisjoint⟩ := List.nodup_append.mp hnodup
  have hnodup₂ := (List.nodup_cons.mp hnodup₂).2
  have he₁ : e ∉ l₁ := fun h => he (by simp [h])
  have he₂ : e ∉ l₂ := fun h => he (by simp [h])
  have h₁₂ : ∀ z ∈ l₁, z ∉ l₂ := fun z hz hz' => hdisjoint z hz z (by simp [hz']) rfl
  have h₂₁ : ∀ z ∈ l₂, z ∉ l₁ := fun z hz hz' => h₁₂ z hz' hz
  refine ⟨hprev, hnext, ?_⟩
  rw [hprev, hnext, linked_append]
  constructor
  · exact ((hfront.setPrevUnless_of_notMem (headD_notMem h₂₁ he₁) e _).setNextUnless hnodup₁ he₁ _)
  · exact (hback.setPrevUnless hnodup₂ he₂ _).setNextUnless_of_notMem (getLastD_notMem h₁₂ he₂) e _

/-- Puts an element behind the last one. -/
def Links.append (s : Links ι) (e last x : ι) : Links ι :=
  ((s.setNextUnless e last x).setPrev x last).setNext x e

theorem Linked.append (h : Linked s e l e) (hnodup : l.Nodup) (he : e ∉ l) (hx : x ∉ l) :
    Linked (s.append e (l.getLastD e) x) e (l ++ [x]) e := by
  rw [linked_snoc]
  refine ⟨((h.setNextUnless hnodup he x).setPrev hx _).setNext hx e, ?_, ?_⟩
  · simp [Links.append]
  · simp [Links.append]

/-- Swaps an element with the one behind it. -/
def Links.swap (s : Links ι) (e lower upper : ι) : Links ι :=
  let prevLower := s.prev lower
  let nextUpper := s.next upper
  let moved := (((s.setPrev lower upper).setNext lower nextUpper).setPrev upper prevLower).setNext
    upper lower
  (moved.setNextUnless e prevLower upper).setPrevUnless e nextUpper lower

theorem Linked.swap (h : Linked s e (l₁ ++ x :: y :: l₂) e)
    (hnodup : (l₁ ++ x :: y :: l₂).Nodup) (he : e ∉ l₁ ++ x :: y :: l₂) :
    Linked (s.swap e x y) e (l₁ ++ y :: x :: l₂) e := by
  obtain ⟨hfront, hprev, -, -, hnext, hback⟩ := linked_append.mp h
  obtain ⟨hnodup₁, hnodup₂, hdisjoint⟩ := List.nodup_append.mp hnodup
  obtain ⟨⟨hxy, hx₂⟩, hy₂, hnodup₂⟩ : (x ≠ y ∧ x ∉ l₂) ∧ y ∉ l₂ ∧ l₂.Nodup := by
    simpa [List.nodup_cons] using hnodup₂
  have he₁ : e ∉ l₁ := fun h => he (by simp [h])
  have he₂ : e ∉ l₂ := fun h => he (by simp [h])
  have hx₁ : x ∉ l₁ := fun h => hdisjoint x h x (by simp) rfl
  have hy₁ : y ∉ l₁ := fun h => hdisjoint y h y (by simp) rfl
  have h₁₂ : ∀ z ∈ l₁, z ∉ l₂ := fun z hz hz' => hdisjoint z hz z (by simp [hz']) rfl
  have h₂₁ : ∀ z ∈ l₂, z ∉ l₁ := fun z hz hz' => h₁₂ z hz' hz
  -- the two elements themselves are rewired by the first four writes only
  have hmiddle : ∀ z ∈ [y, x], z ∉ l₁ ∧ z ∉ l₂ ∧ z ≠ e := by
    simp only [List.mem_cons, List.not_mem_nil, or_false, forall_eq_or_imp, forall_eq]
    exact ⟨⟨hy₁, hy₂, fun h => he (by simp [h])⟩, hx₁, hx₂, fun h => he (by simp [h])⟩
  let moved := (((s.setPrev x y).setNext x (l₂.headD e)).setPrev y (l₁.getLastD e)).setNext y x
  have hswap : s.swap e x y =
      (moved.setNextUnless e (l₁.getLastD e) y).setPrevUnless e (l₂.headD e) x := by
    rw [Links.swap, hprev, hnext]
  have hpair : Linked moved (l₁.getLastD e) [y, x] (l₂.headD e) := by
    simp [moved, Links.setNext, Links.setPrev, hxy]
  rw [hswap, show l₁ ++ y :: x :: l₂ = l₁ ++ ([y, x] ++ l₂) from rfl, linked_append,
    linked_append, headD_append]
  refine ⟨?_, ?_, ?_⟩
  · have hfront : Linked moved e l₁ x :=
      (((hfront.setPrev hx₁ _).setNext hx₁ _).setPrev hy₁ _).setNext hy₁ _
    exact (hfront.setNextUnless hnodup₁ he₁ y).setPrevUnless_of_notMem (headD_notMem h₂₁ he₁) e x
  · have hlast : l₁.getLastD e ∉ [y, x] :=
      getLastD_notMem (fun z hz hz' => (hmiddle z hz').1 hz) fun h => (hmiddle e h).2.2 rfl
    have hfirst : l₂.headD e ∉ [y, x] :=
      headD_notMem (fun z hz hz' => (hmiddle z hz').2.1 hz) fun h => (hmiddle e h).2.2 rfl
    exact (hpair.setNextUnless_of_notMem hlast e y).setPrevUnless_of_notMem hfirst e x
  · have hback : Linked moved y l₂ e :=
      (((hback.setPrev hx₂ _).setNext hx₂ _).setPrev hy₂ _).setNext hy₂ _
    exact (hback.setNextUnless_of_notMem (getLastD_notMem h₁₂ he₂) e y).setPrevUnless hnodup₂ he₂ x

end Rewiring

end LinkedList
