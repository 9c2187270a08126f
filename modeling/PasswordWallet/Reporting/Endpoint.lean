import Mathlib.Data.List.Chain
import Mathlib.Tactic.SplitIfs
import Mathlib.Tactic.Push

/-!
# Reports of what is held down

Again and again a device makes a report, and gives it to an endpoint if the
endpoint takes one and if the report is not the one it took last, or is due anyway.
One report says that the device is at rest; the others say that something is held
down.

`Faithful` says that nothing is lost on the way: all that is held down in turn is
written, in order, and let go of before the next.  `Delivered` says when this is so,
by the turns alone.
-/

namespace Reporting

variable {α : Type} [DecidableEq α]

/-- A report that is made, whether the endpoint takes one, and whether one is due. -/
structure Turn (α : Type) where
  report : α
  ready : Bool
  due : Bool

/-- The report is written, after `prev` was. -/
def Turn.writes (prev : α) (turn : Turn α) : Bool :=
  turn.ready && (turn.due || prev ≠ turn.report)

/-- What the endpoint takes in these turns, after `prev`. -/
def written : α → List (Turn α) → List α
  | _, [] => []
  | prev, turn :: turns =>
      if turn.writes prev then turn.report :: written turn.report turns else written prev turns

/-- What the endpoint took last, after these turns. -/
def last : α → List (Turn α) → α
  | prev, [] => prev
  | prev, turn :: turns => last (if turn.writes prev then turn.report else prev) turns

theorem written_append (prev : α) (first second : List (Turn α)) :
    written prev (first ++ second) = written prev first ++ written (last prev first) second := by
  induction first generalizing prev with
  | nil => rfl
  | cons turn first ih =>
      rw [List.cons_append, written, written, last]
      split_ifs
      · rw [ih, List.cons_append]
      · exact ih prev

theorem last_append (prev : α) (first second : List (Turn α)) :
    last prev (first ++ second) = last (last prev first) second := by
  induction first generalizing prev with
  | nil => rfl
  | cons turn first ih => exact ih _

/-- No report is made up. -/
theorem written_sublist (prev : α) (turns : List (Turn α)) :
    (written prev turns).Sublist (turns.map Turn.report) := by
  induction turns generalizing prev with
  | nil => exact .slnil
  | cons turn turns ih =>
      rw [written, List.map_cons]
      split_ifs
      · exact (ih _).cons_cons _
      · exact (ih _).cons _

section Rest

variable (rest : α)

/-- What the reports hold down, in turn. -/
def downs (reports : List α) : List α := reports.filter (· ≠ rest)

/-- Between two reports that hold something down there is one at rest. -/
def LetGo (reports : List α) : Prop := reports.IsChain fun a b => a = rest ∨ b = rest

/-- All that is held down is written, in order, and let go of before the next.  If
something is `held` then `prev` is, and was written. -/
structure Faithful (held : Bool) (prev : α) (turns : List (Turn α)) : Prop where
  downs : downs rest (written prev turns) = downs rest (turns.map Turn.report)
  letGo : LetGo rest ((if held then [prev] else []) ++ written prev turns)

/-- The endpoint takes each report that holds something down; it takes one between
it and the next; and the first one of all differs from what was written before, or
is due. -/
structure Delivered (held : Bool) (prev : α) (turns : List (Turn α)) : Prop where
  ready : ∀ turn ∈ turns, turn.report ≠ rest → turn.ready = true
  between : ∀ before a mid b after, turns = before ++ a :: (mid ++ b :: after) →
    a.report ≠ rest → b.report ≠ rest → (∀ turn ∈ mid, turn.report = rest) →
      ∃ turn ∈ mid, turn.ready = true
  first : ∀ before b after, turns = before ++ b :: after → b.report ≠ rest →
    (∀ turn ∈ before, turn.report = rest) →
      (∃ turn ∈ before, turn.ready = true) ∨
        held = false ∧ (b.due = true ∨ prev ≠ b.report)

variable {rest} {held : Bool} {prev : α} {turn : Turn α} {turns : List (Turn α)}

/-! ## A turn at rest -/

omit [DecidableEq α] in
theorem letGo_rest_cons {before reports : List α} (hbefore : before.length ≤ 1) :
    LetGo rest (before ++ rest :: reports) ↔ LetGo rest reports := by
  have hcons : LetGo rest (rest :: reports) ↔ LetGo rest reports := by
    rw [LetGo, List.isChain_cons]
    exact and_iff_right fun _ _ => .inl rfl
  match before, hbefore with
  | [], _ => exact hcons
  | [report], _ =>
      rw [← hcons, LetGo, List.singleton_append, List.isChain_cons_cons]
      exact and_iff_right (.inr rfl)

theorem faithful_cons_rest (hrest : turn.report = rest) (hheld : held = true → prev ≠ rest) :
    Faithful rest held prev (turn :: turns) ↔
      if turn.ready then Faithful rest false rest turns else Faithful rest held prev turns := by
  have hdowns : downs rest ((turn :: turns).map Turn.report) =
      downs rest (turns.map Turn.report) := by
    rw [List.map_cons, hrest, downs, List.filter_cons_of_neg (by simp)]
    rfl
  have hwritten : downs rest (rest :: written rest turns) = downs rest (written rest turns) := by
    rw [downs, List.filter_cons_of_neg (by simp)]
    rfl
  by_cases hwrites : turn.writes prev = true
  · -- the report at rest is written: nothing is held any more
    have hready : turn.ready = true := (Bool.and_eq_true_iff.mp hwrites).1
    have hrun : written prev (turn :: turns) = rest :: written rest turns := by
      rw [written, if_pos hwrites, hrest]
    rw [if_pos hready]
    constructor
    · rintro ⟨hequal, hletGo⟩
      rw [hrun, hdowns, hwritten] at hequal
      rw [hrun, letGo_rest_cons (by split_ifs <;> simp)] at hletGo
      exact ⟨hequal, hletGo⟩
    · rintro ⟨hequal, hletGo⟩
      refine ⟨by rw [hrun, hdowns, hwritten, hequal], ?_⟩
      rw [hrun, letGo_rest_cons (by split_ifs <;> simp)]
      exact hletGo
  · have hrun : written prev (turn :: turns) = written prev turns := by
      rw [written, if_neg hwrites]
    have hsame : Faithful rest held prev (turn :: turns) ↔ Faithful rest held prev turns := by
      constructor
      · rintro ⟨hequal, hletGo⟩
        rw [hrun, hdowns] at hequal
        rw [hrun] at hletGo
        exact ⟨hequal, hletGo⟩
      · rintro ⟨hequal, hletGo⟩
        exact ⟨by rw [hrun, hdowns, hequal], by rw [hrun]; exact hletGo⟩
    rw [hsame]
    split_ifs with hready
    · -- the endpoint is at rest already
      have hprev : prev = rest := by
        rw [Turn.writes, hready, Bool.true_and, Bool.or_eq_true, decide_eq_true_eq, hrest,
          not_or, not_not] at hwrites
        exact hwrites.2
      obtain rfl : held = false := by
        rw [Bool.eq_false_iff]
        exact fun h => hheld h hprev
      rw [hprev]
    · rfl

omit [DecidableEq α] in
theorem delivered_cons_rest (hrest : turn.report = rest) :
    Delivered rest held prev (turn :: turns) ↔
      if turn.ready then Delivered rest false rest turns else Delivered rest held prev turns := by
  constructor
  · intro h
    have hbetween : ∀ before a mid b after, turns = before ++ a :: (mid ++ b :: after) →
        a.report ≠ rest → b.report ≠ rest → (∀ turn ∈ mid, turn.report = rest) →
          ∃ turn ∈ mid, turn.ready = true := fun before a mid b after hturns =>
      h.between (turn :: before) a mid b after (by rw [hturns, List.cons_append])
    have hready : ∀ t ∈ turns, t.report ≠ rest → t.ready = true := fun t hmem =>
      h.ready t (List.mem_cons_of_mem _ hmem)
    split_ifs with htaken
    · exact ⟨hready, hbetween, fun _ b _ _ hb _ => .inr ⟨rfl, .inr (Ne.symm hb)⟩⟩
    · refine ⟨hready, hbetween, fun before b after hturns hb hbefore => ?_⟩
      rcases h.first (turn :: before) b after (by rw [hturns, List.cons_append]) hb
        (List.forall_mem_cons.mpr ⟨hrest, hbefore⟩) with ⟨t, hmem, ht⟩ | hprev
      · rcases List.mem_cons.mp hmem with rfl | hmem
        · exact absurd ht htaken
        · exact .inl ⟨t, hmem, ht⟩
      · exact .inr hprev
  · intro h
    have hrests : (∀ t ∈ turns, t.report ≠ rest → t.ready = true) ∧
        ∀ before a mid b after, turns = before ++ a :: (mid ++ b :: after) →
          a.report ≠ rest → b.report ≠ rest → (∀ turn ∈ mid, turn.report = rest) →
            ∃ turn ∈ mid, turn.ready = true := by
      split_ifs at h
      · exact ⟨h.ready, h.between⟩
      · exact ⟨h.ready, h.between⟩
    refine ⟨?_, fun before a mid b after hturns ha => ?_,
      fun before b after hturns hb hbefore => ?_⟩
    · exact List.forall_mem_cons.mpr ⟨fun hdown => absurd hrest hdown, hrests.1⟩
    · cases before with
      | nil =>
          obtain ⟨rfl, -⟩ := List.cons.inj hturns
          exact absurd hrest ha
      | cons t before => exact hrests.2 before a mid b after (List.cons.inj hturns).2 ha
    · cases before with
      | nil =>
          obtain ⟨rfl, -⟩ := List.cons.inj hturns
          exact absurd hrest hb
      | cons t before =>
          obtain ⟨rfl, htail⟩ := List.cons.inj hturns
          split_ifs at h with htaken
          · exact .inl ⟨turn, List.mem_cons_self .., htaken⟩
          · rcases h.first before b after htail hb
              (fun t hmem => hbefore t (List.mem_cons_of_mem _ hmem)) with ⟨t, hmem, ht⟩ | hprev
            · exact .inl ⟨t, List.mem_cons_of_mem _ hmem, ht⟩
            · exact .inr hprev

/-! ## A turn that holds something down -/

theorem faithful_cons_down (hdown : turn.report ≠ rest) (hheld : held = true → prev ≠ rest) :
    Faithful rest held prev (turn :: turns) ↔
      turn.ready = true ∧ held = false ∧ (turn.due = true ∨ prev ≠ turn.report) ∧
        Faithful rest true turn.report turns := by
  have hdowns : downs rest ((turn :: turns).map Turn.report) =
      turn.report :: downs rest (turns.map Turn.report) := by
    rw [List.map_cons, downs, List.filter_cons_of_pos (by simpa using hdown)]
    rfl
  have hwrites : turn.writes prev = true ↔
      turn.ready = true ∧ (turn.due = true ∨ prev ≠ turn.report) := by
    rw [Turn.writes, Bool.and_eq_true, Bool.or_eq_true, decide_eq_true_eq]
  by_cases hwrite : turn.writes prev = true
  · have hrun : written prev (turn :: turns) = turn.report :: written turn.report turns := by
      rw [written, if_pos hwrite]
    have hcons : downs rest (turn.report :: written turn.report turns) =
        turn.report :: downs rest (written turn.report turns) := by
      rw [downs, List.filter_cons_of_pos (by simpa using hdown)]
      rfl
    obtain ⟨hready, hdue⟩ := hwrites.mp hwrite
    constructor
    · rintro ⟨hequal, hletGo⟩
      rw [hrun, hdowns, hcons] at hequal
      rw [hrun] at hletGo
      have hheld' : held = false := by
        rw [Bool.eq_false_iff]
        rintro rfl
        have hpair := (List.isChain_cons_cons.mp hletGo).1
        exact hpair.elim (hheld rfl) hdown
      subst hheld'
      exact ⟨hready, rfl, hdue, List.tail_eq_of_cons_eq hequal, hletGo⟩
    · rintro ⟨-, rfl, -, hequal, hletGo⟩
      refine ⟨?_, ?_⟩
      · rw [hrun, hdowns, hcons, hequal]
      · rw [hrun]
        exact hletGo
  · -- the report is lost, and cannot be made up for
    have hrun : written prev (turn :: turns) = written prev turns := by
      rw [written, if_neg hwrite]
    constructor
    · rintro ⟨hequal, -⟩
      have hle := ((written_sublist prev turns).filter (· ≠ rest)).length_le
      have hlength := congrArg List.length hequal
      rw [hrun, hdowns, List.length_cons] at hlength
      unfold downs at hlength
      omega
    · rintro ⟨hready, -, hdue, -⟩
      exact absurd (hwrites.mpr ⟨hready, hdue⟩) hwrite

omit [DecidableEq α] in
theorem delivered_cons_down (hdown : turn.report ≠ rest) :
    Delivered rest held prev (turn :: turns) ↔
      turn.ready = true ∧ held = false ∧ (turn.due = true ∨ prev ≠ turn.report) ∧
        Delivered rest true turn.report turns := by
  constructor
  · intro h
    obtain ⟨t, hmem, -⟩ | ⟨hheld, hdue⟩ := h.first [] turn turns rfl hdown fun _ hmem =>
      (List.not_mem_nil hmem).elim
    · exact (List.not_mem_nil hmem).elim
    refine ⟨h.ready turn (List.mem_cons_self ..) hdown, hheld, hdue, ?_, ?_, ?_⟩
    · exact fun t hmem => h.ready t (List.mem_cons_of_mem _ hmem)
    · exact fun before a mid b after hturns =>
        h.between (turn :: before) a mid b after (by rw [hturns, List.cons_append])
    · exact fun before b after hturns hb hbefore =>
        .inl (h.between [] turn before b after (by rw [hturns, List.nil_append]) hdown hb hbefore)
  · rintro ⟨hready, hheld, hdue, h⟩
    refine ⟨?_, fun before a mid b after hturns ha hb hmid => ?_,
      fun before b after hturns hb hbefore => ?_⟩
    · exact List.forall_mem_cons.mpr ⟨fun _ => hready, h.ready⟩
    · cases before with
      | nil =>
          obtain ⟨rfl, htail⟩ := List.cons.inj hturns
          exact (h.first mid b after htail hb hmid).resolve_right fun hprev =>
            Bool.noConfusion hprev.1
      | cons t before =>
          exact h.between before a mid b after (List.cons.inj hturns).2 ha hb hmid
    · cases before with
      | nil =>
          obtain ⟨rfl, -⟩ := List.cons.inj hturns
          exact .inr ⟨hheld, hdue⟩
      | cons t before =>
          obtain ⟨rfl, -⟩ := List.cons.inj hturns
          exact absurd (hbefore turn (List.mem_cons_self ..)) hdown

/-- Nothing is lost if and only if everything is delivered. -/
theorem faithful_iff (hheld : held = true → prev ≠ rest) :
    Faithful rest held prev turns ↔ Delivered rest held prev turns := by
  induction turns generalizing held prev with
  | nil =>
      refine ⟨fun _ => ⟨fun _ hmem => (List.not_mem_nil hmem).elim, fun before _ _ _ _ h => ?_,
        fun before _ _ h => ?_⟩, fun _ => ⟨rfl, ?_⟩⟩
      · cases before <;> cases h
      · cases before <;> cases h
      · cases held
        · exact .nil
        · exact .singleton _
  | cons turn turns ih =>
      by_cases hrest : turn.report = rest
      · rw [faithful_cons_rest hrest hheld, delivered_cons_rest hrest, @ih false rest nofun,
          ih hheld]
      · rw [faithful_cons_down hrest hheld, delivered_cons_down hrest, ih fun _ => hrest]

end Rest

end Reporting
