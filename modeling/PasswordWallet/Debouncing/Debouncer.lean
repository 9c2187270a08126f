import Mathlib.Data.List.Induction
import Mathlib.Algebra.Order.Ring.Nat

/-!
# Debouncing a contact

A contact is read now and then, with the time of a clock of `w` bits.  A `Debouncer`
keeps the last reading, when it changed, and whether a press has been signalled.  The
press is raised once the contact has been read pressed for `press`, again and again once
for `long`, and anew after it has been read released for `release`.

The clock may go round between two readings, so the difference to the last change is at
most the time that has gone by; `Tracks` relates it to the samples there have been.
-/

namespace Debouncing

structure Thresholds where
  press : ℕ
  release : ℕ
  long : ℕ

structure Sample where
  reading : Bool
  time : ℕ

structure Debouncer (w : ℕ) where
  lastChange : BitVec w
  level : Bool
  signalled : Bool

variable {w : ℕ} {τ : Thresholds} {d : Debouncer w} {samples samples' : List Sample}
  {s s' : Sample} {reading : Bool} {i j k span : ℕ}

/-! ## The machine -/

namespace Debouncer

def init : Debouncer w := ⟨0, false, false⟩

/-- What the clock says has gone by since the last change. -/
def elapsed (d : Debouncer w) (time : ℕ) : ℕ := (BitVec.ofNat w time - d.lastChange).toNat

def observe (d : Debouncer w) (s : Sample) : Debouncer w :=
  if s.reading = d.level then d
  else { d with lastChange := BitVec.ofNat w s.time, level := s.reading }

/-- How often the press is raised. -/
def raises (τ : Thresholds) (d : Debouncer w) (s : Sample) : ℕ :=
  if s.reading = true ∧ τ.press ≤ d.elapsed s.time then
    (if d.signalled then 0 else 1) + (if τ.long ≤ d.elapsed s.time then 1 else 0)
  else 0

def settle (τ : Thresholds) (d : Debouncer w) (s : Sample) : Debouncer w :=
  if (if s.reading then τ.press else τ.release) ≤ d.elapsed s.time then
    { d with signalled := s.reading }
  else d

def step (τ : Thresholds) (d : Debouncer w) (s : Sample) : Debouncer w × ℕ :=
  ((d.observe s).settle τ s, (d.observe s).raises τ s)

def run (τ : Thresholds) (samples : List Sample) : Debouncer w :=
  samples.foldl (fun d s => (step τ d s).1) init

theorem run_append (samples : List Sample) (s : Sample) :
    (run τ (samples ++ [s]) : Debouncer w) = (step τ (run τ samples) s).1 := by
  rw [run, List.foldl_append]
  rfl

@[simp] theorem level_observe : (d.observe s).level = s.reading := by
  rw [observe]
  split_ifs with hlevel
  · exact hlevel.symm
  · rfl

@[simp] theorem lastChange_settle : (d.settle τ s).lastChange = d.lastChange := by
  rw [settle]
  split_ifs <;> rfl

@[simp] theorem level_settle : (d.settle τ s).level = d.level := by
  rw [settle]
  split_ifs <;> rfl

theorem signalled_settle : (d.settle τ s).signalled =
    if (if s.reading then τ.press else τ.release) ≤ d.elapsed s.time then s.reading
    else d.signalled := by
  rw [settle]
  split_ifs <;> rfl

@[simp] theorem signalled_observe : (d.observe s).signalled = d.signalled := by
  rw [observe]
  split_ifs <;> rfl

end Debouncer

open Debouncer

/-- How often the press is raised at a sample. -/
def raisesAt (w : ℕ) (τ : Thresholds) (samples : List Sample) (k : ℕ) : ℕ :=
  match samples[k]? with
  | none => 0
  | some s => ((run τ (samples.take k) : Debouncer w).step τ s).2

/-- From sample `i` to sample `k`, over a time of `span`, nothing else has been read. -/
structure Held (samples : List Sample) (reading : Bool) (i k span : ℕ) : Prop where
  le : i ≤ k
  apart : ∃ first last : Sample, samples[i]? = some first ∧ samples[k]? = some last ∧
    first.time + span ≤ last.time
  same : ∀ (m : ℕ) (s : Sample), i ≤ m → m ≤ k → samples[m]? = some s → s.reading = reading

theorem Held.lt_length (h : Held samples reading i k span) : k < samples.length := by
  obtain ⟨_, last, -, hlast, -⟩ := h.apart
  exact (List.getElem?_eq_some_iff.mp hlast).1

theorem Held.mono (h : Held samples reading i k span) (hextends : samples <+: samples') :
    Held samples' reading i k span := by
  obtain ⟨rest, rfl⟩ := hextends
  have hlt := h.lt_length
  have hsame : ∀ m, m ≤ k → (samples ++ rest)[m]? = samples[m]? := fun m hm =>
    List.getElem?_append_left (Nat.lt_of_le_of_lt hm hlt)
  obtain ⟨first, last, hfirst, hlast, hspan⟩ := h.apart
  refine ⟨h.le, ⟨first, last, (hsame i h.le).trans hfirst, (hsame k le_rfl).trans hlast, hspan⟩, ?_⟩
  intro m s hm hmk hs
  exact h.same m s hm hmk ((hsame m hmk).symm.trans hs)

theorem raisesAt_append_of_lt (hk : k < samples.length) :
    raisesAt w τ (samples ++ samples') k = raisesAt w τ samples k := by
  rw [raisesAt, raisesAt, List.getElem?_append_left hk, List.take_append_of_le_length hk.le]

theorem raisesAt_append_self :
    raisesAt w τ (samples ++ [s]) samples.length = ((run τ samples : Debouncer w).step τ s).2 := by
  rw [raisesAt, List.getElem?_concat_length, List.take_left]

/-! ## The samples so far -/

/-- Since when the last reading has been the same: since a sample, whose time has been
kept, or ever since there was none. -/
def Since (samples : List Sample) (d : Debouncer w) : Prop :=
  (d.level = false ∧ ∀ s ∈ samples, s.reading = false) ∨
    ∃ (i : ℕ) (first : Sample), samples[i]? = some first ∧
      d.lastChange = BitVec.ofNat w first.time ∧
        ∀ (m : ℕ) (s : Sample), i ≤ m → samples[m]? = some s → s.reading = d.level

/-- What has been raised is signalled, or has been released since. -/
structure Tracks (τ : Thresholds) (samples : List Sample) (d : Debouncer w) : Prop where
  since : Since samples d
  raised : ∀ j, 0 < raisesAt w τ samples j →
    d.signalled = true ∨ ∃ i k, j < i ∧ Held samples false i k τ.release

theorem since_observe (h : Since samples d) (s : Sample) :
    Since (samples ++ [s]) (d.observe s) := by
  rw [observe]
  split_ifs with hsame
  · rcases h with ⟨hlevel, hreleased⟩ | ⟨i, first, hfirst, htime, hheld⟩
    · refine Or.inl ⟨hlevel, fun s' hs' => ?_⟩
      rcases List.mem_append.mp hs' with hs' | hs'
      · exact hreleased s' hs'
      · rw [List.mem_singleton.mp hs', hsame, hlevel]
    · have hlt := (List.getElem?_eq_some_iff.mp hfirst).1
      refine Or.inr ⟨i, first, (List.getElem?_append_left hlt).trans hfirst, htime, ?_⟩
      intro m s' hm hs'
      rcases Nat.lt_or_ge m samples.length with hlt' | hge
      · exact hheld m s' hm ((List.getElem?_append_left hlt').symm.trans hs')
      · rw [List.getElem?_append_right hge] at hs'
        rw [List.mem_singleton.mp (List.mem_of_getElem? hs'), hsame]
  · refine Or.inr ⟨samples.length, s, List.getElem?_concat_length .., rfl, ?_⟩
    intro m s' hm hs'
    rw [List.getElem?_append_right hm] at hs'
    rw [List.mem_singleton.mp (List.mem_of_getElem? hs')]

/-- The clock does not say more than has gone by. -/
theorem elapsed_le {first time : ℕ} (htime : d.lastChange = BitVec.ofNat w first)
    (hle : first ≤ time) : first + d.elapsed time ≤ time := by
  obtain ⟨gone, rfl⟩ := Nat.exists_eq_add_of_le hle
  have hclock : BitVec.ofNat w (first + gone) - d.lastChange = BitVec.ofNat w gone := by
    rw [htime, BitVec.ofNat_add, BitVec.add_comm, BitVec.add_sub_cancel]
  rw [elapsed, hclock, BitVec.toNat_ofNat]
  exact Nat.add_le_add_left (Nat.mod_le _ _) first

/-- A contact that has been read the same for long enough by the clock has been so. -/
theorem held_of_elapsed (h : Since (samples ++ [s]) d) (hlevel : d.level = s.reading)
    (hsorted : ((samples ++ [s]).map Sample.time).Pairwise (· ≤ ·))
    (hchanged : ∃ s' ∈ samples ++ [s], s'.reading = true) (hspan : span ≤ d.elapsed s.time) :
    ∃ i, Held (samples ++ [s]) s.reading i samples.length span ∧
      ∀ j s', (samples ++ [s])[j]? = some s' → s'.reading ≠ s.reading → j < i := by
  rcases h with ⟨-, hreleased⟩ | ⟨i, first, hfirst, htime, hheld⟩
  · obtain ⟨s', hs', hpressed⟩ := hchanged
    exact absurd (hreleased s' hs') (by rw [hpressed]; decide)
  have hi : i ≤ samples.length := by
    have hlt := (List.getElem?_eq_some_iff.mp hfirst).1
    rw [List.length_append, List.length_singleton] at hlt
    exact Nat.le_of_lt_succ hlt
  have hlast : (samples ++ [s])[samples.length]? = some s := List.getElem?_concat_length ..
  have hle : first.time ≤ s.time := by
    rcases hi.eq_or_lt with rfl | hlt
    · rw [hfirst, Option.some.injEq] at hlast
      rw [hlast]
    · rw [List.getElem?_append_left hlt] at hfirst
      rw [List.map_append, List.pairwise_append] at hsorted
      exact hsorted.2.2 _ (List.mem_map_of_mem (List.mem_of_getElem? hfirst)) _
        (List.mem_singleton_self _)
  refine ⟨i, ⟨hi, ⟨first, s, hfirst, hlast, ?_⟩, fun m s' hm _ hs' => ?_⟩, fun j s' hs' hne => ?_⟩
  · have hclock := elapsed_le htime hle
    omega
  · rw [hheld m s' hm hs', hlevel]
  · by_contra hge
    exact hne ((hheld j s' (not_lt.mp hge) hs').trans hlevel)

/-! ## What a step does -/

theorem raises_pos (h : 0 < d.raises τ s) : s.reading = true ∧ τ.press ≤ d.elapsed s.time := by
  by_contra hpress
  rw [raises, if_neg hpress] at h
  exact Nat.lt_irrefl 0 h

theorem long_of_raises (h : 0 < d.raises τ s) (hsignalled : d.signalled = true) :
    τ.long ≤ d.elapsed s.time := by
  by_contra hlong
  rw [raises, if_pos hsignalled, if_neg hlong, ite_self] at h
  exact Nat.lt_irrefl 0 h

theorem long_of_two_raises (h : 2 ≤ d.raises τ s) : τ.long ≤ d.elapsed s.time := by
  by_contra hlong
  rw [raises, if_neg hlong] at h
  split_ifs at h <;> omega

theorem exists_of_raisesAt (h : 0 < raisesAt w τ samples k) :
    ∃ s, samples[k]? = some s ∧
      0 < ((run τ (samples.take k) : Debouncer w).observe s).raises τ s := by
  rw [raisesAt] at h
  cases hs : samples[k]? with
  | none => rw [hs] at h; exact absurd h (Nat.lt_irrefl 0)
  | some s => rw [hs] at h; exact ⟨s, rfl, h⟩

/-- A step keeps what is known. -/
theorem Tracks.step (h : Tracks τ samples (run τ samples : Debouncer w))
    (hsorted : ((samples ++ [s]).map Sample.time).Pairwise (· ≤ ·)) :
    Tracks τ (samples ++ [s]) (run τ (samples ++ [s]) : Debouncer w) := by
  have hsince := since_observe h.since s
  rw [run_append, Debouncer.step]
  refine ⟨?_, fun j hj => ?_⟩
  · rw [Since, level_settle, lastChange_settle]
    exact hsince
  have hpressed : ∃ s', (samples ++ [s])[j]? = some s' ∧ s'.reading = true := by
    obtain ⟨s', hs', hraises⟩ := exists_of_raisesAt hj
    exact ⟨s', hs', (raises_pos hraises).1⟩
  obtain ⟨s', hs', hreading'⟩ := hpressed
  have hlt := (List.getElem?_eq_some_iff.mp hs').1
  rw [List.length_append, List.length_singleton] at hlt
  rw [signalled_settle, signalled_observe]
  rcases (Nat.le_of_lt_succ hlt).eq_or_lt with rfl | hlt
  · rw [raisesAt_append_self] at hj
    have hpress := raises_pos hj
    rw [hpress.1, if_pos rfl, if_pos hpress.2]
    exact Or.inl rfl
  · rw [raisesAt_append_of_lt hlt] at hj
    rcases h.raised j hj with hsignalled | ⟨i, k, hji, hheld⟩
    · cases hreading : s.reading with
      | true => exact Or.inl (by rw [hsignalled, ite_self])
      | false =>
          by_cases helapsed : τ.release ≤ ((run τ samples : Debouncer w).observe s).elapsed s.time
          · -- the release that clears the flag begins behind the sample `j`
            obtain ⟨i, hheld, hbehind⟩ := held_of_elapsed hsince level_observe hsorted
              ⟨s', List.mem_of_getElem? hs', hreading'⟩ helapsed
            rw [hreading] at hheld hbehind
            exact Or.inr ⟨i, _, hbehind j s' hs' (by rw [hreading']; decide), hheld⟩
          · exact Or.inl (by rw [if_neg (by simpa using helapsed), hsignalled])
    · exact Or.inr ⟨i, k, hji, hheld.mono (List.prefix_append _ _)⟩

theorem tracks_run (hsorted : (samples.map Sample.time).Pairwise (· ≤ ·)) :
    Tracks τ samples (run τ samples : Debouncer w) := by
  induction samples using List.reverseRecOn with
  | nil =>
      refine ⟨Or.inl ⟨rfl, fun _ hs => absurd hs List.not_mem_nil⟩, fun j hj => ?_⟩
      exact absurd hj (Nat.lt_irrefl 0)
  | append_singleton samples s ih =>
      have hbefore := hsorted
      rw [List.map_append, List.pairwise_append] at hbefore
      exact (ih hbefore.1).step hsorted

/-! ## The raises -/

variable (hsorted : (samples.map Sample.time).Pairwise (· ≤ ·))

include hsorted

/-- The samples up to one at which the press is raised. -/
theorem held_of_raises (h : 0 < raisesAt w τ samples k) :
    ∃ s, samples[k]? = some s ∧ ∀ span,
      span ≤ ((run τ (samples.take k) : Debouncer w).observe s).elapsed s.time →
        ∃ i, Held samples true i k span := by
  obtain ⟨s, hs, hraises⟩ := exists_of_raisesAt h
  obtain ⟨hlt, hget⟩ := List.getElem?_eq_some_iff.mp hs
  have hreading := (raises_pos hraises).1
  have htake : samples.take (k + 1) = samples.take k ++ [s] := by
    rw [List.take_succ_eq_append_getElem hlt, hget]
  have hsorted' : ((samples.take k ++ [s]).map Sample.time).Pairwise (· ≤ ·) := by
    rw [← htake, List.map_take]
    exact hsorted.sublist (List.take_sublist _ _)
  have hbefore : ((samples.take k).map Sample.time).Pairwise (· ≤ ·) := by
    rw [List.map_take]
    exact hsorted.sublist (List.take_sublist _ _)
  refine ⟨s, hs, fun span hspan => ?_⟩
  have hsince := since_observe (tracks_run (w := w) (τ := τ) hbefore).since s
  obtain ⟨i, hheld, -⟩ := held_of_elapsed hsince level_observe hsorted'
    ⟨s, List.mem_append_right _ (List.mem_singleton_self s), hreading⟩ hspan
  rw [hreading, List.length_take_of_le hlt.le] at hheld
  exact ⟨i, hheld.mono (htake ▸ List.take_prefix _ _)⟩

/-- A press is raised only after it has been read for `press`. -/
theorem raised_held (h : 0 < raisesAt w τ samples k) : ∃ i, Held samples true i k τ.press := by
  obtain ⟨s, hs, hraises⟩ := exists_of_raisesAt h
  obtain ⟨s', hs', hheld⟩ := held_of_raises hsorted h
  obtain rfl := Option.some.inj (hs.symm.trans hs')
  exact hheld _ (raises_pos hraises).2

/-- It is raised twice at one sample only after it has been read for `long`. -/
theorem raised_two_held (h : 2 ≤ raisesAt w τ samples k) : ∃ i, Held samples true i k τ.long := by
  obtain ⟨s, hs, hheld⟩ := held_of_raises hsorted (Nat.zero_lt_of_lt h)
  have htwo : 2 ≤ ((run τ (samples.take k) : Debouncer w).observe s).raises τ s := by
    rw [raisesAt, hs] at h
    exact h
  exact hheld _ (long_of_two_raises htwo)

/-- It is raised at two samples only with a release in between, or after it has been read
for `long`. -/
theorem raised_again (hj : 0 < raisesAt w τ samples j) (hk : 0 < raisesAt w τ samples k)
    (hjk : j < k) :
    (∃ i i', j < i ∧ i' < k ∧ Held samples false i i' τ.release) ∨
      ∃ i, Held samples true i k τ.long := by
  obtain ⟨s, hs, hheld⟩ := held_of_raises hsorted hk
  have hraises : 0 < ((run τ (samples.take k) : Debouncer w).observe s).raises τ s := by
    rw [raisesAt, hs] at hk
    exact hk
  have hlt := (List.getElem?_eq_some_iff.mp hs).1
  have hbefore : ((samples.take k).map Sample.time).Pairwise (· ≤ ·) := by
    rw [List.map_take]
    exact hsorted.sublist (List.take_sublist _ _)
  have hlength : (samples.take k).length = k := List.length_take_of_le hlt.le
  have hj' : 0 < raisesAt w τ (samples.take k) j := by
    have happend := @raisesAt_append_of_lt w τ (samples.take k) (samples.drop k) j
      (hlength.symm ▸ hjk)
    rwa [← happend, List.take_append_drop]
  rcases (tracks_run (w := w) hbefore).raised j hj' with hsignalled | ⟨i, i', hji, hreleased⟩
  · exact Or.inr (hheld _ (long_of_raises hraises (signalled_observe.trans hsignalled)))
  · have hi' := hreleased.lt_length
    rw [hlength] at hi'
    exact Or.inl ⟨i, i', hji, hi', hreleased.mono (List.take_prefix _ _)⟩

end Debouncing
