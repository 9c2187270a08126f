import PasswordWallet.Utility.TransferFram

/-!
# Where the memory patch is right

The first loop of `diff` finds the runs of bytes that differ (`Runs`).  The second
joins runs that are close (`join`): what it puts into a gap of `delta` bytes is
`oldData[i+delta]`, which are the bytes at the address `delta` and not those of
the gap.  So the patch is right exactly when these happen to be the same in every
short gap, and when the first byte of the entropy pool, which the comparison does
not pass over, is the same in both images.
-/

namespace PasswordWallet

open Framing Patching

section Runs

variable {oldData newData : List Byte} {slices : List PSlice} {m : ℕ}

/-- An address at which the comparison finds different bytes. -/
def Differs (oldData newData : List Byte) (x : ℕ) : Prop :=
  x < oldData.length ∧ ¬ Ignored x ∧ oldData[x]? ≠ newData[x]?

instance : DecidablePred (Differs oldData newData) := fun _ => instDecidableAnd

/-- The slices are the runs of bytes that differ below the address `m`. -/
structure Runs (oldData newData : List Byte) (m : ℕ) (slices : List PSlice) : Prop where
  separated : Separated slices
  nonempty : ∀ s ∈ slices, s.second ≠ []
  agrees : ∀ s ∈ slices, s.Agrees newData
  stop_le : ∀ s ∈ slices, s.stop ≤ m
  covers : ∀ x, Covers slices x ↔ x < m ∧ Differs oldData newData x

theorem runs_zero : Runs oldData newData 0 [] :=
  ⟨.nil, nofun, nofun, nofun, fun x => by simp [Covers]⟩

theorem Runs.skip (h : Runs oldData newData m slices) (hm : ¬ Differs oldData newData m) :
    Runs oldData newData (m + 1) slices where
  separated := h.separated
  nonempty := h.nonempty
  agrees := h.agrees
  stop_le s hs := (h.stop_le s hs).trans m.le_succ
  covers x := by
    rw [h.covers]
    refine ⟨fun ⟨hx, hdiffers⟩ => ⟨by omega, hdiffers⟩, fun ⟨hx, hdiffers⟩ => ⟨?_, hdiffers⟩⟩
    exact lt_of_le_of_ne (Nat.le_of_lt_succ hx) fun heq => hm (heq ▸ hdiffers)

/-- What is added is the address `m`. -/
theorem Runs.covers_succ (h : Runs oldData newData m slices) (hm : Differs oldData newData m)
    {slices' : List PSlice} (hcovers : ∀ x, Covers slices' x ↔ Covers slices x ∨ x = m) (x : ℕ) :
    Covers slices' x ↔ x < m + 1 ∧ Differs oldData newData x := by
  rw [hcovers, h.covers]
  constructor
  · rintro (⟨hx, hdiffers⟩ | rfl)
    · exact ⟨by omega, hdiffers⟩
    · exact ⟨by omega, hm⟩
  · rintro ⟨hx, hdiffers⟩
    rcases Nat.lt_succ_iff_lt_or_eq.mp hx with hlt | heq
    · exact .inl ⟨hlt, hdiffers⟩
    · exact .inr heq

theorem Runs.new (h : Runs oldData newData m slices) (hm : Differs oldData newData m) {b : Byte}
    (hb : newData[m]? = some b) (hapart : ∀ s ∈ slices, s.stop ≠ m) :
    Runs oldData newData (m + 1) (slices ++ [⟨m, [b]⟩]) where
  separated := by
    refine List.pairwise_append.mpr ⟨h.separated, List.pairwise_singleton _ _, ?_⟩
    intro s hs t ht
    obtain rfl := List.mem_singleton.mp ht
    exact lt_of_le_of_ne (h.stop_le s hs) (hapart s hs)
  nonempty := by
    intro s hs
    rcases List.mem_append.mp hs with hs | hs
    · exact h.nonempty s hs
    · simp [List.mem_singleton.mp hs]
  agrees := by
    intro s hs
    rcases List.mem_append.mp hs with hs | hs
    · exact h.agrees s hs
    · obtain rfl := List.mem_singleton.mp hs
      exact Slice.agrees_singleton.mpr hb
  stop_le := by
    intro s hs
    rcases List.mem_append.mp hs with hs | hs
    · exact (h.stop_le s hs).trans m.le_succ
    · obtain rfl := List.mem_singleton.mp hs
      exact le_rfl
  covers := by
    refine h.covers_succ hm fun x => ?_
    rw [covers_append]
    refine or_congr_right ?_
    simp only [Covers, List.mem_singleton, exists_eq_left, Slice.Has, Slice.stop,
      List.length_singleton]
    omega

theorem Runs.continue {front : List PSlice} {last : PSlice}
    (h : Runs oldData newData m (front ++ [last])) (hm : Differs oldData newData m) {b : Byte}
    (hb : newData[m]? = some b) (hstop : last.stop = m) :
    Runs oldData newData (m + 1) (front ++ [⟨last.first, last.second ++ [b]⟩]) where
  separated := by
    obtain ⟨hfront, -, hlast⟩ := List.pairwise_append.mp h.separated
    refine List.pairwise_append.mpr ⟨hfront, List.pairwise_singleton _ _, ?_⟩
    intro s hs t ht
    obtain rfl := List.mem_singleton.mp ht
    exact hlast s hs last (List.mem_singleton_self _)
  nonempty := by
    intro s hs
    rcases List.mem_append.mp hs with hs | hs
    · exact h.nonempty s (List.mem_append_left _ hs)
    · simp [List.mem_singleton.mp hs]
  agrees := by
    intro s hs
    rcases List.mem_append.mp hs with hs | hs
    · exact h.agrees s (List.mem_append_left _ hs)
    · obtain rfl := List.mem_singleton.mp hs
      refine Slice.agrees_append.mpr ⟨h.agrees last (by simp), Slice.agrees_singleton.mpr ?_⟩
      rw [← hb, ← hstop, Slice.stop]
  stop_le := by
    intro s hs
    rcases List.mem_append.mp hs with hs | hs
    · exact (h.stop_le s (List.mem_append_left _ hs)).trans m.le_succ
    · obtain rfl := List.mem_singleton.mp hs
      rw [← hstop, Slice.stop, List.length_append, ← Nat.add_assoc]
      exact le_rfl
  covers := by
    refine h.covers_succ hm fun x => ?_
    rw [covers_append, covers_append, or_assoc]
    refine or_congr_right ?_
    simp only [Covers, List.mem_singleton, exists_eq_left, Slice.Has, Slice.stop,
      List.length_append, List.length_singleton] at hstop ⊢
    omega

/-- One turn of the first loop. -/
theorem Runs.addDifference (h : Runs oldData newData m slices) (hm : Differs oldData newData m)
    {b : Byte} (hb : newData[m]? = some b) :
    Runs oldData newData (m + 1) (addDifference slices m b) := by
  unfold PasswordWallet.addDifference
  rcases List.eq_nil_or_concat slices with rfl | ⟨front, last, rfl⟩
  · exact h.new hm hb nofun
  · rw [List.concat_eq_append] at h ⊢
    rw [List.getLast?_concat]
    dsimp only
    split_ifs with hstop
    · rw [List.dropLast_concat]
      exact h.continue hm hb (by rw [Slice.stop]; omega)
    · refine h.new hm hb fun s hs => ?_
      rcases List.mem_append.mp hs with hfront | hlast
      · have hbefore := (List.pairwise_append.mp h.separated).2.2 s hfront last (by simp)
        have := h.stop_le last (by simp)
        have := last.first_le_stop
        omega
      · rw [List.mem_singleton.mp hlast, Slice.stop]
        omega

theorem compareAt_runs (hlen : oldData.length = newData.length) (hm : m < oldData.length)
    (h : Runs oldData newData m slices) :
    ∃ slices', compareAt oldData newData slices m = some slices' ∧
      Runs oldData newData (m + 1) slices' := by
  have hold := List.getElem?_eq_getElem hm
  have hnew := List.getElem?_eq_getElem (hlen ▸ hm : m < newData.length)
  unfold compareAt
  split_ifs with hignored
  · exact ⟨slices, rfl, h.skip fun hdiffers => hdiffers.2.1 hignored⟩
  · simp only [hold, hnew, Option.bind_eq_bind, Option.bind_some]
    split_ifs with hne
    · refine ⟨_, rfl, h.addDifference ⟨hm, hignored, ?_⟩ hnew⟩
      rw [hold, hnew]
      exact fun heq => hne (Option.some.inj heq)
    · refine ⟨slices, rfl, h.skip fun hdiffers => hdiffers.2.2 ?_⟩
      rw [hold, hnew, not_not.mp hne]

/-- The first loop finds the runs, and keeps its indices in range. -/
theorem differences_runs (hlen : oldData.length = newData.length) :
    ∃ slices, differences oldData newData = some slices ∧
      Runs oldData newData oldData.length slices := by
  suffices hloop : ∀ m ≤ oldData.length, ∃ slices,
      (List.range m).foldlM (compareAt oldData newData) [] = some slices ∧
        Runs oldData newData m slices from hloop _ le_rfl
  intro m hm
  induction m with
  | zero => exact ⟨[], rfl, runs_zero⟩
  | succ m ih =>
      obtain ⟨slices, hslices, hruns⟩ := ih (by omega)
      obtain ⟨slices', hstep, hruns'⟩ := compareAt_runs hlen (by omega) hruns
      refine ⟨slices', ?_, hruns'⟩
      rw [List.range_succ, List.foldlM_append, hslices]
      simpa using hstep

end Runs

/-! ## The second loop -/

section Join

variable {oldData newData : List Byte} {curr next s : PSlice} {front rest out : List PSlice}

theorem mapM_range_eq_some {β : Type} {f : ℕ → Option β} {m : ℕ} {l : List β} :
    (List.range m).mapM f = some l ↔ l.length = m ∧ ∀ i < m, l[i]? = f i := by
  induction m generalizing l with
  | zero => simp [eq_comm]
  | succ m ih =>
      rw [List.range_succ, List.mapM_append]
      simp only [List.mapM_cons, List.mapM_nil, Option.bind_eq_bind, Option.pure_def,
        Option.bind_some, Option.bind_eq_some_iff, Option.some.injEq]
      constructor
      · rintro ⟨l', hl', -, ⟨b, hb, rfl⟩, rfl⟩
        obtain ⟨hlen, hget⟩ := ih.mp hl'
        refine ⟨by simp [hlen], fun i hi => ?_⟩
        rcases Nat.lt_succ_iff_lt_or_eq.mp hi with hlt | rfl
        · rw [List.getElem?_append_left (by omega), hget i hlt]
        · rw [← hlen, List.getElem?_concat_length, hlen, hb]
      · rintro ⟨hlen, hget⟩
        have hm : m < l.length := by omega
        refine ⟨l.take m, ih.mpr ⟨by simp [hlen], fun i hi => ?_⟩, [l[m]], ⟨l[m], ?_, rfl⟩, ?_⟩
        · rw [List.getElem?_take_of_lt hi, hget i (by omega)]
        · rw [← hget m m.lt_succ_self, List.getElem?_eq_getElem hm]
        · rw [List.take_concat_get' l m hm, List.take_of_length_le (by omega)]

theorem complete_eq_some {d : ℕ} {bytes : List Byte} :
    complete oldData d = some bytes ↔
      bytes.length = d ∧ ∀ i < d, bytes[i]? = oldData[i + d]? :=
  mapM_range_eq_some

/-- The second loop, by recursion on what follows the slice `curr`. -/
def join (oldData : List Byte) (curr : PSlice) : List PSlice → Option (List PSlice)
  | [] => some [curr]
  | next :: rest =>
      if next.first - curr.stop ≤ threshold then
        (complete oldData (next.first - curr.stop)).bind fun bytes =>
          join oldData (append curr next bytes) rest
      else (join oldData next rest).map (curr :: ·)

theorem delta_eq (hle : curr.stop ≤ next.first) (hlt : next.first < 2 ^ 32) :
    delta curr next = next.first - curr.stop := by
  unfold delta
  rw [show curr.first + curr.second.length = curr.stop from rfl, BitVec.toNat_sub,
    BitVec.toNat_ofNat, BitVec.toNat_ofNat]
  omega

theorem stop_append {bytes : List Byte} (hnext : next.first = curr.stop + bytes.length) :
    (append curr next bytes).stop = next.stop := by
  unfold append Slice.stop at *
  simp only [List.length_append]
  omega

/-- Two slices become one, over the gap between them. -/
theorem separated_append (hsep : Separated (front ++ curr :: next :: rest)) {bytes : List Byte}
    (hnext : next.first = curr.stop + bytes.length) :
    Separated (front ++ append curr next bytes :: rest) := by
  obtain ⟨hfront, htail, hbefore⟩ := List.pairwise_append.mp hsep
  obtain ⟨-, htail⟩ := List.pairwise_cons.mp htail
  obtain ⟨hhead, hrest⟩ := List.pairwise_cons.mp htail
  refine List.pairwise_append.mpr ⟨hfront, List.pairwise_cons.mpr ⟨fun t ht => ?_, hrest⟩, ?_⟩
  · rw [stop_append hnext]
    exact hhead t ht
  · intro s hs t ht
    rcases List.mem_cons.mp ht with rfl | ht
    · exact hbefore s hs curr List.mem_cons_self
    · exact hbefore s hs t (by simp [ht])

theorem separated_append_cons (hsep : Separated (curr :: next :: rest)) {bytes : List Byte}
    (hnext : next.first = curr.stop + bytes.length) :
    Separated (append curr next bytes :: rest) :=
  @separated_append curr next [] rest hsep bytes hnext

/-- `removeOne` takes away the slice that was appended, and no other. -/
theorem erase_next (hsep : Separated (front ++ curr :: next :: rest)) {bytes : List Byte} :
    ((front ++ curr :: next :: rest).set front.length (append curr next bytes)).erase next =
      front ++ append curr next bytes :: rest := by
  obtain ⟨-, htail, hbefore⟩ := List.pairwise_append.mp hsep
  have hnext : curr.first < next.first :=
    curr.first_le_stop.trans_lt ((List.pairwise_cons.mp htail).1 next List.mem_cons_self)
  have hfront : next ∉ front := fun hmem =>
    absurd (next.first_le_stop.trans_lt (hbefore next hmem next (by simp))) (lt_irrefl _)
  rw [List.set_append_right _ _ le_rfl, Nat.sub_self, List.set_cons_zero,
    List.erase_append_right _ hfront, List.erase_cons_tail, List.erase_cons_head]
  rw [beq_iff_eq]
  exact fun heq => absurd (congrArg Slice.first heq) hnext.ne

/-- With fuel for every slice the second loop comes to its end. -/
theorem mergeFrom_eq {fuel : ℕ} (hsep : Separated (front ++ curr :: rest))
    (hstop : ∀ s ∈ rest, s.stop < 2 ^ 32) (hfuel : rest.length < fuel) :
    mergeFrom oldData fuel (front ++ curr :: rest) front.length =
      (join oldData curr rest).map (front ++ ·) := by
  induction fuel generalizing front curr rest with
  | zero => exact absurd hfuel (Nat.not_lt_zero _)
  | succ fuel ih =>
      have hcurr : (front ++ curr :: rest)[front.length]? = some curr := by simp
      cases rest with
      | nil =>
          have hend : (front ++ [curr])[front.length + 1]? = none := by simp
          rw [mergeFrom, hcurr, hend]
          rfl
      | cons next rest =>
          have hnext : (front ++ curr :: next :: rest)[front.length + 1]? = some next := by simp
          have hle : curr.stop < next.first :=
            (List.pairwise_cons.mp (List.pairwise_append.mp hsep).2.1).1 next List.mem_cons_self
          rw [List.length_cons] at hfuel
          rw [mergeFrom, hcurr, hnext]
          dsimp only
          rw [delta_eq hle.le (next.first_le_stop.trans_lt (hstop next List.mem_cons_self)), join]
          split_ifs with hshort
          · cases hcomplete : complete oldData (next.first - curr.stop) with
            | none => rfl
            | some bytes =>
                obtain ⟨hlength, -⟩ := complete_eq_some.mp hcomplete
                simp only [Option.bind_eq_bind, Option.bind_some]
                rw [erase_next hsep]
                exact ih (separated_append hsep (by omega))
                  (fun s hs => hstop s (List.mem_cons_of_mem _ hs)) (by omega)
          · have hih := @ih next (front ++ [curr]) rest
              (by simpa using hsep) (fun s hs => hstop s (List.mem_cons_of_mem _ hs)) (by omega)
            rw [List.append_assoc, List.singleton_append, List.length_append,
              List.length_singleton] at hih
            rw [hih, Option.map_map]
            refine congrArg (Option.map · _) (funext fun l => ?_)
            simp

theorem agrees_append_iff {bytes : List Byte} (hnext : next.first = curr.stop + bytes.length) :
    (append curr next bytes).Agrees newData ↔
      curr.Agrees newData ∧ Slice.Agrees ⟨curr.stop, bytes⟩ newData ∧ next.Agrees newData := by
  unfold append
  rw [List.append_assoc, Slice.agrees_append, Slice.agrees_append,
    show curr.first + curr.second.length = curr.stop from rfl, ← hnext]

/-- What the second loop makes of the slices: each either takes the next in, with
as many bytes as lie between, or stays. -/
inductive Joined : PSlice → List PSlice → List PSlice → Prop
  | last {curr : PSlice} : Joined curr [] [curr]
  | close {curr next : PSlice} {rest out : List PSlice} {bytes : List Byte}
      (hnext : next.first = curr.stop + bytes.length) (hshort : bytes.length ≤ threshold)
      (h : Joined (append curr next bytes) rest out) :
      Joined curr (next :: rest) out
  | apart {curr next : PSlice} {rest out : List PSlice} (h : Joined next rest out) :
      Joined curr (next :: rest) (curr :: out)

theorem joined_of_join (hsep : Separated (curr :: rest)) (h : join oldData curr rest = some out) :
    Joined curr rest out := by
  induction rest generalizing curr out with
  | nil =>
      obtain rfl := Option.some.inj h
      exact .last
  | cons next rest ih =>
      have hle := (List.pairwise_cons.mp hsep).1 next List.mem_cons_self
      rw [join] at h
      split_ifs at h with hshort
      · obtain ⟨bytes, hcomplete, hjoin⟩ := Option.bind_eq_some_iff.mp h
        obtain ⟨hlength, -⟩ := complete_eq_some.mp hcomplete
        have hnext : next.first = curr.stop + bytes.length := by omega
        exact .close hnext (by omega)
          (ih (separated_append_cons hsep hnext) hjoin)
      · obtain ⟨out', hjoin, rfl⟩ := Option.map_eq_some_iff.mp h
        exact .apart (ih (List.pairwise_cons.mp hsep).2 hjoin)

theorem Joined.first_le (h : Joined curr rest out) (hsep : Separated (curr :: rest)) :
    ∀ s ∈ out, curr.first ≤ s.first := by
  induction h with
  | last => simp
  | close hnext _ _ ih => exact ih (separated_append_cons hsep hnext)
  | @apart curr next rest out _ ih =>
      obtain ⟨hhead, htail⟩ := List.pairwise_cons.mp hsep
      intro s hs
      rcases List.mem_cons.mp hs with rfl | hs
      · exact le_rfl
      · exact (curr.first_le_stop.trans (hhead next List.mem_cons_self).le).trans (ih htail s hs)

theorem Joined.separated (h : Joined curr rest out) (hsep : Separated (curr :: rest)) :
    Separated out := by
  induction h with
  | last => exact hsep
  | close hnext _ _ ih => exact ih (separated_append_cons hsep hnext)
  | @apart curr next rest out h ih =>
      obtain ⟨hhead, htail⟩ := List.pairwise_cons.mp hsep
      exact List.pairwise_cons.mpr ⟨fun s hs =>
        (hhead next List.mem_cons_self).trans_le (h.first_le htail s hs), ih htail⟩

theorem Joined.stop_le {m : ℕ} (h : Joined curr rest out) (hstop : ∀ s ∈ curr :: rest, s.stop ≤ m) :
    ∀ s ∈ out, s.stop ≤ m := by
  induction h with
  | last => exact hstop
  | close hnext _ _ ih =>
      refine ih fun s hs => ?_
      rcases List.mem_cons.mp hs with rfl | hs
      · rw [stop_append hnext]
        exact hstop _ (by simp)
      · exact hstop s (by simp [hs])
  | apart _ ih =>
      intro s hs
      rcases List.mem_cons.mp hs with rfl | hs
      · exact hstop s List.mem_cons_self
      · exact ih (fun t ht => hstop t (List.mem_cons_of_mem _ ht)) s hs

/-- A merged slice has the addresses of both, and those between. -/
theorem has_append {bytes : List Byte} (hnext : next.first = curr.stop + bytes.length) {x : ℕ} :
    (append curr next bytes).Has x ↔
      curr.Has x ∨ (curr.stop ≤ x ∧ x < next.first) ∨ next.Has x := by
  have := curr.first_le_stop
  have := next.first_le_stop
  unfold Slice.Has
  rw [stop_append hnext, show (append curr next bytes).first = curr.first from rfl]
  omega

theorem Joined.covers (h : Joined curr rest out) {x : ℕ} (hx : Covers (curr :: rest) x) :
    Covers out x := by
  induction h with
  | last => exact hx
  | close hnext _ _ ih =>
      refine ih ?_
      rw [covers_cons, covers_cons] at hx
      rw [covers_cons, has_append hnext]
      tauto
  | apart _ ih =>
      rw [covers_cons] at hx ⊢
      exact hx.imp_right ih

/-- What holds of the addresses of the slices and of short gaps holds of those
that the joined slices have. -/
theorem Joined.forall_has {Q : ℕ → Prop} (h : Joined curr rest out)
    (hslices : ∀ x, Covers (curr :: rest) x → Q x)
    (hgaps : (curr :: rest).IsChain fun s t =>
      t.first - s.stop ≤ threshold → ∀ x, s.stop ≤ x → x < t.first → Q x) :
    ∀ x, Covers out x → Q x := by
  induction h with
  | last => exact hslices
  | @close curr next rest out bytes hnext hshort _ ih =>
      obtain ⟨hgap, hgaps⟩ := List.isChain_cons_cons.mp hgaps
      refine ih (fun x hx => ?_) ?_
      · rw [covers_cons, has_append hnext] at hx
        rcases hx with (hcurr | ⟨hfirst, hlast⟩ | hnext) | hrest
        · exact hslices x (covers_cons.mpr (.inl hcurr))
        · exact hgap (by omega) x hfirst hlast
        · exact hslices x (covers_cons.mpr (.inr (covers_cons.mpr (.inl hnext))))
        · exact hslices x (covers_cons.mpr (.inr (covers_cons.mpr (.inr hrest))))
      · exact hgaps.imp_head fun h => by rwa [stop_append hnext]
  | apart _ ih =>
      intro x hx
      rcases covers_cons.mp hx with hcurr | hout
      · exact hslices x (covers_cons.mpr (.inl hcurr))
      · exact ih (fun y hy => hslices y (covers_cons.mpr (.inr hy)))
          (List.isChain_cons_cons.mp hgaps).2 x hout

/-- If the gap between the slices is short, the bytes that fill it are right. -/
def Closes (oldData newData : List Byte) (s t : PSlice) : Prop :=
  t.first - s.stop ≤ threshold → ∀ i < t.first - s.stop,
    oldData[i + (t.first - s.stop)]? = newData[s.stop + i]?

/-- A gap that closes is completed by what the new memory has there. -/
theorem closes_iff (hnext : next.first ≤ newData.length)
    (hshort : next.first - curr.stop ≤ threshold) :
    Closes oldData newData curr next ↔
      ∃ bytes, complete oldData (next.first - curr.stop) = some bytes ∧
        Slice.Agrees ⟨curr.stop, bytes⟩ newData := by
  constructor
  · intro h
    refine ⟨(newData.drop curr.stop).take (next.first - curr.stop), ?_, fun i hi => ?_⟩
    · refine complete_eq_some.mpr ⟨by simp; omega, fun i hi => ?_⟩
      rw [h hshort i hi, List.getElem?_take_of_lt hi, List.getElem?_drop]
    · have hi : i < next.first - curr.stop := by simp at hi; omega
      dsimp only
      rw [List.getElem?_take_of_lt hi, List.getElem?_drop]
  · rintro ⟨bytes, hcomplete, hagrees⟩ - i hi
    obtain ⟨hlength, hbytes⟩ := complete_eq_some.mp hcomplete
    rw [← hbytes i hi]
    exact hagrees i (by simpa [hlength] using hi)

/-- The second loop ends, with slices that agree with the new memory, exactly when
every short gap closes. -/
theorem join_agrees_iff (hsep : Separated (curr :: rest))
    (hstop : ∀ s ∈ rest, s.stop ≤ newData.length) (hrest : ∀ s ∈ rest, s.Agrees newData) :
    (∃ out, join oldData curr rest = some out ∧ ∀ s ∈ out, s.Agrees newData) ↔
      curr.Agrees newData ∧ (curr :: rest).IsChain (Closes oldData newData) := by
  induction rest generalizing curr with
  | nil => simp [join]
  | cons next rest ih =>
      obtain ⟨hhead, htail⟩ := List.pairwise_cons.mp hsep
      have hlt := hhead next List.mem_cons_self
      have hle := next.first_le_stop.trans (hstop next List.mem_cons_self)
      have hstop' : ∀ s ∈ rest, s.stop ≤ newData.length := fun s hs => hstop s (by simp [hs])
      have hrest' : ∀ s ∈ rest, s.Agrees newData := fun s hs => hrest s (by simp [hs])
      rw [join, List.isChain_cons_cons]
      split_ifs with hshort
      · rw [closes_iff hle hshort]
        cases hcomplete : complete oldData (next.first - curr.stop) with
        | none => simp
        | some bytes =>
            obtain ⟨hlength, -⟩ := complete_eq_some.mp hcomplete
            have hnext : next.first = curr.stop + bytes.length := by omega
            have hchain : (append curr next bytes :: rest).IsChain (Closes oldData newData) ↔
                (next :: rest).IsChain (Closes oldData newData) := by
              simp only [List.isChain_cons, Closes, stop_append hnext]
            rw [Option.bind_some, ih (separated_append_cons hsep hnext) hstop' hrest', hchain,
              agrees_append_iff hnext]
            simp only [Option.some.injEq, exists_eq_left', hrest next List.mem_cons_self, and_true,
              and_assoc]
      · have hcloses : Closes oldData newData curr next := fun h => absurd h hshort
        have hnext := ih htail hstop' hrest'
        rw [and_iff_right (hrest next List.mem_cons_self)] at hnext
        rw [and_iff_right hcloses, ← hnext]
        constructor
        · rintro ⟨_, hmap, hagrees⟩
          obtain ⟨out, hjoin, rfl⟩ := Option.map_eq_some_iff.mp hmap
          obtain ⟨hcurr, hout⟩ := List.forall_mem_cons.mp hagrees
          exact ⟨hcurr, out, hjoin, hout⟩
        · rintro ⟨hcurr, out, hjoin, hout⟩
          exact ⟨curr :: out, by rw [hjoin]; rfl, List.forall_mem_cons.mpr ⟨hcurr, hout⟩⟩

end Join

/-! ## Short gaps -/

section Gaps

variable {oldData newData : List Byte} {slices : List PSlice} {a d x : ℕ}

def InEntropyPool (x : ℕ) : Prop :=
  offsetEntropyPool ≤ x ∧ x < offsetEntropyPool + sizeEntropyPool

/-- After the address `a` come `d` addresses without difference, few enough to be
filled, and then a difference. -/
structure ShortGap (oldData newData : List Byte) (a d : ℕ) : Prop where
  short : d ≤ threshold
  before : Differs oldData newData a
  after : Differs oldData newData (a + 1 + d)
  between : ∀ k < d, ¬ Differs oldData newData (a + 1 + k)

theorem Differs.outside (h : Differs oldData newData x)
    (hpool : ¬ Differs oldData newData offsetEntropyPool) : ¬ InEntropyPool x := by
  rintro ⟨hfirst, hlast⟩
  rcases hfirst.eq_or_lt with heq | hlt
  · exact hpool (heq ▸ h)
  · exact h.2.1 ⟨hlt, hlast⟩

/-- The entropy pool is too large for a short gap. -/
theorem ShortGap.outside (h : ShortGap oldData newData a d)
    (hpool : ¬ Differs oldData newData offsetEntropyPool) {k : ℕ} (hk : k < d) :
    ¬ InEntropyPool (a + 1 + k) := by
  have hshort := h.short
  have hbefore := h.before.outside hpool
  have hafter := h.after.outside hpool
  simp only [InEntropyPool, offsetEntropyPool, offsetNumPwd, offsetFirstPwdAlpha,
    offsetFirstPwdUse, offsetOptionsFlag, sizeOptionFlag, pAddrSz, sizeEntropyPool, threshold]
    at *
  omega

/-- In a short gap the images agree. -/
theorem ShortGap.agree (h : ShortGap oldData newData a d)
    (hpool : ¬ Differs oldData newData offsetEntropyPool) {k : ℕ} (hk : k < d) :
    oldData[a + 1 + k]? = newData[a + 1 + k]? := by
  by_contra hne
  have hafter := h.after.1
  refine h.between k hk ⟨by omega, fun hignored => ?_, hne⟩
  exact h.outside hpool hk ⟨hignored.1.le, hignored.2⟩

/-- Slices that follow one another leave a gap, and it is a `ShortGap` if short. -/
theorem Runs.shortGap {front rest : List PSlice} {s t : PSlice} {m : ℕ}
    (h : Runs oldData newData m (front ++ s :: t :: rest))
    (hshort : t.first - s.stop ≤ threshold) :
    s.stop < t.first ∧ ∃ a, s.stop = a + 1 ∧ ShortGap oldData newData a (t.first - s.stop) := by
  obtain ⟨-, htail, hbefore⟩ := List.pairwise_append.mp h.separated
  obtain ⟨hs, htail⟩ := List.pairwise_cons.mp htail
  have ht := (List.pairwise_cons.mp htail).1
  have hlt := hs t List.mem_cons_self
  have hlast := s.has_last (h.nonempty s (by simp))
  have hpos : 0 < s.stop := (Nat.zero_le _).trans_lt (lt_of_le_of_lt hlast.1 hlast.2)
  obtain ⟨a, ha⟩ := Nat.exists_eq_add_of_le' hpos
  have hdiffers : ∀ u ∈ front ++ s :: t :: rest, ∀ y, u.Has y → Differs oldData newData y :=
    fun u hu y hy => ((h.covers y).mp ⟨u, hu, hy⟩).2
  refine ⟨hlt, a, ha, hshort, ?_, ?_, fun k hk hgap => ?_⟩
  · refine hdiffers s (by simp) a ?_
    rwa [ha] at hlast
  · rw [← ha, Nat.add_sub_of_le hlt.le]
    exact hdiffers t (by simp) t.first (Slice.has_first (h.nonempty t (by simp)))
  · have hm : a + 1 + k < m := by
      have := h.stop_le t (by simp)
      have := t.first_le_stop
      omega
    obtain ⟨u, hu, hfirst, hstop⟩ := (h.covers _).mpr ⟨hm, hgap⟩
    rcases List.mem_append.mp hu with hu | hu
    · have := hbefore u hu s (by simp)
      have := s.first_le_stop
      omega
    · rcases List.mem_cons.mp hu with rfl | hu
      · omega
      · rcases List.mem_cons.mp hu with rfl | hu
        · omega
        · have := ht u hu
          have := t.first_le_stop
          omega

/-- Every short gap that is not empty lies between slices that follow one another. -/
theorem ShortGap.consecutive (h : ShortGap oldData newData a d) (hd : 0 < d)
    (hruns : Runs oldData newData oldData.length slices) :
    ∃ front s t rest, slices = front ++ s :: t :: rest ∧ s.stop = a + 1 ∧
      t.first = a + 1 + d := by
  obtain ⟨s, hs, hsfirst, hsstop⟩ := (hruns.covers a).mpr ⟨h.before.1, h.before⟩
  obtain ⟨u, hu, hufirst, hustop⟩ := (hruns.covers _).mpr ⟨h.after.1, h.after⟩
  have hmem : ∀ v ∈ slices, ∀ y, v.Has y → Differs oldData newData y :=
    fun v hv y hy => ((hruns.covers y).mp ⟨v, hv, hy⟩).2
  -- the slice ends with `a`, or it would have the gap
  have hstop : s.stop = a + 1 := by
    by_contra hne
    exact h.between 0 hd (hmem s hs _ ⟨by omega, by omega⟩)
  obtain ⟨front, tail, rfl⟩ := List.append_of_mem hs
  obtain ⟨-, htail, hbefore⟩ := List.pairwise_append.mp hruns.separated
  have hu' : u ∈ tail := by
    rcases List.mem_append.mp hu with hu | hu
    · have := hbefore u hu s List.mem_cons_self
      omega
    · rcases List.mem_cons.mp hu with rfl | hu
      · omega
      · exact hu
  obtain ⟨t, rest, rfl⟩ := List.exists_cons_of_ne_nil (List.ne_nil_of_mem hu')
  obtain ⟨hs', htail⟩ := List.pairwise_cons.mp htail
  have hlt := hs' t List.mem_cons_self
  have hle : t.first ≤ a + 1 + d := by
    rcases List.mem_cons.mp hu' with rfl | hu'
    · exact hufirst
    · have := (List.pairwise_cons.mp htail).1 u hu'
      have := t.first_le_stop
      omega
  refine ⟨front, s, t, rest, rfl, hstop, ?_⟩
  -- the next slice begins where the gap ends, or the gap would meet it
  by_contra hne
  have hfirst := hmem t (by simp) _ (Slice.has_first (hruns.nonempty t (by simp)))
  refine h.between (t.first - (a + 1)) (by omega) ?_
  rwa [Nat.add_sub_of_le (by omega)]

/-- The bytes that fill a short gap are those that both images have there. -/
def Fills (oldData : List Byte) (a d : ℕ) : Prop :=
  ∀ k < d, oldData[k + d]? = oldData[a + 1 + k]?

theorem chain_closes_iff (hruns : Runs oldData newData oldData.length slices)
    (hpool : ¬ Differs oldData newData offsetEntropyPool) :
    slices.IsChain (Closes oldData newData) ↔
      ∀ a d, ShortGap oldData newData a d → Fills oldData a d := by
  rw [List.isChain_iff_forall_rel_of_append_cons_cons]
  constructor
  · intro hchain a d hgap k hk
    obtain ⟨front, s, t, rest, hslices, hs, ht⟩ := hgap.consecutive (by omega) hruns
    have hcloses := hchain hslices
    have hd : t.first - s.stop = d := by omega
    rw [Closes, hd, hs] at hcloses
    rw [hcloses hgap.short k hk, hgap.agree hpool hk]
  · rintro hfills s t front rest rfl hshort i hi
    obtain ⟨-, a, ha, hgap⟩ := hruns.shortGap hshort
    rw [hfills a _ hgap i hi, hgap.agree hpool hi, ha]

end Gaps

/-! ## The commands -/

section Send

variable {s : PSlice} {x : ℕ}

theorem stop_take (s : PSlice) {k : ℕ} (hk : k ≤ s.second.length) :
    Slice.stop ⟨s.first, s.second.take k⟩ = s.first + k := by
  rw [Slice.stop, List.length_take, min_eq_left hk]

theorem stop_drop (s : PSlice) {k : ℕ} (hk : k ≤ s.second.length) :
    Slice.stop ⟨s.first + k, s.second.drop k⟩ = s.stop := by
  unfold Slice.stop
  rw [List.length_drop, Nat.add_assoc, Nat.add_sub_of_le hk]

/-- However it is divided, a slice is written as a whole. -/
theorem execSetFram_sendSlice (hstop : s.stop < 2 ^ 24) (mem : List Byte) :
    (sendSlice s).foldl execSetFram mem = overwrite mem s.first s.second := by
  fun_induction sendSlice s generalizing mem with
  | case1 s _ ihfirst ihsecond =>
      have hhalf : s.second.length / 2 ≤ s.second.length := Nat.div_le_self _ _
      have := s.first_le_stop
      rw [List.foldl_append, ihfirst (by rw [stop_take s hhalf, Slice.stop] at *; omega),
        ihsecond (by rwa [stop_drop s hhalf])]
      conv_rhs => rw [← List.take_append_drop (s.second.length / 2) s.second, overwrite_append,
        List.length_take, min_eq_left hhalf]
  | case2 s _ =>
      exact execSetFram_setFramCommand (s.first_le_stop.trans_lt hstop) mem

theorem writesAt_sendSlice (hstop : s.stop < 2 ^ 24) :
    (∃ f ∈ sendSlice s, WritesAt f x) ↔ s.Has x := by
  fun_induction sendSlice s with
  | case1 s _ ihfirst ihsecond =>
      have hhalf : s.second.length / 2 ≤ s.second.length := Nat.div_le_self _ _
      have hfirst := ihfirst (by rw [stop_take s hhalf, Slice.stop] at *; omega)
      have hsecond := ihsecond (by rwa [stop_drop s hhalf])
      simp only [List.mem_append, or_and_right, exists_or, hfirst, hsecond, Slice.Has,
        stop_take s hhalf, stop_drop s hhalf]
      have : s.first + s.second.length / 2 ≤ s.stop := Nat.add_le_add_left hhalf _
      omega
  | case2 s _ =>
      simp only [List.mem_singleton, exists_eq_left]
      exact writesAt_setFramCommand (s.first_le_stop.trans_lt hstop)

/-- The commands that `transfer_fram` sends. -/
def patchCommands (slices : List PSlice) : List Frame := slices.flatMap sendSlice

variable {slices : List PSlice}

theorem execSetFram_patchCommands (hstop : ∀ s ∈ slices, s.stop < 2 ^ 24) (mem : List Byte) :
    (patchCommands slices).foldl execSetFram mem = patch slices mem := by
  induction slices generalizing mem with
  | nil => rfl
  | cons s rest ih =>
      rw [patchCommands, List.flatMap_cons, List.foldl_append,
        execSetFram_sendSlice (hstop s List.mem_cons_self), patch_cons]
      exact ih (fun t ht => hstop t (List.mem_cons_of_mem _ ht)) _

theorem writesAt_patchCommands (hstop : ∀ s ∈ slices, s.stop < 2 ^ 24) :
    (∃ f ∈ patchCommands slices, WritesAt f x) ↔ Covers slices x := by
  simp only [patchCommands, List.mem_flatMap, Covers]
  constructor
  · rintro ⟨f, ⟨s, hs, hf⟩, hx⟩
    exact ⟨s, hs, (writesAt_sendSlice (hstop s hs)).mp ⟨f, hf, hx⟩⟩
  · rintro ⟨s, hs, hx⟩
    obtain ⟨f, hf, hfx⟩ := (writesAt_sendSlice (hstop s hs)).mpr hx
    exact ⟨f, ⟨s, hs, hf⟩, hfx⟩

end Send

/-! ## The patch -/

section Patch

variable {oldData newData : List Byte} {slices out : List PSlice}

def joinAll (oldData : List Byte) : List PSlice → Option (List PSlice)
  | [] => some []
  | curr :: rest => join oldData curr rest

theorem diff_eq (hlen : oldData.length = newData.length) (hsize : oldData.length < 2 ^ 24)
    (hslices : differences oldData newData = some slices)
    (hruns : Runs oldData newData oldData.length slices) :
    diff oldData newData = joinAll oldData slices := by
  unfold diff
  rw [if_neg (not_not.mpr hlen), hslices, Option.bind_eq_bind, Option.bind_some]
  cases slices with
  | nil => rfl
  | cons curr rest =>
      rw [joinAll]
      split_ifs with hshort
      · obtain rfl := List.length_eq_zero_iff.mp (by simpa using hshort : rest.length = 0)
        rfl
      · have hstop : ∀ s ∈ rest, s.stop < 2 ^ 32 := fun s hs => by
          have := hruns.stop_le s (List.mem_cons_of_mem _ hs)
          omega
        have hmerge := @mergeFrom_eq oldData curr [] rest _ hruns.separated hstop
          (Nat.lt_succ_self rest.length)
        rw [List.nil_append, List.length_nil] at hmerge
        rw [List.length_cons, hmerge]
        exact Option.map_id'

/-- What `diff` returns, apart from the values. -/
structure Spread (oldData newData : List Byte) (out : List PSlice) : Prop where
  separated : Separated out
  stop_le : ∀ s ∈ out, s.stop ≤ oldData.length
  covers : ∀ x, Differs oldData newData x → Covers out x
  outside : ¬ Differs oldData newData offsetEntropyPool →
    ∀ x, Covers out x → ¬ InEntropyPool x

theorem Runs.outside_gaps (hruns : Runs oldData newData oldData.length slices)
    (hpool : ¬ Differs oldData newData offsetEntropyPool) :
    slices.IsChain fun s t =>
      t.first - s.stop ≤ threshold → ∀ x, s.stop ≤ x → x < t.first → ¬ InEntropyPool x := by
  rw [List.isChain_iff_forall_rel_of_append_cons_cons]
  rintro s t front rest rfl hshort x hfirst hlast
  obtain ⟨-, a, ha, hgap⟩ := hruns.shortGap hshort
  obtain ⟨k, rfl⟩ := Nat.exists_eq_add_of_le hfirst
  rw [ha]
  exact hgap.outside hpool (by omega)

theorem diff_spread (hlen : oldData.length = newData.length) (hsize : oldData.length < 2 ^ 24)
    (h : diff oldData newData = some out) : Spread oldData newData out := by
  obtain ⟨slices, hslices, hruns⟩ := differences_runs hlen
  have hcovers : ∀ x, Covers slices x ↔ Differs oldData newData x := fun x =>
    (hruns.covers x).trans (and_iff_right_of_imp fun hx => hx.1)
  rw [diff_eq hlen hsize hslices hruns] at h
  cases slices with
  | nil =>
      obtain rfl := Option.some.inj h
      exact ⟨.nil, nofun, fun x hx => (hcovers x).mpr hx, fun _ x hx => by simp [Covers] at hx⟩
  | cons curr rest =>
      have hjoined := joined_of_join hruns.separated h
      exact ⟨hjoined.separated hruns.separated, hjoined.stop_le hruns.stop_le,
        fun x hx => hjoined.covers ((hcovers x).mpr hx),
        fun hpool => hjoined.forall_has (fun x hx => ((hcovers x).mp hx).outside hpool)
          (hruns.outside_gaps hpool)⟩

theorem diff_agrees_iff (hlen : oldData.length = newData.length)
    (hsize : oldData.length < 2 ^ 24) (hpool : ¬ Differs oldData newData offsetEntropyPool) :
    (∃ out, diff oldData newData = some out ∧ ∀ s ∈ out, s.Agrees newData) ↔
      ∀ a d, ShortGap oldData newData a d → Fills oldData a d := by
  obtain ⟨slices, hslices, hruns⟩ := differences_runs hlen
  rw [diff_eq hlen hsize hslices hruns, ← chain_closes_iff hruns hpool]
  cases slices with
  | nil => simp [joinAll]
  | cons curr rest =>
      rw [joinAll, join_agrees_iff hruns.separated
        (fun s hs => hlen ▸ hruns.stop_le s (List.mem_cons_of_mem _ hs))
        (fun s hs => hruns.agrees s (List.mem_cons_of_mem _ hs))]
      exact and_iff_right (hruns.agrees curr List.mem_cons_self)

/-- The commands that are sent for `diff` make the new image of the old outside the
entropy pool, and write nothing inside it. -/
def Patches (oldData newData : List Byte) : Prop :=
  ∃ slices, diff oldData newData = some slices ∧
    (∀ x, ¬ InEntropyPool x →
      ((patchCommands slices).foldl execSetFram oldData)[x]? = newData[x]?) ∧
    ∀ f ∈ patchCommands slices, ∀ x, WritesAt f x → ¬ InEntropyPool x

/-- What the commands do, said of the slices. -/
theorem Spread.patched_iff (h : Spread oldData newData out)
    (hlen : oldData.length = newData.length) (hsize : oldData.length < 2 ^ 24) :
    ((∀ x, ¬ InEntropyPool x →
        ((patchCommands out).foldl execSetFram oldData)[x]? = newData[x]?) ∧
      ∀ f ∈ patchCommands out, ∀ x, WritesAt f x → ¬ InEntropyPool x) ↔
    ¬ Differs oldData newData offsetEntropyPool ∧ ∀ s ∈ out, s.Agrees newData := by
  have hstop : ∀ s ∈ out, s.stop < 2 ^ 24 := fun s hs => (h.stop_le s hs).trans_lt hsize
  have hcovers : ∀ x, Covers out x → x < oldData.length := by
    rintro x ⟨s, hs, hx⟩
    exact hx.2.trans_le (h.stop_le s hs)
  -- an address that no slice has was not found different
  have hothers : ∀ x, ¬ InEntropyPool x → ¬ Covers out x → oldData[x]? = newData[x]? := by
    intro x hx hcover
    by_cases hlt : x < oldData.length
    · by_contra hne
      exact hcover (h.covers x ⟨hlt, fun hignored => hx ⟨hignored.1.le, hignored.2⟩, hne⟩)
    · rw [List.getElem?_eq_none (by omega), List.getElem?_eq_none (by omega)]
  have hwrites : (∀ f ∈ patchCommands out, ∀ x, WritesAt f x → ¬ InEntropyPool x) ↔
      ∀ x, Covers out x → ¬ InEntropyPool x := by
    simp only [← writesAt_patchCommands hstop]
    exact ⟨fun hall x ⟨f, hf, hx⟩ => hall f hf x hx, fun hall f hf x hx => hall x ⟨f, hf, hx⟩⟩
  rw [hwrites, execSetFram_patchCommands hstop, patch_eq_iff h.separated hcovers]
  constructor
  · rintro ⟨⟨hagrees, -⟩, houtside⟩
    refine ⟨fun hdiffers => ?_, fun s hs => Slice.agrees_iff.mpr fun x hx => ?_⟩
    · exact houtside _ (h.covers _ hdiffers) ⟨le_rfl, by decide⟩
    · exact hagrees s hs x hx (houtside x ⟨s, hs, hx⟩)
  · rintro ⟨hpool, hagrees⟩
    exact ⟨⟨fun s hs x hx _ => Slice.agrees_iff.mp (hagrees s hs) x hx, hothers⟩,
      h.outside hpool⟩

/-- The patch is right exactly when the first byte of the entropy pool is the same in
both images, and in every short gap the old image has the bytes that it has at the
address which is the length of the gap. -/
theorem patches_iff (hlen : oldData.length = newData.length) (hsize : oldData.length < 2 ^ 24) :
    Patches oldData newData ↔
      oldData[offsetEntropyPool]? = newData[offsetEntropyPool]? ∧
        ∀ a d, ShortGap oldData newData a d → Fills oldData a d := by
  have hpool : oldData[offsetEntropyPool]? = newData[offsetEntropyPool]? ↔
      ¬ Differs oldData newData offsetEntropyPool := by
    constructor
    · exact fun heq hdiffers => hdiffers.2.2 heq
    · intro hdiffers
      by_cases hlt : offsetEntropyPool < oldData.length
      · by_contra hne
        exact hdiffers ⟨hlt, fun hignored => lt_irrefl _ hignored.1, hne⟩
      · rw [List.getElem?_eq_none (by omega), List.getElem?_eq_none (by omega)]
  rw [hpool]
  constructor
  · rintro ⟨out, hdiff, hpatch⟩
    obtain ⟨hfirst, hagrees⟩ :=
      ((diff_spread hlen hsize hdiff).patched_iff hlen hsize).mp hpatch
    exact ⟨hfirst, (diff_agrees_iff hlen hsize hfirst).mp ⟨out, hdiff, hagrees⟩⟩
  · rintro ⟨hfirst, hfills⟩
    obtain ⟨out, hdiff, hagrees⟩ := (diff_agrees_iff hlen hsize hfirst).mpr hfills
    exact ⟨out, hdiff, ((diff_spread hlen hsize hdiff).patched_iff hlen hsize).mpr
      ⟨hfirst, hagrees⟩⟩

/-- The memory of a device that holds nothing. -/
def blank : List Byte := List.replicate framByteSize 0

@[simp] theorem length_blank : blank.length = framByteSize := List.length_replicate

@[simp] theorem getElem?_blank {x : ℕ} : blank[x]? = if x < framByteSize then some 0 else none :=
  List.getElem?_replicate

@[simp] theorem getElem_blank {x : ℕ} (hx : x < blank.length) : blank[x] = 0 :=
  List.getElem_replicate hx

/-- Two bytes to write, with one between them, in a memory of one value. -/
theorem patches_iff_blank : Patches blank ((blank.set 1000 1).set 1002 1) := by
  refine (patches_iff (by simp) (by simp)).mpr ⟨by simp, fun a d hgap k hk => ?_⟩
  have hshort : d ≤ 7 := hgap.short
  have hlt := hgap.after.1
  simp only [length_blank, framByteSize] at hlt
  rw [getElem?_blank, getElem?_blank, if_pos (by simp; omega), if_pos (by simp; omega)]

/-- The same with a byte of another value between them, which is lost. -/
theorem patch_loses_byte :
    ¬ Patches (blank.set 1001 7) (((blank.set 1001 7).set 1000 1).set 1002 1) := by
  rintro ⟨out, hdiff, hpatch⟩
  obtain ⟨hpool, hagrees⟩ := ((diff_spread (by simp) (by simp) hdiff).patched_iff (by simp)
    (by simp)).mp hpatch
  have hfills := (diff_agrees_iff (by simp) (by simp) hpool).mp ⟨out, hdiff, hagrees⟩ 1000 1
    ⟨by decide, ⟨by simp, by decide, by simp⟩, ⟨by simp, by decide, by simp⟩, by simp [Differs]⟩
    0 Nat.one_pos
  simp at hfills

end Patch

end PasswordWallet
