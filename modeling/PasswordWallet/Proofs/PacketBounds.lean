import PasswordWallet.Communication.Accesses

/-!
# The parser stays in the packet

The fields of the size are read only if there is a byte left, the id is read in any
case.  A pass that follows another one has a byte left; so only the first pass of a
packet without bytes can read outside it, and it does if the parser is between two
commands.

What the parser keeps between packets is sound (`Parser.Fits`) whatever has
happened: so a pass with a byte left takes at least one, and the loop ends.
-/

namespace PasswordWallet

open PowerLoss

/-! ## The header -/

section Scan

variable {total : ℕ} {x : Scan}

/-- What has been read is inside the packet, and so is what is left. -/
structure Scan.Within (total : ℕ) (x : Scan) : Prop where
  accesses : ∀ access ∈ x.accesses, access.Inside total
  rest : x.offset + x.lenght ≤ total
  byte : x.lenght < 256

theorem Scan.Within.pick (h : x.Within total) (hpos : x.lenght ≠ 0) (next : ComState) :
    (x.pick next).Within total := by
  have hrest := h.rest
  have hbyte := h.byte
  refine ⟨fun access hmem => ?_, ?_, ?_⟩
  · rcases List.mem_append.mp hmem with hmem | hmem
    · exact h.accesses access hmem
    · obtain rfl := List.mem_singleton.mp hmem
      exact ⟨by omega, hpos⟩
  · simp only [Scan.pick]
    omega
  · exact Nat.mod_lt _ (by decide)

theorem Scan.Within.id (h : x.Within total) (hpos : x.comState = .id → x.lenght ≠ 0) :
    x.id.Within total := by
  unfold Scan.id
  split_ifs with hid
  · exact h.pick (hpos hid) _
  · exact h

theorem Scan.Within.size (h : x.Within total) (field next : ComState) :
    (x.size field next).Within total := by
  unfold Scan.size
  split_ifs with hread
  · exact h.pick hread.2 _
  · exact h

theorem Scan.Within.header (h : x.Within total) (hpos : x.comState = .id → x.lenght ≠ 0) :
    x.header.Within total :=
  (((h.id hpos).size _ _).size _ _).size _ _

theorem Scan.lenght_pick (hpos : x.lenght ≠ 0) (hbyte : x.lenght < 256) (next : ComState) :
    (x.pick next).lenght = x.lenght - 1 := by
  simp only [Scan.pick]
  omega

theorem Scan.lenght_size_le (hbyte : x.lenght < 256) (field next : ComState) :
    (x.size field next).lenght ≤ x.lenght := by
  unfold Scan.size
  split_ifs with hread
  · rw [Scan.lenght_pick hread.2 hbyte]
    exact Nat.sub_le _ _
  · exact le_rfl

/-- A header takes a byte, if there is one. -/
theorem Scan.lenght_header_lt (hpos : x.lenght ≠ 0) (hbyte : x.lenght < 256)
    (hstate : x.comState ≠ .data) : x.header.lenght < x.lenght := by
  have hdrop : ∀ y : Scan, y.lenght < x.lenght → ∀ field next,
      (y.size field next).lenght < x.lenght := fun y hlt field next =>
    (Scan.lenght_size_le (hlt.trans hbyte) field next).trans_lt hlt
  have hpick : ∀ next, (x.pick next).lenght < x.lenght := fun next => by
    rw [Scan.lenght_pick hpos hbyte]
    omega
  have hkeep : x.comState ≠ .id → x.id = x := fun hne => if_neg hne
  have hskip : ∀ field next, x.comState ≠ field → x.size field next = x := fun _ _ hne =>
    if_neg fun hread => hne hread.1
  -- the field that the parser is at takes a byte, and the ones behind it no more than that
  have htake : ∀ next, (x.size x.comState next).lenght < x.lenght := fun next => by
    rw [Scan.size, if_pos ⟨rfl, hpos⟩]
    exact hpick next
  unfold Scan.header
  cases hcase : x.comState with
  | id =>
      rw [Scan.id, if_pos hcase]
      exact hdrop _ (hdrop _ (hdrop _ (hpick _) _ _) _ _) _ _
  | size1 =>
      rw [hkeep (by simp [hcase])]
      exact hdrop _ (hdrop _ (hcase ▸ htake _) _ _) _ _
  | size2 =>
      rw [hkeep (by simp [hcase]), hskip _ _ (by simp [hcase])]
      exact hdrop _ (hcase ▸ htake _) _ _
  | size3 =>
      rw [hkeep (by simp [hcase]), hskip _ _ (by simp [hcase]), hskip _ _ (by simp [hcase])]
      exact hcase ▸ htake _
  | data => exact absurd hcase hstate

theorem Scan.lenght_header_le (hbyte : x.lenght < 256) (hpos : x.comState = .id → x.lenght ≠ 0) :
    x.header.lenght ≤ x.lenght := by
  by_cases hzero : x.lenght = 0
  -- without a byte every field is passed over
  · have hkeep : x.id = x := if_neg fun hid => hpos hid hzero
    have hskip : ∀ field next, x.size field next = x := fun _ _ =>
      if_neg fun hread => hread.2 hzero
    rw [Scan.header, hkeep, hskip, hskip, hskip]
  · by_cases hstate : x.comState = .data
    · have hkeep : x.id = x := if_neg (by simp [hstate])
      have hskip : ∀ field next, field ≠ .data → x.size field next = x := fun _ _ hne =>
        if_neg fun hread => hne (hread.1.symm.trans hstate)
      rw [Scan.header, hkeep, hskip _ _ (by decide), hskip _ _ (by decide),
        hskip _ _ (by decide)]
    · exact (Scan.lenght_header_lt hzero hbyte hstate).le

end Scan

/-! ## A pass -/

/-- A pass that is not at the id of a command, or has a byte left. -/
def Parser.Supplied (parser : Parser) (lenght : ℕ) : Prop := parser.comState = .id → lenght ≠ 0

/-- What a pass with a byte for the id does. -/
structure PassWithin (total offset lenght : ℕ) (memory : List Byte) (parser : Parser) :
    Prop where
  inside : ∀ access ∈ parser.accesses memory offset lenght, access.Inside total
  rest : (parser.scan offset lenght).offset +
    (parser.pass ⟨memory.drop offset, lenght⟩).cursor.lenght ≤ total
  progress : lenght ≠ 0 → (parser.pass ⟨memory.drop offset, lenght⟩).cursor.lenght < lenght
  zero : lenght = 0 → (parser.pass ⟨memory.drop offset, lenght⟩).cursor.lenght = 0

theorem availableSize_le (parser : Parser) (lenght : ℕ) : parser.availableSize lenght ≤ lenght := by
  unfold Parser.availableSize
  split_ifs with hshort
  · exact le_rfl
  · exact Nat.not_lt.mp hshort

theorem pass_within {total offset lenght : ℕ} {memory : List Byte} {parser : Parser}
    (hfits : parser.Fits) (hrest : offset + lenght ≤ total) (hbyte : lenght < 256)
    (hsupplied : parser.Supplied lenght) : PassWithin total offset lenght memory parser := by
  have hfollows := parser.scan_follows memory offset lenght
  have hscan : (parser.scan offset lenght).Within total :=
    Scan.Within.header ⟨fun _ hmem => (List.not_mem_nil hmem).elim, hrest, hbyte⟩ hsupplied
  have hle : (parser.scan offset lenght).lenght ≤ lenght :=
    Scan.lenght_header_le (x := ⟨parser.comState, offset, lenght, []⟩) hbyte hsupplied
  have hlt : lenght ≠ 0 → parser.comState ≠ .data → (parser.scan offset lenght).lenght < lenght :=
    fun hpos hstate => Scan.lenght_header_lt hpos hbyte hstate
  have hcursor : (parser.pass ⟨memory.drop offset, lenght⟩).cursor.lenght =
      if (parser.scan offset lenght).comState = .data then
        (parser.scan offset lenght).lenght -
          (readHeader parser ⟨memory.drop offset, lenght⟩).1.availableSize
            (parser.scan offset lenght).lenght
      else (parser.scan offset lenght).lenght := by
    rw [Parser.pass, hfollows.comState]
    generalize readHeader parser ⟨memory.drop offset, lenght⟩ = y at hfollows ⊢
    obtain ⟨parser', c⟩ := y
    -- the cursor is where the scan is, and the data is taken from there
    obtain rfl : c = _ := hfollows.cursor
    simp only [takeData, Parser.availableSize]
    split_ifs
    · simp
    · rfl
    · rfl
  have havailable := availableSize_le (readHeader parser ⟨memory.drop offset, lenght⟩).1
    (parser.scan offset lenght).lenght
  have hwithin := hscan.rest
  refine ⟨fun access hmem => ?_, ?_, fun hpos => ?_, fun hzero => ?_⟩
  · simp only [Parser.accesses] at hmem
    split_ifs at hmem with hdata
    · rcases List.mem_append.mp hmem with hmem | hmem
      · exact hscan.accesses access hmem
      · obtain rfl := List.mem_singleton.mp hmem
        simp only [Access.Inside]
        omega
    · exact hscan.accesses access hmem
  · rw [hcursor]
    split_ifs
    · omega
    · omega
  · rw [hcursor]
    by_cases hstate : parser.comState = .data
    · have hheader : readHeader parser ⟨memory.drop offset, lenght⟩ =
          (parser, ⟨memory.drop offset, lenght⟩) := by
        simp [readHeader, readId, readSize1, readSize2, readSize3, hstate]
      have hstay : parser.scan offset lenght = ⟨.data, offset, lenght, []⟩ := by
        simp [Parser.scan, Scan.header, Scan.id, Scan.size, hstate]
      -- in the data of a command at least one byte is lacking
      simp only [Parser.Fits, hstate] at hfits
      rw [hheader, hstay, if_pos rfl]
      simp only [Parser.availableSize]
      split_ifs
      · omega
      · omega
    · have := hlt hpos hstate
      split_ifs
      · omega
      · omega
  · rw [hcursor]
    split_ifs
    · omega
    · omega

/-! ## What packets leave -/

/-- The parser of the session is sound. -/
def Session.Sound (s : Session) : Prop := s.parser.Fits

section Sound

variable {t : Target} {env : Env}

theorem admits_sound : Admits fun s s' => s.Sound → s'.Sound where
  refl _ h := h
  trans _ _ _ h₁ h₂ h := h₂ (h₁ h)
  emit _ _ _ h := h
  happen _ _ h := h
  close _ h := h
  position _ _ _ h := h
  key _ _ h := h

theorem moves_sound_iff {α : Type} {m : Com α} :
    Moves (fun s s' => s.Sound → s'.Sound) m ↔
      Leads Session.Sound Session.Sound Session.Sound m := by
  constructor
  · intro h p s hs
    exact wp_mono (h p s) (fun _ _ _ h => h hs) (fun _ _ h => h hs) fun _ _ => id
  · intro h p s
    by_cases hs : s.Sound
    · exact wp_mono (h p s hs) (fun _ _ _ h _ => h) (fun _ _ h _ => h) fun _ _ => id
    · exact wp_always m (fun _ _ _ h => absurd h hs) fun _ _ h => absurd h hs

theorem comExec_sound
    (hpoll : ∀ sender, Leads Session.Sound Session.Sound Session.Sound (env.poll sender))
    (hscreen : Leads Session.Sound Session.Sound Session.Sound env.screen) (data : List Byte) :
    Leads Session.Sound Session.Sound Session.Sound (comExec t env data) :=
  moves_sound_iff.mp (comExec_moves admits_sound (fun sender => moves_sound_iff.mpr (hpoll sender))
    (moves_sound_iff.mpr hscreen) data)

theorem comAbort_sound
    (hpoll : ∀ sender, Leads Session.Sound Session.Sound Session.Sound (env.poll sender)) :
    Leads Session.Sound Session.Sound Session.Sound (comAbort env) :=
  moves_sound_iff.mp
    (comAbort_moves admits_sound fun sender => moves_sound_iff.mpr (hpoll sender))

theorem PassFrom.fits {parser : Parser} {pass : Pass} (h : PassFrom parser pass) :
    pass.parser.Fits := by
  cases hcall : pass.call with
  | none => exact (h.header hcall).2.2
  | some call => exact (h.call call hcall).1.parserFits

section Loop

variable {exec : List Byte → Com Unit} {abort : Com Unit}
  (hexec : ∀ data, Leads Session.Sound Session.Sound Session.Sound (exec data))
include hexec

theorem processPass_sound {c : Cursor} {p : Image} {s : Session} (hbyte : c.lenght < 256)
    (hmemory : (c.lenght + 255) % 256 < c.data.length) (h : s.Sound) :
    wp (processPass exec c)
      (fun c' _ s' => s'.Sound ∧ c' = (s.parser.pass c).cursor ∧ c'.lenght ≤ c'.data.length ∧
        c'.lenght < 256)
      (fun _ s' => s'.Sound) (fun _ _ => True) p s := by
  have hpass := pass_from (c := c) h hbyte hmemory
  simp only [processPass, wp_bind, wp_noteStart, wp_ram, wp_modifySession, wp_pure,
    Session.noted_parser]
  cases hcall : (s.parser.pass c).call with
  | none => exact (wp_pure _).mpr ⟨hpass.fits, trivial, hpass.memory, hpass.byte⟩
  | some call =>
      rw [callExec, wp_bind, wp_modifySession]
      exact wp_imp (hexec call.data p _ hpass.fits)
        fun _ _ _ h => ⟨h, trivial, hpass.memory, hpass.byte⟩

theorem processLoop_sound {fuel : ℕ} {c : Cursor} (hbyte : c.lenght < 256)
    (hmemory : (c.lenght + 255) % 256 < c.data.length) :
    Leads Session.Sound Session.Sound Session.Sound (processLoop exec fuel c) := by
  induction fuel generalizing c with
  | zero => exact .hang fun _ h => h
  | succ fuel ih =>
      intro p s h
      rw [processLoop, wp_bind]
      refine wp_imp (processPass_sound hexec hbyte hmemory h) fun c' p₁ s₁ hpost => ?_
      obtain ⟨h₁, -, hle, hbyte'⟩ := hpost
      rw [wp_ite, wp_pure]
      exact ⟨fun _ => h₁, fun hmore => ih hbyte' (by omega) p₁ s₁ h₁⟩

/-- The accesses of the loop, when its first pass has what it picks. -/
theorem loopAccesses_inPacket {memory : List Byte} {total fuel offset lenght : ℕ} {p : Image}
    {s : Session} (h : s.Sound) (hrest : offset + lenght ≤ total) (hbyte : lenght < 256)
    (hmemory : (lenght + 255) % 256 < (memory.drop offset).length)
    (hsupplied : s.parser.Supplied lenght) (hfuel : lenght < fuel) :
    InPacket total (loopAccesses exec memory fuel offset lenght p s) := by
  induction fuel generalizing offset lenght p s with
  | zero => exact absurd hfuel (Nat.not_lt_zero _)
  | succ fuel ih =>
      have hwithin : PassWithin total offset lenght memory s.parser :=
        pass_within h hrest hbyte hsupplied
      have hpass := processPass_sound (p := p) (c := ⟨memory.drop offset, lenght⟩) hexec hbyte
        hmemory h
      rw [loopAccesses]
      cases hrun : processPass exec ⟨memory.drop offset, lenght⟩ p s with
      | mk trace s' result =>
          cases result with
          | none =>
              refine ⟨hwithin.inside, ?_, fun left hleft => Outcome.noConfusion hleft⟩
              exact fun hout => Outcome.noConfusion hout
          | some c =>
              obtain ⟨h', rfl, hle, hbyte'⟩ := wp_completes hpass
                ⟨by rw [hrun], rfl, rfl⟩
              rw [hrun] at h'
              simp only
              split_ifs with hzero
              · refine ⟨hwithin.inside, fun hout => Outcome.noConfusion hout, fun left hleft => ?_⟩
                rw [← Outcome.ended.inj hleft, hzero]
              · have hprogress := hwithin.progress fun hnone => hzero (hwithin.zero hnone)
                obtain ⟨left, hcursor⟩ := @pass_cursor memory s.parser offset lenght
                have hrest' := hwithin.rest
                rw [hcursor] at hle hbyte' hzero hprogress hrest' ⊢
                have hnext := ih (p := replay p trace) h' hrest' hbyte'
                  (by simp only at hle hzero ⊢; omega) (fun _ => hzero)
                  (by simp only at hprogress ⊢; omega)
                -- the accesses of this pass, and those of the passes behind it
                refine ⟨fun access hmem => ?_, hnext.ends, hnext.remaining⟩
                rcases List.mem_append.mp hmem with hmem | hmem
                · exact hwithin.inside access hmem
                · exact hnext.inside access hmem

end Loop

section Packet

variable (hpoll : ∀ sender, Leads Session.Sound Session.Sound Session.Sound (env.poll sender))
include hpoll

theorem abortLate_sound :
    Leads Session.Sound Session.Sound Session.Sound (abortLate (comAbort env)) :=
  .ram fun _ hs => .ite
    (fun _ => .bind ((comAbort_sound hpoll).imp fun _ h => h ▸ hs) fun _ =>
      .modify fun _ _ => trivial)
    fun _ => (Leads.pure ()).imp fun _ h => h ▸ hs

theorem comProcessData_sound
    (hscreen : Leads Session.Sound Session.Sound Session.Sound env.screen) {data : List Byte}
    {lenght : ℕ} (hbyte : lenght < 256) (hmemory : (lenght + 255) % 256 < data.length) :
    Leads Session.Sound Session.Sound Session.Sound (comProcessData t env data lenght) :=
  .bind (abortLate_sound hpoll) fun _ => .bind (.modify fun _ h => h) fun _ =>
    processLoop_sound (comExec_sound hpoll hscreen) hbyte hmemory

end Packet

theorem background_sound {w : World} {m : Com Unit} (hm : Background t w m) :
    Leads Session.Sound Session.Sound Session.Sound m := by
  refine Background.leads (fun _ _ _ _ _ hpoll hscreen hbyte hmemory =>
    comProcessData_sound hpoll hscreen hbyte hmemory) (fun _ _ h => h) (fun _ _ _ _ h => h)
    (fun _ _ _ _ h => h) (fun m _ p s h => ?_) hm
  rw [wp_liftDev]
  exact wp_always m (fun _ _ _ => h) fun _ _ => h

/-- Whatever packets have come, the parser is sound. -/
theorem Reachable.sound {w : World} {p : Image} {s : Session} (h : Reachable t w p s) : s.Sound :=
  h.invariant (J := Session.Sound) (fun _ => trivial) (fun _ => background_sound) fun _ _ h => h

end Sound

/-! ## A packet that has nothing for the id -/

theorem Scan.accesses_subset_size (x : Scan) (field next : ComState) :
    x.accesses ⊆ (x.size field next).accesses := by
  unfold Scan.size
  split_ifs
  · exact List.subset_append_left _ _
  · exact List.Subset.refl _

/-- The id is read from outside. -/
theorem pick_mem_accesses {parser : Parser} (hid : parser.comState = .id) (memory : List Byte)
    (offset : ℕ) : .pick offset 0 ∈ parser.accesses memory offset 0 := by
  have hpick : .pick offset 0 ∈ (⟨parser.comState, offset, 0, []⟩ : Scan).id.accesses := by
    rw [Scan.id, if_pos hid]
    exact List.mem_singleton.mpr rfl
  have hscan : .pick offset 0 ∈ (parser.scan offset 0).accesses :=
    Scan.accesses_subset_size _ _ _ (Scan.accesses_subset_size _ _ _
      (Scan.accesses_subset_size _ _ _ hpick))
  simp only [Parser.accesses]
  split_ifs
  · exact List.mem_append_left _ hscan
  · exact hscan

theorem loopAccesses_not_inPacket {exec : List Byte → Com Unit} {memory : List Byte}
    {fuel offset : ℕ} {p : Image} {s : Session} (hid : s.parser.comState = .id) (total : ℕ) :
    ¬InPacket total (loopAccesses exec memory (fuel + 1) offset 0 p s) := by
  intro hin
  have hpick := pick_mem_accesses hid memory offset
  refine (hin.inside (.pick offset 0) ?_).2 rfl
  rw [loopAccesses]
  cases processPass exec ⟨memory.drop offset, 0⟩ p s with
  | mk trace s' result =>
      cases result with
      | none => exact hpick
      | some c =>
          simp only
          split_ifs
          · exact hpick
          · exact List.mem_append_left _ hpick

/-! ## The theorem -/

/-- A command in the middle of which the host has been silent for too long is given
up: before the packet is read, the parser is then at the id. -/
def Session.GivesUp (s : Session) : Prop := s.timedOut = true ∧ s.parser.comState ≠ .id

theorem abortLate_of_not_givesUp {abort : Com Unit} {p : Image} {s : Session} (h : ¬s.GivesUp) :
    abortLate abort p s = ⟨[], s, some ()⟩ := by
  rw [abortLate, bind_silent (show Program.ram p s = ⟨[], s, some s⟩ from rfl)]
  rw [if_neg (show ¬(s.timedOut = true ∧ s.parser.comState ≠ .id) from h)]
  rfl

theorem abortLate_of_givesUp {abort : Com Unit} {p : Image} {s : Session} (h : s.GivesUp) :
    wp (abortLate abort) (fun _ _ s' => s'.parser.comState = .id) (fun _ _ => True)
        (fun _ _ => True) p s ∧
      ((abortLate abort p s).result = some () ↔ (abort p s).result = some ()) := by
  have hlate : s.timedOut = true ∧ s.parser.comState ≠ .id := h
  constructor
  · rw [abortLate, wp_bind, wp_ram, if_pos hlate, wp_bind]
    refine wp_always abort (fun _ _ _ => ?_) fun _ _ => trivial
    rw [wp_modifySession]
  · rw [abortLate, bind_silent (show Program.ram p s = ⟨[], s, some s⟩ from rfl), if_pos hlate]
    show (Program.bind abort _ p s).result = some () ↔ _
    unfold Program.bind
    cases abort p s with
    | mk trace s' result => cases result with
        | none => simp
        | some _ => exact ⟨fun _ => rfl, fun _ => rfl⟩

/-- For every parser that packets leave and every packet, whatever the user, the
host and the rest of the firmware do while the commands are carried out: the bytes
that are read and those that are presented to `com_exec` are inside the packet, and
the loop ends with no byte left, if and only if the packet has a byte or the parser
is not at the id of a command.  A parser that gives a command up is, once
`com_abort` has returned. -/
theorem packet_inside_iff (t : Target) {p : Image} {s : Session} (hs : Reachable t .any p s)
    {env : Env} (hpoll : ∀ sender, Background t .any (env.poll sender))
    (hscreen : Background t .any env.screen) {memory : List Byte} {lenght : ℕ}
    (hbyte : lenght < 256) (hmemory : (lenght + 255) % 256 < memory.length) :
    InPacket lenght (comProcessAccesses t env memory lenght p s) ↔
      lenght ≠ 0 ∨ s.parser.comState ≠ .id ∧
        (s.GivesUp → ¬∃ p' s', Completes (comAbort env) p s () p' s') := by
  have hsound := hs.sound
  have hexec := @comExec_sound t env (fun sender => background_sound (hpoll sender))
    (background_sound hscreen)
  have hloop : ∀ p₁ s₁, s₁.Sound → s₁.parser.Supplied lenght →
      InPacket lenght (loopAccesses (comExec t env) memory passes 0 lenght p₁ s₁) :=
    fun p₁ s₁ h₁ hsupplied => loopAccesses_inPacket hexec h₁ (Nat.zero_add _).le hbyte
      (by rwa [List.drop_zero]) hsupplied (hbyte.trans (by decide))
  have hcompletes : (∃ p' s', Completes (comAbort env) p s () p' s') ↔
      (comAbort env p s).result = some () :=
    ⟨fun ⟨_, _, hrun⟩ => hrun.1, fun hresult => ⟨_, _, hresult, rfl, rfl⟩⟩
  rw [hcompletes]
  unfold comProcessAccesses processAccesses
  by_cases hgives : s.GivesUp
  · obtain ⟨hid, hreturns⟩ := @abortLate_of_givesUp (comAbort env) p s hgives
    have hkept := abortLate_sound (fun sender => background_sound (hpoll sender)) p s hsound
    cases hrun : abortLate (comAbort env) p s with
    | mk trace s' result =>
        rw [hrun] at hreturns
        cases result with
        | none =>
            refine ⟨fun _ => .inr ⟨hgives.2, fun _ hresult => ?_⟩, fun _ => ⟨?_, nofun, nofun⟩⟩
            · exact absurd (hreturns.mpr hresult) nofun
            · exact fun _ hmem => (List.not_mem_nil hmem).elim
        | some _ =>
            have hcompleted : Completes (abortLate (comAbort env)) p s () (replay p trace) s' :=
              ⟨by rw [hrun], by rw [hrun], by rw [hrun]⟩
            replace hid := wp_completes hid hcompleted
            replace hkept := wp_completes hkept hcompleted
            constructor
            · intro hin
              by_contra hnot
              rw [not_or, not_not] at hnot
              obtain ⟨rfl, -⟩ := hnot
              exact loopAccesses_not_inPacket (s := { s' with timedOut := false }) hid 0 hin
            · rintro (hpos | ⟨-, hnever⟩)
              · exact hloop _ _ hkept fun _ => hpos
              · exact absurd (hreturns.mp rfl) (hnever hgives)
  · rw [abortLate_of_not_givesUp hgives]
    constructor
    · intro hin
      by_cases hzero : lenght = 0
      · subst hzero
        refine .inr ⟨fun hid => ?_, fun hgives' => absurd hgives' hgives⟩
        exact loopAccesses_not_inPacket (s := { s with timedOut := false }) hid 0 hin
      · exact .inl hzero
    · rintro (hpos | ⟨hstate, -⟩)
      · exact hloop _ _ hsound fun _ => hpos
      · exact hloop _ _ hsound fun hid => absurd hid hstate

/-! ## Concrete packets -/

theorem reachable_fresh (t : Target) (w : World) : Reachable t w .zero .fresh := .boot _ _

/-- `COM_GET_VERSION`, alone in its packet. -/
theorem packet_inside_iff_version :
    InPacket 4 (comProcessAccesses ⟨.exact, .xorKey⟩ .patient [0x13, 0, 0, 0] 4 .zero .fresh) :=
  (packet_inside_iff ⟨.exact, .xorKey⟩ (reachable_fresh _ _) (fun _ => .idle) .idle (by decide)
    (by decide)).mpr (.inl (by decide))

/-- A packet without bytes, after a reset: the byte behind it is read as an id, and
255 more are then taken to be left. -/
theorem empty_packet_outside :
    Reachable ⟨.exact, .xorKey⟩ .any .zero .fresh ∧
      (comProcessAccesses ⟨.exact, .xorKey⟩ .patient (List.replicate 256 0) 0 .zero .fresh).1.take 2
        = [.pick 0 0, .pick 1 255] ∧
      ¬InPacket 0
        (comProcessAccesses ⟨.exact, .xorKey⟩ .patient (List.replicate 256 0) 0 .zero .fresh) := by
  have hreads : (comProcessAccesses ⟨.exact, .xorKey⟩ .patient (List.replicate 256 0) 0 .zero
      .fresh).1.take 2 = [.pick 0 0, .pick 1 255] := by decide +kernel
  refine ⟨reachable_fresh _ _, hreads, fun hin => (hin.inside (.pick 0 0) ?_).2 rfl⟩
  refine List.mem_of_mem_take (i := 2) ?_
  rw [hreads]
  exact List.mem_cons_self ..

end PasswordWallet
