import PasswordWallet.Options.Entries
import PasswordWallet.Options.TypedActions
import PasswordWallet.Proofs.TypedText

/-!
# The buffers of the editor

What the menus store is text with zeros behind it (`Legible`), and what
`password_read_data`, `password_read_usr_name` and `password_read_name` return for it
is that text again.  It need not end before its field does: a regenerated password
takes all 32 places, and so may what has been typed.

So each call of `type_string` stays in its buffer exactly if the text leaves two
places free and the cursor never goes on to the last place, whatever has been stored
before, and by what actions.
-/

namespace PasswordWallet

open PowerLoss TextEditing

variable {t : Target} {fuel : ℕ} {p p' p₀ : Image} {v v' v₀ : Ram}

/-! ## Texts -/

/-- A text with zeros behind it. -/
def Text (size : ℕ) (bytes : List Byte) : Prop :=
  ∃ text : List Letter, text.length ≤ size ∧ bytes = letterCode.plain size text []

theorem text_emptyText (size : ℕ) : Text size (emptyText size) :=
  ⟨[], Nat.zero_le _, by simp [Code.plain, emptyText, letterCode]⟩

theorem plain_append {size : ℕ} (text : List Letter) (beyond : List Byte) :
    letterCode.plain size text [] ++ beyond = letterCode.plain size text beyond := by
  simp [Code.plain]

theorem length_plain {size : ℕ} {text : List Letter} (hlength : text.length ≤ size) :
    (letterCode.plain size text []).length = size := by
  simp only [Code.plain, List.append_nil, List.length_append, List.length_map,
    List.length_replicate]
  omega

theorem zero_mem_plain_take {size n : ℕ} {text : List Letter} (hlength : text.length ≤ size)
    (hn : n ≤ size) : 0 ∈ (letterCode.plain size text []).take n ↔ text.length < n := by
  have hletters : ∀ m, 0 ∉ (text.map Letter.char).take m := by
    intro m hmem
    obtain ⟨a, -, ha⟩ := List.mem_map.mp (List.mem_of_mem_take hmem)
    exact a.ne_zero ha
  rw [Code.plain, List.append_nil, List.take_append, List.mem_append, List.length_map]
  show 0 ∈ (text.map Letter.char).take n ∨ _ ↔ _
  rw [List.take_replicate, or_iff_right (hletters n), List.mem_replicate]
  constructor
  · intro h
    have := h.1
    omega
  · intro hlt
    exact ⟨by omega, rfl⟩

/-- Padding is all there is behind a text. -/
theorem cleared_text {size : ℕ} {bytes : List Byte} (h : Text size bytes) :
    cleared bytes = bytes := by
  obtain ⟨text, hlength, rfl⟩ := h
  have hfront : (letterCode.plain size text []).takeWhile (fun byte => 32 ≤ byte.toNat) =
      text.map Letter.char := by
    rw [Code.plain, List.append_nil, List.takeWhile_append_of_pos]
    · rw [List.takeWhile_replicate_eq_filter, List.filter_replicate, if_neg (by decide)]
      exact List.append_nil _
    · intro byte hmem
      obtain ⟨a, -, rfl⟩ := List.mem_map.mp hmem
      exact decide_eq_true a.low
  rw [cleared, hfront, length_plain hlength, List.length_map, Code.plain, List.append_nil]
  rfl

/-- A full text of printable characters. -/
theorem text_of_printable {bytes : List Byte}
    (h : ∀ byte ∈ bytes, 32 ≤ byte.toNat ∧ byte.toNat ≤ 125) : Text bytes.length bytes := by
  obtain ⟨text, rfl⟩ := exists_letters h
  exact ⟨text, by simp, by simp [Code.plain, letterCode]⟩

/-! ## Calls -/

namespace Sitting

variable {size : ℕ} {text : List Letter} {s : Sitting}

/-- What the editor returns for a text that is shorter than its buffer. -/
theorem typed_spec (hbyte : size < 256) (hlength : text.length < size)
    {bytes : Vector Byte size}
    (htyped : s.typed size (letterCode.plain size text []) = some bytes) :
    ∃ typed : List Letter, typed.length ≤ size ∧
      bytes.toList = letterCode.plain size typed [] ∧
      shownText (((Editor.start size (letterCode.plain size text [] ++ s.beyond)).loop size
        s.events).memory.take size) = typed.map Letter.char := by
  obtain ⟨hlegible, -, -⟩ := @Editor.legible_start size s.beyond text hbyte hlength
  have hreturned := (hlegible.loop hbyte s.events).returned
  unfold typed editor at htyped
  rw [plain_append] at htyped ⊢
  split_ifs at htyped with hrunning
  obtain ⟨typed, hle, -, hfront, hmemory⟩ :=
    hreturned.typed (Bool.eq_false_of_not_eq_true hrunning)
  obtain rfl := Option.some.inj htyped
  refine ⟨typed, hle, ?_, hfront⟩
  have hplain := length_plain hle
  refine List.ext_getElem (by simpa using hplain.symm) fun i hi hi' => ?_
  have hchar : (typeString size s.events (letterCode.plain size text s.beyond)).char i =
      (letterCode.plain size typed [] ++ s.beyond).getD i 0 := by
    rw [Editor.char, typeString, hmemory, plain_append]
  simp only [Vector.getElem_toList, Vector.getElem_ofFn, hchar]
  rw [List.getD_eq_getElem?_getD, List.getElem?_append_left hi', List.getElem?_eq_getElem hi']
  rfl

theorem stopped_of_typed {bytes : Vector Byte size} {str : List Byte}
    (h : s.typed size str = some bytes) : (s.editor size str).running = false := by
  unfold typed at h
  split_ifs at h with hrunning
  exact Bool.eq_false_of_not_eq_true hrunning

theorem typed_of_typing {bytes : Vector Byte size} {str : List Byte}
    (h : s.typing size str = some bytes) : s.typed size str = some bytes := by
  unfold typing at h
  split_ifs at h
  exact h

end Sitting

namespace UserAction

/-- All accesses of the call are in its buffer. -/
def Call.Inside (call : Call) : Prop :=
  (call.sitting.editor call.maxLen call.text).Inside call.maxLen

/-- The text leaves two places free, and the cursor never goes on to the last place. -/
def Call.Roomy (call : Call) : Prop :=
  0 ∈ call.text.take (call.maxLen - 1) ∧
    (Editor.start call.maxLen (call.text ++ call.sitting.beyond)).KeepsRoom call.maxLen
      call.sitting.events

theorem Call.inside_iff {call : Call} (hbyte : call.maxLen < 256)
    (htext : Text call.maxLen call.text) : call.Inside ↔ call.Roomy := by
  obtain ⟨text, hlength, heq⟩ := htext
  unfold Call.Inside Call.Roomy Sitting.editor
  rw [heq, plain_append, zero_mem_plain_take hlength (Nat.sub_le _ _),
    typeString_inside_iff hbyte call.sitting.events hlength]
  exact and_congr_left fun _ => by omega

end UserAction

/-! ## Stores -/

/-- All three texts of an entry are texts with zeros behind them. -/
structure Entry.Legible (e : Entry) : Prop where
  name : Text 32 e.name
  data : Text 32 e.data
  usrName : Text 64 e.usrName

/-- What the used chunks say is legible. -/
def LegibleStore (t : Target) (p : Image) (v : Ram) : Prop :=
  ∀ id < maximumNumberOfPwd, p.used id = true → (readEntry t v.key id p).Legible

theorem MenuInvariant.current_used (h : MenuInvariant t p v) (hnum : v.numPwd ≠ 0) :
    v.currentPasswordId < maximumNumberOfPwd ∧ p.used v.currentPasswordId = true := by
  obtain ⟨use, alpha, hwell, -, hcurrent⟩ := h.store
  rcases hcurrent with ⟨hnil, -⟩ | hmem
  · exact absurd (hwell.numPwd.trans (by rw [hnil]; rfl)) hnum
  · exact hwell.mem_use_iff.mp hmem

/-- The editor is only ever called on a text with zeros behind it. -/
theorem UserAction.calls_text {action : UserAction} (h : MenuInvariant t p v)
    (hlegible : LegibleStore t p v) (hpwd : action.OnPwd → v.numPwd ≠ 0) :
    ∀ call ∈ action.calls t p v, call.maxLen < 256 ∧ Text call.maxLen call.text := by
  have hcurrent : action.OnPwd → (currentEntry t v p).Legible := fun honPwd =>
    let ⟨hid, hused⟩ := h.current_used (hpwd honPwd)
    hlegible _ hid hused
  intro call hcall
  cases action with
  | addPwd name data usrName =>
      have hsub : (UserAction.addPwd name data usrName).calls t p v ⊆
          [⟨32, emptyText 32, name⟩, ⟨32, emptyText 32, data⟩, ⟨64, emptyText 64, usrName⟩] := by
        rw [calls]
        split_ifs <;> simp
      have hmem := hsub hcall
      simp only [List.mem_cons, List.not_mem_nil, or_false] at hmem
      rcases hmem with hcall | hcall | hcall
      · exact hcall ▸ ⟨by show 32 < 256; decide, text_emptyText 32⟩
      · exact hcall ▸ ⟨by show 32 < 256; decide, text_emptyText 32⟩
      · exact hcall ▸ ⟨by show 64 < 256; decide, text_emptyText 64⟩
  | changeName name =>
      obtain rfl := List.mem_singleton.mp hcall
      exact ⟨by show 32 < 256; decide, (hcurrent trivial).name⟩
  | changePwd pwd =>
      obtain rfl := List.mem_singleton.mp hcall
      exact ⟨by show 32 < 256; decide, (hcurrent trivial).data⟩
  | changeUsrName usr =>
      obtain rfl := List.mem_singleton.mp hcall
      exact ⟨by show 64 < 256; decide, (hcurrent trivial).usrName⟩
  | other action untyped => exact absurd hcall List.not_mem_nil

/-- What is typed into a roomy buffer is a text. -/
theorem UserAction.Call.Roomy.typed_text {size : ℕ} {str : List Byte} {s : Sitting}
    (hroomy : (⟨size, str, s⟩ : Call).Roomy) (hbyte : size < 256) (htext : Text size str)
    {bytes : Vector Byte size} (htyped : s.typed size str = some bytes) :
    Text size bytes.toList := by
  obtain ⟨text, hlength, rfl⟩ := htext
  have hroom := (zero_mem_plain_take hlength (Nat.sub_le size 1)).mp hroomy.1
  obtain ⟨typed, hle, hbytes, -⟩ := Sitting.typed_spec hbyte (by omega) htyped
  exact ⟨typed, hle, hbytes⟩

/-- What an action writes is legible if its calls of the editor are roomy. -/
theorem UserAction.writes_legible {action : UserAction} {menu : MenuAction} {e : Entry}
    (h : MenuInvariant t p v) (hlegible : LegibleStore t p v)
    (hpwd : action.OnPwd → v.numPwd ≠ 0) (hmenu : action.menu = some menu)
    (hroomy : ∀ call ∈ action.calls t p v, call.Roomy) (hwrites : menu.Writes t p v e) :
    e.Legible := by
  have htexts := action.calls_text h hlegible hpwd
  have hcurrent : action.OnPwd → (currentEntry t v p).Legible := fun honPwd =>
    let ⟨hid, hused⟩ := h.current_used (hpwd honPwd)
    hlegible _ hid hused
  have hzeros : ∀ {size : ℕ} {bytes : List Byte}, Text size bytes → Text size (cleared bytes) :=
    fun htext => by rwa [cleared_text htext]
  cases action with
  | addPwd name data usrName =>
      simp only [UserAction.menu, Option.bind_eq_bind, Option.bind_eq_some_iff,
        Option.pure_def, Option.some.injEq] at hmenu
      obtain ⟨pwdName, hname, pwdData, hdata, usr, husr, hmenu⟩ := hmenu
      subst hmenu
      obtain ⟨hroom, rfl⟩ := hwrites
      have hcalls : (UserAction.addPwd name data usrName).calls t p v =
          [⟨32, emptyText 32, name⟩, ⟨32, emptyText 32, data⟩, ⟨64, emptyText 64, usrName⟩] := by
        rw [calls, if_neg hroom, if_neg (by rw [Sitting.stopped_of_typed hname]; decide),
          if_neg (by rw [Sitting.stopped_of_typed hdata]; decide)]
      rw [hcalls] at hroomy
      simp only [List.forall_mem_cons] at hroomy
      obtain ⟨hroomyName, hroomyData, hroomyUsr, -⟩ := hroomy
      exact ⟨hroomyName.typed_text (by decide) (text_emptyText 32) hname,
        hzeros (hroomyData.typed_text (by decide) (text_emptyText 32) hdata),
        hzeros (hroomyUsr.typed_text (by decide) (text_emptyText 64) husr)⟩
  | changeName name =>
      obtain rfl := Option.some.inj hmenu
      obtain ⟨typed, htyped, rfl⟩ := hwrites
      have hcall := List.mem_singleton_self (⟨32, (currentEntry t v p).name, name⟩ : Call)
      have hold := hcurrent trivial
      exact ⟨(hroomy _ hcall).typed_text (by decide) hold.name (Sitting.typed_of_typing htyped),
        hold.data, hold.usrName⟩
  | changePwd pwd =>
      obtain rfl := Option.some.inj hmenu
      obtain ⟨typed, htyped, rfl⟩ := hwrites
      have hcall := List.mem_singleton_self (⟨32, (currentEntry t v p).data, pwd⟩ : Call)
      have hold := hcurrent trivial
      exact ⟨hold.name, hzeros ((hroomy _ hcall).typed_text (by decide) hold.data
        (Sitting.typed_of_typing htyped)), hold.usrName⟩
  | changeUsrName usr =>
      obtain rfl := Option.some.inj hmenu
      obtain ⟨typed, htyped, rfl⟩ := hwrites
      have hcall := List.mem_singleton_self (⟨64, (currentEntry t v p).usrName, usr⟩ : Call)
      have hold := hcurrent trivial
      exact ⟨hold.name, hold.data, hzeros ((hroomy _ hcall).typed_text (by decide) hold.usrName
        (Sitting.typed_of_typing htyped))⟩
  | other action untyped =>
      obtain rfl := Option.some.inj hmenu
      cases action with
      | addPwd name data usrName => exact absurd trivial untyped
      | changeName typing => exact absurd trivial untyped
      | changePwd typing => exact absurd trivial untyped
      | changeUsrName typing => exact absurd trivial untyped
      | regeneratePwd drawings confirmed =>
          obtain ⟨-, newPwd, hlength, hprintable, rfl⟩ := hwrites
          have hold := hcurrent trivial
          exact ⟨hold.name, hzeros (hlength ▸ text_of_printable hprintable), hold.usrName⟩
      | sendPwd =>
          obtain rfl := hwrites
          exact ⟨(hcurrent trivial).name, (hcurrent trivial).data, (hcurrent trivial).usrName⟩
      | sendBoth =>
          obtain rfl := hwrites
          exact ⟨(hcurrent trivial).name, (hcurrent trivial).data, (hcurrent trivial).usrName⟩
      | deletePwd confirmed => exact hwrites.elim
      | sendUsr => exact hwrites.elim
      | noSort => exact hwrites.elim
      | sortUse => exact hwrites.elim
      | sortAlpha => exact hwrites.elim

/-! ## Runs -/

theorem UserAction.onPwd_of_menu {action : UserAction} {menu : MenuAction}
    (hmenu : action.menu = some menu) (h : menu.OnPwd) : action.OnPwd := by
  cases action with
  | addPwd name data usrName =>
      simp only [UserAction.menu, Option.bind_eq_bind, Option.bind_eq_some_iff,
        Option.pure_def, Option.some.injEq] at hmenu
      obtain ⟨pwdName, -, pwdData, -, usr, -, rfl⟩ := hmenu
      exact h.elim
  | changeName name => trivial
  | changePwd pwd => trivial
  | changeUsrName usr => trivial
  | other action untyped => exact Option.some.inj hmenu ▸ h

theorem UserAction.fits_of_menu {action : UserAction} {menu : MenuAction}
    (hmenu : action.menu = some menu) (h : action.Fits t v) : menu.Fits t v := by
  cases action with
  | addPwd name data usrName =>
      simp only [UserAction.menu, Option.bind_eq_bind, Option.bind_eq_some_iff,
        Option.pure_def, Option.some.injEq] at hmenu
      obtain ⟨pwdName, -, pwdData, -, usr, -, rfl⟩ := hmenu
      exact h
  | changeName name =>
      obtain rfl := Option.some.inj hmenu
      trivial
  | changePwd pwd =>
      obtain rfl := Option.some.inj hmenu
      trivial
  | changeUsrName usr =>
      obtain rfl := Option.some.inj hmenu
      trivial
  | other action untyped =>
      obtain rfl := Option.some.inj hmenu
      cases action with
      | addPwd name data usrName => exact absurd trivial untyped
      | _ => trivial

/-- An action at the editor has done nothing yet, or does what the action of the menu
does. -/
theorem UserAction.act {action : UserAction} (hfits : action.Fits t v) (hfuel : sortTurns ≤ fuel)
    (h : MenuInvariant t p v) (hpwd : action.OnPwd → v.numPwd ≠ 0)
    (hrun : Completes (action.run t fuel) p v () p' v') :
    MenuInvariant t p' v' ∧ v'.key = v.key ∧
      ((action.menu = none ∧ p' = p) ∨
        ∃ menu, action.menu = some menu ∧ menu.Rewrites t p v p') := by
  unfold run at hrun
  cases hmenu : action.menu with
  | none =>
      rw [hmenu] at hrun
      have hnothing : wp (pure () : Dev Unit) (fun _ p' v' => p' = p ∧ v' = v) (fun _ _ => False)
          (fun _ _ => True) p v := (wp_pure _).mpr ⟨rfl, rfl⟩
      obtain ⟨hp, hv⟩ := wp_completes hnothing hrun
      subst hp hv
      exact ⟨h, rfl, Or.inl ⟨rfl, rfl⟩⟩
  | some menu =>
      rw [hmenu] at hrun
      have honPwd : menu.OnPwd → v.numPwd ≠ 0 := fun hon => hpwd (onPwd_of_menu hmenu hon)
      have hkey : LeavesKey (menu.run t fuel) := inferInstance
      have hmenuFits : menu.Fits t v := fits_of_menu hmenu hfits
      have haction := wp_menuAction hmenuFits hfuel h honPwd
      refine ⟨wp_completes (Q := fun _ p' v' => MenuInvariant t p' v') haction hrun,
        (wp_completes (Q := fun _ _ v' => SameKey v v') (hkey.wp_frame p v) hrun).1,
        Or.inr ⟨menu, rfl, ?_⟩⟩
      have hrewrites := wp_menuAction_rewrites hmenuFits hfuel h honPwd
      exact wp_completes (Q := fun _ p' _ => menu.Rewrites t p v p') hrewrites hrun

section Run

variable (hfuel : sortTurns ≤ fuel) (h₀ : Erased p₀ v₀) {log : List (Image × Ram × UserAction)}
  (hfits : ∀ x ∈ log, x.2.2.Fits t x.2.1)
include hfuel h₀ hfits

theorem MenuRun.invariant (hrun : MenuRun t fuel p₀ v₀ log p v) : MenuInvariant t p v := by
  induction hrun with
  | start => exact ⟨⟨[], [], h₀.wellFormed, ⟨.nil, .nil⟩, Or.inl ⟨rfl, h₀.currentPasswordId⟩⟩,
      h₀.sortingMethod⟩
  | act _ hpwd hact ih =>
      rw [List.forall_mem_append, List.forall_mem_singleton] at hfits
      exact (UserAction.act hfits.2 hfuel (ih hfits.1) hpwd hact).1
  | select _ hid hused ih => exact (ih hfits).select hid hused
  | volatile _ _ hnum hcurrent hmethod ih => exact (ih hfits).volatile hnum hcurrent hmethod

/-- As long as all calls of the editor have been roomy what is stored is legible. -/
theorem MenuRun.legible (hrun : MenuRun t fuel p₀ v₀ log p v)
    (hroomy : ∀ x ∈ log, ∀ call ∈ x.2.2.calls t x.1 x.2.1, call.Roomy) : LegibleStore t p v := by
  induction hrun with
  | start =>
      intro id hid hused
      have hin := (h₀.wellFormed (t := t)).mem_use_iff.mpr ⟨hid, hused⟩
      exact absurd hin List.not_mem_nil
  | @act log action p p' v v' hrun hpwd hact ih =>
      rw [List.forall_mem_append, List.forall_mem_singleton] at hfits hroomy
      have hbefore := ih hfits.1 hroomy.1
      have hcalls := hroomy.2
      have hinvariant := hrun.invariant hfuel h₀ hfits.1
      obtain ⟨-, hkey, hdone⟩ := UserAction.act hfits.2 hfuel hinvariant hpwd hact
      intro id hid hused
      rw [hkey]
      rcases hdone with ⟨-, rfl⟩ | ⟨menu, hmenu, hrewrites⟩
      · exact hbefore id hid hused
      · rcases hrewrites.entries id hid hused with ⟨hused', hsame⟩ | hwrites
        · rw [hsame]
          exact hbefore id hid hused'
        · exact UserAction.writes_legible hinvariant hbefore hpwd hmenu hcalls hwrites
  | select _ _ _ ih => exact ih hfits hroomy
  | volatile _ hkey _ _ _ ih =>
      intro id hid hused
      rw [hkey]
      exact ih hfits hroomy id hid hused

end Run

/-- In every run of the menus from an erased store, with passwords in chunks that lie where
their numbers say, and whatever is typed: all calls of `type_string` stay in their buffers
exactly if each of them is given a text that leaves two places free, and its cursor never
goes on to the last place. -/
theorem editor_inside_iff (hfuel : sortTurns ≤ fuel) (h₀ : Erased p₀ v₀)
    {log : List (Image × Ram × UserAction)} (hrun : MenuRun t fuel p₀ v₀ log p v)
    (hfits : ∀ x ∈ log, x.2.2.Fits t x.2.1) :
    (∀ x ∈ log, ∀ call ∈ x.2.2.calls t x.1 x.2.1, call.Inside) ↔
      ∀ x ∈ log, ∀ call ∈ x.2.2.calls t x.1 x.2.1, call.Roomy := by
  induction hrun with
  | start => simp
  | @act log action p p' v v' hrun hpwd hact ih =>
      rw [List.forall_mem_append, List.forall_mem_singleton] at hfits
      simp only [List.forall_mem_append, List.forall_mem_singleton]
      rw [ih hfits.1]
      refine and_congr_right fun hroomy => forall₂_congr fun call hcall => ?_
      obtain ⟨hbyte, htext⟩ := action.calls_text (hrun.invariant hfuel h₀ hfits.1)
        (hrun.legible hfuel h₀ hfits.1 hroomy) hpwd call hcall
      exact UserAction.Call.inside_iff hbyte htext
  | select _ _ _ ih => exact ih hfits
  | volatile _ _ _ _ _ ih => exact ih hfits

/-- Adding the first password comes to an end, or is still at the editor. -/
theorem exists_completes_addPwd (hreach : t.Reaches v) (h₀ : Erased p v)
    (name data usrName : Sitting) :
    ∃ p' v', Completes ((UserAction.addPwd name data usrName).run t sortTurns) p v () p' v' := by
  unfold UserAction.run
  cases hmenu : (UserAction.addPwd name data usrName).menu with
  | none => exact ⟨_, _, rfl, rfl, rfl⟩
  | some menu =>
      simp only [UserAction.menu, Option.bind_eq_bind, Option.bind_eq_some_iff,
        Option.pure_def, Option.some.injEq] at hmenu
      -- all three editors have been left
      obtain ⟨name, -, data, -, usr, -, rfl⟩ := hmenu
      have hadd := wp_optCallbackAddPwd (h₀.wellFormed (t := t)) le_rfl hreach name data usr
      obtain ⟨_, p', v', hdone, -⟩ := exists_completes hadd
      exact ⟨p', v', hdone⟩

/-- On the AVR a password of one blank each is added to an erased store. -/
theorem editor_inside_iff_blank :
    let t : Target := ⟨.avr, .xorKey⟩
    let v := Ram.reset (fun _ => Vector.replicate 4 7) (Vector.replicate 16 0)
    let action := UserAction.addPwd ⟨[4, 2, 2], []⟩ ⟨[4, 2, 2], []⟩ ⟨[4, 2, 2], []⟩
    ∃ p' v', MenuRun t sortTurns .zero v [(.zero, v, action)] p' v' ∧
      ((∀ x ∈ [(Image.zero, v, action)], ∀ call ∈ x.2.2.calls t x.1 x.2.1, call.Inside) ↔
        ∀ x ∈ [(Image.zero, v, action)], ∀ call ∈ x.2.2.calls t x.1 x.2.1, call.Roomy) := by
  intro t v action
  have herased : Erased .zero v := erased_reset _ _
  have hreach : t.Reaches v := Or.inr (by decide)
  obtain ⟨p', v', hdone⟩ := exists_completes_addPwd hreach herased ⟨[4, 2, 2], []⟩
    ⟨[4, 2, 2], []⟩ ⟨[4, 2, 2], []⟩
  have hrun : MenuRun t sortTurns .zero v [(.zero, v, action)] p' v' :=
    .act .start (fun h => h.elim) hdone
  have hfits : ∀ x ∈ [(Image.zero, v, action)], x.2.2.Fits t x.2.1 := by
    intro x hx
    rw [List.mem_singleton.mp hx]
    exact hreach
  exact ⟨p', v', hrun, editor_inside_iff le_rfl herased hrun hfits⟩

/-- The user types the name of a new password, a blank in each of the places in front
of the last one: when the cursor comes there, the redraw reads behind the buffer. -/
theorem typed_name_outside :
    let t : Target := ⟨.avr, .xorKey⟩
    let v := Ram.reset (fun _ => Vector.replicate 4 7) (Vector.replicate 16 0)
    let events : List Byte := (List.replicate 31 [4, 2]).flatten
    let action := UserAction.addPwd ⟨events, []⟩ ⟨[], []⟩ ⟨[], []⟩
    MenuRun t sortTurns .zero v [(.zero, v, action)] .zero v ∧
      ∃ call ∈ action.calls t .zero v, ¬ call.Inside := by
  intro t v events action
  have hbyte : 32 < 256 := by decide
  obtain ⟨-, hshows, -⟩ := @Editor.legible_start 32 [] [] hbyte (by decide)
  have hrunning : (typeString 32 events (emptyText 32)).running = true := by
    rw [running_typeString]
    exact (@Editor.Shows.typeBlanks 32 [] _ hshows hbyte rfl 31 (by decide)).2
  have houtside : ¬ (⟨32, emptyText 32, ⟨events, []⟩⟩ : UserAction.Call).Inside := by
    intro hinside
    have hroom := ((UserAction.Call.inside_iff hbyte (text_emptyText 32)).mp hinside).2
    obtain ⟨hblanks, hloop⟩ := @Editor.Shows.typeBlanks 32 [] _ hshows hbyte rfl 30 (by decide)
    exact hblanks.not_keepsRoom hbyte (by rw [List.length_replicate]) hloop
      (Editor.KeepsRoom.of_append hroom)
  have hmenu : action.menu = none := by
    have htyped : (⟨events, []⟩ : Sitting).typed 32 (emptyText 32) = none := if_pos hrunning
    simp only [action, UserAction.menu, htyped]
    rfl
  refine ⟨.act .start (fun h => h.elim) ?_, ⟨32, emptyText 32, ⟨events, []⟩⟩, ?_, houtside⟩
  · rw [UserAction.run, hmenu]
    exact ⟨rfl, rfl, rfl⟩
  · have hroom : v.numPwd ≠ maximumNumberOfPwd - 1 := by decide
    rw [UserAction.calls, if_neg hroom]
    exact List.mem_cons_self

end PasswordWallet
