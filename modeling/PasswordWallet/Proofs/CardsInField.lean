import PasswordWallet.Proofs.CardSelection

/-!
# The card that is selected

Cards answer a SELECT only if it has their own bytes.  Then the UID that a selection leaves
is that of a card in the field, whatever collisions there were, and whatever they made of
the bits that were asked for.
-/

namespace PasswordWallet.Rfid

open Exceptions

variable {σ : Type} {reader : Reader σ}

/-- What a card answers to the SELECTs of its levels. -/
structure Card where
  parts : List (List Byte)
  sak : Byte

/-- The bytes of its UID. -/
def Card.uid (card : Card) : List Byte := card.parts.flatMap ownBytes

/-- The cards in the field.  `At` says which parts have been selected; after a SELECT that is
acknowledged there is a card with this part in this level, and the cascade bit of the SAK
says whether it has another. -/
structure Field (reader : Reader σ) (cards : List Card) (At : σ → List (List Byte) → Prop) :
    Prop where
  crc : ∀ field chosen data, At field chosen → At (reader.calculateCrc field data).2 chosen
  ask : ∀ field chosen command k frame, At field chosen → Asks command k frame →
    At (reader.transceive field frame).2 chosen
  select : ∀ field chosen command uidIndex part run frame, At field chosen →
    levelOf (chosen.length + 1) = some (command, uidIndex) → Selects command part run frame →
    let x := reader.transceive field frame
    x.1.Received → Acknowledges x.1 (reader.calculateCrc x.2 [x.1.fifo 0]).1 →
      At x.2 (chosen ++ [part]) ∧ ∃ card ∈ cards, ∃ rest, card.parts = chosen ++ part :: rest ∧
        (rest = [] ↔ x.1.fifo 0 &&& 0x04 = 0) ∧ (rest = [] → x.1.fifo 0 = card.sak)
  tagged : ∀ card ∈ cards, Tagged card.parts

variable {cards : List Card} {At : σ → List (List Byte) → Prop}

theorem answered_append {events events' : List Event} {field field'' : σ}
    (h : Answered reader field (events ++ events') field'') :
    ∃ field', Answered reader field events field' ∧ Answered reader field' events' field'' := by
  induction events generalizing field with
  | nil => exact ⟨field, rfl, h⟩
  | cons event events ih =>
      cases event with
      | crc data run =>
          obtain ⟨field', hevents, hevents'⟩ := ih h.2
          exact ⟨field', ⟨h.1, hevents⟩, hevents'⟩
      | frame frame x =>
          obtain ⟨field', hevents, hevents'⟩ := ih h.2
          exact ⟨field', ⟨h.1, hevents⟩, hevents'⟩

/-- A level ends with the SELECT of its part, in front of the same cards. -/
theorem Level.heard (hfield : Field reader cards At) {command : Byte} {k : ℕ}
    {events : List Event} {part : List Byte} {x : Exchange} {field field' : σ}
    {chosen : List (List Byte)} (h : Level command k events part x)
    (hanswered : Answered reader field events field') (hat : At field chosen) :
    ∃ field₀ run frame, At field₀ chosen ∧ Selects command part run frame ∧ x.Received ∧
      reader.transceive field₀ frame = (x, field') := by
  induction h generalizing field with
  | select hframe hx =>
      obtain ⟨hrun, hexchange, hfield'⟩ := hanswered
      exact ⟨_, _, _, hfield.crc _ _ _ hat, hframe, hx, Prod.ext hexchange hfield'.symm⟩
  | ask hframe hk hlevel ih =>
      exact ih hanswered.2 (hfield.ask _ _ _ _ _ hat hframe)

/-- From some levels on, the parts are those of a card. -/
theorem Cascade.heard (hfield : Field reader cards At) {events : List Event}
    {parts chosen : List (List Byte)} {sak : Byte} {field field' : σ} {level : ℕ}
    (h : Cascade level events parts sak) (hlevel : level = chosen.length + 1)
    (hanswered : Answered reader field events field') (hat : At field chosen) :
    ∃ card ∈ cards, card.parts = chosen ++ parts ∧ card.sak = sak := by
  induction h generalizing field chosen with
  | last hlevel' hevents hack hsak =>
      obtain ⟨field₁, hfirst, hcrc⟩ := answered_append hanswered
      obtain ⟨field₀, run', frame, hat₀, hframe, hx, hexchange⟩ :=
        hevents.heard hfield hfirst hat
      have hselect := hfield.select field₀ chosen _ _ _ run' frame hat₀ (hlevel ▸ hlevel') hframe
      rw [hexchange] at hselect
      obtain ⟨-, card, hcard, rest, hparts, hrest, hown⟩ := hselect hx (hcrc.1 ▸ hack)
      obtain rfl := hrest.mpr hsak
      exact ⟨card, hcard, hparts, (hown rfl).symm⟩
  | next hlevel' hevents hack hsak hcascade ih =>
      obtain ⟨field₂, hfirst, hlater⟩ := answered_append hanswered
      obtain ⟨field₁, hfirst, hcrc⟩ := answered_append hfirst
      obtain ⟨field₀, run', frame, hat₀, hframe, hx, hexchange⟩ :=
        hevents.heard hfield hfirst hat
      have hselect := hfield.select field₀ chosen _ _ _ run' frame hat₀ (hlevel ▸ hlevel') hframe
      rw [hexchange] at hselect
      obtain ⟨hat₁, -⟩ := hselect hx (hcrc.1 ▸ hack)
      have hat₂ : At field₂ _ := hcrc.2 ▸ hfield.crc _ _ _ hat₁
      obtain ⟨card, hcard, hparts, hsak'⟩ :=
        ih (by rw [List.length_append, List.length_singleton, hlevel]) hlater hat₂
      exact ⟨card, hcard, by rw [hparts, List.append_assoc, List.singleton_append], hsak'⟩

theorem Tagged.length {parts : List (List Byte)} (h : Tagged parts) (hne : parts ≠ [])
    (hlength : ∀ part ∈ parts, part.length = 4) :
    (parts.flatMap ownBytes).length = 3 * parts.length + 1 := by
  induction parts with
  | nil => exact absurd rfl hne
  | cons part parts ih =>
      obtain ⟨hpart, hparts⟩ := List.forall_mem_cons.mp hlength
      cases parts with
      | nil =>
          have hown : ownBytes part = part := if_neg (h.last part rfl)
          simp [hown, hpart]
      | cons next parts =>
          have hfront : part.getD 0 0 = piccCmdCt := h.front part List.mem_cons_self
          have hrest : Tagged (next :: parts) :=
            ⟨fun p hp => h.front p (List.mem_cons_of_mem _ hp), h.last⟩
          rw [List.flatMap_cons, List.length_append, ih hrest (List.cons_ne_nil _ _) hparts,
            ownBytes, if_pos hfront, List.length_drop, hpart]
          simp only [List.length_cons]
          omega

/-- A selection that succeeds leaves the UID and the SAK of one of the cards, whatever the
collisions were. -/
theorem rfidPiccSelect_card (hfield : Field reader cards At) {field : σ} (hat : At field [])
    {uid : Uid} {buffer : List Byte} (huid : uid.uidByte.length = 10) (hbuffer : buffer.length = 9)
    {s' : Selection σ}
    (h : returned (rfidPiccSelect reader ⟨field, [], uid, buffer⟩) = some (.ok, s')) :
    ∃ card ∈ cards, s'.uid.sak = card.sak ∧ s'.uid.size.toNat = card.uid.length ∧
      s'.uid.uidByte.take card.uid.length = card.uid := by
  have hrun := wp_rfidPiccSelect reader field huid hbuffer
  cases hresult : rfidPiccSelect reader ⟨field, [], uid, buffer⟩ with
  | error e t =>
      rw [wp, hresult] at hrun
      obtain ⟨status, rfl, hstatus⟩ := hrun.failed
      rw [hresult] at h
      exact absurd (congrArg Prod.fst (Option.some.inj h)) hstatus
  | ok status t =>
      rw [wp, hresult] at hrun
      obtain ⟨rfl, parts, hcascade, hanswered, hsize, hwritten⟩ := hrun
      obtain rfl : t = s' := by
        rw [hresult] at h
        exact congrArg Prod.snd (Option.some.inj h)
      obtain ⟨card, hcard, hparts, hsak⟩ := hcascade.heard hfield rfl hanswered hat
      rw [List.nil_append] at hparts
      obtain ⟨hne, -, hlength⟩ := hcascade.parts
      have htagged : Tagged parts := hparts ▸ hfield.tagged card hcard
      have hown : card.uid.length = t.uid.size.toNat := by
        rw [Card.uid, hparts, htagged.length hne hlength, hsize]
      refine ⟨card, hcard, hsak.symm, hown.symm, ?_⟩
      rw [hown, hcascade.bytes huid hsize hwritten htagged, Card.uid, hparts]

theorem field_twoCards :
    Field twoCards [⟨[[0xDE, 0xAD, 0xBE, 0xEF]], 0x08⟩, ⟨[[0xDC, 0xAD, 0xBE, 0xEF]], 0x08⟩]
      fun _ _ => True where
  crc _ _ _ _ := trivial
  ask _ _ _ _ _ _ _ := trivial
  select _ chosen command uidIndex part run frame _ hlevel hframe := by
    intro x hx hack
    obtain ⟨b₀, b₁, b₂, b₃, rfl⟩ : ∃ b₀ b₁ b₂ b₃, part = [b₀, b₁, b₂, b₃] := by
      match part, hframe.length with
      | [b₀, b₁, b₂, b₃], _ => exact ⟨_, _, _, _, rfl⟩
    have hdata := hframe.data
    simp only [List.cons_append, List.nil_append] at hdata
    have hask : frame.data ≠ [0x93, 0x20] := by simp [hdata]
    have hask' : frame.data ≠ [0x93, 0x22, 0x02] := by simp [hdata]
    have hselect : frame.data = [0x93, 0x70, 0xDE, 0xAD, 0xBE, 0xEF, 0x22, 0xB9, 0x9C] := by
      -- to another frame there is no reply
      by_contra hother
      have hsilent : communicateLoop x.1.comIrq 4000 0 = .timeout := by
        simp only [x, twoCards, if_neg hask, if_neg hask', if_neg hother]
        rfl
      rw [hx.reply] at hsilent
      cases hsilent
    have hfifo : x.1.fifo 0 = 0x08 := by
      simp only [x, twoCards, if_neg hask, if_neg hask', if_pos hselect]
      rfl
    rw [hselect] at hdata
    simp only [List.cons.injEq] at hdata
    obtain ⟨rfl, -, rfl, rfl, rfl, rfl, -⟩ := hdata
    obtain rfl : chosen = [] := by
      match chosen, hlevel with
      | [], _ => rfl
      | [_], h => cases h
      | [_, _], h => cases h
      | _ :: _ :: _ :: _, h => cases h
    rw [hfifo]
    exact ⟨trivial, _, List.mem_cons_self, [], rfl, by decide, fun _ => rfl⟩
  tagged := by
    have hone : ∀ part : List Byte, part.getD 0 0 ≠ piccCmdCt → Tagged [part] := fun part h =>
      ⟨fun _ hp => absurd hp List.not_mem_nil, fun p hp => Option.mem_some.mp hp ▸ h⟩
    refine List.forall_mem_cons.mpr ⟨hone _ (by decide), List.forall_mem_singleton.mpr ?_⟩
    exact hone _ (by decide)

/-- The card with the bit set that the other has not. -/
theorem rfidPiccSelect_card_two :
    ∃ s', returned (rfidPiccSelect twoCards
        ⟨(), [], ⟨0, List.replicate 10 0, 0⟩, List.replicate 9 0⟩) = some (.ok, s') ∧
      s'.uid.sak = 0x08 ∧ s'.uid.size.toNat = 4 := by
  have hok : (returned (rfidPiccSelect twoCards
      ⟨(), [], ⟨0, List.replicate 10 0, 0⟩, List.replicate 9 0⟩)).map Prod.fst = some .ok := by
    decide +kernel
  obtain ⟨⟨status, s'⟩, h, rfl⟩ := Option.map_eq_some_iff.mp hok
  obtain ⟨card, hcard, hsak, hsize, -⟩ :=
    rfidPiccSelect_card field_twoCards trivial rfl rfl h
  refine ⟨s', h, ?_⟩
  rw [hsak, hsize]
  rcases List.mem_pair.mp hcard with rfl | rfl
  · exact ⟨rfl, by decide⟩
  · exact ⟨rfl, by decide⟩

end PasswordWallet.Rfid
