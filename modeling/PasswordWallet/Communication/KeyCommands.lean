import PasswordWallet.Options.LeavesKey
import PasswordWallet.Proofs.OneReply

/-!
# What the commands do to the key

`COM_SET_KEY` is the one command that touches `KEY`, `EVENT_KEY_ENTERED` or the EEPROM:
it stores its data over the key that is there, and then sets the event if the key
that results passes the check.
-/

namespace PasswordWallet

open PowerLoss Framing

def Session.SameKey (s s' : Session) : Prop := PasswordWallet.SameKey s.ram s'.ram

instance : IsPreorder Session Session.SameKey where
  refl _ := ⟨rfl, rfl⟩
  trans _ _ _ h₁ h₂ := ⟨h₂.1.trans h₁.1, h₂.2.trans h₁.2⟩

/-- A program of the communication that leaves the key alone. -/
abbrev SparesKey {α : Type} (m : Com α) : Prop := Frames Write.InFram Session.SameKey m

section Frames

variable {t : Target} {answer : Image → Session → Bool} {framId : Vector Byte 4}

theorem sparesKey_modifySession {f : Session → Session} (hf : ∀ s, Session.SameKey s (f s)) :
    SparesKey (modifySession f) := ⟨fun _ s => (wp_modifySession f).mpr (hf s)⟩

instance sparesKey_emit (event : Event) : SparesKey (emit event) :=
  sparesKey_modifySession fun _ => ⟨rfl, rfl⟩

instance {α : Type} (m : Dev α) [h : LeavesKey m] : SparesKey (liftDev m) :=
  ⟨fun p s => (wp_liftDev m).mpr (h.wp_frame p s.ram)⟩

theorem sameKey_eventsHappen (s : Session) (event : Byte) (h : event.getLsbD 4 = false) :
    s.SameKey (s.eventsHappen event) := by
  refine ⟨rfl, ?_⟩
  rw [Session.keyEntered_eventsHappen, h, Bool.or_false]

theorem sameKey_clearEvents (s : Session) (event : Byte) (h : event.getLsbD 4 = false) :
    s.SameKey (s.clearEvents event) := by
  refine ⟨rfl, ?_⟩
  rw [Session.keyEntered_clearEvents, h, Bool.not_false, Bool.and_true]

instance (sender : Sender) : SparesKey ((Env.quiet answer framId).poll sender) :=
  inferInstanceAs (SparesKey (pure ()))

instance : SparesKey (Env.quiet answer framId).screen := inferInstanceAs (SparesKey (pure ()))

instance (sender : Sender) (id : Byte) (size : ℕ) :
    SparesKey (sendHeader (.quiet answer framId) sender id size) := by
  unfold sendHeader
  infer_instance

instance (sender : Sender) (id : Byte) (data : Session → List Byte) :
    SparesKey (sendData (.quiet answer framId) sender id data) := by
  unfold sendData
  infer_instance

instance (sender : Sender) (id : Byte) (size : ℕ) (data : Session → List Byte) :
    SparesKey (sendCommand (.quiet answer framId) sender id size data) := by
  unfold sendCommand
  infer_instance

instance (sender : Sender) (id : Byte) :
    SparesKey (sendEmpty (.quiet answer framId) sender id) := by
  unfold sendEmpty
  infer_instance

instance : SparesKey (comAbort (.quiet answer framId)) := by
  have hclose : SparesKey (modifySession fun s =>
      { s.clearEvents eventFlagCom with comPos := 0, comParameter := 0 }) :=
    sparesKey_modifySession fun s => sameKey_clearEvents s eventFlagCom rfl
  unfold comAbort
  infer_instance

instance : SparesKey (abortEnabled (.quiet answer framId)) := by
  unfold abortEnabled
  infer_instance

instance : SparesKey (drawConfirmationScreen (.quiet answer framId)) := by
  unfold drawConfirmationScreen
  infer_instance

instance : SparesKey (commandInit (.quiet answer framId)) := by
  have haccept : SparesKey (modifySession fun s =>
      (s.eventsHappen eventFlagCom).emit .accepted) :=
    sparesKey_modifySession fun s => sameKey_eventsHappen s eventFlagCom rfl
  unfold commandInit
  infer_instance

instance : SparesKey (commandEnd (.quiet answer framId)) := by
  have hclose : SparesKey (modifySession fun s =>
      (s.emit .stopped).clearEvents eventFlagCom) :=
    sparesKey_modifySession fun s => sameKey_clearEvents (s.emit .stopped) eventFlagCom rfl
  unfold commandEnd
  infer_instance

instance : SparesKey (commandGetFram (.quiet answer framId)) := by
  unfold commandGetFram framChunk
  infer_instance

instance : SparesKey (commandGetKey (.quiet answer framId)) := by
  unfold commandGetKey
  infer_instance

instance : SparesKey (commandGetParam (.quiet answer framId)) := by
  unfold commandGetParam
  infer_instance

instance : SparesKey (commandGetVersion (.quiet answer framId)) := by
  unfold commandGetVersion
  infer_instance

instance (data : List Byte) : SparesKey (takeAddress data) := by
  induction data with
  | nil => exact .pure []
  | cons byte rest ih =>
      have hposition : SparesKey (modifySession fun s => { s with
          comParameter := s.comParameter ||| byte.toNat <<< (8 * s.comPos)
          comPos := s.comPos + 1 }) := sparesKey_modifySession fun _ => ⟨rfl, rfl⟩
      rw [takeAddress]
      infer_instance

instance (addr : ℕ) (data : List Byte) : SparesKey (writeFram addr data) := by
  have hposition : SparesKey (modifySession fun s =>
      { s with comPos := (s.comPos + data.length) % 2 ^ 32 }) :=
    sparesKey_modifySession fun _ => ⟨rfl, rfl⟩
  unfold writeFram
  infer_instance

instance (data : List Byte) : SparesKey (commandSetFram (.quiet answer framId) data) := by
  have hdone : SparesKey (modifySession fun s => { s with comParameter := 0, comPos := 0 }) :=
    sparesKey_modifySession fun _ => ⟨rfl, rfl⟩
  unfold commandSetFram writeAddressed setFramDone
  infer_instance

instance : SparesKey (commandReset (.quiet answer framId)) := by
  unfold commandReset
  infer_instance

theorem gatedCommand_sparesKey {id : Byte} (hid : id ≠ comSetKey) (data : List Byte) :
    SparesKey (gatedCommand t (.quiet answer framId) id data) := by
  unfold gatedCommand
  rw [if_neg hid]
  infer_instance

end Frames

section Commands

variable {t : Target} {answer : Image → Session → Bool} {framId : Vector Byte 4} {p : Image}
  {s : Session} {command : Frame} {packets : List (List Byte)}

theorem wp_comExec_sparesKey (hid : s.parser.id ≠ comSetKey) (data : List Byte) :
    wp (comExec t (.quiet answer framId) data)
      (fun _ p' s' => p'.eeprom = p.eeprom ∧ s.SameKey s') (fun _ s' => s.SameKey s')
      (fun _ _ => True) p s := by
  have hgated : SparesKey (gatedCommand t (.quiet answer framId) s.parser.id data) :=
    gatedCommand_sparesKey hid data
  rw [comExec, wp_bind, wp_ram]
  exact wp_eeprom _

/-! ## The key that is stored -/

/-- The key with these bytes stored over its first ones. -/
def overKey (key : Block) (data : List Byte) : Block :=
  Vector.ofFn fun i => data[i.val]?.getD key[i]

theorem overKey_nil (key : Block) : overKey key [] = key := by
  refine Vector.ext fun i hi => ?_
  simp [overKey]

theorem overKey_set (key : Block) (data : List Byte) (byte : Byte) (h : data.length < 16) :
    (overKey key data).set data.length byte h = overKey key (data ++ [byte]) := by
  refine Vector.ext fun i hi => ?_
  rw [Vector.getElem_set]
  simp only [overKey, Vector.getElem_ofFn]
  split_ifs with heq
  · subst heq
    simp
  · rcases Nat.lt_or_gt_of_ne heq with hlt | hgt
    · rw [List.getElem?_eq_none hlt.le, List.getElem?_eq_none (by simp; omega)]
    · rw [List.getElem?_append_left hgt]

/-- The bytes of a call go behind those that are stored already. -/
theorem wp_storeKey_over {key : Block} {stored : List Byte} {comPos i : ℕ} (data : List Byte)
    (hkey : s.ram.key = overKey key stored) (hposition : comPos + i = stored.length)
    (hfits : stored.length + data.length ≤ 16) :
    wp (storeKey comPos i data)
      (fun _ p' s' => p' = p ∧ ∃ log, s' = { s with
        ram := { s.ram with key := overKey key (stored ++ data) }, log := log })
      (fun _ _ => False) (fun _ _ => True) p s := by
  induction data generalizing stored i s with
  | nil =>
      refine (wp_pure _).mpr ⟨rfl, s.log, ?_⟩
      rw [List.append_nil, ← hkey]
  | cons byte rest ih =>
      rw [List.length_cons] at hfits
      have hlt : stored.length < 16 := by omega
      rw [storeKey, wp_bind, storeKeyByte, wp_bind, wp_emit, Nat.mod_eq_of_lt (by omega), hposition,
        dif_pos hlt, wp_modifySession]
      refine wp_imp (@ih _ (stored ++ [byte]) (i + 1) ?_ ?_ ?_) fun _ p' s' hpost => ?_
      · rw [← overKey_set key stored byte hlt, ← hkey]
        rfl
      · rw [List.length_append, List.length_singleton]
        omega
      · rw [List.length_append, List.length_singleton]
        omega
      · obtain ⟨hp, log, hs⟩ := hpost
        refine ⟨hp, log, ?_⟩
        rw [hs, List.append_assoc]
        rfl

/-- A call of `COM_SET_KEY`, whose data goes behind what is stored already. -/
theorem wp_commandSetKey_over {key : Block} {stored data : List Byte}
    (hkey : s.ram.key = overKey key stored) (hcomPos : s.comPos = stored.length)
    (hfits : stored.length + data.length ≤ 16) :
    wp (commandSetKey t (.quiet answer framId) data)
      (fun _ p' s' => p' = p ∧ s'.ram.key = overKey key (stored ++ data) ∧
        if stored.length + data.length = s.parser.totalSize then
          s'.ram.keyEntered =
            (s.ram.keyEntered || encryptionCheckKey t (overKey key (stored ++ data)) p)
        else s'.ram.keyEntered = s.ram.keyEntered ∧ s'.comPos = stored.length + data.length)
      (fun _ _ => False) (fun _ _ => True) p s := by
  rw [commandSetKey, wp_bind, wp_ram, wp_bind]
  refine wp_imp (wp_storeKey_over data hkey hcomPos hfits) fun _ p₁ s₁ hpost => ?_
  obtain ⟨rfl, log, rfl⟩ := hpost
  rw [wp_bind, wp_modifySession, setKeyDone, wp_bind, wp_ram, wp_ite, wp_pure, wp_bind,
    wp_modifySession, keyReceived, wp_bind, wp_durable, wp_bind, wp_ram, wp_ite, wp_bind,
    wp_modifySession, wp_sendEmpty_quiet, wp_sendEmpty_quiet]
  simp only [hcomPos, Nat.mod_eq_of_lt (show stored.length + data.length < 2 ^ 32 by omega)]
  refine ⟨fun hdone => ?_, fun hmore => ?_⟩
  · simp only [if_pos hdone]
    refine ⟨fun hknown => ⟨trivial, rfl, ?_⟩, fun hunknown => ⟨trivial, rfl, ?_⟩⟩
    · rw [hknown, Bool.or_true]
      exact (Session.keyEntered_eventsHappen _ _).trans (Bool.or_true _)
    · rw [(Bool.not_eq_true _).mp hunknown, Bool.or_false]
      rfl
  · simp only [if_neg hmore]
    exact ⟨trivial, trivial, trivial, trivial⟩

/-! ## One command -/

section Command

variable (hfull : command.Full) (hpackets : ∀ packet ∈ packets, packet ≠ [] ∧ packet.length ≤ 255)
  (hcut : packets.flatten = command.bytes) (hboundary : Boundary s)
include hfull hpackets hcut hboundary

/-- Every command but `COM_SET_KEY` leaves the key alone. -/
theorem wp_receive_sparesKey (hid : command.id ≠ comSetKey) :
    wp (receive (comExec t (.quiet answer framId)) (comAbort (.quiet answer framId)) packets)
      (fun _ p' s' => p'.eeprom = p.eeprom ∧ s.SameKey s') (fun _ _ => True)
      (fun _ _ => True) p s := by
  refine wp_imp (wp_receive_calls (I := fun _ _ p' s' => p'.eeprom = p.eeprom ∧ s.SameKey s') hfull
    ?_ ?_ ?_ hpackets hcut hboundary ⟨rfl, refl s⟩) fun _ _ _ hpost => hpost.1
  · intro n k p₁ s₁ s₂ hsame h
    refine ⟨h.1, trans_of Session.SameKey h.2 ?_⟩
    rw [Session.SameKey, hsame.ram]
    exact refl _
  · exact fun _ _ _ _ _ _ _ h => h
  · intro n k packet p₁ s₁ h _ _ _ hparser _
    refine wp_mono (wp_comExec_sparesKey (hparser ▸ hid) _) (fun _ _ _ hpost => ?_)
      (fun _ _ _ => trivial) fun _ _ => id
    exact ⟨hpost.1.trans h.1, trans_of Session.SameKey h.2 hpost.2⟩

/-- So does `COM_SET_KEY` while the gate is closed. -/
theorem wp_receive_refused (hid : command.id = comSetKey) (hclosed : s.enabled = false) :
    wp (receive (comExec t (.quiet answer framId)) (comAbort (.quiet answer framId)) packets)
      (fun _ p' s' => p'.eeprom = p.eeprom ∧ s.SameKey s') (fun _ _ => True)
      (fun _ _ => True) p s := by
  refine wp_imp (wp_receive_calls (I := fun _ _ p' s' => (p'.eeprom = p.eeprom ∧ s.SameKey s') ∧
    s'.enabled = false) hfull ?_ ?_ ?_ hpackets hcut hboundary ⟨⟨rfl, refl s⟩, hclosed⟩)
    fun _ _ _ hpost => hpost.1.1
  · intro n k p₁ s₁ s₂ hsame h
    refine ⟨⟨h.1.1, trans_of Session.SameKey h.1.2 ?_⟩, hsame.enabled.trans h.2⟩
    rw [Session.SameKey, hsame.ram]
    exact refl _
  · exact fun _ _ _ _ _ _ _ h => h
  · intro n k packet p₁ s₁ h _ _ _ hparser _
    rw [comExec, wp_bind, wp_ram, hparser, hid, h.2, if_neg (by decide), if_pos (by decide),
      wp_sendEmpty_quiet]
    exact h

/-- `COM_SET_KEY` leaves its data over the key, and sets the event if that passes the
check. -/
theorem wp_receive_setKey (hid : command.id = comSetKey) (hopen : s.enabled = true)
    (hsize : command.size ≤ 16) :
    wp (receive (comExec t (.quiet answer framId)) (comAbort (.quiet answer framId)) packets)
      (fun _ p' s' => p' = p ∧ s'.ram.key = overKey s.ram.key command.data ∧
        s'.ram.keyEntered = (s.ram.keyEntered ||
          encryptionCheckKey t (overKey s.ram.key command.data) p))
      (fun _ _ => True) (fun _ _ => True) p s := by
  have hdata := hfull.1
  have hbytes := command.length_bytes
  have hstored : ∀ k, k ≤ command.bytes.length → (command.data.take (k - 4)).length = k - 4 :=
    fun k hk => by
      rw [List.length_take]
      omega
  refine wp_imp (wp_receive_calls (I := fun _ k p' s' => p' = p ∧ s'.enabled = true ∧
    s'.ram.key = overKey s.ram.key (command.data.take (k - 4)) ∧
    if k = command.bytes.length then s'.ram.keyEntered = (s.ram.keyEntered ||
      encryptionCheckKey t (overKey s.ram.key command.data) p)
    else s'.ram.keyEntered = s.ram.keyEntered ∧ s'.comPos = k - 4) hfull ?_ ?_ ?_ hpackets hcut
    hboundary ⟨rfl, hopen, ?_, ?_⟩) fun _ _ _ hpost => ?_
  · intro n k p₁ s₁ s₂ hsame h
    rw [hsame.enabled, hsame.comPos, hsame.ram]
    exact h
  · intro n k k' _ s₁ hle hlt h
    rw [if_neg (by omega), Nat.sub_eq_zero_of_le (by omega)] at h ⊢
    exact h
  · intro n k packet p₁ s₁ h hne hpacket hlong hparser htotal
    obtain ⟨hmore, hwithin, hchunk⟩ := chunk_within hpacket hne
    obtain ⟨rfl, henabled, hkey, h⟩ := h
    rw [if_neg (by omega)] at h
    have hlength := hstored k (by omega)
    have hnext : command.data.take (k - 4) ++ chunk command k packet =
        command.data.take (k + packet.length - 4) := by
      have hfront : command.data.take (k - 4) =
          (command.data.take (k + packet.length - 4)).take (k - 4) := by
        rw [List.take_take, Nat.min_eq_left (by omega)]
      rw [chunk, hfront, List.take_append_drop]
    rw [comExec, wp_bind, wp_ram, hparser, hid, henabled, if_neg (by decide), if_neg (by decide)]
    have hover := @wp_commandSetKey_over t answer framId p₁ s₁ _
      (command.data.take (k - 4)) (chunk command k packet) hkey (by rw [hlength, h.2]) (by omega)
    have hreplies := @wp_commandSetKey_replies t answer framId p₁ s₁ (chunk command k packet)
      (by omega)
    refine wp_mono (wp_and hover hreplies) (fun _ _ s₂ hpost => ?_) (fun _ _ _ => trivial)
      fun _ _ _ => trivial
    obtain ⟨⟨hp, hkey₂, hentered⟩, -, henabled₂, -, hreply⟩ := hpost
    rw [hnext] at hkey₂ hentered
    rw [hlength, hchunk, htotal] at hentered
    rw [h.2, hchunk, htotal] at hreply
    refine ⟨hp, henabled₂.trans henabled, hkey₂, ?_⟩
    by_cases hend : k + packet.length = command.bytes.length
    · rw [if_pos (by omega), h.1, List.take_of_length_le (by omega)] at hentered
      rw [if_pos hend]
      exact hentered
    · rw [if_neg (by omega)] at hentered hreply
      rw [if_neg hend]
      exact ⟨hentered.1.trans h.1, hreply.1⟩
  · rw [Nat.zero_sub, List.take_zero, overKey_nil]
  · rw [if_neg (by omega)]
    exact ⟨rfl, hboundary.comPos⟩
  · obtain ⟨⟨hp, -, hkey, hentered⟩, -⟩ := hpost
    rw [if_pos rfl] at hentered
    rw [List.take_of_length_le (by omega)] at hkey
    exact ⟨hp, hkey, hentered⟩

end Command

end Commands

end PasswordWallet
