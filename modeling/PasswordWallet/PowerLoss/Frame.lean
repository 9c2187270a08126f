import Mathlib.Order.Defs.Unbundled
import PasswordWallet.PowerLoss.Logic

/-!
# What a program leaves alone

`Frames F R m` says of every run of `m` that its writes satisfy `F` and that the
volatile state it leaves is in the relation `R` to the one it started from.  For a
preorder `R` this composes, whatever the program does.  It is a class, and the rules
are instances, so that the frame of a program is inferred from its body.
-/

namespace PowerLoss

variable {P W V α β : Type} [Durable P W]

class Frames (F : W → Prop) (R : V → V → Prop) (m : Program P W V α) : Prop where
  wp_frame : ∀ p v,
    wp m (fun _ _ v' => R v v') (fun _ v' => R v v') (fun step _ => F step.write) p v

namespace Frames

variable {F F' : W → Prop} {R R' : V → V → Prop} {m m' : Program P W V α}

theorem mono (h : Frames F R m) (hF : ∀ w, F w → F' w) (hR : ∀ v v', R v v' → R' v v') :
    Frames F' R' m := ⟨fun p v =>
  wp_mono (h.wp_frame p v) (fun _ _ v' => hR v v') (fun _ v' => hR v v') fun _ _ => hF _⟩

instance ite {c : Prop} [Decidable c] [hm : Frames F R m] [hm' : Frames F R m'] :
    Frames F R (if c then m else m') := by
  split_ifs
  · exact hm
  · exact hm'

instance dite {c : Prop} [Decidable c] {m : c → Program P W V α} {m' : ¬ c → Program P W V α}
    [hm : ∀ h, Frames F R (m h)] [hm' : ∀ h, Frames F R (m' h)] :
    Frames F R (if h : c then m h else m' h) := by
  split_ifs with h
  · exact hm h
  · exact hm' h

/-- Grouping its writes changes no run. -/
instance group [h : Frames F R m] : Frames F R (Program.group m) :=
  ⟨fun p v => (wp_group (D := fun w _ => F w) m).mpr (h.wp_frame p v)⟩

section Refl

variable [Std.Refl R]

instance pure (a : α) : Frames F R (pure a : Program P W V α) :=
  ⟨fun _ v => (wp_pure a).mpr (refl_of R v)⟩

instance hang : Frames F R (Program.hang : Program P W V α) :=
  ⟨fun _ v => wp_hang.mpr (refl_of R v)⟩

instance ram : Frames F R (Program.ram : Program P W V V) :=
  ⟨fun _ v => wp_ram.mpr (refl_of R v)⟩

instance durable : Frames F R (Program.durable : Program P W V P) :=
  ⟨fun _ v => wp_durable.mpr (refl_of R v)⟩

theorem write {w : W} (hw : F w) : Frames F R (Program.write w : Program P W V Unit) :=
  ⟨fun _ v => (wp_write w).mpr ⟨hw, refl_of R v⟩⟩

end Refl

instance bind [IsTrans V R] {f : α → Program P W V β} [hm : Frames F R m]
    [hf : ∀ a, Frames F R (f a)] : Frames F R (m >>= f) := by
  constructor
  intro p v
  rw [wp_bind]
  refine wp_imp (hm.wp_frame p v) fun a p₁ v₁ h₁ => ?_
  exact wp_mono ((hf a).wp_frame p₁ v₁) (fun _ _ _ h₂ => trans_of R h₁ h₂)
    (fun _ _ h₂ => trans_of R h₁ h₂) fun _ _ => id

instance forUp [IsPreorder V R] {body : ℕ → Program P W V Unit} [hbody : ∀ i, Frames F R (body i)]
    (start count : ℕ) : Frames F R (Program.forUp start count body) := by
  induction count generalizing start with
  | zero => exact .pure ()
  | succ count ih =>
      have hrest := ih (start + 1)
      exact inferInstanceAs (Frames F R (do body start; Program.forUp (start + 1) count body))

end Frames

end PowerLoss
