import PasswordWallet.Graphics.TypeString
import PasswordWallet.Proofs.SortedLists

/-!
# The menu actions at the editor

The actions of `MenuAction` take what the user types as it comes; here it comes from
`type_string`, called on the buffer that the action has filled.  As long as the editor
has not returned the action is still under way and has written nothing.
-/

namespace PasswordWallet

open PowerLoss

/-- A call of `type_string`: the events that come while it runs, and the memory behind
the buffer. -/
structure Sitting where
  events : List Byte
  beyond : List Byte

namespace Sitting

def editor (size : ℕ) (text : List Byte) (s : Sitting) : Editor :=
  typeString size s.events (text ++ s.beyond)

/-- The buffer, once the editor has returned. -/
def typed (size : ℕ) (text : List Byte) (s : Sitting) : Option (Vector Byte size) :=
  if (s.editor size text).running then none
  else some (Vector.ofFn fun i => (s.editor size text).char i)

/-- The buffer, if the editor has returned and says that it has been modified. -/
def typing (size : ℕ) (s : Sitting) : Typing size := fun text =>
  if (s.editor size text).modified then s.typed size text else none

end Sitting

/-- The actions that call `type_string`. -/
def MenuAction.Types : MenuAction → Prop
  | addPwd _ _ _ | changeName _ | changePwd _ | changeUsrName _ => True
  | _ => False

/-- The menu actions, with the events at the editor. -/
inductive UserAction
  | addPwd (name data usrName : Sitting)
  | changeName (name : Sitting)
  | changePwd (pwd : Sitting)
  | changeUsrName (usr : Sitting)
  | other (action : MenuAction) (untyped : ¬ action.Types)

/-- An array of characters that starts out as `{0}`. -/
def emptyText (size : ℕ) : List Byte := List.replicate size 0

namespace UserAction

/-- The action, unless the user is still at the editor of a new password. -/
def menu : UserAction → Option MenuAction
  | addPwd name data usrName => do
      let pwdName ← name.typed 32 (emptyText 32)
      let pwdData ← data.typed 32 (emptyText 32)
      let usrName ← usrName.typed 64 (emptyText 64)
      pure (.addPwd pwdName pwdData usrName)
  | changeName name => some (.changeName (name.typing 32))
  | changePwd pwd => some (.changePwd (pwd.typing 32))
  | changeUsrName usr => some (.changeUsrName (usr.typing 64))
  | other action _ => some action

variable (t : Target)

def run (fuel : ℕ) (action : UserAction) : Dev Unit :=
  match action.menu with
  | none => pure ()
  | some menu => menu.run t fuel

/-- The actions that the menus offer only when there is a password. -/
def OnPwd : UserAction → Prop
  | addPwd _ _ _ => False
  | other action _ => action.OnPwd
  | _ => True

/-- A password that is added goes to a chunk that lies where its number says: always with
`PWD_ADDR` as integer arithmetic, and on the AVR as long as there are less than 382. -/
def Fits (v : Ram) : UserAction → Prop
  | addPwd _ _ _ => t.Reaches v
  | _ => True

/-- The buffer of a call of `type_string`, and the call. -/
structure Call where
  maxLen : ℕ
  text : List Byte
  sitting : Sitting

/-- The calls of an action, as far as it has come. -/
def calls (p : Image) (v : Ram) : UserAction → List Call
  | addPwd name data usrName =>
      if v.numPwd = maximumNumberOfPwd - 1 then []
      else ⟨32, emptyText 32, name⟩ ::
        if (name.editor 32 (emptyText 32)).running then []
        else ⟨32, emptyText 32, data⟩ ::
          if (data.editor 32 (emptyText 32)).running then [] else [⟨64, emptyText 64, usrName⟩]
  | changeName name => [⟨32, passwordReadName t v.currentPasswordId p, name⟩]
  | changePwd pwd => [⟨32, passwordReadData t v.currentPasswordId v.key p, pwd⟩]
  | changeUsrName usr => [⟨64, passwordReadUsrName t v.currentPasswordId v.key p, usr⟩]
  | other _ _ => []

end UserAction

/-- A run of the menus: the actions that have been taken, each with the state it was
taken in, and the state they have led to.  Between them another used password may become
the current one, and what is neither the key nor about the passwords may change. -/
inductive MenuRun (t : Target) (fuel : ℕ) (p₀ : Image) (v₀ : Ram) :
    List (Image × Ram × UserAction) → Image → Ram → Prop
  | start : MenuRun t fuel p₀ v₀ [] p₀ v₀
  | act {log : List (Image × Ram × UserAction)} {action : UserAction} {p p' : Image}
      {v v' : Ram} : MenuRun t fuel p₀ v₀ log p v → (action.OnPwd → v.numPwd ≠ 0) →
      Completes (action.run t fuel) p v () p' v' →
      MenuRun t fuel p₀ v₀ (log ++ [(p, v, action)]) p' v'
  | select {log : List (Image × Ram × UserAction)} {p : Image} {v : Ram} {pwdId : ℕ} :
      MenuRun t fuel p₀ v₀ log p v → pwdId < maximumNumberOfPwd → p.used pwdId = true →
      MenuRun t fuel p₀ v₀ log p { v with currentPasswordId := pwdId }
  | volatile {log : List (Image × Ram × UserAction)} {p : Image} {v v' : Ram} :
      MenuRun t fuel p₀ v₀ log p v → v'.key = v.key → v'.numPwd = v.numPwd →
      v'.currentPasswordId = v.currentPasswordId →
      pwdListGetSortingMethod v'.optionsFlag ≤ pwdSortingAlpha →
      MenuRun t fuel p₀ v₀ log p v'

end PasswordWallet
