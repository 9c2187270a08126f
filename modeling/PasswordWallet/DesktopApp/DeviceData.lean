import PasswordWallet.DesktopApp.Password

/-!
# The first desktop application's image of the device

`DeviceData` of `desktop_app`.  A chunk is read by value (`password`) and written back as a
whole (`updatePassword`).  `getPrevUse` and `getPrevAlpha` walk a list; a walk that takes
more steps than there are identifiers in a byte never ends, and `addPassword` then has no
result.
-/

namespace PasswordWallet.DesktopApp

open Desktop Patching

/-- `FRAM_Id`, the bytes of the union. -/
structure FramId where
  continuationCode : Byte
  manufacturerId : Byte
  productIdL : Byte
  productIdH : Byte

structure DeviceData where
  key : Block
  memory : List Byte
  framId : FramId
  storeScreenBufferInFram : Bool

inductive FramConnection
  | spi
  | i2c
  | unknow

def offsetFirstPwdUse : ℕ := 1
def offsetFirstPwdAlpha : ℕ := 2
def offsetNumPwd : ℕ := 3
def sizeNumPwd : ℕ := 1

def byteSize : List ℕ :=
  [0, 2 * 1024, 0, 8 * 1024, 16 * 1024, 32 * 1024, 64 * 1024, 128 * 1024, 256 * 1024, 512 * 1024]

namespace DeviceData

def getFramConnection (d : DeviceData) : FramConnection :=
  if d.framId.manufacturerId = 0x04 ∧ d.framId.continuationCode = 0x7F then .spi
  else if d.framId.continuationCode = 0x0A ∧ d.framId.manufacturerId = 0x00 then .i2c
  else .unknow

def memorySize (d : DeviceData) : ℕ :=
  match d.getFramConnection with
  | .spi => byteSize.getD (d.framId.productIdL &&& 0x1F).toNat 0
  | .i2c => byteSize.getD d.framId.productIdH.toNat 0
  | .unknow => byteSize.getD 0 0

def memoryMapOffset (d : DeviceData) : ℕ := 260 + if d.storeScreenBufferInFram then 1024 else 0

def memoryMapSize (d : DeviceData) : ℕ :=
  match d.memorySize with
  | 8192 => 6
  | 32768 => 25
  | _ => 0

def memoryMap (d : DeviceData) : List Byte := mid d.memory d.memoryMapOffset d.memoryMapSize

def firstPwdOffset (d : DeviceData) : ℕ :=
  offsetNumPwd + sizeNumPwd + 256 + (if d.storeScreenBufferInFram then 1024 else 0) +
    d.memoryMapSize + 168

def maxNumPwd (d : DeviceData) : ℕ :=
  (0x100000000 + d.memorySize - d.firstPwdOffset) % 0x100000000 / 166 % 256

def firstPwdUse (d : DeviceData) : ℕ := (d.memory.getD offsetFirstPwdUse 0).toNat

def firstPwdAlpha (d : DeviceData) : ℕ := (d.memory.getD offsetFirstPwdAlpha 0).toNat

def passwordNum (d : DeviceData) : ℕ := (d.memory.getD offsetNumPwd 0).toNat

/-- `DeviceData::password`, a copy of the chunk. -/
def password (d : DeviceData) (id : ℕ) : Password :=
  if id ≥ d.maxNumPwd then .ofData 0 []
  else .ofData id (mid d.memory (d.firstPwdOffset + id * 166) 166)

def updatePassword (d : DeviceData) (pass : Password) : DeviceData :=
  { d with memory := overwrite d.memory (d.firstPwdOffset + pass.id * 166) (pass.data.take 166) }

/-- The loop of `getPrevUse` and `getPrevAlpha`, with the link that it follows. -/
def lastFrom (d : DeviceData) (next : Password → ℕ) : ℕ → ℕ → ℕ → Option ℕ
  | 0, _, _ => none
  | fuel + 1, id, idPrev =>
      if id = d.maxNumPwd then some idPrev
      else lastFrom d next fuel (next (d.password id)) id

/-- `getPrevUse` and `getPrevAlpha`, with the links that they read. -/
def getPrev (d : DeviceData) (prev next : Password → ℕ) (id : ℕ) : Option ℕ :=
  let idPrev := prev (d.password id)
  if idPrev = d.maxNumPwd then d.lastFrom next 257 id idPrev else some idPrev

def getPrevUse (d : DeviceData) : ℕ → Option ℕ :=
  d.getPrev Password.prevPwdUse Password.nextPwdUse

def getPrevAlpha (d : DeviceData) : ℕ → Option ℕ :=
  d.getPrev Password.prevPwdAlpha Password.nextPwdAlpha

/-- The search of `addPassword` for a chunk that is free. -/
def findFree (d : DeviceData) : Option ℕ :=
  (List.range d.memoryMap.length).findSome? fun i =>
    ((List.range 8).find? fun j => i * 8 + j < d.maxNumPwd ∧
      d.memoryMap.getD i 0 &&& ((1 : Byte) <<< j) = 0).map (i * 8 + ·)

/-- The links that `addPassword` sets for the password in front of the new one. -/
def appendLinks (d : DeviceData) (pwdId prevUse prevAlpha : ℕ) : DeviceData :=
  let d := d.updatePassword ((d.password prevUse).setNextPwdUse pwdId)
  -- not the identifier of the new password, but its own
  d.updatePassword ((d.password prevAlpha).setNextPwdAlpha prevAlpha)

/-- What `addPassword` does before it fills the new password: the links of that one to
the front, and the image. -/
def appendLast (d : DeviceData) (pwdId : ℕ) : Option (ℕ × ℕ × DeviceData) :=
  if d.passwordNum ≠ 0 then do
    let lastPwdUse ← d.getPrevUse d.firstPwdUse
    let lastPwdAlpha ← d.getPrevAlpha d.firstPwdAlpha
    some (lastPwdUse, lastPwdAlpha, d.appendLinks pwdId lastPwdUse lastPwdAlpha)
  -- without passwords nothing is linked, and the header keeps its firsts
  else some (d.maxNumPwd, d.maxNumPwd, d)

/-- What `addPassword` does when the new password is filled. -/
def markUsed (d : DeviceData) (pwdId : ℕ) : DeviceData :=
  let memory := d.memory.set offsetNumPwd (d.memory.getD offsetNumPwd 0 + 1)
  let byte := d.memoryMapOffset + pwdId / 8
  { d with memory := memory.set byte (memory.getD byte 0 ||| ((1 : Byte) <<< (pwdId % 8))) }

/-- `addPassword`: whether it succeeds, and the image, with the two initial vectors that
the generator gives and what the array of `setPassword` held. -/
def addPassword (cipher : BlockCipher) (ivPwd ivUsr : Block) (input : Vector Byte 32)
    (d : DeviceData) (name pwd usrName : QString) : Option (Bool × DeviceData) :=
  match d.findFree with
  | none => some (false, d)
  | some pwdId =>
      (d.appendLast pwdId).map fun r =>
        let d := r.2.2
        let newPwd := ((((Password.ofData pwdId []).setPrevPwdUse r.1).setNextPwdUse
          d.maxNumPwd).setPrevPwdAlpha r.2.1).setNextPwdAlpha d.maxNumPwd
        let named := (newPwd.setCount 0).setName name
        if !named.1 then (false, d)
        else
          let withPwd := named.2.setPassword cipher pwd d.key ivPwd input
          if !withPwd.1 then (false, d)
          else
            let withUsr := withPwd.2.setUserName cipher usrName d.key ivUsr
            -- the new password itself is not written
            if !withUsr.1 then (false, d) else (true, d.markUsed pwdId)

end DeviceData

end PasswordWallet.DesktopApp
