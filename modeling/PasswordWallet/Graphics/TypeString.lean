import PasswordWallet.Memory.Image

/-!
# The text editor

`type_string` and `draw_typing_screen` of `Drawing.c`, with the places that they
access.  The memory is the one from `string_typed` on, so a place is an index of
the string; how much of it is the buffer is told by `maxLen` only.

A turn of the loop is given its mask of events; the turns in which the program waits
have the mask 0.
-/

namespace PasswordWallet

/-- `INVALID_CHARACTER`. -/
def invalidCharacter : Byte := 0x7E

def eventButton1 : Byte := 1
def eventButton2 : Byte := 2
def eventButton3 : Byte := 4
def eventButton4 : Byte := 8

/-! ## Strings -/

/-- The length of a string; each turn of the loop reads the place of the length so
far. -/
def strlen : List Byte → ℕ
  | [] => 0
  | c :: str => if c = 0 then 0 else strlen str + 1

/-- `strlen_bound`, from the length so far on.  It reads the place of the length also
in its last turn, before it looks at `max`. -/
def strlenBound (max : ℕ) : List Byte → ℕ → ℕ
  | [], len => len
  | c :: str, len => if c ≠ 0 ∧ len < max then strlenBound max str (len + 1) else len

/-- What `draw_typing_screen` reads of a string. -/
def drawTypingScreen (str : List Byte) (column max : ℕ) : List ℕ :=
  let len := strlenBound max str 0
  let scrolled := column - 15
  let drawn := (List.range ((len + 256 - scrolled) % 256)).takeWhile fun i => i * 7 + 1 < 128
  List.range (len + 1) ++ drawn.map (scrolled + ·) ++ [column]

/-! ## The editor -/

/-- The memory and the variables of `type_string`, where the memory has been
accessed so far, and what it was at each redraw. -/
structure Editor where
  memory : List Byte
  pos : ℕ
  running : Bool
  modified : Bool
  accesses : List ℕ
  screens : List (List Byte)

namespace Editor

/-- `string_typed[i]`. -/
def char (ed : Editor) (i : ℕ) : Byte := ed.memory.getD i 0

def read (ed : Editor) (i : ℕ) : Editor := { ed with accesses := ed.accesses ++ [i] }

def write (ed : Editor) (i : ℕ) (c : Byte) : Editor :=
  { ed with memory := ed.memory.set i c, accesses := ed.accesses ++ [i] }

def quit (ed : Editor) : Editor := { ed with running := false }

variable (maxLen : ℕ)

def redraw (ed : Editor) : Editor :=
  { ed with
    accesses := ed.accesses ++ drawTypingScreen ed.memory ed.pos maxLen
    screens := ed.screens ++ [ed.memory] }

/-- The loop that erases what is behind the cursor. -/
def eraseBehind (ed : Editor) : Editor :=
  (List.range' (ed.pos + 1) (maxLen - (ed.pos + 1))).foldl (fun ed i => ed.write i 0) ed

def button1 (ed : Editor) : Editor :=
  let c := ed.char ed.pos
  let ed := ed.read ed.pos
  let ed := if c = 0x20 then ed.write ed.pos invalidCharacter else ed.write ed.pos (c - 1)
  { ed with modified := true }

def button2 (ed : Editor) : Editor :=
  if ed.pos + 1 = maxLen then ed.quit
  else if ed.char ed.pos = invalidCharacter then
    let ed := (ed.read ed.pos).read (ed.pos + 1)
    if ed.char (ed.pos + 1) = 0 then ed.quit else ed.eraseBehind maxLen
  else
    let ed := ed.read ed.pos
    let ed := { ed with pos := (ed.pos + 1) % 256 }
    if ed.char ed.pos = 0 then (ed.read ed.pos).write ed.pos invalidCharacter
    else ed.read ed.pos

def button3 (ed : Editor) : Editor :=
  let c := ed.char ed.pos
  let ed := ed.read ed.pos
  let ed := if c = invalidCharacter then ed.write ed.pos 0x20 else ed.write ed.pos (c + 1)
  { ed with modified := true }

def button4 (ed : Editor) : Editor :=
  let erased := ed.char ed.pos = invalidCharacter
  let ed := ed.read ed.pos
  let ed := if erased then ed.eraseBehind maxLen else ed
  if ed.pos > 0 then { ed with pos := ed.pos - 1 } else ed.quit

/-- One turn of the loop. -/
def step (ed : Editor) (event : Byte) : Editor :=
  let ed :=
    if event &&& eventButton1 ≠ 0 then ed.button1
    else if event &&& eventButton2 ≠ 0 then ed.button2 maxLen
    else if event &&& eventButton3 ≠ 0 then ed.button3
    else if event &&& eventButton4 ≠ 0 then ed.button4 maxLen
    else ed
  if event ≠ 0 then ed.redraw maxLen else ed

def loop : List Byte → Editor → Editor
  | [], ed => ed
  | event :: events, ed => if ed.running then loop events (ed.step maxLen event) else ed

/-- The loop behind the turns, which ends every string that is left. -/
def clean (ed : Editor) : Editor :=
  (List.range maxLen).foldl (fun ed i =>
    if ed.char i = invalidCharacter then (ed.read i).write i 0 else ed.read i) ed

/-- What is in front of the loop. -/
def start (memory : List Byte) : Editor :=
  let len := strlen memory
  let ed : Editor := ⟨memory, 0, true, false, List.range (len + 1), []⟩
  (ed.write len invalidCharacter).redraw maxLen

end Editor

/-- `type_string`, given as many events; it may wait for the next one. -/
def typeString (maxLen : ℕ) (events : List Byte) (memory : List Byte) : Editor :=
  let ed := (Editor.start maxLen memory).loop maxLen events
  if ed.running then ed else ed.clean maxLen

end PasswordWallet
