import Tp2So.Kernel.Fonts
import Mathlib.Logic.Function.Basic

/-!
# `keyboard.c`: the keyboard driver

The ring of typed characters has the source's indices, and beside them the list of what was done to it,
which nothing reads.  Characters are bytes; `EOF` is 255.  A key handler is a number, and its call and the
kill of the foreground are put down as events.

* `KeyRing`            the buffer, `to_write`, `to_read`;
* `addCharToBuffer`    a tab is as many spaces as the fuel allows, and `none` when it runs out;
* `keyboardHandler`    one scancode;
* `getKeyboardCharacter`, `readTurn`   a reader comes in, and one turn of its loop;
* `clearBuffer`;
* `registerSpecialKey`, `sysExec`   the table of key handlers, with the indices at which it is accessed.
-/

set_option linter.unusedVariables false

namespace Tp2So

/-- what was done to the buffer -/
inductive Edit where
  | add (c : UInt8)
  | erase
  | read (c : UInt8)
  | reset

structure KeyRing where
  buffer : Nat → UInt8
  toWrite : Nat
  toRead : Nat
  edits : List Edit

/-- `SUB_MOD` -/
def subMod (a b m : Nat) : Nat := if (a : Int) - b < 0 then m - b + a else a - b

namespace KeyRing

/-- `BUFFER_SIZE` -/
def bufferSize : Nat := 1024

/-- `BUFFER_IS_FULL`, with the remainder of `int` -/
def isFull (r : KeyRing) : Bool :=
  Int.tmod ((r.toWrite : Int) - r.toRead) bufferSize = (bufferSize : Int) - 1

/-- `buffer[SUB_MOD(to_write, 1, BUFFER_SIZE)]` -/
def last (r : KeyRing) : UInt8 := r.buffer (subMod r.toWrite 1 bufferSize)

/-- `buffer[to_write] = ascii; INC_MOD(to_write, BUFFER_SIZE)` -/
def add (ascii : UInt8) (r : KeyRing) : KeyRing where
  buffer := Function.update r.buffer r.toWrite ascii
  toWrite := (r.toWrite + 1) % bufferSize
  toRead := r.toRead
  edits := r.edits ++ [.add ascii]

/-- `DEC_MOD(to_write, BUFFER_SIZE)` -/
def erase (r : KeyRing) : KeyRing where
  buffer := r.buffer
  toWrite := subMod r.toWrite 1 bufferSize
  toRead := r.toRead
  edits := r.edits ++ [.erase]

/-- `aux = buffer[to_read]; INC_MOD(to_read, BUFFER_SIZE)` -/
def read (r : KeyRing) : KeyRing where
  buffer := r.buffer
  toWrite := r.toWrite
  toRead := (r.toRead + 1) % bufferSize
  edits := r.edits ++ [.read (r.buffer r.toRead)]

/-- `to_read = to_write = 0` -/
def reset (r : KeyRing) : KeyRing where
  buffer := r.buffer
  toWrite := 0
  toRead := 0
  edits := r.edits ++ [.reset]

end KeyRing

/-- calls that leave the driver -/
inductive KeyEvent where
  | killForegroundProcesses
  | special (fn : Nat) (scancode : UInt8)

/-- `fn` is `none` for `NULL` -/
structure RegisteredKeys where
  registeredFromKernel : Bool
  fn : Option Nat

structure Keyboard extends KeyRing where
  keyboardOptions : UInt8
  shiftKeyPressed : Bool
  capsLockKeyPressed : Bool
  controlKeyPressed : Bool
  keyFnMap : UInt8 → RegisteredKeys
  /-- the value of `buffer_sem` -/
  bufferSem : Nat
  /-- how many processes are in the loop of `getKeyboardCharacter` -/
  readers : Nat
  fonts : Fonts
  events : List KeyEvent

/-! ## codes -/

def escapeKey : UInt8 := 0x01
def backspaceKey : UInt8 := 0x0E
def tabulatorKey : UInt8 := 0x0F
def returnKey : UInt8 := 0x1C
def controlKeyL : UInt8 := 0x1D
def dKey : UInt8 := 0x20
def shiftKeyL : UInt8 := 0x2A
def cKey : UInt8 := 0x2E
def shiftKeyR : UInt8 := 0x36
def capsLockKey : UInt8 := 0x3A
def f12Key : UInt8 := 0x58

def newLineChar : UInt8 := 10
def tabulatorChar : UInt8 := 9
def eofChar : UInt8 := 255

def showBufferWhileTyping : UInt8 := 1
def awaitReturnKey : UInt8 := 2
def modifyBuffer : UInt8 := 4

/-- the character of a key, and the one with shift; a key without a character has its own code -/
def scancodeMap : List (UInt8 × UInt8) := [
  (0, 0), (0x01, 0x01), (49, 33), (50, 64), (51, 35), (52, 36), (53, 37), (54, 94), (55, 38), (56, 42),
  (57, 40), (48, 41), (45, 95), (61, 43), (0x0E, 0x0E), (0x0F, 0x0F), (113, 81), (119, 87), (101, 69),
  (114, 82), (116, 84), (121, 89), (117, 85), (105, 73), (111, 79), (112, 80), (91, 123), (93, 125),
  (0x1C, 0x1C), (0x1D, 0x1D), (97, 65), (115, 83), (100, 68), (102, 70), (103, 71), (104, 72), (106, 74),
  (107, 75), (108, 76), (59, 58), (39, 34), (96, 126), (0x2A, 0x2A), (92, 124), (122, 90), (120, 88),
  (99, 67), (118, 86), (98, 66), (110, 78), (109, 77), (44, 60), (46, 62), (47, 63), (0x36, 0x36),
  (42, 42), (0x38, 0xB8), (32, 32), (0x3A, 0x3A), (0x3B, 0x3B), (0x3C, 0x3C), (0x3D, 0x3D), (0x3E, 0x3E),
  (0x3F, 0x3F), (0x40, 0x40), (0x41, 0x41), (0x42, 0x42), (0x43, 0x43), (0x44, 0x44), (0x45, 0x45),
  (0x46, 0x46), (0x47, 55), (0x48, 56), (0x49, 57), (45, 45), (0x4B, 52), (0x4C, 53), (0x4D, 54),
  (43, 43), (0x4F, 49), (0x50, 50), (0x51, 51), (0x52, 48), (0x53, 46), (0, 0), (0, 0), (45, 45),
  (0x57, 0x57), (0x58, 0x58)]

def isPressed (scancode : UInt8) : Bool := scancode &&& 0x80 = 0

def makeCode (scancode : UInt8) : UInt8 := scancode &&& 0x7F

/-- `IS_KEYCODE` -/
def isKeycode (c : UInt8) : Bool := escapeKey ≤ c ∧ c ≤ f12Key

/-- `TO_UPPER` -/
def toUpper (c : UInt8) : UInt8 := if 97 ≤ c ∧ c ≤ 122 then c - 97 + 65 else c

/-- `IS_PRINTABLE` -/
def isPrintable (shift : Bool) (c : UInt8) : Bool :=
  isKeycode c ∧ ((0x02 ≤ c ∧ c ≤ 0x0D) ∨ (0x0F ≤ c ∧ c ≤ 0x1C) ∨ (0x1E ≤ c ∧ c ≤ 0x29) ∨
    (0x2B ≤ c ∧ c ≤ 0x35) ∨ c = 0x37 ∨ c = 0x39 ∨ (shift ∧ 0x47 ≤ c ∧ c ≤ 0x53) ∨
    (c = 0x4A ∨ c = 0x4E) ∨ c = 0x56)

namespace Keyboard

/-- the static variables before the first interrupt, and a console -/
def start (fonts : Fonts) : Keyboard where
  buffer := fun _ => 0
  toWrite := 0
  toRead := 0
  edits := []
  keyboardOptions := 0
  shiftKeyPressed := false
  capsLockKeyPressed := false
  controlKeyPressed := false
  keyFnMap := fun _ => ⟨false, none⟩
  bufferSem := 0
  readers := 0
  fonts := fonts
  events := []

/-! ## the buffer -/

/-- `keyboard_options & MODIFY_BUFFER`, and the other two -/
def option (s : Keyboard) (o : UInt8) : Bool := s.keyboardOptions &&& o ≠ 0

/-- `addCharToBuffer` of a character that is not a tab -/
def addPlain (w : Window) (ascii : UInt8) (showOutput : Bool) (s : Keyboard) : Keyboard :=
  { s with
    toKeyRing := s.toKeyRing.add ascii
    fonts := if showOutput then s.fonts.putChar w 0 ascii else s.fonts
    bufferSem := if s.option modifyBuffer then s.bufferSem + 1 else s.bufferSem }

/-- `getXBufferPosition() % (TAB_SIZE * DEFAULT_GLYPH_SIZE_X * getFontSize()) != 0`; the position is
returned as `uint16_t` -/
def offTabStop (f : Fonts) : Bool := (f.xBufferPosition % 65536).toNat % (tabSize * f.side) ≠ 0

/-- `do addCharToBuffer(' ', showOutput) while (...)` -/
def tabTurns (w : Window) (showOutput : Bool) : Nat → Keyboard → Option Keyboard
  | 0, s => none
  | n + 1, s =>
    let s := addPlain w 32 showOutput s
    if !s.isFull && offTabStop s.fonts then tabTurns w showOutput n s else some s

def addCharToBuffer (w : Window) (fuel : Nat) (ascii : UInt8) (showOutput : Bool) (s : Keyboard) :
    Option Keyboard :=
  if ascii ≠ tabulatorChar then some (addPlain w ascii showOutput s) else tabTurns w showOutput fuel s

/-- `DEC_MOD(to_write, BUFFER_SIZE); clearPreviousCharacter()` -/
def eraseChar (w : Window) (s : Keyboard) : Keyboard :=
  { s with toKeyRing := s.toKeyRing.erase, fonts := s.fonts.clearPreviousCharacter w }

def clearBuffer (w : Window) (s : Keyboard) : Keyboard × Nat :=
  let aux := subMod s.toWrite s.toRead KeyRing.bufferSize
  if aux = 0 then (s, 0) else (eraseChar w s, aux)

/-! ## reading -/

/-- `getKeyboardCharacter(ops)` is called -/
def getKeyboardCharacter (ops : UInt8) (s : Keyboard) : Keyboard :=
  { s with keyboardOptions := ops ||| modifyBuffer, readers := s.readers + 1 }

/-- `semWait(buffer_sem)`, when it need not wait -/
def waitBuffer (s : Keyboard) : Option Keyboard :=
  if s.bufferSem = 0 then none else some { s with bufferSem := s.bufferSem - 1 }

/-- the end of `getKeyboardCharacter` -/
def takeChar (s : Keyboard) : Keyboard × UInt8 :=
  ({ s with toKeyRing := s.toKeyRing.read, keyboardOptions := 0, readers := s.readers - 1 }, s.buffer s.toRead)

/-- one turn of the loop of `getKeyboardCharacter`, and the character when it is the last turn; `none`
when it has to wait -/
def readTurn (s : Keyboard) : Option (Keyboard × Option UInt8) :=
  if s.toWrite = s.toRead then s.waitBuffer.map fun s => (s, none)
  else if s.option awaitReturnKey then
    if s.last = newLineChar ∨ s.last = eofChar then some (s.takeChar.1, some s.takeChar.2)
    else s.waitBuffer.map fun s => (s, none)
  else some (s.takeChar.1, some s.takeChar.2)

/-! ## the handler -/

/-- the `switch` of `keyboardHandler` -/
def modifiers (scancode : UInt8) (s : Keyboard) : Keyboard :=
  if makeCode scancode = shiftKeyL ∨ makeCode scancode = shiftKeyR then
    { s with shiftKeyPressed := isPressed scancode }
  else if makeCode scancode = controlKeyL then { s with controlKeyPressed := isPressed scancode }
  else if makeCode scancode = capsLockKey then
    { s with capsLockKeyPressed :=
        if isPressed scancode then !s.capsLockKeyPressed else s.capsLockKeyPressed }
  else s

/-- `scancodeMap[scancode][SHIFT_KEY_PRESSED]`, in capitals if these are on -/
def typed (scancode : UInt8) (s : Keyboard) : UInt8 :=
  let p := scancodeMap.getD scancode.toNat (0, 0)
  let c := if s.shiftKeyPressed then p.2 else p.1
  if s.capsLockKeyPressed then toUpper c else c

/-- the `if ((keyboard_options & MODIFY_BUFFER) != 0)` of `keyboardHandler`; `false` when that returns -/
def edit (w : Window) (fuel : Nat) (scancode : UInt8) (s : Keyboard) : Option (Keyboard × Bool) :=
  let c := s.typed scancode
  if isPrintable s.shiftKeyPressed scancode then
    if c = returnKey then
      if s.toWrite ≠ s.toRead ∧ s.last = newLineChar then some (s, false)
      else (addCharToBuffer w fuel newLineChar (s.option showBufferWhileTyping) s).map fun s => (s, true)
    else
      let c := if c = tabulatorKey then tabulatorChar else c
      (addCharToBuffer w fuel c (s.option showBufferWhileTyping) s).map fun s => (s, true)
  else if c = backspaceKey ∧ s.toWrite ≠ s.toRead then some (eraseChar w s, true)
  else some (s, true)

/-- `if (KeyFnMap[scancode].fn != 0) KeyFnMap[scancode].fn(scancode)` -/
def callSpecial (scancode : UInt8) (s : Keyboard) : Keyboard :=
  { s with events := s.events ++ ((s.keyFnMap scancode).fn.map (.special · scancode)).toList }

/-- a key that is pressed, after the `switch` -/
def press (w : Window) (fuel : Nat) (scancode : UInt8) (s : Keyboard) : Option (Keyboard × UInt8) :=
  if s.controlKeyPressed ∧ makeCode scancode = cKey then
    some ({ s with events := s.events ++ [.killForegroundProcesses] }, scancode)
  else if s.controlKeyPressed ∧ makeCode scancode = dKey then
    if s.toWrite = s.toRead then
      (addCharToBuffer w fuel eofChar false s).map fun s => (s, eofChar)
    else some (s, eofChar)
  else if s.option modifyBuffer then
    (edit w fuel scancode s).map fun p => (if p.2 then callSpecial scancode p.1 else p.1, scancode)
  else some (callSpecial scancode s, scancode)

def keyboardHandler (w : Window) (fuel : Nat) (scancode : UInt8) (s : Keyboard) :
    Option (Keyboard × UInt8) :=
  if s.isFull then some ({ s with toKeyRing := s.toKeyRing.reset }, scancode)
  else
    let s := modifiers scancode s
    if isPressed scancode && isKeycode scancode then press w fuel scancode s else some (s, scancode)

end Keyboard

/-! ## key handlers -/

/-- `KeyFnMap`, where its entries go on behind the array as well -/
structure KeyTable where
  keyFnMap : Nat → RegisteredKeys
  accesses : List Nat

namespace KeyTable

/-- the length of `KeyFnMap`: `F12_KEY - ESCAPE_KEY + 1` -/
def keyFnMapSize : Nat := f12Key.toNat - escapeKey.toNat + 1

def access (i : Nat) (t : KeyTable) : KeyTable := { t with accesses := t.accesses ++ [i] }

def set (i : Nat) (e : RegisteredKeys) (t : KeyTable) : KeyTable :=
  { access i t with keyFnMap := Function.update t.keyFnMap i e }

/-- the loop of `restoreKeyFnMapNonKernel`, `n` turns from `i` on -/
def restoreLoop (map : Nat → Option Nat) : Nat → Nat → KeyTable → KeyTable
  | 0, _, t => t
  | n + 1, i, t =>
    let e := t.keyFnMap i
    let t := access i t
    restoreLoop map n (i + 1) (if e.registeredFromKernel then t else set i { e with fn := map i } t)

def restoreKeyFnMapNonKernel (map : Nat → Option Nat) (t : KeyTable) : KeyTable :=
  restoreLoop map (f12Key.toNat - escapeKey.toNat) escapeKey.toNat t

/-- the loop of `clearKeyFnMapNonKernel` -/
def clearLoop : Nat → Nat → (Nat → Option Nat) × KeyTable → (Nat → Option Nat) × KeyTable
  | 0, _, p => p
  | n + 1, i, (map, t) =>
    let e := t.keyFnMap i
    let t := access i t
    clearLoop n (i + 1) (if e.registeredFromKernel then (map, t)
      else (Function.update map i e.fn, set i { e with fn := none } t))

def clearKeyFnMapNonKernel (map : Nat → Option Nat) (t : KeyTable) : (Nat → Option Nat) × KeyTable :=
  clearLoop (f12Key.toNat - escapeKey.toNat) escapeKey.toNat (map, t)

def registerSpecialKey (scancode : UInt8) (fn : Option Nat) (registeredFromKernel : Bool) (t : KeyTable) :
    KeyTable × Nat :=
  let i := scancode.toNat
  if isKeycode scancode then
    if registeredFromKernel then (set i ⟨registeredFromKernel, fn⟩ t, 1)
    else if (t.keyFnMap i).fn = none then (set i ⟨registeredFromKernel, fn⟩ (access i t), 1)
    else (access i t, 0)
  else (t, 0)

/-- `sys_register_key` -/
def sysRegisterKey (t : KeyTable) (r : UInt8 × Option Nat) : KeyTable :=
  (registerSpecialKey r.1 r.2 false t).1

/-- what `sys_exec` does to the table, when `fnPtr` registers the keys `regs` -/
def sysExec (regs : List (UInt8 × Option Nat)) (t : KeyTable) : KeyTable :=
  let p := clearKeyFnMapNonKernel (fun _ => none) t
  restoreKeyFnMapNonKernel p.1 (regs.foldl sysRegisterKey p.2)

end KeyTable

end Tp2So
