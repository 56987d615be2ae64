import Tp2So.Lib.Copy

/-!
# `ModulePacker/main.c`, `moduleLoader.c` and `memcpy`

The packer appends to the kernel a count and, for each module, its size and its bytes.  The loader
reads them back from memory.

* `File`, `fread`      a file that is being read, with the end-of-file flag that only a short read
                       sets;
* `writeFile`          copies a file in buffers of 128 bytes.  `none` would stand for a loop that has
                       not ended;
* `buildImage`         the file that `buildImage` writes;
* `Bus`                memory, with the addresses that have been read;
* `memcpy`             by words when everything is aligned, by bytes otherwise;
* `loadModules`        the loader.

Files are read and written without errors, and `fopen` succeeds.
-/

set_option linter.unusedVariables false

namespace Tp2So

/-! ## the packer -/

abbrev bufferSize : Nat := 128

structure File where
  contents : List UInt8
  pos : Nat
  eof : Bool

def fopen (contents : List UInt8) : File := ⟨contents, 0, false⟩

def feof (f : File) : Bool := f.eof

/-- `fread` of `n` bytes; a read that gets fewer sets the flag -/
def fread (f : File) (n : Nat) : List UInt8 × File :=
  let bytes := (f.contents.drop f.pos).take n
  (bytes, { f with pos := f.pos + bytes.length, eof := f.eof || bytes.length < n })

/-- the loop of `write_file`, at most `fuel` turns -/
def writeFileLoop : Nat → List UInt8 → File → Option (List UInt8)
  | 0, _, _ => none
  | fuel + 1, target, source =>
    if feof source then some target
    else
      let (buffer, source) := fread source bufferSize
      writeFileLoop fuel (target ++ buffer) source

/-- `write_file`: a turn for each full buffer, one for the rest, one to see the flag -/
def writeFile (target : List UInt8) (source : File) : Option (List UInt8) :=
  writeFileLoop (source.contents.length / bufferSize + 2) target source

/-- `write_size`: the size of the file as an `uint32_t` -/
def writeSize (target : List UInt8) (file : List UInt8) : List UInt8 :=
  target ++ le32 (file.length % 4294967296)

/-- the loop of `buildImage` over the modules -/
def writeModules : List UInt8 → List (List UInt8) → Option (List UInt8)
  | target, [] => some target
  | target, file :: files =>
    (writeFile (writeSize target file) (fopen file)).bind fun target => writeModules target files

/-- `buildImage`, given the contents of the files: the kernel first -/
def buildImage (kernel : List UInt8) (modules : List (List UInt8)) : Option (List UInt8) :=
  (writeFile [] (fopen kernel)).bind fun target =>
    let extraBinaries := modules.length
    writeModules (target ++ le32 (extraBinaries % 4294967296)) modules

/-! ## the loader -/

/-- memory, and the addresses read so far -/
structure Bus where
  mem : Nat → UInt8
  reads : List Nat

namespace Bus

def read8 (b : Bus) (a : Nat) : UInt8 × Bus := (b.mem a, { b with reads := b.reads ++ [a] })

def read32 (b : Bus) (a : Nat) : Nat × Bus :=
  (load32 b.mem a, { b with reads := b.reads ++ [a, a + 1, a + 2, a + 3] })

def write8 (b : Bus) (a : Nat) (v : UInt8) : Bus := { b with mem := Function.update b.mem a v }

def write32 (b : Bus) (a v : Nat) : Bus := { b with mem := store32 b.mem a v }

end Bus

/-- `for (i = 0; i < n; i++) d[i] = s[i]` on bytes: the turns from `i` on -/
def copyBytes (d s : Nat) : Nat → Nat → Bus → Bus
  | 0, _, b => b
  | n + 1, i, b =>
    let (v, b) := b.read8 (s + i)
    copyBytes d s n (i + 1) (b.write8 (d + i) v)

/-- the same on 32-bit words -/
def copyWords (d s : Nat) : Nat → Nat → Bus → Bus
  | 0, _, b => b
  | n + 1, i, b =>
    let (v, b) := b.read32 (s + 4 * i)
    copyWords d s n (i + 1) (b.write32 (d + 4 * i) v)

def memcpy (destination source length : Nat) (b : Bus) : Bus :=
  if destination % 4 = 0 ∧ source % 4 = 0 ∧ length % 4 = 0 then
    copyWords destination source (length / 4) 0 b
  else copyBytes destination source length 0 b

/-- `readUint32`: the word, and the address after it -/
def readUint32 (address : Nat) (b : Bus) : Nat × Nat × Bus :=
  let (result, b) := b.read32 address
  (result, address + 4, b)

/-- `loadModule`: the address after the module -/
def loadModule (current targetModuleAddress : Nat) (b : Bus) : Nat × Bus :=
  let (moduleSize, current, b) := readUint32 current b
  (current + moduleSize, memcpy targetModuleAddress current moduleSize b)

/-- the loop of `loadModules`: `n` modules, the first of them number `i` -/
def loadLoop (targetModuleAddress : Nat → Nat) : Nat → Nat → Nat → Bus → Nat × Bus
  | 0, _, currentModule, b => (currentModule, b)
  | n + 1, i, currentModule, b =>
    let (currentModule, b) := loadModule currentModule (targetModuleAddress i) b
    loadLoop targetModuleAddress n (i + 1) currentModule b

def loadModules (payloadStart : Nat) (targetModuleAddress : Nat → Nat) (b : Bus) : Nat × Bus :=
  let (moduleCount, currentModule, b) := readUint32 payloadStart b
  loadLoop targetModuleAddress moduleCount 0 currentModule b

end Tp2So
