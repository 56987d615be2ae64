import Tp2So.Kernel.Buddy

/-!
# `first_fit_mm.c`

The free blocks are a ring, in the order of their addresses, that starts and ends at the static header
`base`.  A header is a pointer to the next one and a size in units of sixteen bytes.  Both searches
run on `fuel`: `none` means that they have not ended.

* `mmInit`, `mmAlloc`, `mmFree`, `mmGetStats`   the interface;
* `findLoop`, `placeLoop`                       the searches of `mm_alloc` and `mm_free`.
-/

namespace Tp2So

/-- `sizeof(Header)` -/
def unitSize : Nat := 16

structure FirstFit where
  mem : Nat → UInt8
  /-- the address of the static header -/
  base : Nat
  freep : Nat
  totalMemSize : Nat
  freeMemSize : Nat

namespace FirstFit

/-- the fields of the header at `p` -/
def ptr (s : FirstFit) (p : Nat) : Nat := load64 s.mem p
def size (s : FirstFit) (p : Nat) : Nat := load64 s.mem (p + 8)

def setPtr (s : FirstFit) (p v : Nat) : FirstFit := { s with mem := store64 s.mem p v }
def setSize (s : FirstFit) (p v : Nat) : FirstFit := { s with mem := store64 s.mem (p + 8) v }

/-- `p + n`, in units -/
def plus (p n : Nat) : Nat := wrap64 (p + n * unitSize)

def mmInit (s : FirstFit) (baseAddress totalSize : Nat) : FirstFit :=
  let units := totalSize / unitSize
  let s := s.setSize baseAddress units
  let s := { s with totalMemSize := units * unitSize, freeMemSize := units * unitSize }
  let s := (s.setPtr s.base baseAddress).setSize s.base 0
  let s := s.setPtr baseAddress s.base
  { s with freep := s.base }

/-! ## `mm_alloc` -/

/-- the units of a request, with its header; `MIN_ALLOC_UNITS` is `1` -/
def requestUnits (nbytes : Nat) : Nat :=
  let nunits := wrap64 (nbytes + unitSize - 1) / unitSize + 1
  if nunits < 1 then 1 else nunits

/-- the block `p`, which is large enough, and the header before it -/
def takeUnits (s : FirstFit) (prevp p nunits : Nat) : Nat × FirstFit :=
  let r : Nat × FirstFit :=
    if s.size p = nunits then (p, s.setPtr prevp (s.ptr p))
    else
      let s := s.setSize p (wrap64 (s.size p + 18446744073709551616 - nunits))
      let block := plus p (s.size p)
      (block, s.setSize block nunits)
  (plus r.1 1, { r.2 with
    freep := prevp
    freeMemSize := wrap64 (r.2.freeMemSize + 18446744073709551616 - wrap64 (nunits * unitSize)) })

/-- the search: it stops at a block that is large enough, or when it is back at `freep` -/
def findLoop (s : FirstFit) (nunits : Nat) : Nat → Nat → Nat → Option (Nat × FirstFit)
  | 0, _, _ => none
  | fuel + 1, prevp, p =>
    if nunits ≤ s.size p then some (takeUnits s prevp p nunits)
    else if p = s.freep then some (0, s)
    else findLoop s nunits fuel p (s.ptr p)

def mmAlloc (fuel : Nat) (s : FirstFit) (nbytes : Nat) : Option (Nat × FirstFit) :=
  if nbytes = 0 then some (0, s)
  else findLoop s (requestUnits nbytes) fuel s.freep (s.ptr s.freep)

/-! ## `mm_free` -/

/-- the header behind which `bp` belongs -/
def placeLoop (s : FirstFit) (bp : Nat) : Nat → Nat → Option Nat
  | 0, _ => none
  | fuel + 1, p =>
    if p < bp ∧ bp < s.ptr p then some p
    else if s.ptr p ≤ p ∧ (p < bp ∨ bp < s.ptr p) then some p
    else placeLoop s bp fuel (s.ptr p)

/-- the block `bp` is joined with what follows it, or linked to it -/
def joinUpper (s : FirstFit) (p bp : Nat) : FirstFit :=
  if plus bp (s.size bp) = s.ptr p then
    let s := s.setSize bp (wrap64 (s.size bp + s.size (s.ptr p)))
    s.setPtr bp (s.ptr (s.ptr p))
  else s.setPtr bp (s.ptr p)

/-- the block `bp` is joined with `p` before it, or linked behind it -/
def joinLower (s : FirstFit) (p bp : Nat) : FirstFit :=
  if plus p (s.size p) = bp then
    let s := s.setSize p (wrap64 (s.size p + s.size bp))
    { s.setPtr p (s.ptr bp) with freep := p }
  else { s.setPtr p bp with freep := bp }

def mmFree (fuel : Nat) (s : FirstFit) (ap : Nat) : Option FirstFit :=
  if ap = 0 then some s
  else
    let bp := wrap64 (ap + 18446744073709551616 - unitSize)
    let s := { s with freeMemSize := wrap64 (s.freeMemSize + s.size bp * unitSize) }
    (placeLoop s bp fuel s.freep).map fun p => joinLower (joinUpper s p bp) p bp

def mmGetStats (s : FirstFit) : MemoryStats where
  totalMemory := s.totalMemSize
  freeMemory := s.freeMemSize
  occupiedMemory := if s.freeMemSize ≤ s.totalMemSize then s.totalMemSize - s.freeMemSize else 0

end FirstFit

end Tp2So
