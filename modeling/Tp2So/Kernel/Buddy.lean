import Tp2So.Lib.Bytes

/-!
# `buddy_system_mm.c`

The free blocks of every order are a list threaded through the first word of the blocks themselves;
an allocated block has its order in its first byte.  Loops that follow links in the memory, and the
one that rounds a size up, run on `fuel`: `none` means that they have not ended.

* `mmInit`, `mmAlloc`, `mmFree`, `mmGetStats`        the interface;
* `isBuddyFree`, `removeFromList`                    the walks along a list.
-/

namespace Tp2So

structure MemoryStats where
  totalMemory : Nat
  freeMemory : Nat
  occupiedMemory : Nat
  deriving DecidableEq

def minBlockSize : Nat := 0x1000
def maxOrder : Nat := 16

/-- `sizeof(alloc_metadata_t)` and `sizeof(free_block_t)` -/
def metadataSize : Nat := 8
def freeBlockSize : Nat := 8

structure Buddy where
  mem : Nat → UInt8
  buddyLists : Nat → Nat
  startAddr : Nat
  totalManagedBytes : Nat

namespace Buddy

/-- the size of a block of this order: `MIN_BLOCK_SIZE << order` -/
def blockSize (order : Nat) : Nat := minBlockSize * 2 ^ order

/-! ## `mm_init` -/

/-- the loop that counts the orders that fit -/
def countOrders (totalSize : Nat) : Nat → Nat → Nat
  | 0, k => k
  | n + 1, k =>
    if blockSize k ≤ totalSize ∧ k ≤ maxOrder then countOrders totalSize n (k + 1) else k

def mmInit (s : Buddy) (baseAddress totalSize : Nat) : Buddy :=
  let k := countOrders totalSize (maxOrder + 2) 0
  let s := { s with buddyLists := fun _ => 0 }
  if k = 0 then { s with totalManagedBytes := 0 }
  else
    { mem := store64 s.mem baseAddress 0
      buddyLists := Function.update s.buddyLists (k - 1) baseAddress
      startAddr := baseAddress
      totalManagedBytes := blockSize (k - 1) }

/-! ## `mm_alloc` -/

def requiredSpace (size : Nat) : Nat :=
  let required := wrap64 (size + metadataSize)
  if required < freeBlockSize then freeBlockSize else required

/-- the loop that finds the order for `required` bytes; a doubled block size may come to `0` -/
def targetOrder (required : Nat) : Nat → Nat → Nat → Option Nat
  | 0, _, _ => none
  | fuel + 1, size, order =>
    if size < required then targetOrder required fuel (wrap64 (size * 2)) (order + 1)
    else some order

/-- a block becomes the first of a list -/
def push (s : Buddy) (block order : Nat) : Buddy :=
  { s with mem := store64 s.mem block (s.buddyLists order)
           buddyLists := Function.update s.buddyLists order block }

/-- the loop that halves the block; the upper halves go to the lists -/
def splitLoop (block target : Nat) : Nat → Buddy → Buddy
  | 0, s => s
  | order + 1, s =>
    if target < order + 1 then
      splitLoop block target order (s.push (wrap64 (block + blockSize order)) order)
    else s

/-- the loop over the orders from `target` on; the pointer is `0` when no list has a block -/
def takeBlock (target : Nat) : Nat → Nat → Buddy → Nat × Buddy
  | 0, _, s => (0, s)
  | n + 1, order, s =>
    if s.buddyLists order ≠ 0 then
      let block := s.buddyLists order
      let s := { s with buddyLists := Function.update s.buddyLists order (load64 s.mem block) }
      let s := splitLoop block target order s
      (wrap64 (block + metadataSize),
        { s with mem := Function.update s.mem block (UInt8.ofNat target) })
    else takeBlock target n (order + 1) s

def mmAlloc (fuel : Nat) (s : Buddy) (size : Nat) : Option (Nat × Buddy) :=
  if size = 0 then some (0, s)
  else
    (targetOrder (requiredSpace size) fuel minBlockSize 0).map fun target =>
      if maxOrder < target then (0, s) else takeBlock target (maxOrder + 1 - target) target s

/-! ## `mm_free` -/

def isBuddyFree (m : Nat → UInt8) (buddy : Nat) : Nat → Nat → Option Bool
  | 0, _ => none
  | fuel + 1, current =>
    if current = 0 then some false
    else if current = buddy then some true
    else isBuddyFree m buddy fuel (load64 m current)

/-- the walk with `prev` one behind; `prev = 0` at the head of the list -/
def removeLoop (s : Buddy) (block order : Nat) : Nat → Nat → Nat → Option Buddy
  | 0, _, _ => none
  | fuel + 1, prev, current =>
    if current = 0 then some s
    else if current = block then
      if prev = 0 then
        some { s with buddyLists := Function.update s.buddyLists order (load64 s.mem current) }
      else some { s with mem := store64 s.mem prev (load64 s.mem current) }
    else removeLoop s block order fuel current (load64 s.mem current)

def removeFromList (fuel : Nat) (s : Buddy) (block order : Nat) : Option Buddy :=
  removeLoop s block order fuel 0 (s.buddyLists order)

/-- the block next to which a block of this order has been split off -/
def buddyOf (s : Buddy) (block order : Nat) : Nat :=
  wrap64 ((wrap64 (block + 18446744073709551616 - s.startAddr) ^^^ blockSize order) + s.startAddr)

/-- the loop that joins a block with its free buddies: the block that is left, and its order -/
def mergeLoop (fuel : Nat) : Nat → Nat → Nat → Buddy → Option (Nat × Nat × Buddy)
  | 0, block, order, s => some (block, order, s)
  | n + 1, block, order, s =>
    if order < maxOrder then
      let buddy := s.buddyOf block order
      (isBuddyFree s.mem buddy fuel (s.buddyLists order)).bind fun free =>
        if free then
          (removeFromList fuel s buddy order).bind fun s =>
            mergeLoop fuel n (if buddy < block then buddy else block) (order + 1) s
        else some (block, order, s)
    else some (block, order, s)

def mmFree (fuel : Nat) (s : Buddy) (ptr : Nat) : Option Buddy :=
  if ptr = 0 then some s
  else
    let block := wrap64 (ptr + 18446744073709551616 - metadataSize)
    (mergeLoop fuel maxOrder block (s.mem block).toNat s).map fun r => r.2.2.push r.1 r.2.1

/-! ## `mm_get_stats` -/

/-- the number of nodes of a list -/
def countNodes (m : Nat → UInt8) : Nat → Nat → Option Nat
  | 0, _ => none
  | fuel + 1, node =>
    if node = 0 then some 0 else (countNodes m fuel (load64 m node)).map fun n => n + 1

/-- the free bytes of the orders below `n` -/
def freeBytes (fuel : Nat) (s : Buddy) : Nat → Option Nat
  | 0 => some 0
  | n + 1 => (freeBytes fuel s n).bind fun bytes =>
    (countNodes s.mem fuel (s.buddyLists n)).map fun c => wrap64 (bytes + c * blockSize n)

def mmGetStats (fuel : Nat) (s : Buddy) : Option MemoryStats :=
  (freeBytes fuel s (maxOrder + 1)).map fun free =>
    { totalMemory := s.totalManagedBytes
      freeMemory := free
      occupiedMemory := if free ≤ s.totalManagedBytes then s.totalManagedBytes - free else 0 }

end Buddy

end Tp2So
