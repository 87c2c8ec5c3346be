import Mathlib.Algebra.Group.Nat.Defs
import Mathlib.Logic.Function.Basic
import Libnc.Foundation.Span

/-!
# The memory pool

The functions of `nc_palloc.c` over explicit records at explicit addresses, with
64-bit addresses and sizes.  Access through NULL has no result, and neither has
a loop that runs out of fuel or a `free` of what is not allocated.

Adding an offset to a pointer never leaves the address space in C, so it is
plain addition; the difference of two pointers cast to `size_t` and the integer
arithmetic of `NC_ALIGN_PTR` wrap.
-/

namespace Libnc.Pool

open Libnc.Foundation

/-- Addresses are natural numbers. -/
def null : Nat := 0

def ncAlignment : Nat := 8

def ncMaxAllocFromPool : Nat := 4096 - 1

def sizeofNcPool : Nat := 64

def sizeofNcPoolData : Nat := 32

def sizeofNcPoolLarge : Nat := 16

def sizeofNcPoolCleanup : Nat := 24

/-- `NC_ALIGN_PTR`; clearing the low bits is rounding down, as `n` is a power of two. -/
def ncAlignPtr (p n : Nat) : Nat := (p + (n - 1)) % 2 ^ 64 / n * n

/-- The difference of two pointers or sizes as a `size_t`. -/
def sizeDiff (a b : Nat) : Nat := (a + 2 ^ 64 - b) % 2 ^ 64

/-! ## The system allocator -/

/-- A call out of the pool: to the allocator, or to the handler of a cleanup record. -/
inductive SystemCall where
  | alloc (size : Nat) (result : Nat)
  | free (p : Nat)
  | handler (record handler data : Nat)
  deriving DecidableEq, Repr

/-- What is allocated, and the calls so far, newest first. -/
structure System where
  held : List Span
  calls : List SystemCall

/-- The answer to a request, which may be NULL. -/
abbrev Allocator := System → Nat → Nat

/--
An answer other than NULL is a fresh range, aligned to 16 bytes, and the address
behind it can be formed.
-/
def Allocator.Lawful (malloc : Allocator) : Prop :=
  ∀ sys size, malloc sys size = null ∨
    (16 ∣ malloc sys size ∧ malloc sys size + size < 2 ^ 64 ∧
      ∀ s ∈ sys.held, s.Apart ⟨malloc sys size, size⟩)

def System.alloc (malloc : Allocator) (sys : System) (size : Nat) : Nat × System :=
  let p := malloc sys size
  (p, ⟨if p = null then sys.held else ⟨p, size⟩ :: sys.held, .alloc size p :: sys.calls⟩)

/-- Freeing NULL does nothing. -/
def System.free (sys : System) (p : Nat) : Option System :=
  if p = null then some sys
  else if sys.held.any (·.start == p) then
    some ⟨sys.held.filter (·.start != p), .free p :: sys.calls⟩
  else none

/-- The handler is the caller's; it leaves the pool and the allocator alone. -/
def System.runHandler (sys : System) (record handler data : Nat) : System :=
  { sys with calls := .handler record handler data :: sys.calls }

/-- What is allocated after the calls. -/
def heldAfter : List SystemCall → List Span
  | [] => []
  | .alloc size p :: calls =>
      if p = null then heldAfter calls else ⟨p, size⟩ :: heldAfter calls
  | .free p :: calls => (heldAfter calls).filter (·.start != p)
  | .handler _ _ _ :: calls => heldAfter calls

/-! ## The records -/

structure NcPoolData where
  last : Nat
  end_ : Nat
  next : Nat
  failed : Nat
  deriving DecidableEq, Repr

structure NcPoolLarge where
  next : Nat
  alloc : Nat
  deriving DecidableEq, Repr

structure NcPoolCleanup where
  handler : Nat
  data : Nat
  next : Nat
  deriving DecidableEq, Repr

/--
The pool at `base`, the records at all addresses, and the system allocator.

The memory is split by the type of the record: a record that is written leaves a stale one
of another type at the same bytes as it was, while in C the bytes are shared.  The results
about records in use also show their ranges apart from all that is written, which is what
makes the split harmless to them.
-/
structure NcPool where
  base : Nat
  max : Nat
  current : Nat
  large : Nat
  cleanup : Nat
  data : Nat → NcPoolData
  largeAt : Nat → NcPoolLarge
  cleanupAt : Nat → NcPoolCleanup
  system : System

namespace NcPool

def getData (t : NcPool) (p : Nat) : Option NcPoolData :=
  if p = null then none else some (t.data p)

def putData (t : NcPool) (p : Nat) (d : NcPoolData) : NcPool :=
  { t with data := Function.update t.data p d }

def putLarge (t : NcPool) (p : Nat) (l : NcPoolLarge) : NcPool :=
  { t with largeAt := Function.update t.largeAt p l }

def putCleanup (t : NcPool) (p : Nat) (c : NcPoolCleanup) : NcPool :=
  { t with cleanupAt := Function.update t.cleanupAt p c }

def setSystem (t : NcPool) (sys : System) : NcPool := { t with system := sys }

def free (t : NcPool) (p : Nat) : Option NcPool := do
  let sys ← t.system.free p
  some (t.setSystem sys)

end NcPool

/-! ## Creation -/

def ncPoolCreate (malloc : Allocator) (t : NcPool) (size : Nat) : Nat × NcPool :=
  let (p, sys) := t.system.alloc malloc size
  let t := t.setSystem sys
  if p = null then (null, t)
  else
    let t := t.putData p ⟨p + sizeofNcPool, p + size, null, 0⟩
    let size := sizeDiff size sizeofNcPool
    (p, { t with
      base := p, max := min size ncMaxAllocFromPool, current := p, large := null,
      cleanup := null })

/-! ## Small allocations -/

/-- The search loop of `nc_palloc_small`: a block and the address in it that fits. -/
def pallocSearch (t : NcPool) (size : Nat) (align : Bool) : Nat → Nat → Option (Option (Nat × Nat))
  | 0, _ => none
  | fuel + 1, p => do
      let d ← t.getData p
      let m := if align then ncAlignPtr d.last ncAlignment else d.last
      if size ≤ sizeDiff d.end_ m then some (some (p, m))
      else if d.next = null then some none
      else pallocSearch t size align fuel d.next

/-- The loop of `nc_palloc_block` that counts failures and finds the last block. -/
def countFailures : Nat → NcPool → Nat → Option (Nat × NcPool)
  | 0, _, _ => none
  | fuel + 1, t, p => do
      let d ← t.getData p
      if d.next = null then some (p, t)
      else
        let t := t.putData p { d with failed := (d.failed + 1) % 2 ^ 32 }
        let t := if 4 < d.failed then { t with current := d.next } else t
        countFailures fuel t d.next

def ncPallocBlock (malloc : Allocator) (fuel : Nat) (t : NcPool) (size : Nat) :
    Option (Nat × NcPool) := do
  let d ← t.getData t.base
  let psize := sizeDiff d.end_ t.base
  let (newP, sys) := t.system.alloc malloc psize
  let t := t.setSystem sys
  if newP = null then some (null, t)
  else
    let m := ncAlignPtr (newP + sizeofNcPoolData) ncAlignment
    let t := t.putData newP ⟨m + size, newP + psize, null, 0⟩
    let (p, t) ← countFailures fuel t t.current
    let d ← t.getData p
    some (m, t.putData p { d with next := newP })

def ncPallocSmall (malloc : Allocator) (fuel : Nat) (t : NcPool) (size : Nat) (align : Bool) :
    Option (Nat × NcPool) := do
  match ← pallocSearch t size align fuel t.current with
  | some (p, m) => do
      let d ← t.getData p
      some (m, t.putData p { d with last := m + size })
  | none => ncPallocBlock malloc fuel t size

/-! ## Large allocations -/

/-- The first records of the list whose block is gone can be used again. -/
def reusableLarge (t : NcPool) : Nat → Nat → Nat → Option Nat
  | 0, _, _ => none
  | fuel + 1, n, large =>
      if large = null then some null
      else if (t.largeAt large).alloc = null then some large
      else if 3 < n then some null
      else reusableLarge t fuel (n + 1) (t.largeAt large).next

def ncPallocLarge (malloc : Allocator) (fuel : Nat) (t : NcPool) (size : Nat) :
    Option (Nat × NcPool) := do
  let (p, sys) := t.system.alloc malloc size
  let t := t.setSystem sys
  if p = null then some (null, t)
  else
    let large ← reusableLarge t fuel 0 t.large
    if large ≠ null then some (p, t.putLarge large { t.largeAt large with alloc := p })
    else
      let (large, t) ← ncPallocSmall malloc fuel t sizeofNcPoolLarge true
      if large = null then
        let t ← t.free p
        some (null, t)
      else
        some (p, { t.putLarge large ⟨t.large, p⟩ with large := large })

/-! ## The interface -/

def ncPalloc (malloc : Allocator) (fuel : Nat) (t : NcPool) (size : Nat) :
    Option (Nat × NcPool) :=
  if size ≤ t.max then ncPallocSmall malloc fuel t size true
  else ncPallocLarge malloc fuel t size

def ncPnalloc (malloc : Allocator) (fuel : Nat) (t : NcPool) (size : Nat) :
    Option (Nat × NcPool) :=
  if size ≤ t.max then ncPallocSmall malloc fuel t size false
  else ncPallocLarge malloc fuel t size

/-- The little-endian value at `a` after the bytes from `p` on, `size` many, turned zero. -/
def zeroed (p size a v : Nat) : Nat :=
  if p ≤ a ∧ a < p + size then
    let low := 256 ^ min (p + size - a) 8
    v / low * low
  else v

/-- `memset(p, 0, size)` at a word-aligned `p`, on all records that it may touch. -/
def memsetZero (t : NcPool) (p size : Nat) : NcPool :=
  { t with
    max := zeroed p size (t.base + 32) t.max
    current := zeroed p size (t.base + 40) t.current
    large := zeroed p size (t.base + 48) t.large
    cleanup := zeroed p size (t.base + 56) t.cleanup
    data := fun b =>
      { last := zeroed p size b (t.data b).last
        end_ := zeroed p size (b + 8) (t.data b).end_
        next := zeroed p size (b + 16) (t.data b).next
        failed := zeroed p size (b + 24) (t.data b).failed }
    largeAt := fun l =>
      { next := zeroed p size l (t.largeAt l).next
        alloc := zeroed p size (l + 8) (t.largeAt l).alloc }
    cleanupAt := fun c =>
      { handler := zeroed p size c (t.cleanupAt c).handler
        data := zeroed p size (c + 8) (t.cleanupAt c).data
        next := zeroed p size (c + 16) (t.cleanupAt c).next } }

def ncPcalloc (malloc : Allocator) (fuel : Nat) (t : NcPool) (size : Nat) :
    Option (Nat × NcPool) := do
  let (p, t) ← ncPalloc malloc fuel t size
  if p ≠ null then some (p, memsetZero t p size) else some (p, t)

/-- The search loop of `nc_pfree`. -/
def pfreeSearch (t : NcPool) (p : Nat) : Nat → Nat → Option Nat
  | 0, _ => none
  | fuel + 1, l =>
      if l = null then some null
      else if p = (t.largeAt l).alloc then some l
      else pfreeSearch t p fuel (t.largeAt l).next

/-- `NC_OK` is 0, `NC_ERROR` is -1. -/
def ncPfree (fuel : Nat) (t : NcPool) (p : Nat) : Option (Int × NcPool) := do
  let l ← pfreeSearch t p fuel t.large
  if l = null then some (-1, t)
  else
    let t ← t.free (t.largeAt l).alloc
    some (0, t.putLarge l { t.largeAt l with alloc := null })

/-- The loop of `nc_pool_reset` and `nc_pool_destroy` over the large blocks. -/
def freeLarge : Nat → NcPool → Nat → Option NcPool
  | 0, _, _ => none
  | fuel + 1, t, l =>
      if l = null then some t
      else do
        let record := t.largeAt l
        let t ←
          (if record.alloc ≠ null then do
            let t ← t.free record.alloc
            some (t.putLarge l { record with alloc := null })
          else some t)
        freeLarge fuel t record.next

/-- The loop of `nc_pool_reset` over the blocks. -/
def rewind : Nat → NcPool → Nat → Option NcPool
  | 0, _, _ => none
  | fuel + 1, t, p =>
      if p = null then some t
      else
        let d := t.data p
        rewind fuel (t.putData p { d with last := p + sizeofNcPool, failed := 0 }) d.next

def ncPoolReset (fuel : Nat) (t : NcPool) : Option NcPool := do
  let t ← freeLarge fuel t t.large
  let t ← rewind fuel t t.base
  some { t with current := t.base, large := null }

/-- The record, or NULL; its handler is for the caller to set. -/
def ncPoolCleanupAdd (malloc : Allocator) (fuel : Nat) (t : NcPool) (size : Nat) :
    Option (Nat × NcPool) := do
  let (c, t) ← ncPalloc malloc fuel t sizeofNcPoolCleanup
  if c = null then some (null, t)
  else
    let (data, t) ← (if size ≠ 0 then ncPalloc malloc fuel t size else some (null, t))
    let t := t.putCleanup c { t.cleanupAt c with data := data }
    if size ≠ 0 ∧ data = null then some (null, t)
    else some (c, { t.putCleanup c ⟨null, data, t.cleanup⟩ with cleanup := c })

/-- The loop of `nc_pool_destroy` that runs the handlers: each with its argument. -/
def runCleanups : Nat → NcPool → Nat → Option (List (Nat × Nat) × NcPool)
  | 0, _, _ => none
  | fuel + 1, t, c =>
      if c = null then some ([], t)
      else do
        let record := t.cleanupAt c
        let t := if record.handler ≠ null then
          t.setSystem (t.system.runHandler c record.handler record.data) else t
        let (rest, t) ← runCleanups fuel t record.next
        some (if record.handler ≠ null then (record.handler, record.data) :: rest else rest, t)

/-- The loop of `nc_pool_destroy` over the blocks; the next one is read before the free. -/
def freeBlocks : Nat → NcPool → Nat → Nat → Option NcPool
  | 0, _, _, _ => none
  | fuel + 1, t, p, n => do
      let t ← t.free p
      if n = null then some t
      else
        let d ← t.getData n
        freeBlocks fuel t n d.next

/-- The handlers that ran, in order, and what is left. -/
def ncPoolDestroy (fuel : Nat) (t : NcPool) : Option (List (Nat × Nat) × NcPool) := do
  let (handlers, t) ← runCleanups fuel t t.cleanup
  let t ← freeLarge fuel t t.large
  let d ← t.getData t.base
  let t ← freeBlocks fuel t t.base d.next
  some (handlers, t)

end Libnc.Pool
