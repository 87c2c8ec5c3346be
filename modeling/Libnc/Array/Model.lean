import Libnc.Foundation.CInt

/-!
# The growable array

The functions of `nc_array.h` and `nc_array.c`.  The fields `nelem` and
`nalloc` are `int`, `size` is a `size_t`, and every expression is reduced in
the width in which the source computes it.  An allocator call is answered by an
`AllocReply`: either NULL, or an address with the garbage found there, and then
exactly the requested number of bytes is usable.  A freed block has none.
-/

namespace Libnc.Array

open Libnc.Foundation

def ncOk : Int := 0
def ncEnomem : Int := -3

/-- A block of the system allocator; `mem` is its content by byte offset. -/
structure Buffer where
  addr : Nat
  bytes : Nat
  mem : Nat → UInt8

structure NcArray where
  elems : Buffer
  nelem : Int
  size : Nat
  nalloc : Int

/-- A pointer into `elems`, as the block's address and a byte offset. -/
structure Slot where
  base : Nat
  offset : Nat
  deriving DecidableEq, Repr

/-- The answer of the allocator: NULL, or an address and its old content. -/
abbrev AllocReply := Option (Nat × (Nat → UInt8))

def ncAlloc (reply : AllocReply) (bytes : Nat) : Option Buffer :=
  reply.map fun r => ⟨r.1, bytes, r.2⟩

/--
`NC_ASSERT` is empty, so a request for no bytes reaches `realloc`.  NULL then means
that the old block has been freed; for any other request it is left as it was.
-/
def ncRealloc (reply : AllocReply) (old : Buffer) (bytes : Nat) : Except Buffer Buffer :=
  match reply with
  | some r => .ok ⟨r.1, bytes, fun i => if i < min old.bytes bytes then old.mem i else r.2 i⟩
  | none => .error (if bytes = 0 then { old with bytes := 0 } else old)

def ncArrayInit (reply : AllocReply) (n : Int) (size : Nat) :
    Except Int NcArray :=
  match ncAlloc reply (sizeMul (intToSize n) size) with
  | none => .error ncEnomem
  | some elems => .ok { elems, nelem := 0, size, nalloc := n }

/-- `header` says whether the allocation of the struct itself succeeds. -/
def ncArrayCreate (header : Bool) (reply : AllocReply) (n : Int) (size : Nat) :
    Option NcArray :=
  if header then
    match ncArrayInit reply n size with
    | .error _ => none
    | .ok a => some a
  else none

/-- The common tail of both pushes: the address of index `nelem`, then `nelem += n`. -/
def takeSlots (a : NcArray) (n : Int) : Option Slot × NcArray :=
  (some ⟨a.elems.addr, sizeMul a.size (intToSize a.nelem)⟩,
    { a with nelem := wrapInt (a.nelem + n) })

def ncArrayPush (reply : AllocReply) (a : NcArray) : Option Slot × NcArray :=
  if a.nelem = a.nalloc then
    let size := sizeMul a.size (intToSize a.nalloc)
    match ncRealloc reply a.elems (sizeMul 2 size) with
    | .error elems => (none, { a with elems := elems })
    | .ok newElem =>
        takeSlots { a with elems := newElem, nalloc := wrapInt (a.nalloc * 2) } 1
  else takeSlots a 1

def ncArrayPushN (reply : AllocReply) (a : NcArray) (n : Int) :
    Option Slot × NcArray :=
  if a.nalloc < wrapInt (a.nelem + n) then
    let nalloc := wrapInt (2 * if a.nalloc ≤ n then n else a.nalloc)
    match ncRealloc reply a.elems (sizeMul (intToSize nalloc) a.size) with
    | .error elems => (none, { a with elems := elems })
    | .ok newElem => takeSlots { a with elems := newElem, nalloc := nalloc } n
  else takeSlots a n

end Libnc.Array
