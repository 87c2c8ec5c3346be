import Libnc.Foundation.Blocks
import Libnc.Foundation.CInt

/-!
# Dynamic strings

The functions of `nc_sds.h` and `nc_sds.c` that work on one string.  An `sds` is
the name of a heap block: the header `struct sdshdr` and the bytes of `buf`.  A
function has no result where the source is undefined: an access outside of a
block or to a released one, a signed overflow, a failed assertion.  Conversions
to `int` reduce to the 32-bit range, and `size_t` arithmetic is reduced modulo
`2 ^ 64`.
-/

namespace Libnc.Sds

open Libnc.Foundation

/-- `SDS_MAX_PREALLOC`. -/
def sdsMaxPrealloc : Nat := 1048576

/-- `sizeof(struct sdshdr)`. -/
def headerSize : Nat := 8

structure Sdshdr where
  len : Int
  free : Int
  buf : List UInt8
  deriving DecidableEq, Repr

/-- An uninitialized slot of an array of strings is `none`, a NULL in it `some none`. -/
inductive Block where
  | string (sh : Sdshdr)
  | chars (bytes : List UInt8)
  | vector (slots : List (Option (Option Nat)))
  deriving DecidableEq, Repr

abbrev Heap := Blocks Block

/-- The answer to each call of the allocator: NULL, or the garbage in the new block. -/
abbrev Allocator := Nat → Option (Nat → UInt8)

/-- A `char` pointer: to constant bytes of the caller, or into a block of the heap. -/
inductive Source where
  | bytes (readable : List UInt8)
  | inside (p offset : Nat)
  deriving DecidableEq, Repr

/-- The pointer `n` bytes further on. -/
def Source.plus : Source → Nat → Source
  | .bytes l, n => .bytes (l.drop n)
  | .inside p offset, n => .inside p (offset + n)

def garbage (g : Nat → UInt8) (n : Nat) : List UInt8 := (List.range n).map g

/-! ## Arithmetic -/

/-- The value of a signed expression, which must not overflow. -/
def cint (value : Int) : Option Int :=
  if -intMax - 1 ≤ value ∧ value ≤ intMax then some value else none

def sizeAdd (a b : Nat) : Nat := (a + b) % sizeModulus

/-! ## Memory -/

def header (h : Heap) (s : Nat) : Option Sdshdr :=
  match h.block s with
  | some (.string sh) => some sh
  | _ => none

/-- All bytes from the pointer to the end of the object it points into. -/
def readable (block : Nat → Option Block) : Source → Option (List UInt8)
  | .bytes readable => some readable
  | .inside p offset =>
      match block p with
      | some (.string sh) => if offset ≤ sh.buf.length then some (sh.buf.drop offset) else none
      | some (.chars bytes) => if offset ≤ bytes.length then some (bytes.drop offset) else none
      | _ => none

def read (h : Heap) (t : Source) (n : Nat) : Option (List UInt8) := do
  let bytes ← readable h.block t
  if n ≤ bytes.length then some (bytes.take n) else none

def strlen (h : Heap) (t : Source) : Option Nat := do
  let bytes ← readable h.block t
  if 0 ∈ bytes then some (bytes.idxOf 0) else none

/-- What `memcpy` reads for a copy of `n` bytes to `s + offset`; the two must not overlap. -/
def memcpy (h : Heap) (s offset : Nat) (t : Source) (n : Nat) :
    Option (List UInt8) :=
  match t with
  | .bytes _ => read h t n
  | .inside p start =>
      if p = s ∧ 0 < n ∧ start < offset + n ∧ offset < start + n then none else read h t n

def write (buf : List UInt8) (offset : Nat) (data : List UInt8) : Option (List UInt8) :=
  if offset + data.length ≤ buf.length then
    some (buf.take offset ++ data ++ buf.drop (offset + data.length))
  else none

/-- A change of the header or of the bytes of one string. -/
def modify (h : Heap) (s : Nat) (f : Sdshdr → Option Sdshdr) : Option Heap := do
  let sh ← header h s
  let sh' ← f sh
  some (h.store s (.string sh'))

/-! ## Stores into one string -/

namespace Sdshdr

/-- The copy and the terminator of `sdsnewlen`. -/
def init (sh : Sdshdr) (data : List UInt8) (initlen : Nat) : Option Sdshdr := do
  let buf ← write sh.buf 0 data
  let buf ← write buf initlen [0]
  some { sh with buf }

def updatelen (sh : Sdshdr) (reallen : Nat) : Option Sdshdr := do
  let removed ← cint (sh.len - wrapInt reallen)
  let free ← cint (sh.free + removed)
  some { sh with free, len := wrapInt reallen }

def clear (sh : Sdshdr) : Option Sdshdr := do
  let free ← cint (sh.free + sh.len)
  let buf ← write sh.buf 0 [0]
  some { len := 0, free, buf }

/-- A negative length would store the terminator before `buf`. -/
def incrLen (sh : Sdshdr) (incr : Int) : Option Sdshdr := do
  guard (incr ≤ sh.free)
  let len ← cint (sh.len + incr)
  let free ← cint (sh.free - incr)
  guard (0 ≤ free)
  guard (0 ≤ len)
  let buf ← write sh.buf len.toNat [0]
  some { len, free, buf }

/-- The zeros include the terminator. -/
def growzero (sh : Sdshdr) (curlen len : Nat) : Option Sdshdr := do
  let buf ← write sh.buf curlen (List.replicate (len - curlen + 1) 0)
  let totlen ← cint (sh.len + sh.free)
  some { len := wrapInt len, free := wrapInt (totlen - wrapInt len), buf }

def append (sh : Sdshdr) (curlen : Nat) (data : List UInt8) (len : Nat) : Option Sdshdr := do
  let buf ← write sh.buf curlen data
  let buf ← write buf (sizeAdd curlen len) [0]
  some { len := wrapInt (curlen + len), free := wrapInt (sh.free - len), buf }

def cpy (sh : Sdshdr) (data : List UInt8) (len : Nat) : Option Sdshdr := do
  let totlen ← cint (sh.free + sh.len)
  let buf ← write sh.buf 0 data
  let buf ← write buf len [0]
  some { len := wrapInt len, free := wrapInt (totlen - len), buf }

end Sdshdr

/-! ## Creation and release -/

def sdslen (h : Heap) (s : Nat) : Option Nat := (header h s).map fun sh => intToSize sh.len

def sdsavail (h : Heap) (s : Nat) : Option Nat := (header h s).map fun sh => intToSize sh.free

/-- What is copied from `init`: nothing from NULL and nothing of no bytes. -/
def initBytes (h : Heap) (s : Nat) (init : Option Source) (initlen : Nat) :
    Option (List UInt8) :=
  match init with
  | none => some []
  | some t => if initlen = 0 then some [] else memcpy h s 0 t initlen

/-- A NULL `init` asks for zeroed memory. -/
def sdsnewlen (malloc : Allocator) (h : Heap) (init : Option Source) (initlen : Nat) :
    Option (Heap × Option Nat) :=
  let bytes := sizeAdd headerSize (sizeAdd initlen 1)
  let fill (g : Nat → UInt8) :=
    if init.isSome then garbage g (bytes - headerSize)
    else List.replicate (bytes - headerSize) 0
  match h.alloc malloc fun g => Block.string ⟨wrapInt initlen, 0, fill g⟩ with
  | (h, none) => some (h, none)
  | (h, some s) => do
      -- the stores to `len` and `free` need the whole header
      guard (headerSize ≤ bytes)
      let data ← initBytes h s init initlen
      let h ← modify h s fun sh => sh.init data initlen
      some (h, some s)

def sdsempty (malloc : Allocator) (h : Heap) : Option (Heap × Option Nat) :=
  sdsnewlen malloc h (some (.bytes [0])) 0

def sdsnew (malloc : Allocator) (h : Heap) (init : Option Source) :
    Option (Heap × Option Nat) := do
  let initlen ← match init with
    | none => some 0
    | some t => strlen h t
  sdsnewlen malloc h init initlen

def sdsdup (malloc : Allocator) (h : Heap) (s : Nat) : Option (Heap × Option Nat) := do
  let len ← sdslen h s
  sdsnewlen malloc h (some (.inside s 0)) len

/-- No operation is performed on NULL. -/
def sdsfree (h : Heap) : Option Nat → Option Heap
  | none => some h
  | some s => h.free s

/-! ## Lengths and room -/

def sdsupdatelen (h : Heap) (s : Nat) : Option Heap := do
  let reallen ← strlen h (.inside s 0)
  modify h s fun sh => sh.updatelen reallen

def sdsclear (h : Heap) (s : Nat) : Option Heap := modify h s Sdshdr.clear

/-- The block after `realloc` to `bytes`, with garbage in what is new. -/
def resize (bytes : Nat) (b : Block) (g : Nat → UInt8) : Block :=
  match b with
  | .string sh =>
      let n := bytes - headerSize
      .string { sh with
        buf := sh.buf.take n ++ garbage (fun i => g (sh.buf.length + i)) (n - sh.buf.length) }
  | b => b

def sdsMakeRoomFor (malloc : Allocator) (h : Heap) (s : Nat) (addlen : Nat) :
    Option (Heap × Option Nat) := do
  let free ← sdsavail h s
  if addlen ≤ free then
    some (h, some s)
  else do
    let len ← sdslen h s
    let newlen := sizeAdd len addlen
    let newlen :=
      if newlen < sdsMaxPrealloc then newlen * 2 else sizeAdd newlen sdsMaxPrealloc
    let bytes := sizeAdd headerSize (sizeAdd newlen 1)
    match ← h.realloc malloc s (resize bytes) with
    | (h, none) => some (h, none)
    | (h, some newsh) => do
        -- the store to `free` needs the whole header
        guard (headerSize ≤ bytes)
        let h ← modify h newsh fun sh => some { sh with free := wrapInt (newlen - len) }
        some (h, some newsh)

/-- The answer of `realloc` is not checked, so that a refusal is a store through NULL. -/
def sdsRemoveFreeSpace (malloc : Allocator) (h : Heap) (s : Nat) : Option (Heap × Nat) := do
  let len ← sdslen h s
  let bytes := sizeAdd headerSize (sizeAdd len 1)
  match ← h.realloc malloc s (resize bytes) with
  | (_, none) => none
  | (h, some sh) => do
      guard (headerSize ≤ bytes)
      let h ← modify h sh fun sh => some { sh with free := 0 }
      some (h, sh)

def sdsIncrLen (h : Heap) (s : Nat) (incr : Int) : Option Heap :=
  modify h s fun sh => sh.incrLen incr

def sdsgrowzero (malloc : Allocator) (h : Heap) (s : Nat) (len : Nat) :
    Option (Heap × Option Nat) := do
  let curlen ← sdslen h s
  if len ≤ curlen then
    some (h, some s)
  else
    match ← sdsMakeRoomFor malloc h s (len - curlen) with
    | (h, none) => some (h, none)
    | (h, some s) => do
        let h ← modify h s fun sh => sh.growzero curlen len
        some (h, some s)

/-! ## Appending and overwriting -/

def sdscatlen (malloc : Allocator) (h : Heap) (s : Nat) (t : Source) (len : Nat) :
    Option (Heap × Option Nat) := do
  let curlen ← sdslen h s
  match ← sdsMakeRoomFor malloc h s len with
  | (h, none) => some (h, none)
  | (h, some s) => do
      let data ← memcpy h s curlen t len
      let h ← modify h s fun sh => sh.append curlen data len
      some (h, some s)

def sdscat (malloc : Allocator) (h : Heap) (s : Nat) (t : Source) :
    Option (Heap × Option Nat) := do
  let len ← strlen h t
  sdscatlen malloc h s t len

def sdscatsds (malloc : Allocator) (h : Heap) (s t : Nat) : Option (Heap × Option Nat) := do
  let len ← sdslen h t
  sdscatlen malloc h s (.inside t 0) len

def sdscpylen (malloc : Allocator) (h : Heap) (s : Nat) (t : Source) (len : Nat) :
    Option (Heap × Option Nat) := do
  let sh ← header h s
  let totlen ← cint (sh.free + sh.len)
  if intToSize totlen < len then
    match ← sdsMakeRoomFor malloc h s (intToSize (len - sh.len)) with
    | (h, none) => some (h, none)
    | (h, some s) => do
        let data ← memcpy h s 0 t len
        let h ← modify h s fun sh => sh.cpy data len
        some (h, some s)
  else do
    let data ← memcpy h s 0 t len
    let h ← modify h s fun sh => sh.cpy data len
    some (h, some s)

def sdscpy (malloc : Allocator) (h : Heap) (s : Nat) (t : Source) :
    Option (Heap × Option Nat) := do
  let len ← strlen h t
  sdscpylen malloc h s t len

end Libnc.Sds
