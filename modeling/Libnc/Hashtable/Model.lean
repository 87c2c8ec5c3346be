import Mathlib.Logic.Function.Basic

/-!
# The hash table

The functions of `nc_hashtable.c` over an explicit heap of pairs.  A `list_t *`
is the table's own head or the list member of a pair, so `container_of` is the
passage between a pair and its `ListPtr`.  A step that the C standard leaves
undefined has no result: access to a pair that is not allocated, to a freed or
missing bucket array, to an entry outside of it, or to `primes` past its end.
Loops consume fuel, and running out of it also has no result.

The allocator is an input.  A bucket array can be refused, and a new pair is
NULL or an address; `size_t` values are `Nat`, since no sum or product of the
table's own numbers reaches `2 ^ 64`.
-/

namespace Libnc.Hashtable

/-- A `void *` to a key or a value. -/
abbrev Ptr := Nat

def null : Ptr := 0

/-- The address of a `list_t`: the table's own or the one inside a pair. -/
inductive ListPtr where
  | head
  | pair (id : Nat)
  deriving DecidableEq, Repr

structure HashtableList where
  prev : ListPtr
  next : ListPtr
  deriving DecidableEq, Repr

structure HashtablePair where
  key : Ptr
  value : Ptr
  hash : Nat
  list : HashtableList
  deriving DecidableEq, Repr

structure HashtableBucket where
  first : ListPtr
  last : ListPtr
  deriving DecidableEq, Repr

/-- The function pointers of the table; the free functions only as NULL or not. -/
structure Callbacks where
  hashKey : Ptr → Nat
  cmpKeys : Ptr → Ptr → Bool
  freeKey : Bool
  freeValue : Bool

/-- A call of `free_key` or `free_value`. -/
inductive FreeCall where
  | key (key : Ptr)
  | value (value : Ptr)
  deriving DecidableEq, Repr

/-- The table, the heap of its pairs and the calls of the free functions, newest first. -/
structure NcHashtable where
  size : Nat
  buckets : Option (List HashtableBucket)
  numBuckets : Nat
  list : HashtableList
  callbacks : Callbacks
  live : Nat → Bool
  pair : Nat → HashtablePair
  freed : List FreeCall

namespace NcHashtable

/-! ## Memory access -/

def valid (t : NcHashtable) : ListPtr → Bool
  | .head => true
  | .pair a => t.live a

def linkAt (t : NcHashtable) : ListPtr → HashtableList
  | .head => t.list
  | .pair a => (t.pair a).list

def putLink (t : NcHashtable) (l : ListPtr) (links : HashtableList) : NcHashtable :=
  match l with
  | .head => { t with list := links }
  | .pair a => { t with pair := Function.update t.pair a { t.pair a with list := links } }

def getLink (t : NcHashtable) (l : ListPtr) : Option HashtableList :=
  if t.valid l then some (t.linkAt l) else none

def setNext (t : NcHashtable) (l next : ListPtr) : Option NcHashtable :=
  if t.valid l then some (t.putLink l { t.linkAt l with next := next }) else none

def setPrev (t : NcHashtable) (l prev : ListPtr) : Option NcHashtable :=
  if t.valid l then some (t.putLink l { t.linkAt l with prev := prev }) else none

def getPair (t : NcHashtable) (a : Nat) : Option HashtablePair :=
  if t.live a then some (t.pair a) else none

def setValue (t : NcHashtable) (a : Nat) (value : Ptr) : Option NcHashtable :=
  if t.live a then
    some { t with pair := Function.update t.pair a { t.pair a with value := value } }
  else none

def allocPair (t : NcHashtable) (a : Nat) (pair : HashtablePair) : NcHashtable :=
  { t with
    live := Function.update t.live a true
    pair := Function.update t.pair a pair }

/-- `nc_free(pair)`. -/
def freePair (t : NcHashtable) (a : Nat) : Option NcHashtable :=
  if t.live a then some { t with live := Function.update t.live a false } else none

def bucket (t : NcHashtable) (index : Nat) : Option HashtableBucket := do
  let buckets ← t.buckets
  buckets[index]?

def setBucket (t : NcHashtable) (index : Nat) (bucket : HashtableBucket) :
    Option NcHashtable := do
  let buckets ← t.buckets
  if index < buckets.length then
    some { t with buckets := some (buckets.set index bucket) }
  else none

def callFreeKey (t : NcHashtable) (key : Ptr) : NcHashtable :=
  if t.callbacks.freeKey then { t with freed := .key key :: t.freed } else t

def callFreeValue (t : NcHashtable) (value : Ptr) : NcHashtable :=
  if t.callbacks.freeValue then { t with freed := .value value :: t.freed } else t

end NcHashtable

/-- `list_to_pair`: only the list member of a pair lies inside a pair. -/
def listToPair : ListPtr → Option Nat
  | .head => none
  | .pair a => some a

/-! ## The shared list -/

def listInit (t : NcHashtable) (list : ListPtr) : Option NcHashtable := do
  let t ← t.setNext list list
  t.setPrev list list

def listInsert (t : NcHashtable) (list node : ListPtr) : Option NcHashtable := do
  let t ← t.setNext node list
  let t ← t.setPrev node (← t.getLink list).prev
  let t ← t.setNext (← t.getLink list).prev node
  t.setPrev list node

def listRemove (t : NcHashtable) (list : ListPtr) : Option NcHashtable := do
  let t ← t.setNext (← t.getLink list).prev (← t.getLink list).next
  t.setPrev (← t.getLink list).next (← t.getLink list).prev

def bucketIsEmpty (bucket : HashtableBucket) : Bool :=
  bucket.first = .head ∧ bucket.first = bucket.last

def insertToBucket (t : NcHashtable) (index : Nat) (list : ListPtr) :
    Option NcHashtable := do
  let bucket ← t.bucket index
  if bucketIsEmpty bucket then
    let t ← listInsert t .head list
    t.setBucket index ⟨list, list⟩
  else
    let t ← listInsert t bucket.first list
    t.setBucket index { bucket with first := list }

/-! ## Buckets -/

def primes : List Nat :=
  [5, 13, 23, 53, 97, 193, 389, 769, 1543, 3079, 6151, 12289, 24593, 49157, 98317,
   196613, 393241, 786433, 1572869, 3145739, 6291469, 12582917, 25165843, 50331653,
   100663319, 201326611, 402653189, 805306457, 1610612741]

def numBuckets (t : NcHashtable) : Option Nat := primes[t.numBuckets]?

/-- The loop that makes the first `n` buckets empty. -/
def clearBuckets (n : Nat) (buckets : List HashtableBucket) :
    Option (List HashtableBucket) :=
  if n ≤ buckets.length then
    some (List.replicate n ⟨.head, .head⟩ ++ buckets.drop n)
  else none

/-- The `while (1)` loop of `hashtable_find_pair`, at the node `list`. -/
def findPairLoop (t : NcHashtable) (bucket : HashtableBucket) (key : Ptr) (hash : Nat) :
    Nat → ListPtr → Option (Option Nat)
  | 0, _ => none
  | fuel + 1, list => do
      let a ← listToPair list
      let pair ← t.getPair a
      if pair.hash = hash ∧ t.callbacks.cmpKeys pair.key key then
        some (some a)
      else if list = bucket.last then
        some none
      else
        findPairLoop t bucket key hash fuel pair.list.next

def hashtableFindPair (fuel : Nat) (t : NcHashtable) (bucket : HashtableBucket)
    (key : Ptr) (hash : Nat) : Option (Option Nat) :=
  if bucketIsEmpty bucket then some none
  else findPairLoop t bucket key hash fuel bucket.first

/-- The update of the bucket ends in `hashtable_do_del`. -/
def unlinkFromBucket (t : NcHashtable) (index : Nat) (bucket : HashtableBucket)
    (list : ListPtr) : Option NcHashtable := do
  let links ← t.getLink list
  if list = bucket.first ∧ list = bucket.last then
    t.setBucket index ⟨.head, .head⟩
  else if list = bucket.first then
    t.setBucket index { bucket with first := links.next }
  else if list = bucket.last then
    t.setBucket index { bucket with last := links.prev }
  else some t

def hashtableDoDel (fuel : Nat) (t : NcHashtable) (key : Ptr) (hash : Nat) :
    Option (Int × NcHashtable) := do
  let n ← numBuckets t
  let index := hash % n
  let bucket ← t.bucket index
  match ← hashtableFindPair fuel t bucket key hash with
  | none => some (-1, t)
  | some a =>
      let t ← unlinkFromBucket t index bucket (.pair a)
      let t ← listRemove t (.pair a)
      let pair ← t.getPair a
      let t := t.callFreeKey pair.key
      let t := t.callFreeValue pair.value
      let t ← t.freePair a
      some (0, { t with size := t.size - 1 })

/-- The loop of `hashtable_do_clear`, at the node `list`. -/
def clearLoop : Nat → NcHashtable → ListPtr → Option NcHashtable
  | 0, _, _ => none
  | fuel + 1, t, list =>
      if list = .head then some t
      else do
        let next := (← t.getLink list).next
        let a ← listToPair list
        let pair ← t.getPair a
        let t := t.callFreeKey pair.key
        let t := t.callFreeValue pair.value
        let t ← t.freePair a
        clearLoop fuel t next

def hashtableDoClear (fuel : Nat) (t : NcHashtable) : Option NcHashtable :=
  clearLoop fuel t t.list.next

/-- The loop of `hashtable_do_rehash` that moves the pairs, at the node `list`. -/
def rehashLoop (newSize : Nat) : Nat → NcHashtable → ListPtr → Option NcHashtable
  | 0, _, _ => none
  | fuel + 1, t, list =>
      if list = .head then some t
      else do
        let next := (← t.getLink list).next
        let a ← listToPair list
        let pair ← t.getPair a
        let t ← insertToBucket t (pair.hash % newSize) list
        rehashLoop newSize fuel t next

def hashtableDoRehash (allocated : Bool) (fuel : Nat) (t : NcHashtable) :
    Option (Int × NcHashtable) := do
  let t := { t with buckets := none, numBuckets := t.numBuckets + 1 }
  let newSize ← numBuckets t
  if allocated then
    let t := { t with buckets := some (List.replicate newSize ⟨.head, .head⟩) }
    let list := t.list.next
    let t ← listInit t .head
    let t ← rehashLoop newSize fuel t list
    some (0, t)
  else some (-1, t)

/-! ## The public functions -/

/-- The answers of the allocator to the calls that `nc_hashtable_set` may make. -/
structure SetReply where
  buckets : Bool
  pair : Option Nat
  deriving DecidableEq, Repr

def ncHashtableInit (allocated : Bool) (callbacks : Callbacks) : Option NcHashtable := do
  let n ← primes[0]?
  if allocated then
    some {
      size := 0
      numBuckets := 0
      buckets := some (List.replicate n ⟨.head, .head⟩)
      list := ⟨.head, .head⟩
      callbacks := callbacks
      live := fun _ => false
      pair := fun _ => ⟨null, null, 0, ⟨.head, .head⟩⟩
      freed := [] }
  else none

def ncHashtableDeinit (fuel : Nat) (t : NcHashtable) : Option NcHashtable := do
  let t ← hashtableDoClear fuel t
  some { t with buckets := none }

/-- The second half of `nc_hashtable_set`, after the table has grown if it had to. -/
def setPair (reply : Option Nat) (fuel : Nat) (t : NcHashtable) (key value : Ptr) :
    Option (Int × NcHashtable) := do
  let hash := t.callbacks.hashKey key
  let n ← numBuckets t
  let index := hash % n
  let bucket ← t.bucket index
  match ← hashtableFindPair fuel t bucket key hash with
  | some a =>
      let t := t.callFreeKey key
      let pair ← t.getPair a
      let t := t.callFreeValue pair.value
      let t ← t.setValue a value
      some (0, t)
  | none =>
      match reply with
      | none => some (-1, t)
      | some a =>
          let t := t.allocPair a ⟨key, value, hash, ⟨.pair a, .pair a⟩⟩
          let t ← insertToBucket t index (.pair a)
          some (0, { t with size := t.size + 1 })

def ncHashtableSet (reply : SetReply) (fuel : Nat) (t : NcHashtable) (key value : Ptr) :
    Option (Int × NcHashtable) := do
  let n ← numBuckets t
  if n ≤ t.size then
    let (status, t) ← hashtableDoRehash reply.buckets fuel t
    if status ≠ 0 then some (-1, t)
    else setPair reply.pair fuel t key value
  else setPair reply.pair fuel t key value

/-- The search that `nc_hashtable_get` and `nc_hashtable_iter_at` share. -/
def lookup (fuel : Nat) (t : NcHashtable) (key : Ptr) : Option (Option Nat) := do
  let hash := t.callbacks.hashKey key
  let n ← numBuckets t
  let bucket ← t.bucket (hash % n)
  hashtableFindPair fuel t bucket key hash

def ncHashtableGet (fuel : Nat) (t : NcHashtable) (key : Ptr) : Option Ptr := do
  match ← lookup fuel t key with
  | none => some null
  | some a =>
      let pair ← t.getPair a
      some pair.value

def ncHashtableDel (fuel : Nat) (t : NcHashtable) (key : Ptr) :
    Option (Int × NcHashtable) :=
  hashtableDoDel fuel t key (t.callbacks.hashKey key)

def ncHashtableClear (fuel : Nat) (t : NcHashtable) : Option NcHashtable := do
  let t ← hashtableDoClear fuel t
  let n ← numBuckets t
  let buckets ← clearBuckets n (← t.buckets)
  let t := { t with buckets := some buckets }
  let t ← listInit t .head
  some { t with size := 0 }

/-- An iterator is the address of a `list_t`; NULL is `none`. -/
def ncHashtableIterNext (t : NcHashtable) (iter : ListPtr) : Option (Option ListPtr) := do
  let next := (← t.getLink iter).next
  if next = .head then some none else some (some next)

def ncHashtableIter (t : NcHashtable) : Option (Option ListPtr) :=
  ncHashtableIterNext t .head

def ncHashtableIterAt (fuel : Nat) (t : NcHashtable) (key : Ptr) :
    Option (Option ListPtr) := do
  match ← lookup fuel t key with
  | none => some none
  | some a => some (some (.pair a))

def ncHashtableIterKey (t : NcHashtable) (iter : ListPtr) : Option Ptr := do
  let a ← listToPair iter
  let pair ← t.getPair a
  some pair.key

def ncHashtableIterValue (t : NcHashtable) (iter : ListPtr) : Option Ptr := do
  let a ← listToPair iter
  let pair ← t.getPair a
  some pair.value

def ncHashtableIterSet (t : NcHashtable) (iter : ListPtr) (value : Ptr) :
    Option NcHashtable := do
  let a ← listToPair iter
  let pair ← t.getPair a
  let t := t.callFreeValue pair.value
  t.setValue a value

end Libnc.Hashtable
