import Libnc.Foundation.Rings

/-!
# Lists and tail queues

The macros of `nc_sys_queue.h` for `SLIST`, `STAILQ`, `LIST` and `TAILQ`.  A head
and an entry have a pointer to the next element and, where the structure has one,
the address of such a pointer: `last` of a head is the address of the last next
pointer, `prev` of an entry the address of the previous one.  `TAILQ_LAST` and
`TAILQ_PREV` read both through one cast.  A macro that follows NULL has no result.
-/

namespace Libnc.Queue

open Libnc.Foundation

variable {η ε : Type} [DecidableEq η] [DecidableEq ε]

/-- The place of a next pointer, which is also its address. -/
abbrev Place (η ε : Type) := Link η ε

/-- `next` is `first` of a head; `prev` is `last` of a head.  NULL is `none`. -/
structure Memory (η ε : Type) where
  next : Place η ε → Option ε
  prev : Place η ε → Option (Place η ε)

namespace Memory

def setNext (M : Memory η ε) (a : Place η ε) (v : Option ε) : Memory η ε :=
  { M with next := Function.update M.next a v }

def setPrev (M : Memory η ε) (a : Place η ε) (v : Option (Place η ε)) : Memory η ε :=
  { M with prev := Function.update M.prev a v }

variable {M : Memory η ε} {a b : Place η ε}

@[simp, grind =] theorem next_setNext {v : Option ε} :
    (M.setNext a v).next b = if b = a then v else M.next b := by
  simp only [setNext, Function.update_apply]

@[simp, grind =] theorem prev_setNext {v : Option ε} : (M.setNext a v).prev b = M.prev b := rfl

@[simp, grind =] theorem next_setPrev {v : Option (Place η ε)} :
    (M.setPrev a v).next b = M.next b := rfl

@[simp, grind =] theorem prev_setPrev {v : Option (Place η ε)} :
    (M.setPrev a v).prev b = if b = a then v else M.prev b := by
  simp only [setPrev, Function.update_apply]

end Memory

/-! ## Checks -/

/--
A `QMD_*_CHECK_*`: `log_panic` does not return, and without `QUEUE_MACRO_ASSERT`
nothing is read.
-/
def qmdCheck (asserting : Bool) (good : Option Bool) : Option Unit :=
  if asserting then good.bind fun ok => guard ok else some ()

/-- `QMD_*_CHECK_NEXT` of an entry and `QMD_*_CHECK_HEAD` of a head. -/
def checkNext (M : Memory η ε) (a : Place η ε) : Option Bool :=
  match M.next a with
  | none => some true
  | some e => some (M.prev (.elem e) = some a)

/-- `QMD_LIST_CHECK_PREV` and `QMD_TAILQ_CHECK_PREV`. -/
def checkPrev (M : Memory η ε) (elm : ε) : Option Bool := do
  let a ← M.prev (.elem elm)
  some (M.next a = some elm)

/-- `QMD_TAILQ_CHECK_TAIL`. -/
def checkTail (M : Memory η ε) (h : η) : Option Bool := do
  let a ← M.prev (.head h)
  some (M.next a = none)

/-! ## Singly-linked lists -/

section Slist

variable (fuel : Nat) (M : Memory η ε) (h : η)

def slistInit : Memory η ε := M.setNext (.head h) none

/-- The code of both insertions: `a` is the head or the element in front. -/
def slistInsert (a : Place η ε) (elm : ε) : Memory η ε :=
  let M := M.setNext (.elem elm) (M.next a)
  M.setNext a (some elm)

def slistInsertAfter (slistelm elm : ε) : Memory η ε := slistInsert M (.elem slistelm) elm

def slistInsertHead (elm : ε) : Memory η ε := slistInsert M (.head h) elm

/-- The code of both removals of the element behind `a`; `TRASHIT` stores NULL. -/
def slistUnlink (a : Place η ε) : Option (Memory η ε) := do
  let elm ← M.next a
  let M := M.setNext a (M.next (.elem elm))
  some (M.setNext (.elem elm) none)

def slistRemoveAfter (elm : ε) : Option (Memory η ε) := slistUnlink M (.elem elm)

def slistRemoveHead : Option (Memory η ε) := slistUnlink M (.head h)

/-- `while (NEXT(curelm) != elm) curelm = NEXT(curelm)`. -/
def findPrevious (elm : ε) : Nat → ε → Option ε
  | 0, _ => none
  | fuel + 1, curelm =>
      if M.next (.elem curelm) = some elm then some curelm
      else (M.next (.elem curelm)).bind (findPrevious elm fuel)

def slistRemove (elm : ε) : Option (Memory η ε) :=
  if M.next (.head h) = some elm then slistRemoveHead M h
  else do
    let curelm ← M.next (.head h)
    let curelm ← findPrevious M elm fuel curelm
    slistRemoveAfter M curelm

end Slist

/-! ## Singly-linked tail queues -/

section Stailq

variable (fuel : Nat) (M : Memory η ε) (h head1 head2 : η)

def stailqInit : Memory η ε :=
  let M := M.setNext (.head h) none
  M.setPrev (.head h) (some (.head h))

def stailqInsert (a : Place η ε) (elm : ε) : Memory η ε :=
  let M := M.setNext (.elem elm) (M.next a)
  let M := if M.next (.elem elm) = none then M.setPrev (.head h) (some (.elem elm)) else M
  M.setNext a (some elm)

def stailqInsertAfter (tqelm elm : ε) : Memory η ε := stailqInsert M h (.elem tqelm) elm

def stailqInsertHead (elm : ε) : Memory η ε := stailqInsert M h (.head h) elm

def stailqInsertTail (elm : ε) : Option (Memory η ε) := do
  let M := M.setNext (.elem elm) none
  let last ← M.prev (.head h)
  let M := M.setNext last (some elm)
  some (M.setPrev (.head h) (some (.elem elm)))

def stailqUnlink (a : Place η ε) : Option (Memory η ε) := do
  let elm ← M.next a
  let M := M.setNext a (M.next (.elem elm))
  let M := if M.next a = none then M.setPrev (.head h) (some a) else M
  some (M.setNext (.elem elm) none)

def stailqRemoveAfter (elm : ε) : Option (Memory η ε) := stailqUnlink M h (.elem elm)

def stailqRemoveHead : Option (Memory η ε) := stailqUnlink M h (.head h)

def stailqRemove (elm : ε) : Option (Memory η ε) :=
  if M.next (.head h) = some elm then stailqRemoveHead M h
  else do
    let curelm ← M.next (.head h)
    let curelm ← findPrevious M elm fuel curelm
    stailqRemoveAfter M h curelm

def stailqConcat : Option (Memory η ε) :=
  if M.next (.head head2) = none then some M
  else do
    let last ← M.prev (.head head1)
    let M := M.setNext last (M.next (.head head2))
    let M := M.setPrev (.head head1) (M.prev (.head head2))
    some (stailqInit M head2)

/-- The exchange with which `STAILQ_SWAP` and `TAILQ_SWAP` begin. -/
def swapHeads : Memory η ε :=
  let first := M.next (.head head1)
  let last := M.prev (.head head1)
  let M := M.setNext (.head head1) (M.next (.head head2))
  let M := M.setPrev (.head head1) (M.prev (.head head2))
  let M := M.setNext (.head head2) first
  M.setPrev (.head head2) last

/-- An empty queue points to its own head again. -/
def stailqOwn : Memory η ε :=
  if M.next (.head h) = none then M.setPrev (.head h) (some (.head h)) else M

def stailqSwap : Memory η ε :=
  stailqOwn (stailqOwn (swapHeads M head1 head2) head1) head2

end Stailq

/-! ## Lists -/

section List

variable (asserting : Bool) (M : Memory η ε) (h head1 head2 : η)

def listInit : Memory η ε := M.setNext (.head h) none

def listInsert (a : Place η ε) (elm : ε) : Option (Memory η ε) := do
  qmdCheck asserting (checkNext M a)
  let M := M.setNext (.elem elm) (M.next a)
  let M :=
    match M.next a with
    | some next => M.setPrev (.elem next) (some (.elem elm))
    | none => M
  let M := M.setNext a (some elm)
  some (M.setPrev (.elem elm) (some a))

def listInsertAfter (listelm elm : ε) : Option (Memory η ε) :=
  listInsert asserting M (.elem listelm) elm

def listInsertHead (elm : ε) : Option (Memory η ε) := listInsert asserting M (.head h) elm

def listInsertBefore (listelm elm : ε) : Option (Memory η ε) := do
  qmdCheck asserting (checkPrev M listelm)
  let M := M.setPrev (.elem elm) (M.prev (.elem listelm))
  let M := M.setNext (.elem elm) (some listelm)
  let prev ← M.prev (.elem listelm)
  let M := M.setNext prev (some elm)
  some (M.setPrev (.elem listelm) (some (.elem elm)))

def listRemove (elm : ε) : Option (Memory η ε) := do
  qmdCheck asserting (checkNext M (.elem elm))
  qmdCheck asserting (checkPrev M elm)
  let M :=
    match M.next (.elem elm) with
    | some next => M.setPrev (.elem next) (M.prev (.elem elm))
    | none => M
  let prev ← M.prev (.elem elm)
  let M := M.setNext prev (M.next (.elem elm))
  let M := M.setNext (.elem elm) none
  some (M.setPrev (.elem elm) none)

/-- The first element of a list points to its head. -/
def listOwn : Memory η ε :=
  match M.next (.head h) with
  | some first => M.setPrev (.elem first) (some (.head h))
  | none => M

def listSwap : Memory η ε :=
  let first := M.next (.head head1)
  let M := M.setNext (.head head1) (M.next (.head head2))
  let M := M.setNext (.head head2) first
  listOwn (listOwn M head1) head2

end List

/-! ## Tail queues -/

section Tailq

variable (asserting : Bool) (M : Memory η ε) (h head1 head2 : η)

def tailqInit : Memory η ε :=
  let M := M.setNext (.head h) none
  M.setPrev (.head h) (some (.head h))

def tailqInsert (a : Place η ε) (elm : ε) : Option (Memory η ε) := do
  qmdCheck asserting (checkNext M a)
  let M := M.setNext (.elem elm) (M.next a)
  let M :=
    match M.next (.elem elm) with
    | some next => M.setPrev (.elem next) (some (.elem elm))
    | none => M.setPrev (.head h) (some (.elem elm))
  let M := M.setNext a (some elm)
  some (M.setPrev (.elem elm) (some a))

def tailqInsertAfter (listelm elm : ε) : Option (Memory η ε) :=
  tailqInsert asserting M h (.elem listelm) elm

def tailqInsertHead (elm : ε) : Option (Memory η ε) := tailqInsert asserting M h (.head h) elm

/-- The code of `LIST_INSERT_BEFORE`. -/
def tailqInsertBefore (listelm elm : ε) : Option (Memory η ε) :=
  listInsertBefore asserting M listelm elm

def tailqInsertTail (elm : ε) : Option (Memory η ε) := do
  qmdCheck asserting (checkTail M h)
  let M := M.setNext (.elem elm) none
  let M := M.setPrev (.elem elm) (M.prev (.head h))
  let last ← M.prev (.head h)
  let M := M.setNext last (some elm)
  some (M.setPrev (.head h) (some (.elem elm)))

def tailqRemove (elm : ε) : Option (Memory η ε) := do
  qmdCheck asserting (checkNext M (.elem elm))
  qmdCheck asserting (checkPrev M elm)
  let M :=
    match M.next (.elem elm) with
    | some next => M.setPrev (.elem next) (M.prev (.elem elm))
    | none => M.setPrev (.head h) (M.prev (.elem elm))
  let prev ← M.prev (.elem elm)
  let M := M.setNext prev (M.next (.elem elm))
  let M := M.setNext (.elem elm) none
  some (M.setPrev (.elem elm) none)

def tailqConcat : Option (Memory η ε) :=
  if M.next (.head head2) = none then some M
  else do
    let last ← M.prev (.head head1)
    let M := M.setNext last (M.next (.head head2))
    let first ← M.next (.head head2)
    let M := M.setPrev (.elem first) (M.prev (.head head1))
    let M := M.setPrev (.head head1) (M.prev (.head head2))
    some (tailqInit M head2)

/-- The first element of a queue, or the head of an empty one, points to the head. -/
def tailqOwn : Memory η ε :=
  match M.next (.head h) with
  | some first => M.setPrev (.elem first) (some (.head h))
  | none => M.setPrev (.head h) (some (.head h))

def tailqSwap : Memory η ε :=
  tailqOwn (tailqOwn (swapHeads M head1 head2) head1) head2

end Tailq

/-! ## Traversals -/

section Traversal

variable (M : Memory η ε) (h : η)

end Traversal

end Libnc.Queue
