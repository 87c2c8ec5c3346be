import Libnc.Array.Model
import Libnc.Foundation.Run
import Mathlib.Tactic.Ring
import Mathlib.Tactic.Linarith

/-!
# Capacity arithmetic of the array

A run starts from an array that `ncArrayCreate` returned and makes pushes of
one or of `n` elements.  Next to the array it carries the exact number of
elements pushed, as a mathematical integer.  The slots of a call are safe when
the exact element count is in `nelem` and the slots end inside the allocated
bytes.  This holds as long as no expression of a call leaves its C type.
-/

namespace Libnc.Array

open Libnc.Foundation

/-! ## Runs of pushes -/

inductive ArrayOp where
  | push (reply : AllocReply)
  | pushN (n : Int) (reply : AllocReply)

namespace ArrayOp

def count : ArrayOp → Int
  | .push _ => 1
  | .pushN n _ => n

def reply : ArrayOp → AllocReply
  | .push reply => reply
  | .pushN _ reply => reply

def Valid (op : ArrayOp) : Prop := 1 ≤ op.count ∧ op.count ≤ intMax

instance (op : ArrayOp) : Decidable op.Valid := by
  unfold Valid
  infer_instance

def call (op : ArrayOp) (a : NcArray) : Option Slot × NcArray :=
  match op with
  | .push reply => ncArrayPush reply a
  | .pushN n reply => ncArrayPushN reply a n

end ArrayOp

/-- An array and the exact number of elements pushed so far. -/
structure Tracked where
  array : NcArray
  pushed : Int

def Tracked.step (t : Tracked) (op : ArrayOp) : Option Tracked :=
  match op.call t.array with
  | (none, a) => some ⟨a, t.pushed⟩
  | (some _, a) => some ⟨a, t.pushed + op.count⟩

/--
A call that returns slots leaves the exact count in `nelem`, and its slots run
from the old exact count to the new one inside the allocated bytes.
-/
def SafeCall (size : Nat) (t : Tracked) (op : ArrayOp) : Prop :=
  ∀ slot a, op.call t.array = (some slot, a) →
    0 ≤ a.nelem ∧ a.nelem = t.pushed + op.count ∧
    slot.base = a.elems.addr ∧ (slot.offset : Int) = t.pushed * size ∧
    (t.pushed + op.count) * size ≤ a.elems.bytes

/-! ## The condition: no expression of the call wraps -/

/-- The new capacity and its byte size are in range. -/
def GrowthFits (a : NcArray) (nalloc : Int) : Prop :=
  nalloc ≤ intMax ∧ nalloc * a.size < sizeModulus

instance (a : NcArray) (nalloc : Int) : Decidable (GrowthFits a nalloc) := by
  unfold GrowthFits
  infer_instance

/-- A growth that is granted is in range; one that is refused has asked for some bytes. -/
def GrowthSafe (a : NcArray) (reply : AllocReply) (nalloc : Int) (bytes : Nat) : Prop :=
  if reply.isSome then GrowthFits a nalloc else bytes ≠ 0

instance (a : NcArray) (reply : AllocReply) (nalloc : Int) (bytes : Nat) :
    Decidable (GrowthSafe a reply nalloc bytes) := by
  unfold GrowthSafe
  infer_instance

/--
No `int` or `size_t` expression that the call evaluates leaves its type.  Of a
growth that the allocator refuses only the byte size matters, which must not be 0.
-/
def NoWrap (a : NcArray) : ArrayOp → Prop
  | .push reply =>
      a.nelem = a.nalloc →
        GrowthSafe a reply (2 * a.nalloc) (sizeMul 2 (sizeMul a.size (intToSize a.nalloc)))
  | .pushN n reply =>
      a.nelem + n ≤ intMax ∧
      (a.nalloc < a.nelem + n → GrowthSafe a reply (2 * max n a.nalloc)
        (sizeMul (intToSize (wrapInt (2 * max n a.nalloc))) a.size))

instance (a : NcArray) (op : ArrayOp) : Decidable (NoWrap a op) := by
  cases op <;> unfold NoWrap <;> infer_instance

/-- The recorded capacity is really allocated and the count is exact. -/
structure Consistent (size : Nat) (t : Tracked) : Prop where
  size_eq : t.array.size = size
  nelem_nonneg : 0 ≤ t.array.nelem
  nelem_le : t.array.nelem ≤ t.array.nalloc
  nalloc_pos : 1 ≤ t.array.nalloc
  nalloc_le : t.array.nalloc ≤ intMax
  exact_count : t.array.nelem = t.pushed
  capacity : t.array.nalloc * size = t.array.elems.bytes
  bytes_lt : t.array.elems.bytes < sizeModulus

theorem sizeMul_intToSize {value : Int} {size : Nat} (hlow : 0 ≤ value)
    (hhigh : value ≤ intMax) (hfit : value * size < sizeModulus) :
    (sizeMul (intToSize value) size : Int) = value * size := by
  obtain ⟨n, rfl⟩ := Int.eq_ofNat_of_zero_le hlow
  rw [intToSize_natCast n hhigh, sizeMul_of_lt (by exact_mod_cast hfit)]
  push_cast
  ring

theorem push_request {nalloc : Int} {size : Nat} (hlow : 0 ≤ nalloc)
    (hhigh : nalloc ≤ intMax) (hfit : 2 * nalloc * size < sizeModulus) :
    (sizeMul 2 (sizeMul size (intToSize nalloc)) : Int) = 2 * nalloc * size := by
  have hnonneg : 0 ≤ nalloc * size := by positivity
  have hinner := sizeMul_intToSize hlow hhigh (show nalloc * size < sizeModulus by linarith)
  rw [sizeMul_comm size, sizeMul_of_lt]
  · push_cast
    rw [hinner]
    ring
  · have : (2 * sizeMul (intToSize nalloc) size : Int) < sizeModulus := by
      rw [hinner]
      linarith
    exact_mod_cast this

theorem takeSlots_spec {size : Nat} {t : Tracked} (h : Consistent size t) {n : Int}
    (hn : 1 ≤ n) (hroom : t.array.nelem + n ≤ t.array.nalloc) {slot : Slot} {a : NcArray}
    (hcall : takeSlots t.array n = (some slot, a)) :
    (0 ≤ a.nelem ∧ a.nelem = t.pushed + n ∧
      slot.base = a.elems.addr ∧ (slot.offset : Int) = t.pushed * size ∧
      (t.pushed + n) * size ≤ a.elems.bytes) ∧
    Consistent size ⟨a, t.pushed + n⟩ := by
  obtain ⟨hsize, hnonneg, hle, hpos, hmax, hexact, hcap, hbytes⟩ := h
  have hwrap : wrapInt (t.array.nelem + n) = t.array.nelem + n :=
    wrapInt_of_range (by omega) (by omega)
  have hend : (t.pushed + n) * size ≤ t.array.elems.bytes := by
    rw [← hcap]
    exact mul_le_mul_of_nonneg_right (by omega) (by positivity)
  have hoff : (sizeMul t.array.size (intToSize t.array.nelem) : Int) = t.pushed * size := by
    rw [sizeMul_comm, hsize, sizeMul_intToSize hnonneg (by omega), hexact]
    have : t.array.nelem * size ≤ t.array.nalloc * size :=
      mul_le_mul_of_nonneg_right hle (by positivity)
    have hlt : (t.array.elems.bytes : Int) < sizeModulus := by exact_mod_cast hbytes
    linarith
  simp only [takeSlots, Prod.mk.injEq, Option.some.injEq] at hcall
  obtain ⟨rfl, rfl⟩ := hcall
  refine ⟨⟨?_, ?_, rfl, hoff, hend⟩, hsize, ?_, ?_, hpos, hmax, ?_, hcap, hbytes⟩ <;>
    simp only [hwrap] <;> omega

theorem Consistent.grow {size : Nat} {t : Tracked} (h : Consistent size t)
    {buffer : Buffer} {nalloc : Int} (hle : t.array.nalloc ≤ nalloc)
    (hfits : GrowthFits t.array nalloc) (hbytes : (buffer.bytes : Int) = nalloc * size) :
    Consistent size
      ⟨{ t.array with elems := buffer, nalloc := nalloc }, t.pushed⟩ where
  size_eq := h.size_eq
  nelem_nonneg := h.nelem_nonneg
  nelem_le := h.nelem_le.trans hle
  nalloc_pos := h.nalloc_pos.trans hle
  nalloc_le := hfits.1
  exact_count := h.exact_count
  capacity := hbytes.symm
  bytes_lt := by
    have := hfits.2
    rw [h.size_eq, ← hbytes] at this
    exact_mod_cast this

/-! ## Growing -/

/-- The branch of both pushes that asks for `bytes` bytes. -/
def growThen (a : NcArray) (reply : AllocReply) (nalloc : Int) (bytes : Nat) (n : Int) :
    Option Slot × NcArray :=
  match ncRealloc reply a.elems bytes with
  | .error elems => (none, { a with elems := elems })
  | .ok newElem => takeSlots { a with elems := newElem, nalloc := nalloc } n

theorem ncArrayPush_eq (reply : AllocReply) (a : NcArray) :
    ncArrayPush reply a =
      if a.nelem = a.nalloc then
        growThen a reply (wrapInt (2 * a.nalloc))
          (sizeMul 2 (sizeMul a.size (intToSize a.nalloc))) 1
      else takeSlots a 1 := by
  rw [mul_comm 2 a.nalloc]
  rfl

theorem ncArrayPushN_eq (reply : AllocReply) {a : NcArray} {n : Int} (hlow : 0 ≤ a.nelem + n)
    (hsum : a.nelem + n ≤ intMax) :
    ncArrayPushN reply a n =
      if a.nalloc < a.nelem + n then
        growThen a reply (wrapInt (2 * max n a.nalloc))
          (sizeMul (intToSize (wrapInt (2 * max n a.nalloc))) a.size) n
      else takeSlots a n := by
  have hmax : (if a.nalloc ≤ n then n else a.nalloc) = max n a.nalloc := by
    split <;> omega
  simp only [ncArrayPushN, wrapInt_of_range hlow hsum, hmax]
  rfl

theorem growThen_refused {a : NcArray} {nalloc n : Int} {bytes : Nat} (hbytes : bytes ≠ 0) :
    growThen a none nalloc bytes n = (none, a) := by
  simp only [growThen, ncRealloc, if_neg hbytes]

/-- A larger buffer starts with the bytes of the old one. -/
theorem growThen_granted {size : Nat} {t : Tracked} {nalloc n : Int} {bytes : Nat}
    (h : Consistent size t) (hle : t.array.nalloc ≤ nalloc) (hroom : t.array.nelem + n ≤ nalloc)
    (hfits : GrowthFits t.array nalloc) (hbytes : (bytes : Int) = nalloc * size)
    (r : Nat × (Nat → UInt8)) :
    ∃ u : Tracked, Consistent size u ∧ u.pushed = t.pushed ∧
      u.array.nelem + n ≤ u.array.nalloc ∧
      growThen t.array (some r) nalloc bytes n = takeSlots u.array n ∧
      ∀ i, i < t.array.elems.bytes → u.array.elems.mem i = t.array.elems.mem i := by
  have hlarger : t.array.elems.bytes ≤ bytes := by
    have hmul : t.array.nalloc * size ≤ nalloc * size :=
      mul_le_mul_of_nonneg_right hle (by positivity)
    rw [h.capacity, ← hbytes] at hmul
    exact_mod_cast hmul
  refine ⟨_, h.grow hle hfits hbytes, rfl, hroom, rfl, fun i hi => ?_⟩
  exact if_pos (lt_min hi (hi.trans_le hlarger))

/-- A growth in range is refused without a change, or makes room and keeps the bytes. -/
theorem growThen_cases {size : Nat} {t : Tracked} {reply : AllocReply} {nalloc n : Int}
    {bytes : Nat} (h : Consistent size t) (hle : t.array.nalloc ≤ nalloc)
    (hroom : t.array.nelem + n ≤ nalloc) (hsafe : GrowthSafe t.array reply nalloc bytes)
    (hbytes : GrowthFits t.array nalloc → (bytes : Int) = nalloc * size) :
    (growThen t.array reply (wrapInt nalloc) bytes n = (none, t.array) ∧ reply = none) ∨
      ∃ u : Tracked, Consistent size u ∧ u.pushed = t.pushed ∧
        u.array.nelem + n ≤ u.array.nalloc ∧
        growThen t.array reply (wrapInt nalloc) bytes n = takeSlots u.array n ∧
        ∀ i, i < t.array.elems.bytes → u.array.elems.mem i = t.array.elems.mem i := by
  have hpos := h.nalloc_pos
  cases reply with
  | none => exact .inl ⟨growThen_refused hsafe, rfl⟩
  | some r =>
      right
      have hfits : GrowthFits t.array nalloc := hsafe
      rw [wrapInt_of_range (by omega) hfits.1]
      exact growThen_granted h hle hroom hfits (hbytes hfits) r

/--
A call that does not wrap is refused without a change, or takes its slots from
an array that has room for them and holds the same bytes.
-/
theorem call_cases {size : Nat} {t : Tracked} {op : ArrayOp} (h : Consistent size t)
    (hvalid : op.Valid) (hwrap : NoWrap t.array op) :
    (op.call t.array = (none, t.array) ∧ op.reply = none) ∨
      ∃ u : Tracked, Consistent size u ∧ u.pushed = t.pushed ∧
        u.array.nelem + op.count ≤ u.array.nalloc ∧
        op.call t.array = takeSlots u.array op.count ∧
        ∀ i, i < t.array.elems.bytes → u.array.elems.mem i = t.array.elems.mem i := by
  have hsize := h.size_eq
  have hpos := h.nalloc_pos
  have hle := h.nelem_le
  have hnonneg := h.nelem_nonneg
  cases op with
  | push reply =>
      simp only [ArrayOp.call, ncArrayPush_eq, ArrayOp.count, ArrayOp.reply]
      by_cases hfull : t.array.nelem = t.array.nalloc
      · rw [if_pos hfull]
        apply growThen_cases h (by omega) (by omega) (hwrap hfull)
        intro hfits
        rw [hsize]
        exact push_request (by omega) h.nalloc_le (hsize ▸ hfits.2)
      · right
        exact ⟨t, h, rfl, by omega, if_neg hfull, fun _ _ => rfl⟩
  | pushN n reply =>
      obtain ⟨hsum, hgrow⟩ := hwrap
      have hn : 1 ≤ n := hvalid.1
      simp only [ArrayOp.call, ArrayOp.count, ArrayOp.reply]
      rw [ncArrayPushN_eq reply (by omega) hsum]
      by_cases hfull : t.array.nalloc < t.array.nelem + n
      · rw [if_pos hfull]
        apply growThen_cases h (by omega) (by omega) (hgrow hfull)
        intro hfits
        rw [wrapInt_of_range (by omega) hfits.1, ← hsize]
        exact sizeMul_intToSize (by omega) hfits.1 hfits.2
      · right
        exact ⟨t, h, rfl, by omega, if_neg hfull, fun _ _ => rfl⟩

theorem call_spec {size : Nat} {t : Tracked} {op : ArrayOp} (h : Consistent size t)
    (hvalid : op.Valid) (hwrap : NoWrap t.array op) :
    SafeCall size t op ∧ ∀ t', t.step op = some t' → Consistent size t' := by
  obtain ⟨hnull, -⟩ | ⟨u, hu, hpushed, hroom, hcall, -⟩ := call_cases h hvalid hwrap
  · refine ⟨fun slot a hcall => by simp [hnull] at hcall, fun t' ht' => ?_⟩
    simp only [Tracked.step, hnull, Option.some.injEq] at ht'
    exact ht' ▸ h
  · have hspec := takeSlots_spec hu hvalid.1 hroom rfl
    rw [hpushed] at hspec
    constructor
    · intro slot a ha
      rw [hcall, takeSlots] at ha
      simp only [Prod.mk.injEq, Option.some.injEq] at ha
      obtain ⟨rfl, rfl⟩ := ha
      exact hspec.1
    · intro t' ht'
      simp only [Tracked.step, hcall, takeSlots, Option.some.injEq] at ht'
      exact ht' ▸ hspec.2

/-! ## The condition is exact -/

theorem create_consistent {header : Bool} {reply : AllocReply} {n : Int} {size : Nat}
    (hn : 1 ≤ n ∧ n ≤ intMax) (hfit : n * size < sizeModulus) {a : NcArray}
    (hcreate : ncArrayCreate header reply n size = some a) :
    Consistent size ⟨a, 0⟩ := by
  have hreq := sizeMul_intToSize (by omega) hn.2 hfit
  cases header with
  | false => simp [ncArrayCreate] at hcreate
  | true =>
      cases reply with
      | none => simp [ncArrayCreate, ncArrayInit, ncAlloc] at hcreate
      | some r =>
          simp only [ncArrayCreate, ncArrayInit, ncAlloc, Option.map_some, if_true,
            Option.some.injEq] at hcreate
          subst hcreate
          exact ⟨rfl, le_refl _, by simp only; omega, hn.1, hn.2, rfl, hreq.symm,
            sizeMul_lt _ _⟩

/--
In every run of pushes none of whose expressions wraps, every call that returns
slots leaves the exact element count in `nelem` and hands out slots inside the
allocated bytes.
-/
theorem pushes_safe_of_noWrap (header : Bool) (reply : AllocReply) (n : Int) (size : Nat)
    (hn : 1 ≤ n ∧ n ≤ intMax) (hfit : n * size < sizeModulus) (a : NcArray)
    (hcreate : ncArrayCreate header reply n size = some a) (ops : List ArrayOp)
    (hok : Along Tracked.step (fun t op => op.Valid ∧ NoWrap t.array op) ⟨a, 0⟩ ops) :
    Along Tracked.step (SafeCall size) ⟨a, 0⟩ ops :=
  Along.of_invariant (Consistent size) (fun _ _ h hop => call_spec h hop.1 hop.2)
    (create_consistent hn hfit hcreate) hok

/-- Pushing 1 and then 4 elements onto an array created for 2: a refused and a granted growth. -/
theorem pushes_safe_of_noWrap_grow :
    ∃ a, ncArrayCreate true (some (64, fun _ => 0)) 2 8 = some a ∧
      Along Tracked.step (SafeCall 8) ⟨a, 0⟩
        [.pushN 1 none, .pushN 4 none, .pushN 4 (some (128, fun _ => 0))] :=
  ⟨_, rfl, pushes_safe_of_noWrap true (some (64, fun _ => 0)) 2 8 (by decide) (by decide) _ rfl _
    (by decide +kernel)⟩

/--
The sum in the capacity test of `ncArrayPushN` wraps: after one element has
been pushed, a request for `INT_MAX` more passes the test without growing.
-/
theorem pushN_count_wraps :
    ∃ a, ncArrayCreate true (some (64, fun _ => 0)) 1 1 = some a ∧
      Along Tracked.step (fun _ op => op.Valid) ⟨a, 0⟩
        [.pushN 1 none, .pushN intMax none] ∧
      ¬ Along Tracked.step (SafeCall 1) ⟨a, 0⟩
        [.pushN 1 none, .pushN intMax none] := by
  refine ⟨_, rfl, ⟨by decide, ?_⟩, ?_⟩
  · rintro _ ⟨rfl⟩
    exact ⟨by decide, fun _ _ => trivial⟩
  · intro h
    have hcall := (h.2 _ rfl).1 _ _ rfl
    exact absurd hcall.1 (by decide)

end Libnc.Array
