import Libnc.Array.Capacity
import Libnc.Foundation.Records

/-!
# The array as a list

The caller writes an element into every slot that a call returns.  The buffer
then holds, in order, what has been written since the array was created,
however often it was reallocated.
-/

namespace Libnc.Array

open Libnc.Foundation

/-- The bytes of one element. -/
abbrev Element := List UInt8

def elements (a : NcArray) : List Element := records a.elems.mem a.size a.nelem.toNat

/-- A call, and the elements that the caller writes if it succeeds. -/
structure Write where
  op : ArrayOp
  values : List Element

def Write.Valid (size : Nat) (w : Write) : Prop :=
  w.op.Valid ∧ w.op.count = w.values.length ∧ ∀ v ∈ w.values, v.length = size

instance (size : Nat) (w : Write) : Decidable (w.Valid size) :=
  inferInstanceAs (Decidable (_ ∧ _ ∧ _))

/-- An array and the elements written by the successful calls. -/
structure Filled where
  array : NcArray
  written : List Element

/-- The caller writes from the slot on; there is no result outside of the buffer. -/
def fill (a : NcArray) (slot : Slot) (values : List Element) : Option NcArray :=
  if slot.base = a.elems.addr ∧ slot.offset + values.flatten.length ≤ a.elems.bytes then
    some { a with elems :=
      { a.elems with mem := overwrite a.elems.mem slot.offset values.flatten } }
  else none

def Filled.step (s : Filled) (w : Write) : Option Filled :=
  match w.op.call s.array with
  | (none, a) => some ⟨a, s.written⟩
  | (some slot, a) => do
      let a ← fill a slot w.values
      some ⟨a, s.written ++ w.values⟩

/-- The slots of a call are `count` indices of the buffer from index `nelem` on. -/
structure Appends (size : Nat) (nelem count : Int) (slot : Slot) (a : NcArray) : Prop where
  nelem_eq : a.nelem = nelem + count
  base : slot.base = a.elems.addr
  offset : (slot.offset : Int) = nelem * size
  inside : slot.offset + count * size ≤ a.elems.bytes
  apart : ∀ i, 0 ≤ i → i < nelem → (i + 1) * size ≤ (slot.offset : Int)

/-- A call that is refused changes nothing, and any other hands out the next slots. -/
def CallAppends (size : Nat) (s : Filled) (w : Write) : Prop :=
  (∀ a, w.op.call s.array = (none, a) → a = s.array) ∧
    ∀ slot a, w.op.call s.array = (some slot, a) → Appends size s.array.nelem w.op.count slot a

/-- Pushes of single elements, each with the answer of the allocator. -/
def pushEach (entries : List (Element × AllocReply)) : List Write :=
  entries.map fun e => ⟨.push e.2, [e.1]⟩

def pushAll (entries : List (Element × AllocReply)) (reply : AllocReply) : Write :=
  ⟨.pushN entries.length reply, entries.map Prod.fst⟩

/-- The array holds what has been written. -/
structure Contains (size : Nat) (s : Filled) : Prop where
  consistent : Consistent size ⟨s.array, s.written.length⟩
  elements : elements s.array = s.written

variable {size : Nat} {s : Filled} {w : Write} {ws : List Write}

/-! ## One call -/

theorem Contains.nelem (h : Contains size s) : s.array.nelem = s.written.length :=
  h.consistent.exact_count

theorem Contains.length_le (h : Contains size s) :
    s.written.length * size ≤ s.array.elems.bytes := by
  have hle : s.array.nelem * size ≤ s.array.nalloc * size :=
    mul_le_mul_of_nonneg_right h.consistent.nelem_le (by positivity)
  rw [h.nelem, h.consistent.capacity] at hle
  exact_mod_cast hle

theorem Contains.records_eq (h : Contains size s) :
    records s.array.elems.mem size s.written.length = s.written := by
  have hheld := h.elements
  rw [Libnc.Array.elements, h.consistent.size_eq, h.nelem] at hheld
  exact hheld

theorem length_flatten {values : List Element} (h : ∀ v ∈ values, v.length = size) :
    values.flatten.length = values.length * size := by
  induction values with
  | nil => simp
  | cons v values ih =>
      rw [List.flatten_cons, List.length_append, h v (by simp),
        ih fun w hw => h w (List.mem_cons_of_mem _ hw), List.length_cons, Nat.add_mul,
        Nat.one_mul, Nat.add_comm]

theorem fill_spec {u : Tracked} (hu : Consistent size u) (hpushed : u.pushed = s.written.length)
    (hheld : records u.array.elems.mem size s.written.length = s.written)
    (hvalid : w.Valid size) (hroom : u.array.nelem + w.op.count ≤ u.array.nalloc) {slot : Slot}
    {a : NcArray} (hcall : takeSlots u.array w.op.count = (some slot, a)) :
    Appends size u.array.nelem w.op.count slot a ∧
      ∃ a', fill a slot w.values = some a' ∧ Contains size ⟨a', s.written ++ w.values⟩ := by
  obtain ⟨hop, hcount, hlength⟩ := hvalid
  obtain ⟨⟨-, hnelem, hbase, hoffset, hend⟩, hconsistent⟩ :=
    takeSlots_spec hu hop.1 hroom hcall
  have hexact : u.array.nelem = u.pushed := hu.exact_count
  have hmem : a.elems.mem = u.array.elems.mem := by
    simp only [takeSlots, Prod.mk.injEq, Option.some.injEq] at hcall
    exact hcall.2 ▸ rfl
  have hflat : (w.values.flatten.length : Int) = w.op.count * size := by
    rw [length_flatten hlength, hcount]
    push_cast
    rfl
  have hinside : slot.offset + w.op.count * size ≤ (a.elems.bytes : Int) := by
    rw [hoffset]
    linarith
  refine ⟨⟨by rw [hnelem, hexact], hbase, by rw [hoffset, hexact], hinside, fun i hlow hi => ?_⟩,
    _, if_pos ⟨hbase, by omega⟩, ⟨?_, ?_⟩⟩
  · rw [hoffset, ← hexact]
    exact mul_le_mul_of_nonneg_right (by omega) (by positivity)
  · have hlen : ((s.written ++ w.values).length : Int) = u.pushed + w.op.count := by
      rw [List.length_append, hpushed, hcount]
      push_cast
      rfl
    rw [hlen]
    exact { hconsistent with }
  · have hoff : slot.offset = s.written.length * size := by
      rw [hpushed] at hoffset
      exact_mod_cast hoffset
    have hlen : a.nelem.toNat = s.written.length + w.values.length := by omega
    have happend : records (overwrite u.array.elems.mem (s.written.length * size)
        w.values.flatten) size (s.written.length + w.values.length) = s.written ++ w.values := by
      rw [records_overwrite hlength, hheld]
    have hsize : a.size = size := hconsistent.size_eq
    simp only [elements, hsize, hlen, hoff, hmem, happend]

theorem step_spec (h : Contains size s) (hvalid : w.Valid size) (hwrap : NoWrap s.array w.op) :
    CallAppends size s w ∧ ∃ s', s.step w = some s' ∧ Contains size s' ∧
      (w.op.reply.isSome → s'.written = s.written ++ w.values) := by
  obtain ⟨hnull, hreply⟩ | ⟨u, hu, hpushed, hroom, hcall, hbytes⟩ :=
    call_cases h.consistent hvalid.1 hwrap
  · refine ⟨⟨fun a ha => ?_, fun slot a ha => ?_⟩, s, ?_, h, by simp [hreply]⟩
    · rw [hnull] at ha
      exact (Prod.mk.inj ha).2.symm
    · rw [hnull] at ha
      cases ha
    · simp [Filled.step, hnull]
  · have hheld : records u.array.elems.mem size s.written.length = s.written :=
      (records_congr fun k hk => hbytes k (hk.trans_le h.length_le)).trans h.records_eq
    have hnelem : u.array.nelem = s.array.nelem := by
      rw [hu.exact_count, h.nelem, hpushed]
    obtain ⟨slot, a, htake⟩ : ∃ slot a, takeSlots u.array w.op.count = (some slot, a) :=
      ⟨_, _, rfl⟩
    obtain ⟨happends, a', hfill, h'⟩ := fill_spec hu hpushed hheld hvalid hroom htake
    rw [htake] at hcall
    refine ⟨⟨fun a ha => ?_, fun slot a ha => ?_⟩, _, ?_, h', fun _ => rfl⟩
    · rw [hcall] at ha
      cases ha
    · rw [hcall] at ha
      cases ha
      exact hnelem ▸ happends
    · simp [Filled.step, hcall, hfill]

/-! ## Runs -/

theorem run_spec (h : Contains size s)
    (hok : Along Filled.step (fun s w => w.Valid size ∧ NoWrap s.array w.op) s ws) :
    ∃ s', run Filled.step s ws = some s' ∧ Contains size s' ∧
      ((∀ w ∈ ws, w.op.reply.isSome) → s'.written = s.written ++ ws.flatMap Write.values) := by
  induction ws generalizing s with
  | nil => exact ⟨s, rfl, h, by simp⟩
  | cons w ws ih =>
      obtain ⟨-, s₁, hstep, h₁, hwritten₁⟩ := step_spec h hok.1.1 hok.1.2
      obtain ⟨s₂, hrun, h₂, hwritten₂⟩ := ih h₁ (hok.2 s₁ hstep)
      refine ⟨s₂, run_cons_some hstep hrun, h₂, fun hreply => ?_⟩
      rw [hwritten₂ fun w hw => hreply w (List.mem_cons_of_mem _ hw),
        hwritten₁ (hreply w (by simp)), List.append_assoc, List.flatMap_cons]

theorem values_pushEach (entries : List (Element × AllocReply)) :
    (pushEach entries).flatMap Write.values = entries.map Prod.fst := by
  induction entries with
  | nil => rfl
  | cons e entries ih => exact congrArg (e.1 :: ·) ih

theorem pushAll_eq_pushEach {entries : List (Element × AllocReply)} {reply : AllocReply}
    (h : Contains size s) (hne : entries ≠ [])
    (hentries : ∀ e ∈ entries, e.1.length = size ∧ e.2.isSome) (hreply : reply.isSome)
    (hall : NoWrap s.array (pushAll entries reply).op)
    (heach : Along Filled.step (fun u w => NoWrap u.array w.op) s (pushEach entries)) :
    ∃ s₁ s₂, run Filled.step s [pushAll entries reply] = some s₁ ∧
      run Filled.step s (pushEach entries) = some s₂ ∧
      s₁.array.nelem = s₂.array.nelem ∧ elements s₁.array = elements s₂.array := by
  have hpos : 1 ≤ (entries.length : Int) := by
    have := List.length_pos_of_ne_nil hne
    omega
  have hmax : (entries.length : Int) ≤ intMax := by
    have hsum := hall.1
    have := h.consistent.nelem_nonneg
    simp only at this
    omega
  have hvalidAll : (pushAll entries reply).Valid size := by
    refine ⟨⟨hpos, hmax⟩, by simp [pushAll, ArrayOp.count], fun v hv => ?_⟩
    obtain ⟨e, he, rfl⟩ := List.mem_map.mp hv
    exact (hentries e he).1
  have hvalidEach : ∀ w ∈ pushEach entries, w.Valid size ∧ w.op.reply.isSome := by
    intro w hw
    obtain ⟨e, he, rfl⟩ := List.mem_map.mp hw
    refine ⟨⟨by simp only [ArrayOp.Valid, ArrayOp.count, intMax]; omega, rfl, ?_⟩,
      (hentries e he).2⟩
    simpa using (hentries e he).1
  have hokAll : Along Filled.step (fun s w => w.Valid size ∧ NoWrap s.array w.op) s
      [pushAll entries reply] := ⟨⟨hvalidAll, hall⟩, fun _ _ => trivial⟩
  obtain ⟨s₁, hrun₁, h₁, hwritten₁⟩ := run_spec h hokAll
  obtain ⟨s₂, hrun₂, h₂, hwritten₂⟩ :=
    run_spec h ((Along.of_forall fun _ w hw => (hvalidEach w hw).1).and heach)
  have hsame : s₁.written = s₂.written := by
    rw [hwritten₁ (by simpa [pushAll, ArrayOp.reply] using hreply),
      hwritten₂ fun w hw => (hvalidEach w hw).2]
    simp [pushAll, values_pushEach]
  exact ⟨s₁, s₂, hrun₁, hrun₂, by rw [h₁.nelem, h₂.nelem, hsame],
    by rw [h₁.elements, h₂.elements, hsame]⟩

theorem init_contains {reply : AllocReply} {n : Int} (hn : 1 ≤ n ∧ n ≤ intMax)
    (hfit : n * size < sizeModulus) {a : NcArray} (hinit : ncArrayInit reply n size = .ok a) :
    Contains size ⟨a, []⟩ := by
  have hcreate : ncArrayCreate true reply n size = some a := by simp [ncArrayCreate, hinit]
  have h := create_consistent hn hfit hcreate
  refine ⟨h, ?_⟩
  have hzero : a.nelem = 0 := h.exact_count
  simp [elements, hzero, records]

/--
The array refines an append-only list.  After any pushes none of which wraps,
whether the allocator answered or not, it holds what the successful ones wrote;
a call that returns NULL changed nothing, and the slots of any other are the
next indices of the buffer.  If the allocator answers, pushing many elements
at once and one by one leaves the same list.
-/
theorem ncArray_refines_list (reply : AllocReply) (n : Int) (size : Nat)
    (hn : 1 ≤ n ∧ n ≤ intMax) (hfit : n * size < sizeModulus) (a : NcArray)
    (hinit : ncArrayInit reply n size = .ok a) (ws : List Write)
    (hok : Along Filled.step (fun s w => w.Valid size ∧ NoWrap s.array w.op) ⟨a, []⟩ ws) :
    Along Filled.step (CallAppends size) ⟨a, []⟩ ws ∧
      ∃ s, run Filled.step ⟨a, []⟩ ws = some s ∧ elements s.array = s.written ∧
        s.array.size = size ∧ s.array.nelem = s.written.length ∧
        s.array.nelem ≤ s.array.nalloc ∧ s.array.nalloc * size = s.array.elems.bytes ∧
        ∀ entries reply, entries ≠ [] → (∀ e ∈ entries, e.1.length = size ∧ e.2.isSome) →
          reply.isSome → NoWrap s.array (pushAll entries reply).op →
          Along Filled.step (fun u w => NoWrap u.array w.op) s (pushEach entries) →
          ∃ s₁ s₂, run Filled.step s [pushAll entries reply] = some s₁ ∧
            run Filled.step s (pushEach entries) = some s₂ ∧
            s₁.array.nelem = s₂.array.nelem ∧ elements s₁.array = elements s₂.array := by
  have h := init_contains hn hfit hinit
  obtain ⟨s, hrun, hs, -⟩ := run_spec h hok
  refine ⟨Along.of_invariant (Contains size) (fun s w h hop => ?_) h hok, s, hrun, hs.elements,
    hs.consistent.size_eq, hs.nelem, hs.consistent.nelem_le, hs.consistent.capacity,
    fun entries reply => pushAll_eq_pushEach hs⟩
  obtain ⟨hcall, s', hstep, hs', -⟩ := step_spec h hop.1 hop.2
  refine ⟨hcall, fun s'' hs'' => ?_⟩
  rw [hstep] at hs''
  cases hs''
  exact hs'

/-- A refused and a granted growth of an array for one element of two bytes. -/
theorem ncArray_refines_list_grow :
    ∃ a, ncArrayInit (some (64, fun _ => 0)) 1 2 = .ok a ∧
      Along Filled.step (CallAppends 2) ⟨a, []⟩
        [⟨.push none, [[1, 2]]⟩, ⟨.push none, [[3, 4]]⟩,
          ⟨.pushN 2 (some (128, fun _ => 9)), [[5, 6], [7, 8]]⟩] ∧
      ∃ s, run Filled.step ⟨a, []⟩
          [⟨.push none, [[1, 2]]⟩, ⟨.push none, [[3, 4]]⟩,
            ⟨.pushN 2 (some (128, fun _ => 9)), [[5, 6], [7, 8]]⟩] = some s ∧
        elements s.array = s.written ∧ s.array.size = 2 ∧ s.array.nelem = s.written.length ∧
        s.array.nelem ≤ s.array.nalloc ∧ s.array.nalloc * 2 = s.array.elems.bytes ∧
        ∀ entries reply, entries ≠ [] → (∀ e ∈ entries, e.1.length = 2 ∧ e.2.isSome) →
          reply.isSome → NoWrap s.array (pushAll entries reply).op →
          Along Filled.step (fun u w => NoWrap u.array w.op) s (pushEach entries) →
          ∃ s₁ s₂, run Filled.step s [pushAll entries reply] = some s₁ ∧
            run Filled.step s (pushEach entries) = some s₂ ∧
            s₁.array.nelem = s₂.array.nelem ∧ elements s₁.array = elements s₂.array :=
  ⟨_, rfl, ncArray_refines_list (some (64, fun _ => 0)) 1 2 (by decide) (by decide) _ rfl _
    (by decide +kernel)⟩

end Libnc.Array
