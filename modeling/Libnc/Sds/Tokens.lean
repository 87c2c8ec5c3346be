import Libnc.Sds.Operations

/-!
# Arrays of strings

The arrays that the splitting functions return: a block of pointers beside the
strings that it refers to.
-/

namespace Libnc.Sds

open Libnc.Foundation Blocks

/-- `realloc` to `n` pointers; of NULL it is `malloc`. -/
def reallocVector (malloc : Allocator) (h : Heap) (vector : Option Nat) (n : Nat) :
    Option (Heap × Option Nat) :=
  match vector with
  | none => some (h.alloc malloc fun _ => Block.vector (List.replicate n none))
  | some v => h.realloc malloc v fun b _ =>
      match b with
      | .vector slots => .vector (slots.take n ++ List.replicate (n - slots.length) none)
      | b => b

def setSlot (h : Heap) (v i : Nat) (s : Option Nat) : Option Heap :=
  match h.block v with
  | some (.vector slots) =>
      if i < slots.length then some (h.store v (.vector (slots.set i (some s)))) else none
  | _ => none

def getSlot (h : Heap) (v i : Nat) : Option (Option Nat) :=
  match h.block v with
  | some (.vector slots) => (slots[i]?).join
  | _ => none

/-- The strings of the array, from the last one to the first. -/
def freeSlots (h : Heap) (v : Nat) : Nat → Option Heap
  | 0 => some h
  | count + 1 => do
      let s ← getSlot h v count
      let h ← sdsfree h s
      freeSlots h v count

/-- `free`, which does nothing with NULL. -/
def freeVector (h : Heap) : Option Nat → Option Heap
  | none => some h
  | some v => h.free v

def sdsfreesplitres (h : Heap) (tokens : Option Nat) (count : Nat) : Option Heap :=
  match tokens with
  | none => some h
  | some v => do
      let h ← freeSlots h v count
      h.free v

/-! ## Strings beside a frame -/

/-- `m` consists of the blocks of `F` and of the strings `ps`, with these texts. -/
inductive Strings (F : Nat → Option Block) :
    (Nat → Option Block) → List Nat → List (List UInt8) → Prop where
  | nil : Strings F F [] []
  | snoc {m : Nat → Option Block} {ps : List Nat} {ts : List (List UInt8)} {p : Nat}
      {text room : List UInt8} : Strings F m ps ts → m p = none →
      text.length + room.length ≤ 2147483647 →
      Strings F (Function.update m p (some (.string (pack text room)))) (ps ++ [p]) (ts ++ [text])

variable {malloc : Allocator} {h h' : Heap} {F m : Nat → Option Block} {v p q n : Nat}
  {ps : List Nat} {ts : List (List UInt8)} {text room : List UInt8} {b : Option Block}
  {slots extra : List (Option (Option Nat))}

theorem Strings.length_eq (hs : Strings F m ps ts) : ps.length = ts.length := by
  induction hs with
  | nil => rfl
  | snoc _ _ _ ih => simp [ih]

theorem Strings.of_frame (hs : Strings F m ps ts) (hq : F q ≠ none) : m q = F q := by
  induction hs with
  | nil => rfl
  | @snoc m _ _ p _ _ _ hp _ ih =>
      rw [Function.update_of_ne, ih]
      rintro rfl
      exact hq (ih ▸ hp)

/-- Another block joins the frame. -/
theorem Strings.update (hs : Strings F m ps ts) (hq : m q = none) :
    Strings (Function.update F q b) (Function.update m q b) ps ts := by
  induction hs with
  | nil => exact .nil
  | @snoc m _ _ p _ _ _ hp hfits ih =>
      have hne : p ≠ q := by
        rintro rfl
        simp at hq
      rw [Function.update_of_ne hne.symm] at hq
      rw [Function.update_comm hne]
      refine .snoc (ih hq) ?_ hfits
      rw [Function.update_of_ne hne, hp]

/-- The slots that refer to these strings. -/
def slotsOf (ps : List Nat) : List (Option (Option Nat)) := ps.map fun p => some (some p)

/-- Beside `F` the heap has the array `v` and in its first slots strings with these texts. -/
def Tokens (h : Heap) (F : Nat → Option Block) (v : Nat) (ts : List (List UInt8)) : Prop :=
  ∃ m ps extra, Strings F m ps ts ∧ Cell h m v (.vector (slotsOf ps ++ extra))

theorem Strings.get {j : Nat} (hs : Strings F m ps ts) (hj : j < ts.length) :
    ∃ p room, ps[j]? = some p ∧ m p = some (.string (pack ts[j] room)) ∧
      ts[j].length ≤ 2147483647 := by
  induction hs with
  | nil => simp at hj
  | @snoc m ps ts q text room hs hfree hfits ih =>
      have hlen := hs.length_eq
      by_cases hlast : j < ts.length
      · obtain ⟨p, roomP, hslot, hp, hle⟩ := ih hlast
        have hne : p ≠ q := by
          rintro rfl
          simp [hfree] at hp
        refine ⟨p, roomP, ?_, ?_, ?_⟩
        · rw [List.getElem?_append_left (by omega), hslot]
        · rw [Function.update_of_ne hne, hp, List.getElem_append_left hlast]
        · rwa [List.getElem_append_left hlast]
      · rw [List.length_append, List.length_singleton] at hj
        obtain rfl : j = ts.length := by omega
        refine ⟨q, room, by simp [← hlen], by simp, ?_⟩
        simp only [List.getElem_concat_length]
        omega

theorem Strings.frame_none (hs : Strings F m ps ts) (hq : m q = none) : F q = none := by
  by_contra hne
  exact hne (hs.of_frame hne ▸ hq)

/-- Another block, which joins the frame. -/
theorem Tokens.beside {b : Block} (ht : Tokens h F v ts) (hq : Cell h' h.block q b) :
    Tokens h' (Function.update F q (some b)) v ts ∧ F q = none := by
  obtain ⟨m, ps, extra, hs, hc⟩ := ht
  have hfree := hc.frame_none hq.absent
  exact ⟨⟨_, ps, extra, hs.update hfree, hc.beside hq⟩, hs.frame_none hfree⟩

theorem getSlot_of_cell {i : Nat} (hc : Cell h F v (.vector slots)) :
    getSlot h v i = (slots[i]?).join := by
  simp [getSlot, hc.get]

theorem Tokens.get {j : Nat} (ht : Tokens h F v ts) (hj : j < ts.length) :
    ∃ p room, getSlot h v j = some (some p) ∧
      h.block p = some (.string (pack ts[j] room)) ∧ ts[j].length ≤ 2147483647 := by
  obtain ⟨m, ps, extra, hs, hc⟩ := ht
  obtain ⟨p, room, hslot, hp, hle⟩ := hs.get hj
  refine ⟨p, room, ?_, hc.frame hp, hle⟩
  obtain ⟨hj', hget⟩ := List.getElem?_eq_some_iff.mp hslot
  rw [getSlot_of_cell hc, List.getElem?_append_left (by simpa [slotsOf] using hj')]
  simp [slotsOf, hslot]

/-- The loop releases the strings of the first slots and nothing else. -/
theorem freeSlots_spec (hs : Strings F m ps ts)
    (hc : Cell h m v (.vector (slotsOf ps ++ extra))) :
    ∃ h', freeSlots h v ps.length = some h' ∧
      Cell h' F v (.vector (slotsOf ps ++ extra)) := by
  induction hs generalizing h extra with
  | nil => exact ⟨h, rfl, hc⟩
  | @snoc m ps ts p text room _ hp _ ih =>
      have hslot : getSlot h v ps.length = some (some p) := by
        rw [getSlot_of_cell hc]
        simp [slotsOf]
      have hshape : slotsOf (ps ++ [p]) ++ extra = slotsOf ps ++ (some (some p) :: extra) := by
        simp [slotsOf]
      rw [hshape] at hc ⊢
      obtain ⟨h', hrun, hc'⟩ := ih (hc.release_frame hp)
      refine ⟨h', ?_, hc'⟩
      rw [List.length_append, List.length_singleton]
      simp [freeSlots, hslot, sdsfree, hc.free_frame, hrun]

/-- The array and its strings are all that is released. -/
theorem sdsfreesplitres_spec (ht : Tokens h F v ts) :
    ∃ h', sdsfreesplitres h (some v) ts.length = some h' ∧ h'.block = F := by
  obtain ⟨m, ps, extra, hs, hc⟩ := ht
  obtain ⟨h', hrun, hc'⟩ := freeSlots_spec hs hc
  refine ⟨h'.release v, ?_, hc'.release⟩
  simp [sdsfreesplitres, ← hs.length_eq, hrun, hc'.free]

/-! ## Growing the array -/

theorem setSlot_of_cell {i : Nat} (hc : Cell h F v (.vector slots)) (hi : i < slots.length)
    (s : Option Nat) :
    ∃ h', setSlot h v i s = some h' ∧ Cell h' F v (.vector (slots.set i (some s))) :=
  ⟨_, by simp [setSlot, hc.get, hi], hc.store⟩

theorem setSlot_calls {i : Nat} {s : Option Nat} (hset : setSlot h v i s = some h') :
    h'.calls = h.calls := by
  unfold setSlot at hset
  split at hset
  · obtain ⟨-, hstore⟩ := Option.ite_none_right_eq_some.mp hset
    rw [← Option.some.inj hstore]
    rfl
  · cases hset

/-- One more slot, for a string that lies beside the array already. -/
theorem append_slot (hm : Reliable malloc) {vector : Option Nat}
    (hvector : vector = none ∧ ps = [] ∧ h.block = m ∨
      ∃ v, vector = some v ∧ Cell h m v (.vector (slotsOf ps))) :
    ∃ h₁ h₂ v', reallocVector malloc h vector (ps.length + 1) = some (h₁, some v') ∧
      setSlot h₁ v' ps.length (some p) = some h₂ ∧
      Cell h₂ m v' (.vector (slotsOf (ps ++ [p]))) := by
  obtain ⟨g, ha⟩ := Option.isSome_iff_exists.mp (hm h.calls)
  have hgrown : ∃ h₁ v', reallocVector malloc h vector (ps.length + 1) = some (h₁, some v') ∧
      Cell h₁ m v' (.vector (slotsOf ps ++ [none])) := by
    rcases hvector with ⟨rfl, rfl, rfl⟩ | ⟨v, rfl, hc⟩
    · exact ⟨_, h.calls, by simp [reallocVector, alloc_of_some ha, slotsOf], cell_push⟩
    · have htake : (slotsOf ps).take (ps.length + 1) = slotsOf ps :=
        List.take_of_length_le (by simp [slotsOf])
      have hlen : (slotsOf ps).length = ps.length := by simp [slotsOf]
      refine ⟨_, h.calls, ?_, hc.push_release _⟩
      simp [reallocVector, hc.realloc_of_some ha, htake, hlen]
  obtain ⟨h₁, v', hrealloc, hc⟩ := hgrown
  obtain ⟨h₂, hset, hc₂⟩ := setSlot_of_cell hc (i := ps.length) (by simp [slotsOf]) (some p)
  refine ⟨h₁, h₂, v', hrealloc, hset, ?_⟩
  have hshape : (slotsOf ps ++ [none]).set ps.length (some (some p)) = slotsOf (ps ++ [p]) := by
    simp [slotsOf]
  rwa [hshape] at hc₂

end Libnc.Sds
