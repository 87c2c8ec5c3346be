import Mathlib.Algebra.Group.Nat.Defs
import Libnc.Foundation.Splits
import Libnc.Sds.Text
import Libnc.Sds.Tokens

/-!
# Splitting at a separator

`sdssplitlen` with its growing array and its cleanup after a refusal of the
allocator.  The tokens are the pieces between the leftmost separators.
-/

namespace Libnc.Sds

open Libnc.Foundation Blocks

/-! ## The function of the source -/

/-- Whether the separator begins at `s + j`. -/
def separatorAt (h : Heap) (s sep : Source) (seplen j : Nat) : Option Bool := do
  let here ← read h (s.plus j) seplen
  let sep ← read h sep seplen
  some (seplen = 1 ∧ here.head? = sep.head? ∨ memcmp here sep = 0)

/-- There is room for the next element and the final one; `slots` doubles in an `int`. -/
def growSlots (malloc : Allocator) (h : Heap) (tokens elements slots : Nat) :
    Option (Heap × Option Nat × Nat) :=
  if slots < elements + 2 then do
    let slots ← cint (slots * 2)
    let (h, newtokens) ← reallocVector malloc h (some tokens) slots.toNat
    some (h, newtokens, slots.toNat)
  else some (h, some tokens, slots)

/-- `tokens[elements] = sdsnewlen(s, n)`, and whether this is a string. -/
def storeToken (malloc : Allocator) (h : Heap) (tokens elements : Nat) (s : Source) (n : Nat) :
    Option (Heap × Bool) := do
  let (h, token) ← sdsnewlen malloc h (some s) n
  let h ← setSlot h tokens elements token
  some (h, token.isSome)

/-- Release of `rounds` strings of the array, from the slot `i` on. -/
def freeFrom (h : Heap) (tokens i : Nat) : Nat → Option Heap
  | 0 => some h
  | rounds + 1 => do
      let token ← getSlot h tokens i
      let h ← sdsfree h token
      freeFrom h tokens (i + 1) rounds

/-- The array that is returned, and what is stored to `*count` if anything is. -/
abbrev Splitting := Heap × Option Nat × Option Nat

def cleanup (h : Heap) (tokens elements : Nat) : Option Splitting := do
  let h ← freeFrom h tokens 0 elements
  let h ← h.free tokens
  some (h, none, some 0)

def splitLoop (malloc : Allocator) (s sep : Source) (len seplen : Nat) :
    Nat → Heap → Nat → Nat → Nat → Nat → Nat → Option Splitting
  | 0, _, _, _, _, _, _ => none
  | fuel + 1, h, tokens, elements, slots, start, j =>
      if j + (seplen - 1) < len then do
        match ← growSlots malloc h tokens elements slots with
        | (h, none, _) => cleanup h tokens elements
        | (h, some tokens, slots) => do
            if ← separatorAt h s sep seplen j then
              match ← storeToken malloc h tokens elements (s.plus start) (j - start) with
              | (h, false) => cleanup h tokens elements
              | (h, true) =>
                  -- `j` skips the separator, and the loop adds the last step
                  splitLoop malloc s sep len seplen fuel h tokens (elements + 1) slots
                    (j + seplen) (j + seplen)
            else splitLoop malloc s sep len seplen fuel h tokens elements slots start (j + 1)
      else do
        match ← storeToken malloc h tokens elements (s.plus start) (len - start) with
        | (h, false) => cleanup h tokens elements
        | (h, true) => some (h, some tokens, some (elements + 1))

def sdssplitlen (malloc : Allocator) (h : Heap) (s : Source) (len : Int) (sep : Source)
    (seplen : Int) : Option Splitting :=
  if seplen < 1 ∨ len < 0 then some (h, none, none)
  else
    match reallocVector malloc h none 5 with
    | some (h, some tokens) =>
        if len = 0 then some (h, some tokens, some 0)
        else splitLoop malloc s sep len.toNat seplen.toNat (len.toNat + 1) h tokens 0 5 0 0
    | some (h, none) => some (h, none, none)
    | none => none

variable {malloc : Allocator} {h h' : Heap} {F m : Nat → Option Block} {v p q n : Nat}
  {ps : List Nat} {ts : List (List UInt8)} {text room l sl : List UInt8} {b : Option Block}
  {slots extra : List (Option (Option Nat))} {s sep : Source}

/-! ## The cleanup -/

theorem Strings.of_nil {qs : List Nat} (hs : Strings F m qs ts) (hq : qs = []) :
    m = F ∧ ts = [] := by
  cases hs with
  | nil => exact ⟨rfl, rfl⟩
  | snoc => simp at hq

/-- The first string joins the frame of the others. -/
theorem Strings.uncons {qs : List Nat} (hs : Strings F m qs ts) (hq : qs = p :: ps) :
    ∃ t us room, ts = t :: us ∧ F p = none ∧
      Strings (Function.update F p (some (.string (pack t room)))) m ps us := by
  induction hs generalizing ps with
  | nil => cases hq
  | @snoc m qs ts q t room hs hfree hfits ih =>
      cases qs with
      | nil =>
          obtain ⟨rfl, rfl⟩ := hs.of_nil rfl
          obtain ⟨rfl, rfl⟩ := List.cons.inj hq
          exact ⟨t, [], room, rfl, hfree, .nil⟩
      | cons p' qs =>
          obtain ⟨rfl, rfl⟩ := List.cons.inj hq
          obtain ⟨u, us, room', rfl, hp, hrest⟩ := ih rfl
          exact ⟨u, us ++ [t], room', rfl, hp, hrest.snoc hfree hfits⟩

/-- Without the block that joined the frame. -/
theorem Strings.remove {b : Block} (hp : F p = none)
    (hs : Strings (Function.update F p (some b)) m ps ts) :
    Strings F (Function.update m p none) ps ts := by
  generalize hG : Function.update F p (some b) = G at hs
  induction hs with
  | nil =>
      subst hG
      rw [Function.update_idem, ← hp, Function.update_eq_self]
      exact .nil
  | @snoc m ps ts q t room hs hfree hfits ih =>
      have hmp : m p ≠ none := by
        rw [hs.of_frame] <;> simp [← hG]
      have hne : q ≠ p := by
        rintro rfl
        exact hmp hfree
      rw [Function.update_comm hne]
      refine .snoc ih ?_ hfits
      rw [Function.update_of_ne hne, hfree]

/-- The strings are released in the order of their slots. -/
theorem freeFrom_spec (front : List Nat) (hs : Strings F m ps ts)
    (hc : Cell h m v (.vector (slotsOf (front ++ ps) ++ extra))) :
    ∃ h', freeFrom h v front.length ps.length = some h' ∧ h'.calls = h.calls ∧
      Cell h' F v (.vector (slotsOf (front ++ ps) ++ extra)) := by
  induction ps generalizing h F m ts front with
  | nil =>
      obtain ⟨rfl, -⟩ := hs.of_nil rfl
      exact ⟨h, rfl, rfl, hc⟩
  | cons p ps ih =>
      obtain ⟨t, us, room, rfl, hp, hrest⟩ := hs.uncons rfl
      have hstrings := hrest.remove hp
      have hmp : m p = some (.string (pack t room)) := by
        rw [hrest.of_frame] <;> simp
      have hm : Function.update (Function.update m p none) p
          (some (.string (pack t room))) = m := by
        rw [Function.update_idem, ← hmp, Function.update_eq_self]
      have hslot : getSlot h v front.length = some (some p) := by
        rw [getSlot_of_cell hc]
        simp [slotsOf]
      have hshape : front ++ p :: ps = front ++ [p] ++ ps := by simp
      rw [hshape] at hc ⊢
      rw [← hm] at hc
      obtain ⟨h', hrun, hcalls, hc'⟩ := ih (front ++ [p]) hstrings
        (hc.release_frame (Function.update_self ..))
      refine ⟨h', ?_, hcalls, hc'⟩
      rw [List.length_append, List.length_singleton] at hrun
      rw [List.length_cons]
      simp [freeFrom, hslot, sdsfree, hc.free_frame, hrun]

/-- Nothing is left of an array that could not be completed. -/
theorem cleanup_spec (hs : Strings F m ps ts)
    (hc : Cell h m v (.vector (slotsOf ps ++ extra))) :
    ∃ h', cleanup h v ps.length = some (h', none, some 0) ∧ h'.calls = h.calls ∧
      h'.block = F := by
  obtain ⟨h', hrun, hcalls, hc'⟩ := freeFrom_spec [] hs hc
  refine ⟨h'.release v, ?_, hcalls, hc'.release⟩
  simp [cleanup, show freeFrom h v 0 ps.length = some h' from hrun, hc'.free]

/-! ## One round -/

theorem memcmp_eq_zero {a b : List UInt8} (hlen : a.length = b.length) :
    memcmp a b = 0 ↔ a = b := by
  rw [← comparison_eq_zero]
  unfold comparison
  simp only [hlen, Nat.min_self, List.take_length, Int.sub_self]
  rw [← hlen, List.take_length]
  split <;> simp_all

theorem separatorAt_spec {j : Nat} (hs : readable h.block s = some l)
    (hsep : readable h.block sep = some sl) (hn : n ≤ sl.length) (hj : j + n ≤ l.length) :
    ∃ found, separatorAt h s sep n j = some found ∧
      (found = true ↔ sl.take n <+: l.drop j) := by
  have hhere := readable_plus hs (n := j) (by omega)
  have hlen : ((l.drop j).take n).length = (sl.take n).length := by
    simp only [List.length_take, List.length_drop]
    omega
  have hrun : separatorAt h s sep n j =
      some (decide (n = 1 ∧ ((l.drop j).take n).head? = (sl.take n).head? ∨
        memcmp ((l.drop j).take n) (sl.take n) = 0)) := by
    unfold separatorAt
    rw [read_of_readable hhere (by rw [List.length_drop]; omega), read_of_readable hsep hn]
    rfl
  refine ⟨_, hrun, ?_⟩
  rw [decide_eq_true_eq, memcmp_eq_zero hlen, List.prefix_iff_eq_take, List.length_take,
    Nat.min_eq_left hn, eq_comm (a := sl.take n)]
  constructor
  · rintro (⟨rfl, hhead⟩ | heq)
    · rw [List.take_one, List.take_one] at hhead ⊢
      cases hl : (l.drop j).head? <;> cases hsl : sl.head? <;> simp_all
    · exact heq
  · exact .inr

/-- Beside `F` the heap has an array of `slots` slots with these strings in the first ones. -/
def Slots (h : Heap) (F : Nat → Option Block) (v : Nat) (ts : List (List UInt8)) (slots : Nat) :
    Prop :=
  ∃ m ps extra, Strings F m ps ts ∧ Cell h m v (.vector (slotsOf ps ++ extra)) ∧
    ts.length + extra.length = slots

theorem Slots.tokens {slots : Nat} (hs : Slots h F v ts slots) : Tokens h F v ts := by
  obtain ⟨m, ps, extra, hstrings, hc, -⟩ := hs
  exact ⟨m, ps, extra, hstrings, hc⟩

theorem Slots.cleanup {slots : Nat} (hs : Slots h F v ts slots) :
    ∃ h', Sds.cleanup h v ts.length = some (h', none, some 0) ∧ h'.calls = h.calls ∧
      h'.block = F := by
  obtain ⟨m, ps, extra, hstrings, hc, -⟩ := hs
  rw [← hstrings.length_eq]
  exact cleanup_spec hstrings hc

theorem Strings.readable (hs : Strings F m ps ts) (ht : readable F s = some l) :
    readable m s = some l := by
  cases s with
  | bytes bytes => exact ht
  | inside p offset =>
      have hp : F p ≠ none := by
        intro hnone
        simp [Sds.readable, hnone] at ht
      simp only [Sds.readable, hs.of_frame hp]
      exact ht

theorem Slots.readable {slots : Nat} (hs : Slots h F v ts slots) (ht : readable F s = some l) :
    readable h.block s = some l := by
  obtain ⟨m, ps, extra, hstrings, hc, -⟩ := hs
  exact readable_of_frame hc (hstrings.readable ht)

/-- The numbers of slots that fit an `int`. -/
def Capacity (slots : Nat) : Prop := ∃ k ≤ 28, slots = 5 * 2 ^ k

/-- The most tokens for which the number of slots stays in the range of `int`. -/
def maxTokens : Nat := 5 * 2 ^ 28 - 1

theorem Capacity.double {slots : Nat} (hs : Capacity slots) (hlt : slots ≤ maxTokens) :
    Capacity (slots * 2) ∧ cint ((slots : Int) * 2) = some ((slots : Int) * 2) := by
  obtain ⟨k, hk, rfl⟩ := hs
  unfold maxTokens at hlt
  have hlt' : k < 28 := by
    by_contra hge
    obtain rfl : k = 28 := by omega
    omega
  have hpow : 2 ^ k ≤ 2 ^ 27 := Nat.pow_le_pow_right (by omega) (by omega)
  constructor
  · exact ⟨k + 1, hlt', by rw [Nat.pow_succ, Nat.mul_assoc]⟩
  · generalize 2 ^ k = c at hpow
    exact cint_of_range (by omega) (by omega)

/-- The three ways in which the room for two elements is found or not. -/
inductive GrowSpec (malloc : Allocator) (h : Heap) (F : Nat → Option Block) (v : Nat)
    (ts : List (List UInt8)) (slots : Nat) : Heap × Option Nat × Nat → Prop where
  | null {h' : Heap} {slots' : Nat} : Refused malloc h h' → Slots h' F v ts slots →
      GrowSpec malloc h F v ts slots (h', none, slots')
  | done {h' : Heap} {v' slots' : Nat} : h.calls ≤ h'.calls → Slots h' F v' ts slots' →
      Capacity slots' → ts.length + 2 ≤ slots' →
      GrowSpec malloc h F v ts slots (h', some v', slots')

theorem growSlots_spec (malloc : Allocator) {slots : Nat}
    (hs : Slots h F v ts slots) (hcap : Capacity slots)
    (hroom : ts.length < slots) (hmax : ts.length < maxTokens) :
    ∃ r, growSlots malloc h v ts.length slots = some r ∧ GrowSpec malloc h F v ts slots r := by
  unfold growSlots
  split
  · rename_i hfull
    obtain ⟨hcap', hcint⟩ := hcap.double (by omega)
    obtain ⟨m, ps, extra, hstrings, hc, hlen⟩ := hs
    have hps := hstrings.length_eq
    have hslots : ((slots : Int) * 2).toNat = slots * 2 := by omega
    simp only [hcint, Option.bind_eq_bind, Option.bind_some, hslots]
    cases ha : malloc h.calls with
    | none =>
        refine ⟨(h.refused, none, slots * 2), ?_,
          .null (refused_of_none ha) ⟨m, ps, extra, hstrings, hc.refused, hlen⟩⟩
        simp [reallocVector, hc.realloc_of_none ha]
    | some g =>
        have htake : (slotsOf ps ++ extra).take (slots * 2) = slotsOf ps ++ extra := by
          apply List.take_of_length_le
          simp only [List.length_append, slotsOf, List.length_map]
          omega
        refine ⟨(_, some h.calls, slots * 2), ?_,
          .done (Nat.le_succ _) ⟨m, ps, extra ++ List.replicate slots none, hstrings,
            hc.push_release _, ?_⟩ hcap' (by omega)⟩
        · have hnew : slots * 2 - (slotsOf ps ++ extra).length = slots := by
            simp only [List.length_append, slotsOf, List.length_map]
            omega
          simp only [reallocVector, hc.realloc_of_some ha, htake, hnew]
          simp
        · rw [List.length_append, List.length_replicate]
          omega
  · exact ⟨_, rfl, .done (Nat.le_refl _) hs hcap (by omega)⟩

theorem storeToken_spec (malloc : Allocator) {slots : Nat}
    (hs : Slots h F v ts slots) (hroom : ts.length < slots)
    (ht : readable F s = some l) (hn : n ≤ l.length) (hmax : n ≤ 2147483647) :
    ∃ h' stored, storeToken malloc h v ts.length s n = some (h', stored) ∧
      (stored = true ∧ h.calls ≤ h'.calls ∧ Slots h' F v (ts ++ [l.take n]) slots ∨
        stored = false ∧ Refused malloc h h' ∧ Slots h' F v ts slots) := by
  have hinit : initial h.block (some s) n = some (l.take n) := by
    simp [initial, hs.readable ht, hn]
  obtain ⟨m, ps, extra, hstrings, hc, hlen⟩ := hs
  have hps := hstrings.length_eq
  obtain ⟨slot, extra, rfl⟩ : ∃ slot rest, extra = slot :: rest := by
    cases extra with
    | nil => simp at hlen; omega
    | cons slot rest => exact ⟨slot, rest, rfl⟩
  obtain ⟨r, hnew, hout⟩ := sdsnewlen_spec malloc hinit hmax
  cases hout with
  | null h₁ hrefused hblock =>
      have hc₁ : Cell h₁ m v (.vector (slotsOf ps ++ slot :: extra)) :=
        ⟨hblock.trans hc.block, hc.absent⟩
      obtain ⟨h₂, hset, hc₂⟩ := setSlot_of_cell hc₁ (i := ts.length) (by simp [slotsOf]; omega) none
      have hcalls := setSlot_calls hset
      have hrefused₂ : Refused malloc h h₂ := by
        obtain ⟨k, hlow, hhigh, ha⟩ := hrefused
        exact ⟨k, hlow, by omega, ha⟩
      refine ⟨h₂, false, by simp [storeToken, hnew, hset], .inr ⟨rfl, hrefused₂, ?_⟩⟩
      refine ⟨m, ps, some none :: extra, hstrings, ?_, by simpa using hlen⟩
      convert hc₂ using 2
      simp [slotsOf, ← hps]
  | done h₁ p room hp =>
      have hc₁ := hc.beside hp.cell
      have hfree := hc.frame_none hp.cell.absent
      obtain ⟨h₂, hset, hc₂⟩ := setSlot_of_cell hc₁ (i := ts.length) (by simp [slotsOf]; omega)
        (some p)
      have hcalls := setSlot_calls hset
      have hle := sdsnewlen_calls hnew
      refine ⟨h₂, true, by simp [storeToken, hnew, hset], .inl ⟨rfl, by omega, ?_⟩⟩
      refine ⟨_, ps ++ [p], extra, hstrings.snoc hfree hp.fits, ?_, by simp at hlen ⊢; omega⟩
      convert hc₂ using 2
      simp [slotsOf, ← hps]

/-! ## All rounds -/

/-- The result beside `F`: NULL after a refusal and nothing else, or the array of the tokens. -/
inductive SplitOutcome (malloc : Allocator) (h : Heap) (F : Nat → Option Block)
    (ts : List (List UInt8)) : Splitting → Prop where
  | null {h' : Heap} {count : Option Nat} : Refused malloc h h' → h'.block = F →
      (count = none ∨ count = some 0) → SplitOutcome malloc h F ts (h', none, count)
  | done {h' : Heap} {v : Nat} : Tokens h' F v ts →
      SplitOutcome malloc h F ts (h', some v, some ts.length)

theorem Slots.null {slots : Nat} {all : List (List UInt8)} {h₀ : Heap}
    (hs : Slots h F v ts slots) (hrefused : Refused malloc h₀ h) :
    ∃ r, Sds.cleanup h v ts.length = some r ∧ SplitOutcome malloc h₀ F all r := by
  obtain ⟨h', hrun, hcalls, hblock⟩ := hs.cleanup
  obtain ⟨k, hlow, hhigh, ha⟩ := hrefused
  exact ⟨_, hrun, .null ⟨k, hlow, by omega, ha⟩ hblock (.inr rfl)⟩

theorem Tokens.done (ht : Tokens h F v ts) (malloc : Allocator) (h₀ : Heap) :
    SplitOutcome malloc h₀ F ts (h, some v, some ts.length) :=
  .done ht

theorem prefix_drop_take {a : List UInt8} {j : Nat} (len : Nat) (hj : j + a.length ≤ len) :
    a <+: (l.take len).drop j ↔ a <+: l.drop j := by
  rw [List.drop_take, List.prefix_take_iff]
  exact and_iff_left (by omega)

theorem take_drop_take {start j len : Nat} (hj : j ≤ len) :
    ((l.take len).drop start).take (j - start) = (l.drop start).take (j - start) := by
  rw [List.drop_take, List.take_take, Nat.min_eq_left (by omega)]

theorem splitLoop_spec {done : List (List UInt8)} {slots start j len fuel : Nat} {h₀ : Heap}
    (hcalls : h₀.calls ≤ h.calls) (hs : Slots h F v done slots) (hcap : Capacity slots)
    (hroom : done.length < slots)
    (ht : readable F s = some l) (hlen : len ≤ l.length) (hmax : len ≤ 2147483647)
    (hsep : readable F sep = some sl) (hn : n ≤ sl.length) (hpos : 0 < n) (hj : j ≤ len)
    (hsearch : Search (sl.take n) (l.take len) start j ts)
    (hcount : done.length + ts.length ≤ maxTokens) (hfuel : len - j < fuel) :
    ∃ r, splitLoop malloc s sep len n fuel h v done.length slots start j = some r ∧
      SplitOutcome malloc h₀ F (done ++ ts) r := by
  have hsl : (sl.take n).length = n := by rw [List.length_take]; omega
  have hne : sl.take n ≠ [] := List.ne_nil_of_length_pos (by omega)
  induction fuel generalizing h v done slots start j ts with
  | zero => omega
  | succ fuel ih =>
      have hstart := hsearch.le
      have hlast := List.length_pos_of_ne_nil hsearch.splits.ne_nil
      have hplus : readable F (s.plus start) = some (l.drop start) := readable_plus ht (by omega)
      have hleft : (l.drop start).length = l.length - start := List.length_drop
      unfold splitLoop
      split
      · obtain ⟨r, hgrow, hr⟩ := growSlots_spec malloc hs hcap hroom (by omega)
        rw [hgrow, Option.bind_eq_bind, Option.bind_some]
        cases hr with
        | null hrefused hs' => exact hs'.null (hrefused.of_le hcalls)
        | @done h₁ v₁ slots₁ hcalls₁ hs₁ hcap₁ hroom₁ =>
            obtain ⟨found, hfound, hiff⟩ := separatorAt_spec (j := j) (hs₁.readable ht)
              (hs₁.readable hsep) hn (by omega)
            rw [← prefix_drop_take len (by omega)] at hiff
            simp only [hfound]
            cases found with
            | false =>
                have hnot := mt hiff.mpr Bool.false_ne_true
                exact ih (by omega) hs₁ hcap₁ (by omega) (by omega) (hsearch.skip hnot) hcount
                  (by omega)
            | true =>
                obtain ⟨us, rfl, hsearch'⟩ := hsearch.cut hne (hiff.mp rfl)
                rw [hsl] at hsearch'
                rw [take_drop_take hj]
                obtain ⟨h₂, stored, hstore, hcases⟩ := storeToken_spec malloc
                  (n := j - start) hs₁ (by omega) hplus (by omega) (by omega)
                simp only [hstore]
                rcases hcases with ⟨rfl, hcalls₂, hs₂⟩ | ⟨rfl, hrefused, hs₂⟩
                · have hlen₂ : (done ++ [(l.drop start).take (j - start)]).length =
                      done.length + 1 := by simp
                  rw [List.length_cons] at hcount
                  have := ih (by omega) hs₂ hcap₁ (by omega) (by omega) hsearch' (by omega)
                    (by omega)
                  rw [hlen₂, List.append_assoc] at this
                  exact this
                · exact hs₂.null (hrefused.of_le (by omega))
      · obtain rfl := hsearch.last hne (by rw [hsl, List.length_take]; omega)
        obtain ⟨h', stored, hstore, hcases⟩ := storeToken_spec malloc
          (n := len - start) hs hroom hplus (by omega) (by omega)
        rw [hstore, Option.bind_eq_bind, Option.bind_some]
        rcases hcases with ⟨rfl, -, hs'⟩ | ⟨rfl, hrefused, hs'⟩
        · rw [← List.drop_take] at hs'
          have := hs'.tokens.done malloc h₀
          rw [List.length_append, List.length_singleton] at this
          exact ⟨_, rfl, this⟩
        · exact hs'.null (hrefused.of_le hcalls)

/-- The tokens of a text: none for the empty one, else the pieces between the separators. -/
def Pieces (sep text : List UInt8) (ts : List (List UInt8)) : Prop :=
  text = [] ∧ ts = [] ∨ text ≠ [] ∧ Splits sep text ts

theorem Pieces.intercalate {sep : List UInt8} (hp : Pieces sep text ts) :
    sep.intercalate ts = text := by
  rcases hp with ⟨rfl, rfl⟩ | ⟨-, hts⟩
  · rfl
  · exact hts.intercalate

/--
For any allocator, the call returns the pieces of the text, or NULL after a
refusal, and then no block is left of what had been built.
-/
theorem sdssplitlen_spec {len : Nat} (malloc : Allocator) (ht : readable h.block s = some l)
    (hlen : len ≤ l.length) (hmax : len ≤ 2147483647) (hsep : readable h.block sep = some sl)
    (hn : n ≤ sl.length) (hpos : 0 < n) (hts : Pieces (sl.take n) (l.take len) ts)
    (hcount : ts.length ≤ maxTokens) :
    ∃ r, sdssplitlen malloc h s len sep n = some r ∧ SplitOutcome malloc h h.block ts r := by
  unfold sdssplitlen
  rw [if_neg (by omega)]
  cases ha : malloc h.calls with
  | none =>
      refine ⟨(h.refused, none, none), ?_, .null (refused_of_none ha) rfl (.inl rfl)⟩
      simp [reallocVector, alloc_of_none ha]
  | some g =>
      simp only [reallocVector, alloc_of_some ha]
      have hstart : Slots (h.push (.vector (List.replicate 5 none))) h.block h.calls [] 5 :=
        ⟨h.block, [], List.replicate 5 none, .nil, cell_push, rfl⟩
      rcases hts with ⟨htext, rfl⟩ | ⟨htext, hts⟩
      · obtain rfl : len = 0 := by
          have := congrArg List.length htext
          simp only [List.length_take, List.length_nil] at this
          omega
        exact ⟨_, rfl, .done hstart.tokens⟩
      · have hne : (len : Int) ≠ 0 := by
          intro hzero
          obtain rfl : len = 0 := by omega
          exact htext rfl
        rw [if_neg hne, Int.toNat_natCast, Int.toNat_natCast]
        exact splitLoop_spec (Nat.le_succ _) hstart ⟨0, by omega, rfl⟩ (by decide) ht hlen hmax
          hsep hn hpos (Nat.zero_le _) (.start_at hts) (by simpa using hcount) (by omega)

theorem exists_pieces {sep : List UInt8} (hsep : sep ≠ []) (text : List UInt8) :
    ∃ ts, ∀ us, Pieces sep text us ↔ us = ts := by
  by_cases htext : text = []
  · exact ⟨[], by simp [Pieces, htext]⟩
  · obtain ⟨ts, hts⟩ := exists_splits hsep text
    refine ⟨ts, fun us => ?_⟩
    constructor
    · rintro (⟨hnil, -⟩ | ⟨-, hus⟩)
      · exact absurd hnil htext
      · exact hus.unique hsep hts
    · rintro rfl
      exact .inr ⟨htext, hts⟩

/--
Whatever the allocator refuses, no block is lost: after NULL the heap has the
blocks it had before, and so it has after the tokens have been released.  The
tokens are the only pieces that the text has.
-/
theorem sdssplitlen_released {len : Nat} (malloc : Allocator)
    (ht : readable h.block s = some l) (hlen : len ≤ l.length) (hmax : len ≤ 2147483647)
    (hsep : readable h.block sep = some sl) (hn : n ≤ sl.length) (hpos : 0 < n) :
    ∃ ts, (∀ us, Pieces (sl.take n) (l.take len) us ↔ us = ts) ∧ (ts.length ≤ maxTokens →
      ∃ h' v count, sdssplitlen malloc h s len sep n = some (h', v, count) ∧
        match v with
        | none => Refused malloc h h' ∧ h'.block = h.block
        | some p => count = some ts.length ∧ Tokens h' h.block p ts ∧
            ∃ h'', sdsfreesplitres h' v ts.length = some h'' ∧ h''.block = h.block) := by
  have hne : sl.take n ≠ [] := by
    apply List.ne_nil_of_length_pos
    rw [List.length_take]
    omega
  obtain ⟨ts, hunique⟩ := exists_pieces hne (l.take len)
  refine ⟨ts, hunique, fun hcount => ?_⟩
  obtain ⟨r, hrun, hr⟩ := sdssplitlen_spec malloc ht hlen hmax hsep hn hpos
    ((hunique ts).mpr rfl) hcount
  cases hr with
  | @null h' count hrefused hblock _ => exact ⟨h', none, count, hrun, hrefused, hblock⟩
  | @done h' v htokens =>
      exact ⟨h', some v, _, hrun, rfl, htokens, sdsfreesplitres_spec htokens⟩

/-- The allocator that refuses its third call, which is for the second token. -/
def thirdRefused : Allocator := fun k => if k = 2 then none else some fun _ => 0

theorem sdssplitlen_released_refused :
    ∃ ts, (∀ us, Pieces (List.take 1 [44]) (List.take 3 [97, 44, 98]) us ↔ us = ts) ∧
      (ts.length ≤ maxTokens → ∃ h' v count, sdssplitlen thirdRefused Blocks.empty
          (.bytes [97, 44, 98]) (3 : Nat) (.bytes [44]) 1 = some (h', v, count) ∧
        match v with
        | none => Refused thirdRefused Blocks.empty h' ∧ h'.block = Blocks.empty.block
        | some p => count = some ts.length ∧ Tokens h' Blocks.empty.block p ts ∧
            ∃ h'', sdsfreesplitres h' v ts.length = some h'' ∧ h''.block = Blocks.empty.block) :=
  sdssplitlen_released thirdRefused rfl (by decide) (by decide) rfl (by decide) (by decide)

end Libnc.Sds
