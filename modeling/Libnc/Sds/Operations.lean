import Mathlib.Data.Option.Basic
import Libnc.Sds.Model

/-!
# What one call does to a string

A well-formed string consists of its text, the terminating zero and the room
behind it, and its header counts the two.  The heap is the frame of all other
blocks and this string; every operation leaves the frame as it is.
-/

namespace Libnc.Sds

open Libnc.Foundation Blocks

/-- The longest text that can be reached without a preallocation beyond the range of `int`. -/
def maxText : Nat := 2146435071

def pack (text room : List UInt8) : Sdshdr :=
  ⟨text.length, room.length, text ++ 0 :: room⟩

@[simp] theorem pack_len (text room : List UInt8) : (pack text room).len = text.length := rfl

@[simp] theorem pack_buf (text room : List UInt8) :
    (pack text room).buf = text ++ 0 :: room := rfl

/-- Beside the blocks of `F` the heap has the string `s` with this text and this room. -/
structure Holds (h : Heap) (F : Nat → Option Block) (s : Nat) (text room : List UInt8) :
    Prop where
  cell : Cell h F s (.string (pack text room))
  fits : text.length + room.length ≤ 2147483647

/-- A call made between the two heaps has been answered with NULL. -/
def Refused (malloc : Allocator) (h h' : Heap) : Prop :=
  ∃ k, h.calls ≤ k ∧ k < h'.calls ∧ malloc k = none

/--
The result of a call that makes or replaces a string: NULL after a refusal of
the allocator and nothing else changed, or the string with the new text.
-/
inductive Outcome (malloc : Allocator) (h : Heap) (F : Nat → Option Block)
    (text : List UInt8) : Heap × Option Nat → Prop where
  | null (h' : Heap) : Refused malloc h h' → h'.block = h.block →
      Outcome malloc h F text (h', none)
  | done (h' : Heap) (s : Nat) (room : List UInt8) : Holds h' F s text room →
      Outcome malloc h F text (h', some s)

/-- No call is answered with NULL. -/
def Reliable (malloc : Allocator) : Prop := ∀ k, (malloc k).isSome

variable {malloc : Allocator} {h h' : Heap} {F : Nat → Option Block} {s n : Nat}
  {text text' room room' l : List UInt8} {t : Source}

theorem refused_of_none (ha : malloc h.calls = none) : Refused malloc h h.refused :=
  ⟨h.calls, Nat.le_refl _, Nat.lt_succ_self _, ha⟩

theorem Refused.of_le {h₁ : Heap} (hr : Refused malloc h₁ h') (hle : h.calls ≤ h₁.calls) :
    Refused malloc h h' := by
  obtain ⟨k, hlow, hhigh, ha⟩ := hr
  exact ⟨k, Nat.le_trans hle hlow, hhigh, ha⟩

theorem Reliable.not_refused (hm : Reliable malloc) : ¬ Refused malloc h h' := by
  rintro ⟨k, -, -, ha⟩
  have := hm k
  simp [ha] at this

theorem Outcome.of_reliable (hm : Reliable malloc) {r : Heap × Option Nat}
    (hout : Outcome malloc h F text r) :
    ∃ h' s room, r = (h', some s) ∧ Holds h' F s text room := by
  cases hout with
  | null h' hrefused => exact absurd hrefused hm.not_refused
  | done h' s room hs => exact ⟨h', s, room, rfl, hs⟩

/-! ## Arithmetic below the limits -/

theorem cint_of_range {v : Int} (hlow : 0 ≤ v) (hhigh : v ≤ 2147483647) : cint v = some v := by
  unfold cint intMax
  rw [if_pos]
  omega

theorem wrapInt_natCast (hn : n ≤ 2147483647) : wrapInt n = n :=
  wrapInt_of_range (Int.natCast_nonneg n) (by unfold intMax; omega)

theorem intToSize_length (hn : n ≤ 2147483647) : intToSize n = n :=
  intToSize_natCast n (by unfold intMax; omega)

theorem sizeAdd_of_lt {a b : Nat} (hab : a + b < 18446744073709551616) :
    sizeAdd a b = a + b :=
  Nat.mod_eq_of_lt hab

theorem guard_of_true {P : Prop} [Decidable P] (hP : P) : (guard P : Option Unit) = some () :=
  if_pos hP

/-! ## Memory -/

@[simp] theorem length_garbage (g : Nat → UInt8) (n : Nat) : (garbage g n).length = n := by
  simp [garbage]

theorem write_append (a b c data : List UInt8) (hlen : data.length = b.length) :
    write (a ++ b ++ c) a.length data = some (a ++ data ++ c) := by
  unfold write
  rw [if_pos (by simp; omega)]
  congr 1
  rw [hlen, ← List.length_append, List.drop_left, List.append_assoc a b c, List.take_left]

theorem header_of_cell {sh : Sdshdr} (hc : Cell h F s (.string sh)) : header h s = some sh := by
  simp [header, hc.get]

theorem modify_of_cell {sh : Sdshdr} (sh' : Sdshdr) {f : Sdshdr → Option Sdshdr}
    (hc : Cell h F s (.string sh)) (hf : f sh = some sh') :
    modify h s f = some (h.store s (.string sh')) := by
  simp [modify, header_of_cell hc, hf]

theorem readable_of_frame {b : Block} (hc : Cell h F s b) (ht : readable F t = some l) :
    readable h.block t = some l := by
  cases t with
  | bytes readable => exact ht
  | inside p offset =>
      cases hp : F p with
      | none => simp [readable, hp] at ht
      | some b =>
          simp only [readable, hp] at ht
          simp only [readable, hc.frame hp]
          exact ht

theorem drop_plus {buf : List UInt8} {offset : Nat}
    (h : (if offset ≤ buf.length then some (buf.drop offset) else none) = some l)
    (hn : n ≤ l.length) :
    (if offset + n ≤ buf.length then some (buf.drop (offset + n)) else none) =
      some (l.drop n) := by
  obtain ⟨hle, hdrop⟩ := Option.ite_none_right_eq_some.mp h
  obtain rfl := Option.some.inj hdrop
  rw [List.length_drop] at hn
  rw [if_pos (by omega), List.drop_drop]

theorem readable_plus (ht : readable F t = some l) (hn : n ≤ l.length) :
    readable F (t.plus n) = some (l.drop n) := by
  cases t with
  | bytes bytes =>
      obtain rfl := Option.some.inj ht
      rfl
  | inside p offset =>
      simp only [readable] at ht
      simp only [Source.plus, readable]
      split at ht
      · exact drop_plus ht hn
      · exact drop_plus ht hn
      · cases ht

theorem read_of_readable (ht : readable h.block t = some l) (hn : n ≤ l.length) :
    read h t n = some (l.take n) := by
  simp [read, ht, hn]

theorem read_of_frame {b : Block} (hc : Cell h F s b) (ht : readable F t = some l)
    (hn : n ≤ l.length) : read h t n = some (l.take n) :=
  read_of_readable (readable_of_frame hc ht) hn

theorem memcpy_of_frame {b : Block} {offset : Nat} (hc : Cell h F s b)
    (ht : readable F t = some l) (hn : n ≤ l.length) :
    memcpy h s offset t n = some (l.take n) := by
  cases t with
  | bytes readable => exact read_of_frame hc ht hn
  | inside p start =>
      have hps : p ≠ s := by
        rintro rfl
        simp [readable, hc.absent] at ht
      simp only [memcpy]
      rw [if_neg (fun hov => hps hov.1)]
      exact read_of_frame hc ht hn

theorem strlen_of_frame {b : Block} (hc : Cell h F s b) (ht : readable F t = some l)
    (h0 : 0 ∈ l) : strlen h t = some (l.idxOf 0) := by
  simp [strlen, readable_of_frame hc ht, h0]

theorem sdslen_of_holds (hs : Holds h F s text room) : sdslen h s = some text.length := by
  have := hs.fits
  simp [sdslen, header_of_cell hs.cell, pack, intToSize_length (n := text.length) (by omega)]

theorem sdsavail_of_holds (hs : Holds h F s text room) : sdsavail h s = some room.length := by
  have := hs.fits
  simp [sdsavail, header_of_cell hs.cell, pack, intToSize_length (n := room.length) (by omega)]

/-! ## Room -/

/-- The capacity that `sdsMakeRoomFor` asks for when `n` bytes of text are to fit. -/
def preallocated (n : Nat) : Nat := if n < sdsMaxPrealloc then n * 2 else n + sdsMaxPrealloc

theorem le_preallocated (n : Nat) : n ≤ preallocated n := by
  unfold preallocated
  split <;> omega

theorem preallocated_le (hn : n ≤ maxText) : preallocated n ≤ 2147483647 := by
  unfold maxText at hn
  unfold preallocated sdsMaxPrealloc
  split <;> omega

/-- The three ways in which `sdsMakeRoomFor` ends. -/
inductive Room (malloc : Allocator) (h : Heap) (F : Nat → Option Block) (s : Nat)
    (text room : List UInt8) (n : Nat) : Heap × Option Nat → Prop where
  | avail : n ≤ room.length → Room malloc h F s text room n (h, some s)
  | null : room.length < n → malloc h.calls = none →
      Room malloc h F s text room n (h.refused, none)
  | grown (h' : Heap) (room' : List UInt8) : room.length < n → (malloc h.calls).isSome →
      Holds h' F h.calls text room' → h'.calls = h.calls + 1 →
      text.length + room'.length = preallocated (text.length + n) →
      Room malloc h F s text room n (h', some h.calls)

theorem resize_pack {cap : Nat} (g : Nat → UInt8) (hcap : text.length + room.length ≤ cap) :
    ∃ more, text.length + (room ++ more).length = cap ∧
      resize (headerSize + (cap + 1)) (.string (pack text room)) g =
        .string { pack text (room ++ more) with free := room.length } := by
  refine ⟨garbage (fun i => g (text.length + (room.length + 1) + i))
    (cap - text.length - room.length), by simp; omega, ?_⟩
  unfold resize pack
  simp only [Nat.add_sub_cancel_left]
  congr 2
  rw [List.take_of_length_le (by simp; omega)]
  simp only [List.length_append, List.length_cons, List.append_assoc, List.cons_append]
  congr 4
  omega

theorem sdsMakeRoomFor_spec (malloc : Allocator) (hs : Holds h F s text room)
    (hn : room.length < n → text.length + n ≤ maxText) :
    ∃ r, sdsMakeRoomFor malloc h s n = some r ∧ Room malloc h F s text room n r := by
  have hfits := hs.fits
  unfold sdsMakeRoomFor
  rw [sdsavail_of_holds hs, sdslen_of_holds hs]
  by_cases havail : n ≤ room.length
  · refine ⟨(h, some s), ?_, .avail havail⟩
    simp only [Option.bind_eq_bind, Option.bind_some, havail, if_true]
  rw [Nat.not_le] at havail
  have htext := hn havail
  have hcap := preallocated_le htext
  have hle := le_preallocated (text.length + n)
  have hnew : (if sizeAdd text.length n < sdsMaxPrealloc then sizeAdd text.length n * 2
      else sizeAdd (sizeAdd text.length n) sdsMaxPrealloc) = preallocated (text.length + n) := by
    unfold maxText at htext
    rw [sizeAdd_of_lt (by omega), sizeAdd_of_lt (by unfold sdsMaxPrealloc; omega)]
    rfl
  have hbytes : sizeAdd headerSize (sizeAdd (preallocated (text.length + n)) 1) =
      headerSize + (preallocated (text.length + n) + 1) := by
    unfold headerSize
    rw [sizeAdd_of_lt (a := preallocated _) (by omega), sizeAdd_of_lt (by omega)]
  cases ha : malloc h.calls with
  | none =>
      refine ⟨(h.refused, none), ?_, .null havail ha⟩
      simp only [Option.bind_eq_bind, Option.bind_some, Nat.not_le.mpr havail, if_false,
        hs.cell.realloc_of_none ha]
  | some g =>
      generalize hcapacity : preallocated (text.length + n) = cap at hnew hbytes hcap hle
      have hold : text.length + room.length ≤ cap := by omega
      obtain ⟨more, hlen, hresize⟩ := resize_pack g hold
      have hcell := hs.cell.push_release (resize (headerSize + (cap + 1))
        (.string (pack text room)) g)
      have hfree : wrapInt (cap - text.length) = (room ++ more).length := by
        rw [← hlen, ← wrapInt_natCast (n := (room ++ more).length) (by omega)]
        congr 1
        omega
      rw [hresize] at hcell
      have hmodify := modify_of_cell (pack text (room ++ more)) hcell (f := fun sh =>
        some { sh with free := wrapInt (cap - text.length) }) (by simp [hfree, pack])
      refine ⟨_, ?_, .grown _ (room ++ more) havail (by simp [ha]) ⟨hcell.store, by omega⟩ rfl
        (by omega)⟩
      simp only [Option.bind_eq_bind, Option.bind_some, Nat.not_le.mpr havail, if_false, hnew,
        hbytes, hs.cell.realloc_of_some ha, hresize, hmodify,
        guard_of_true (Nat.le_add_right headerSize (cap + 1))]

theorem Room.holds (hs : Holds h F s text room) {s' : Nat}
    (hr : Room malloc h F s text room n (h', some s')) :
    ∃ room', n ≤ room'.length ∧ Holds h' F s' text room' := by
  cases hr with
  | avail hn => exact ⟨room, hn, hs⟩
  | grown _ room' _ _ hs' _ hcap =>
      have hle := le_preallocated (text.length + n)
      exact ⟨room', by omega, hs'⟩

theorem Room.null_outcome (hr : Room malloc h F s text room n (h', none)) :
    Outcome malloc h F text' (h', none) := by
  cases hr with
  | null _ ha => exact .null _ (refused_of_none ha) rfl

/-! ## Appending and overwriting -/

/-- Data after a prefix, and a zero behind the data. -/
theorem write_terminated (a data rest : List UInt8)
    (hlen : data.length < rest.length) :
    ((write (a ++ rest) a.length data).bind fun buf => write buf (a.length + data.length) [0]) =
      some (a ++ data ++ 0 :: rest.drop (data.length + 1)) := by
  have hrest : a ++ rest = a ++ rest.take data.length ++ rest.drop data.length := by
    rw [List.append_assoc, List.take_append_drop]
  rw [hrest, write_append _ _ _ _ (by simp; omega), Option.bind_some,
    List.drop_eq_getElem_cons hlen, ← List.singleton_append, ← List.append_assoc,
    ← List.length_append, write_append _ _ _ _ (by simp)]
  simp

theorem Holds.modify (hs : Holds h F s text room) {f : Sdshdr → Option Sdshdr}
    (hf : f (pack text room) = some (pack text' room'))
    (hfits : text'.length + room'.length ≤ 2147483647) :
    ∃ h', modify h s f = some h' ∧ Holds h' F s text' room' :=
  ⟨_, modify_of_cell _ hs.cell hf, hs.cell.store, hfits⟩

theorem append_pack (data : List UInt8) (hlen : data.length ≤ room.length)
    (hfits : text.length + room.length ≤ 2147483647) :
    (pack text room).append text.length data data.length =
      some (pack (text ++ data) (room.drop data.length)) := by
  unfold Sdshdr.append
  have hwrite := write_terminated text data (0 :: room) (by simp; omega)
  have hlength : wrapInt ((text.length : Int) + data.length) = (text ++ data).length := by
    rw [← Int.natCast_add, wrapInt_natCast (by omega), List.length_append]
  have hfree : wrapInt ((room.length : Int) - data.length) = (room.drop data.length).length := by
    rw [← Int.natCast_sub hlen, wrapInt_natCast (by omega), List.length_drop]
  cases hw : write (text ++ 0 :: room) text.length data with
  | none => simp [hw] at hwrite
  | some buf =>
      rw [hw, Option.bind_some] at hwrite
      simp [pack, hw, sizeAdd_of_lt (show text.length + data.length < 18446744073709551616 by
        omega), hwrite, hlength, hfree]

/-- The copy that follows when there is room. -/
theorem sdscatlen_of_room {s' : Nat} (hs : Holds h F s text room)
    (hmake : sdsMakeRoomFor malloc h s n = some (h', some s')) (hs' : Holds h' F s' text room')
    (hroom : n ≤ room'.length) (hdata : memcpy h' s' text.length t n = some l)
    (hlen : l.length = n) :
    ∃ h'', sdscatlen malloc h s t n = some (h'', some s') ∧ h''.calls = h'.calls ∧
      Holds h'' F s' (text ++ l) (room'.drop n) := by
  have happ := append_pack l (by omega) hs'.fits
  rw [hlen] at happ
  have hmod := modify_of_cell _ hs'.cell (f := fun sh => sh.append text.length l n) happ
  refine ⟨h'.store s' (.string (pack (text ++ l) (room'.drop n))), ?_, rfl, hs'.cell.store, ?_⟩
  · simp [sdscatlen, sdslen_of_holds hs, hmake, hdata, hmod]
  · have := hs'.fits
    simp only [List.length_append, List.length_drop]
    omega

theorem sdscatlen_spec (malloc : Allocator) (hs : Holds h F s text room)
    (ht : readable F t = some l)
    (hn : n ≤ l.length) (hb : room.length < n → text.length + n ≤ maxText) :
    ∃ r, sdscatlen malloc h s t n = some r ∧ Outcome malloc h F (text ++ l.take n) r := by
  obtain ⟨⟨h', r⟩, hmake, hr⟩ := sdsMakeRoomFor_spec malloc hs hb
  cases r with
  | none =>
      refine ⟨(h', none), ?_, hr.null_outcome⟩
      simp [sdscatlen, sdslen_of_holds hs, hmake]
  | some s' =>
      obtain ⟨room', hroom', hs'⟩ := hr.holds hs
      obtain ⟨h'', hrun, -, hs''⟩ := sdscatlen_of_room hs hmake hs' hroom'
        (memcpy_of_frame hs'.cell ht hn) (by simp [hn])
      exact ⟨(h'', some s'), hrun, .done _ _ _ hs''⟩

theorem sdscat_spec (malloc : Allocator) (hs : Holds h F s text room)
    (ht : readable F t = some l) (h0 : 0 ∈ l)
    (hb : room.length < l.idxOf 0 → text.length + l.idxOf 0 ≤ maxText) :
    ∃ r, sdscat malloc h s t = some r ∧
      Outcome malloc h F (text ++ l.take (l.idxOf 0)) r := by
  unfold sdscat
  rw [strlen_of_frame hs.cell ht h0]
  exact sdscatlen_spec malloc hs ht (List.idxOf_le_length) hb

theorem sdscatsds_spec (malloc : Allocator) {u : Nat} (hs : Holds h F s text room)
    (hu : F u = some (.string (pack l room'))) (hfits : l.length ≤ 2147483647)
    (hb : room.length < l.length → text.length + l.length ≤ maxText) :
    ∃ r, sdscatsds malloc h s u = some r ∧ Outcome malloc h F (text ++ l) r := by
  have hlen : sdslen h u = some l.length := by
    simp [sdslen, header, hs.cell.frame hu, intToSize_length hfits]
  have hread : readable F (.inside u 0) = some (l ++ 0 :: room') := by
    simp [readable, hu]
  have hcat := sdscatlen_spec malloc hs hread (n := l.length) (by simp) hb
  rw [List.take_left] at hcat
  simp only [sdscatsds, hlen, Option.bind_eq_bind, Option.bind_some]
  exact hcat

theorem cpy_pack (data : List UInt8) (hlen : data.length ≤ text.length + room.length)
    (hfits : text.length + room.length ≤ 2147483647) :
    (pack text room).cpy data data.length =
      some (pack data ((text ++ 0 :: room).drop (data.length + 1))) := by
  have hwrite := write_terminated [] data (text ++ 0 :: room) (by simp; omega)
  have htotal : cint ((room.length : Int) + text.length) =
      some ((text.length + room.length : Nat) : Int) := by
    rw [cint_of_range (by omega) (by omega)]
    simp [Int.add_comm]
  have hfree : wrapInt (((text.length + room.length : Nat) : Int) - data.length) =
      ((text ++ 0 :: room).drop (data.length + 1)).length := by
    rw [← Int.natCast_sub hlen, wrapInt_natCast (by omega)]
    simp
    omega
  simp only [List.nil_append, List.length_nil, Nat.zero_add] at hwrite
  cases hw : write (text ++ 0 :: room) 0 data with
  | none => simp [hw] at hwrite
  | some buf =>
      rw [hw, Option.bind_some] at hwrite
      simp only [Sdshdr.cpy, pack, htotal, hw, hwrite, hfree,
        wrapInt_natCast (show data.length ≤ 2147483647 by omega), Option.bind_eq_bind,
        Option.bind_some]

theorem sdscpylen_spec (malloc : Allocator) (hs : Holds h F s text room)
    (ht : readable F t = some l)
    (hn : n ≤ l.length) (hb : text.length + room.length < n → n ≤ maxText) :
    ∃ r, sdscpylen malloc h s t n = some r ∧ Outcome malloc h F (l.take n) r := by
  have hfits := hs.fits
  have htotal : cint ((room.length : Int) + text.length) =
      some ((text.length + room.length : Nat) : Int) := by
    rw [cint_of_range (by omega) (by omega)]
    simp [Int.add_comm]
  have hlen : (l.take n).length = n := by simp [hn]
  have hcopy : ∀ {h' : Heap} {s' : Nat} {room' : List UInt8}, Holds h' F s' text room' →
      n ≤ text.length + room'.length → ∃ h'', memcpy h' s' 0 t n = some (l.take n) ∧
        modify h' s' (fun sh => sh.cpy (l.take n) n) = some h'' ∧
        Outcome malloc h F (l.take n) (h'', some s') := by
    intro h' s' room' hs' hroom
    have hcpy := cpy_pack (l.take n) (by omega) hs'.fits
    rw [hlen] at hcpy
    obtain ⟨h'', hmod, hs''⟩ := hs'.modify (f := fun sh => sh.cpy (l.take n) n) hcpy
      (by have := hs'.fits; simp; omega)
    exact ⟨h'', memcpy_of_frame hs'.cell ht hn, hmod, .done _ _ _ hs''⟩
  unfold sdscpylen
  rw [header_of_cell hs.cell]
  simp only [pack, htotal, Option.bind_eq_bind, Option.bind_some, intToSize_length hfits]
  by_cases hroom : text.length + room.length < n
  · have hmax := hb hroom
    have hmore : intToSize ((n : Int) - text.length) = n - text.length := by
      unfold maxText at hmax
      rw [← Int.natCast_sub (by omega), intToSize_length (by omega)]
    obtain ⟨⟨h', r⟩, hmake, hr⟩ := sdsMakeRoomFor_spec malloc hs
      (n := n - text.length) (fun _ => by omega)
    rw [if_pos hroom, hmore, hmake]
    cases r with
    | none => exact ⟨(h', none), rfl, hr.null_outcome⟩
    | some s' =>
        obtain ⟨room', hroom', hs'⟩ := hr.holds hs
        obtain ⟨h'', hdata, hmod, hout⟩ := hcopy hs' (by omega)
        refine ⟨(h'', some s'), ?_, hout⟩
        simp [hdata, hmod]
  · obtain ⟨h'', hdata, hmod, hout⟩ := hcopy hs (by omega)
    refine ⟨(h'', some s), ?_, hout⟩
    simp [hroom, hdata, hmod]

theorem sdscpy_spec (malloc : Allocator) (hs : Holds h F s text room)
    (ht : readable F t = some l) (h0 : 0 ∈ l)
    (hb : text.length + room.length < l.idxOf 0 → l.idxOf 0 ≤ maxText) :
    ∃ r, sdscpy malloc h s t = some r ∧ Outcome malloc h F (l.take (l.idxOf 0)) r := by
  unfold sdscpy
  rw [strlen_of_frame hs.cell ht h0]
  exact sdscpylen_spec malloc hs ht (List.idxOf_le_length) hb

theorem growzero_pack (hlow : text.length < n) (hroom : n - text.length ≤ room.length)
    (hfits : text.length + room.length ≤ 2147483647) :
    (pack text room).growzero text.length n =
      some (pack (text ++ List.replicate (n - text.length) 0)
        (room.drop (n - text.length))) := by
  have hbuf : text ++ 0 :: room = text ++ (0 :: room).take (n - text.length + 1) ++
      room.drop (n - text.length) := by
    simp
  have hzeros : List.replicate (n - text.length + 1) (0 : UInt8) =
      List.replicate (n - text.length) 0 ++ [0] := List.replicate_succ'
  unfold Sdshdr.growzero
  simp only [pack]
  rw [hbuf, write_append _ _ _ _ (by simp; omega), hzeros]
  simp only [Option.bind_eq_bind, Option.bind_some]
  rw [cint_of_range (by omega) (by omega), Option.bind_some]
  have hfree : wrapInt ((text.length : Int) + room.length - n) =
      (room.drop (n - text.length)).length := by
    rw [← Int.natCast_add, ← Int.natCast_sub (by omega), wrapInt_natCast (by omega)]
    simp
    omega
  rw [wrapInt_natCast (n := n) (by omega), hfree]
  simp
  omega

theorem sdsgrowzero_spec (malloc : Allocator) (hs : Holds h F s text room)
    (hb : text.length + room.length < n → n ≤ maxText) :
    ∃ r, sdsgrowzero malloc h s n = some r ∧
      Outcome malloc h F (text ++ List.replicate (n - text.length) 0) r := by
  unfold sdsgrowzero
  rw [sdslen_of_holds hs]
  by_cases hlow : n ≤ text.length
  · refine ⟨(h, some s), by simp [hlow], .done _ _ room ?_⟩
    simpa [Nat.sub_eq_zero_of_le hlow] using hs
  obtain ⟨⟨h', r⟩, hmake, hr⟩ := sdsMakeRoomFor_spec malloc hs
    (n := n - text.length) (fun _ => by have := hb (by omega); omega)
  simp only [Option.bind_eq_bind, Option.bind_some, hlow, if_false, hmake]
  cases r with
  | none => exact ⟨(h', none), rfl, hr.null_outcome⟩
  | some s' =>
      obtain ⟨room', hroom', hs'⟩ := hr.holds hs
      obtain ⟨h'', hmod, hs''⟩ := hs'.modify (f := fun sh => sh.growzero text.length n)
        (growzero_pack (by omega) hroom' hs'.fits) (by have := hs'.fits; simp; omega)
      exact ⟨(h'', some s'), by simp [hmod], .done _ _ _ hs''⟩

/-! ## Creation and release -/

theorem init_pack (data fill : List UInt8) (hlen : fill.length = data.length + 1) :
    Sdshdr.init ⟨data.length, 0, fill⟩ data data.length = some (pack data []) := by
  have hwrite := write_terminated [] data fill (by omega)
  rw [List.drop_of_length_le (by omega)] at hwrite
  simp only [List.nil_append, List.length_nil, Nat.zero_add] at hwrite
  unfold Sdshdr.init
  simp only [Option.bind_eq_bind]
  cases hw : write fill 0 data with
  | none => simp [hw] at hwrite
  | some buf =>
      rw [hw, Option.bind_some] at hwrite
      simp [hwrite, pack]

theorem init_zero (n : Nat) :
    Sdshdr.init ⟨n, 0, List.replicate (n + 1) 0⟩ [] n =
      some (pack (List.replicate n 0) []) := by
  have hzeros : List.replicate (n + 1) (0 : UInt8) = List.replicate n 0 ++ [0] ++ [] := by
    rw [List.append_nil, List.replicate_succ']
  have hstart : write (List.replicate (n + 1) (0 : UInt8)) 0 [] =
      some (List.replicate (n + 1) 0) := by simp [write]
  have hend := write_append (List.replicate n 0) [0] [] [0] rfl
  rw [List.length_replicate, ← hzeros] at hend
  simp only [Sdshdr.init, hstart, hend, Option.bind_eq_bind, Option.bind_some]
  simp [pack, List.replicate_succ']

/-- The content that `sdsnewlen` gives to a string of length `n`. -/
def initial (block : Nat → Option Block) (init : Option Source) (n : Nat) :
    Option (List UInt8) :=
  match init with
  | none => some (List.replicate n 0)
  | some t => (readable block t).bind fun l => if n ≤ l.length then some (l.take n) else none

theorem length_initial {init : Option Source} (hl : initial F init n = some l) :
    l.length = n := by
  unfold initial at hl
  cases init with
  | none => simp at hl; simp [← hl]
  | some t =>
      obtain ⟨bytes, -, hl⟩ := Option.bind_eq_some_iff.mp hl
      obtain ⟨hn, hl⟩ := Option.ite_none_right_eq_some.mp hl
      rw [← Option.some.inj hl]
      simp [hn]

theorem sdsnewlen_spec (malloc : Allocator) {init : Option Source}
    (hl : initial h.block init n = some l) (hn : n ≤ 2147483647) :
    ∃ r, sdsnewlen malloc h init n = some r ∧ Outcome malloc h h.block l r := by
  have hbytes : sizeAdd headerSize (sizeAdd n 1) = headerSize + (n + 1) := by
    unfold headerSize
    rw [sizeAdd_of_lt (b := 1) (by omega), sizeAdd_of_lt (by omega)]
  have hlen := length_initial hl
  unfold sdsnewlen
  simp only [hbytes, Nat.add_sub_cancel_left, wrapInt_natCast hn]
  cases ha : malloc h.calls with
  | none => exact ⟨(h.refused, none), by simp [alloc_of_none ha],
      .null _ (refused_of_none ha) rfl⟩
  | some g =>
      rw [alloc_of_some ha]
      simp only [guard_of_true (Nat.le_add_right headerSize (n + 1)), Option.bind_eq_bind,
        Option.bind_some]
      cases init with
      | none =>
          obtain rfl : List.replicate n 0 = l := Option.some.inj hl
          have hcell : Cell (h.push (.string ⟨n, 0, List.replicate (n + 1) 0⟩)) h.block h.calls
            (.string ⟨n, 0, List.replicate (n + 1) 0⟩) := cell_push
          refine ⟨_, ?_, .done _ _ [] ⟨hcell.store, by simpa using hn⟩⟩
          simp [initBytes, modify_of_cell _ hcell (f := fun sh => sh.init [] n) (init_zero n)]
      | some t =>
          obtain ⟨bytes, hbytes, hl⟩ := Option.bind_eq_some_iff.mp hl
          obtain ⟨hnl, hl⟩ := Option.ite_none_right_eq_some.mp hl
          obtain rfl : bytes.take n = l := Option.some.inj hl
          have hcell : Cell (h.push (.string ⟨n, 0, garbage g (n + 1)⟩)) h.block h.calls
            (.string ⟨n, 0, garbage g (n + 1)⟩) := cell_push
          have hdata : initBytes (h.push (.string ⟨n, 0, garbage g (n + 1)⟩)) h.calls (some t) n =
              some (bytes.take n) := by
            simp only [initBytes]
            split
            · simp_all
            · exact memcpy_of_frame hcell hbytes hnl
          have hinit := init_pack (bytes.take n) (garbage g (n + 1)) (by simp [hlen])
          rw [hlen] at hinit
          refine ⟨_, ?_, .done _ _ [] ⟨hcell.store, by simp; omega⟩⟩
          simp [hdata, modify_of_cell _ hcell (f := fun sh => sh.init (bytes.take n) n) hinit]

theorem modify_calls {f : Sdshdr → Option Sdshdr} (hmod : modify h s f = some h') :
    h'.calls = h.calls := by
  obtain ⟨sh, -, hmod⟩ := Option.bind_eq_some_iff.mp hmod
  obtain ⟨sh', -, hstore⟩ := Option.bind_eq_some_iff.mp hmod
  rw [← Option.some.inj hstore]
  rfl

theorem sdsnewlen_calls {init : Option Source} {r : Option Nat}
    (hnew : sdsnewlen malloc h init n = some (h', r)) : h.calls ≤ h'.calls := by
  unfold sdsnewlen at hnew
  cases ha : malloc h.calls with
  | none =>
      simp only [alloc_of_none ha] at hnew
      cases hnew
      exact Nat.le_succ _
  | some g =>
      simp only [alloc_of_some ha] at hnew
      obtain ⟨-, -, hnew⟩ := Option.bind_eq_some_iff.mp hnew
      obtain ⟨data, -, hnew⟩ := Option.bind_eq_some_iff.mp hnew
      obtain ⟨h₁, hmod, heq⟩ := Option.bind_eq_some_iff.mp hnew
      cases heq
      rw [modify_calls hmod]
      exact Nat.le_succ _

theorem sdsempty_spec (malloc : Allocator) (h : Heap) :
    ∃ r, sdsempty malloc h = some r ∧ Outcome malloc h h.block [] r :=
  sdsnewlen_spec malloc (n := 0) rfl (by omega)

theorem readable_of_holds (hs : Holds h F s text room) :
    readable h.block (.inside s 0) = some (text ++ 0 :: room) := by
  simp [readable, hs.cell.get, pack]

theorem sdsdup_spec (malloc : Allocator) (hs : Holds h F s text room) :
    ∃ r, sdsdup malloc h s = some r ∧ Outcome malloc h h.block text r := by
  have hfits := hs.fits
  unfold sdsdup
  rw [sdslen_of_holds hs]
  apply sdsnewlen_spec
  · simp [initial, readable_of_holds hs]
  · omega

theorem sdsfree_spec (hs : Holds h F s text room) :
    ∃ h', sdsfree h (some s) = some h' ∧ h'.block = F :=
  ⟨_, hs.cell.free, hs.cell.release⟩

/-! ## Changes in place -/

theorem idxOf_zero_le (text room : List UInt8) : (text ++ 0 :: room).idxOf 0 ≤ text.length := by
  rw [List.idxOf_append]
  split
  · exact List.idxOf_le_length
  · simp

/-- A zero in the bytes ends a text. -/
theorem pack_of_zero {buf : List UInt8} {k : Nat} (capacity : Nat) (hzero : buf[k]? = some 0)
    (hlen : buf.length = capacity + 1) :
    Sdshdr.mk k ((capacity - k : Nat) : Int) buf = pack (buf.take k) (buf.drop (k + 1)) := by
  obtain ⟨hk, hzero⟩ := List.getElem?_eq_some_iff.mp hzero
  unfold pack
  congr 1
  · simp
    omega
  · simp
    omega
  · rw [← hzero, ← List.drop_eq_getElem_cons hk, List.take_append_drop]

theorem sdsupdatelen_spec (hs : Holds h F s text room) :
    ∃ h' room', sdsupdatelen h s = some h' ∧
      Holds h' F s (text.take ((text ++ 0 :: room).idxOf 0)) room' := by
  have hfits := hs.fits
  have hle := idxOf_zero_le text room
  generalize hk : (text ++ 0 :: room).idxOf 0 = k at hle ⊢
  have hstrlen : strlen h (.inside s 0) = some k := by
    simp [strlen, readable_of_holds hs, hk]
  have hzero : (text ++ 0 :: room)[k]? = some 0 := by
    subst hk
    rw [List.getElem?_eq_getElem (by simp; omega), List.getElem_idxOf]
  have hpack := pack_of_zero (text.length + room.length) hzero (by simp; omega)
  have hupdate : (pack text room).updatelen k =
      some (pack ((text ++ 0 :: room).take k) ((text ++ 0 :: room).drop (k + 1))) := by
    unfold Sdshdr.updatelen
    rw [wrapInt_natCast (by omega)]
    simp only [pack, ← Int.natCast_sub hle]
    rw [cint_of_range (by omega) (by omega), Option.bind_eq_bind, Option.bind_some]
    rw [cint_of_range (by omega) (by omega), Option.bind_some, ← pack, ← hpack]
    congr 3
    omega
  obtain ⟨h', hmod, hs'⟩ := hs.modify (f := fun sh => sh.updatelen k) hupdate
    (by simp; omega)
  rw [List.take_append_of_le_length hle] at hs'
  refine ⟨h', _, ?_, hs'⟩
  simp [sdsupdatelen, hstrlen, hmod]

theorem write_zero {buf : List UInt8} {k : Nat} (hk : k < buf.length) :
    write buf k [0] = some (buf.take k ++ 0 :: buf.drop (k + 1)) := by
  unfold write
  rw [if_pos (by simpa using Nat.succ_le_of_lt hk)]
  simp

theorem sdsclear_spec (hs : Holds h F s text room) :
    ∃ h' room', sdsclear h s = some h' ∧ Holds h' F s [] room' := by
  have hfits := hs.fits
  have hclear : (pack text room).clear = some (pack [] ((text ++ 0 :: room).drop 1)) := by
    unfold Sdshdr.clear
    simp only [pack, ← Int.natCast_add]
    have hlength : 0 < (text ++ 0 :: room).length := by
      rw [List.length_append, List.length_cons]
      omega
    rw [cint_of_range (by omega) (by omega), write_zero hlength]
    simp
    omega
  obtain ⟨h', hmod, hs'⟩ := hs.modify hclear (by simp; omega)
  exact ⟨h', _, hmod, hs'⟩

/-- The terminator goes to the new end, also when the text shrinks. -/
theorem incrLen_pack {buf : List UInt8} (incr : Int) (len free : Nat)
    (hlen : buf.length = len + free + 1) (hfits : len + free ≤ 2147483647)
    (hlow : 0 ≤ len + incr) (hhigh : incr ≤ free) :
    Sdshdr.incrLen ⟨len, free, buf⟩ incr =
      some (pack (buf.take (len + incr).toNat) (buf.drop ((len + incr).toNat + 1))) := by
  unfold Sdshdr.incrLen
  simp only [guard_of_true hhigh, Option.bind_eq_bind, Option.bind_some]
  rw [cint_of_range hlow (by omega), Option.bind_some, cint_of_range (by omega) (by omega),
    Option.bind_some, guard_of_true (by omega), Option.bind_some, guard_of_true hlow,
    Option.bind_some, write_zero (by omega)]
  simp [pack]
  omega

theorem sdsRemoveFreeSpace_spec (hs : Holds h F s text room)
    (ha : (malloc h.calls).isSome) :
    ∃ h', sdsRemoveFreeSpace malloc h s = some (h', h.calls) ∧ Holds h' F h.calls text [] := by
  have hfits := hs.fits
  obtain ⟨g, ha⟩ := Option.isSome_iff_exists.mp ha
  have hbytes : sizeAdd headerSize (sizeAdd text.length 1) = headerSize + (text.length + 1) := by
    unfold headerSize
    rw [sizeAdd_of_lt (b := 1) (by omega), sizeAdd_of_lt (by omega)]
  have hresize : resize (headerSize + (text.length + 1)) (.string (pack text room)) g =
      .string { pack text [] with free := room.length } := by
    unfold resize pack
    simp [garbage, List.take_append, List.take_of_length_le (Nat.le_succ text.length)]
  have hcell := hs.cell.push_release (resize (headerSize + (text.length + 1))
    (.string (pack text room)) g)
  rw [hresize] at hcell
  have hmodify := modify_of_cell (pack text []) hcell
    (f := fun sh => some { sh with free := 0 }) (by simp [pack])
  refine ⟨_, ?_, hcell.store, by simp; omega⟩
  simp only [sdsRemoveFreeSpace, sdslen_of_holds hs, Option.bind_eq_bind, Option.bind_some,
    hbytes, hs.cell.realloc_of_some ha, hresize, hmodify,
    guard_of_true (Nat.le_add_right headerSize (text.length + 1))]

/-- A heap with one string. -/
def single (text room : List UInt8) : Heap := Blocks.empty.push (.string (pack text room))

theorem single_holds (hfits : text.length + room.length ≤ 2147483647) :
    Holds (single text room) (fun _ => none) 0 text room :=
  ⟨cell_push, hfits⟩

/-- The allocator that always has memory, and finds it zeroed. -/
def zeros : Allocator := fun _ => some fun _ => 0

theorem zeros_reliable : Reliable zeros := fun _ => rfl

end Libnc.Sds
