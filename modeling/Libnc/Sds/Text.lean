import Mathlib.Data.List.DropRight
import Libnc.Sds.Operations

/-!
# Editing a text in place

The functions of `nc_sds.c` that cut a string or replace its characters, and
the comparison.  The text that results is given by the list operations that the
comments of the source describe.
-/

namespace Libnc.Sds

open Libnc.Foundation Blocks

/-! ## The functions of the source -/

/-- The search of `strchr` includes the terminator of the set. -/
def strchr (cset : List UInt8) (c : UInt8) : Bool := c = 0 ∨ c ∈ cset

/-- The loop over `sp`, from the left. -/
def skipFront (cset : List UInt8) : List UInt8 → Nat → Nat
  | c :: rest, sp => if strchr cset c then skipFront cset rest (sp + 1) else sp
  | [], sp => sp

/-- The loop over `ep`, from the right; the byte at `start` is not looked at. -/
def skipBack (cset buf : List UInt8) : Nat → Nat
  | 0 => 0
  | ep + 1 => if strchr cset (buf.getD (ep + 1) 0) then skipBack cset buf ep else ep + 1

/-- `memmove` of `n` bytes to the start, unless they are there already. -/
def toStart (buf : List UInt8) (start n : Nat) : Option (List UInt8) :=
  if start = 0 then some buf
  else if start + n ≤ buf.length then write buf 0 ((buf.drop start).take n)
  else none

def Sdshdr.keep (sh : Sdshdr) (start newlen : Nat) : Option Sdshdr := do
  let buf ← toStart sh.buf start newlen
  let buf ← write buf newlen [0]
  some { len := wrapInt newlen, free := wrapInt (sh.free + (sh.len - newlen)), buf }

def Sdshdr.trim (cset : List UInt8) (sh : Sdshdr) : Option Sdshdr := do
  let len := intToSize sh.len
  guard (len ≤ sh.buf.length)
  let sp := skipFront cset (sh.buf.take len) 0
  let ep : Int := if len = 0 then -1 else skipBack cset sh.buf (len - 1)
  let newlen := if ep < sp then 0 else (ep - sp + 1).toNat
  sh.keep sp newlen

def sdstrim (h : Heap) (s : Nat) (cset : List UInt8) : Option Heap :=
  modify h s (Sdshdr.trim cset)

/-- An index of `sdsrange`, where a negative one counts from the end. -/
def fromEnd (len : Nat) (i : Int) : Int :=
  if i < 0 then
    if wrapInt (len + i) < 0 then 0 else wrapInt (len + i)
  else i

/-- The length `(end - start) + 1` of an interval, computed in `int`. -/
def span (start stop : Int) : Option Nat :=
  if start > stop then some 0
  else do
    let distance ← cint (stop - start)
    let length ← cint (distance + 1)
    some (intToSize length)

def Sdshdr.range (start stop : Int) (sh : Sdshdr) : Option Sdshdr :=
  let len := intToSize sh.len
  if len = 0 then some sh
  else do
    let start := fromEnd len start
    let stop := fromEnd len stop
    let newlen ← span start stop
    if newlen = 0 then sh.keep 0 0
    else if wrapInt len ≤ start then sh.keep 0 0
    else if wrapInt len ≤ stop then do
      let newlen ← span start (wrapInt (len - 1))
      sh.keep start.toNat newlen
    else sh.keep start.toNat newlen

def sdsrange (h : Heap) (s : Nat) (start stop : Int) : Option Heap :=
  modify h s (Sdshdr.range start stop)

/-- The common loop of the functions that replace each character. -/
def Sdshdr.mapText (f : UInt8 → Option UInt8) (sh : Sdshdr) : Option Sdshdr := do
  let len := intToSize sh.len
  guard (len ≤ sh.buf.length)
  let mapped ← (sh.buf.take len).mapM f
  some { sh with buf := mapped ++ sh.buf.drop len }

def tolower (c : UInt8) : UInt8 := if 65 ≤ c ∧ c ≤ 90 then c + 32 else c

def toupper (c : UInt8) : UInt8 := if 97 ≤ c ∧ c ≤ 122 then c - 32 else c

def sdstolower (h : Heap) (s : Nat) : Option Heap :=
  modify h s (Sdshdr.mapText fun c => some (tolower c))

def sdstoupper (h : Heap) (s : Nat) : Option Heap :=
  modify h s (Sdshdr.mapText fun c => some (toupper c))

/-- The inner loop of `sdsmapchars`, at index `i` with `n` indices to go. -/
def mapchar (fromSet toSet : List UInt8) (c : UInt8) : Nat → Nat → Option UInt8
  | 0, _ => some c
  | n + 1, i => do
      let f ← fromSet[i]?
      if c = f then toSet[i]? else mapchar fromSet toSet c n (i + 1)

def sdsmapchars (h : Heap) (s : Nat) (fromSet toSet : List UInt8) (setlen : Nat) :
    Option Heap :=
  modify h s (Sdshdr.mapText fun c => mapchar fromSet toSet c setlen 0)

/-- The difference of the first two bytes that differ. -/
def memcmp : List UInt8 → List UInt8 → Int
  | a :: as, b :: bs => if a = b then memcmp as bs else (a.toNat : Int) - b.toNat
  | _, _ => 0

def sdscmp (h : Heap) (s1 s2 : Nat) : Option Int := do
  let l1 ← sdslen h s1
  let l2 ← sdslen h s2
  let minlen := if l1 < l2 then l1 else l2
  let b1 ← read h (.inside s1 0) minlen
  let b2 ← read h (.inside s2 0) minlen
  let cmp := memcmp b1 b2
  some (if cmp = 0 then wrapInt (l1 - l2) else cmp)

/-! ## Trimming -/

variable {malloc : Allocator} {h h' : Heap} {F : Nat → Option Block} {s n : Nat}
  {text text' room room' cset : List UInt8}

theorem skipFront_eq (cset l : List UInt8) (sp : Nat) :
    skipFront cset l sp = sp + (l.takeWhile (strchr cset)).length := by
  induction l generalizing sp with
  | nil => rfl
  | cons c rest ih =>
      unfold skipFront
      cases hc : strchr cset c with
      | false => simp [hc]
      | true =>
          simp [hc, ih]
          omega

/-- Characters of the set before the loop are passed over one by one. -/
theorem skipBack_run (cset a b rest : List UInt8) (hb : ∀ c ∈ b, strchr cset c) (ha : a ≠ []) :
    skipBack cset (a ++ b ++ rest) (a.length + b.length - 1) =
      skipBack cset (a ++ b ++ rest) (a.length - 1) := by
  induction b using List.reverseRecOn generalizing rest with
  | nil => simp
  | append_singleton b c ih =>
      have hpos := List.length_pos_iff.mpr ha
      have hlen : a.length + (b ++ [c]).length - 1 = a.length + b.length - 1 + 1 := by
        simp
        omega
      have hget : (a ++ (b ++ [c]) ++ rest).getD (a.length + b.length - 1 + 1) 0 = c := by
        rw [show a.length + b.length - 1 + 1 = a.length + b.length by omega]
        simp [List.getD_eq_getElem?_getD]
      rw [hlen, skipBack, hget, if_pos (hb c (by simp))]
      have := ih (c :: rest) (fun c' hc' => hb c' (by simp [hc']))
      simpa using this

theorem skipBack_stop {cset : List UInt8} (a rest : List UInt8) {c : UInt8}
    (hc : strchr cset c = false) :
    skipBack cset (a ++ c :: rest) a.length = a.length := by
  cases ha : a.length with
  | zero => rfl
  | succ n =>
      have hget : (a ++ c :: rest).getD (n + 1) 0 = c := by
        simp [List.getD_eq_getElem?_getD, ← ha]
      rw [skipBack, hget, hc]
      rfl

theorem keep_pack {start : Nat} (hlen : start + n ≤ text.length)
    (hfits : text.length + room.length ≤ 2147483647) :
    (pack text room).keep start n =
      some (pack ((text.drop start).take n) ((text ++ 0 :: room).drop (n + 1))) := by
  have hdata : ((text ++ 0 :: room).drop start).take n = (text.drop start).take n := by
    rw [List.drop_append_of_le_length (by omega), List.take_append_of_le_length (by simp; omega)]
  have hlength : ((text.drop start).take n).length = n := by
    simp
    omega
  have hfree : wrapInt ((room.length : Int) + (text.length - n)) =
      ((text ++ 0 :: room).drop (n + 1)).length := by
    rw [← Int.natCast_sub (by omega), ← Int.natCast_add, wrapInt_natCast (by omega)]
    simp
    omega
  have hwrite : ((toStart (text ++ 0 :: room) start n).bind fun buf => write buf n [0]) =
      some ((text.drop start).take n ++ 0 :: (text ++ 0 :: room).drop (n + 1)) := by
    unfold toStart
    split
    · rename_i hstart
      rw [Option.bind_some, write_zero (by simp; omega), List.take_append_of_le_length (by omega),
        hstart, List.drop_zero]
    · have := write_terminated [] ((text.drop start).take n) (text ++ 0 :: room) (by simp; omega)
      rw [if_pos (by simp; omega), hdata]
      simpa only [hlength, List.nil_append, List.length_nil, Nat.zero_add] using this
  obtain ⟨buf, hbuf, hwrite⟩ := Option.bind_eq_some_iff.mp hwrite
  simp only [Sdshdr.keep, pack, hbuf, hwrite, hfree, hlength,
    wrapInt_natCast (show n ≤ 2147483647 by omega), Option.bind_eq_bind, Option.bind_some]

/-- The text without the characters of the set at both ends. -/
def trimmed (cset text : List UInt8) : List UInt8 :=
  (text.dropWhile (strchr cset)).rdropWhile (strchr cset)

/-- What is kept ends with the last character that is not in the set. -/
theorem exists_trimmed {cset text : List UInt8} (hall : text.dropWhile (strchr cset) ≠ []) :
    ∃ x c b, text = text.takeWhile (strchr cset) ++ x ++ [c] ++ b ∧
      trimmed cset text = x ++ [c] ∧ strchr cset c = false ∧ ∀ d ∈ b, strchr cset d := by
  have hkept : trimmed cset text ≠ [] := by
    intro hnil
    have hmem := (List.rdropWhile_eq_nil_iff (p := strchr cset)).mp hnil
    have hhead := List.head_dropWhile_not (strchr cset) hall
    rw [hmem _ (List.head_mem hall)] at hhead
    exact Bool.noConfusion hhead
  have hlast : strchr cset ((trimmed cset text).getLast hkept) = false := by
    have := List.rdropWhile_last_not (strchr cset) _ hkept
    simpa [trimmed] using this
  have hkeep := List.dropLast_append_getLast hkept
  have hfront := List.takeWhile_append_dropWhile (p := strchr cset) (l := text)
  have hback := List.rdropWhile_append_rtakeWhile (p := strchr cset)
    (l := text.dropWhile (strchr cset))
  refine ⟨_, _, (text.dropWhile (strchr cset)).rtakeWhile (strchr cset), ?_, hkeep.symm, hlast,
    fun d hd => List.mem_rtakeWhile_imp hd⟩
  rw [List.append_assoc (text.takeWhile _), hkeep, List.append_assoc, trimmed, hback, hfront]

/-- The loop over `ep` passes the characters of the set and stops at the one before them. -/
theorem skipBack_last {cset a b : List UInt8} {c : UInt8} (rest : List UInt8)
    (hc : strchr cset c = false) (hb : ∀ d ∈ b, strchr cset d) :
    skipBack cset (a ++ [c] ++ b ++ rest) ((a ++ [c] ++ b).length - 1) = a.length := by
  have hrun := skipBack_run cset (a ++ [c]) b rest hb (by simp)
  have hstop := skipBack_stop a (b ++ rest) hc
  rw [List.length_append, hrun, List.length_append, List.length_singleton, Nat.add_sub_cancel]
  simpa using hstop

theorem trim_span (cset text rest : List UInt8) (hne : text ≠ []) :
    let sp := skipFront cset text 0
    let ep := skipBack cset (text ++ rest) (text.length - 1)
    let newlen := if (ep : Int) < sp then 0 else ((ep : Int) - sp + 1).toNat
    sp + newlen ≤ text.length ∧ (text.drop sp).take newlen = trimmed cset text := by
  intro sp ep newlen
  have hsp : sp = (text.takeWhile (strchr cset)).length := by
    simp only [sp, skipFront_eq, Nat.zero_add]
  by_cases hall : text.dropWhile (strchr cset) = []
  · -- the loop over `ep` stops at the first character
    have hmem := List.dropWhile_eq_nil_iff.mp hall
    obtain ⟨c, text, rfl⟩ := List.exists_cons_of_ne_nil hne
    have hep : ep = 0 := by
      have := skipBack_run cset [c] text rest (fun d hd => hmem d (by simp [hd])) (by simp)
      simpa [ep, skipBack] using this
    have hpos : sp = text.length + 1 := by
      rw [hsp, List.takeWhile_eq_self_iff.mpr hmem, List.length_cons]
    have hnew : newlen = 0 := by
      simp only [newlen, hep, hpos]
      rw [if_pos (by omega)]
    rw [hnew, hpos, trimmed, hall]
    simp
  · obtain ⟨x, c, b, htext, htrim, hc, hb⟩ := exists_trimmed hall
    generalize text.takeWhile (strchr cset) = pre at htext hsp
    have hep : ep = pre.length + x.length := by
      have := skipBack_last (a := pre ++ x) rest hc hb
      rwa [← htext, List.length_append] at this
    have hnew : newlen = x.length + 1 := by
      simp only [newlen, hep, hsp]
      rw [if_neg (by omega)]
      omega
    rw [hnew, hsp, htrim, htext]
    constructor
    · simp
    · simp [List.take_append, List.take_of_length_le (Nat.le_succ x.length)]

theorem length_trimmed_le (cset text : List UInt8) :
    (trimmed cset text).length ≤ text.length :=
  Nat.le_trans (List.rdropWhile_prefix _ _).length_le (List.dropWhile_suffix _).length_le

theorem trim_pack (cset : List UInt8) (hfits : text.length + room.length ≤ 2147483647) :
    (pack text room).trim cset = some (pack (trimmed cset text)
      ((text ++ 0 :: room).drop ((trimmed cset text).length + 1))) := by
  have hread : text.length ≤ (text ++ 0 :: room).length := by simp
  have hsize : intToSize text.length = text.length := intToSize_length (by omega)
  simp only [Sdshdr.trim, pack_len, pack_buf, hsize, guard_of_true hread, Option.bind_eq_bind,
    Option.bind_some, List.take_left]
  by_cases hne : text = []
  · subst hne
    have hkeep : (pack [] room).keep 0 0 = some _ := keep_pack (Nat.le_refl 0) hfits
    simpa [trimmed, skipFront] using hkeep
  · obtain ⟨hspan, htrim⟩ := trim_span cset text (0 :: room) hne
    have hkeep := keep_pack hspan hfits
    have hlen := congrArg List.length htrim
    rw [List.length_take, List.length_drop, Nat.min_eq_left (by omega)] at hlen
    rw [htrim, hlen] at hkeep
    have hpos : text.length ≠ 0 := mt List.length_eq_zero_iff.mp hne
    simp only [hpos, if_false, hlen, hkeep]

theorem sdstrim_spec (cset : List UInt8) (hs : Holds h F s text room) :
    ∃ h' room', sdstrim h s cset = some h' ∧ Holds h' F s (trimmed cset text) room' := by
  have hfits := hs.fits
  have hle := length_trimmed_le cset text
  obtain ⟨h', hmod, hs'⟩ := hs.modify (trim_pack cset hfits) (by simp; omega)
  exact ⟨h', _, hmod, hs'⟩

/-! ## Ranges -/

/-- The index that `sdsrange` uses for `i`: negative ones from the end, but not before the start. -/
def absolute (len : Nat) (i : Int) : Nat :=
  if i < 0 then (len + i).toNat else i.toNat

theorem fromEnd_eq {len : Nat} {i : Int} (hlen : len ≤ 2147483647) (hlow : -2147483648 ≤ i) :
    fromEnd len i = absolute len i := by
  unfold fromEnd absolute
  split
  · have hwrap : wrapInt (len + i) = len + i := by
      simp only [wrapInt, Int.bmod]
      omega
    rw [hwrap]
    split <;> omega
  · omega

theorem span_eq {start stop : Nat} (hlow : start ≤ 2147483647) (hstop : stop ≤ 2147483647) :
    span start stop = if stop = 2147483647 ∧ start = 0 then none
      else some (stop + 1 - start) := by
  unfold span
  by_cases hlt : start > stop
  · rw [if_pos (by omega), if_neg (by omega)]
    congr 1
    omega
  rw [if_neg (by omega), cint_of_range (by omega) (by omega)]
  simp only [Option.bind_eq_bind, Option.bind_some]
  by_cases hmax : stop = 2147483647 ∧ start = 0
  · obtain ⟨rfl, rfl⟩ := hmax
    rfl
  · rw [if_neg hmax, cint_of_range (by omega) (by omega), Option.bind_some]
    have hcast : ((stop : Int) - start + 1) = ((stop + 1 - start : Nat) : Int) := by omega
    rw [hcast, intToSize_length (by omega)]

/-- The bytes with the indices from `start` to `stop`, both included. -/
def slice (text : List UInt8) (start stop : Int) : List UInt8 :=
  (text.take (absolute text.length stop + 1)).drop (absolute text.length start)

/-- The intervals whose length is one more than the largest `int`. -/
def Overlong (text : List UInt8) (start stop : Int) : Prop :=
  text ≠ [] ∧ stop = 2147483647 ∧ absolute text.length start = 0

theorem range_pack {start stop : Int} (hfits : text.length + room.length ≤ 2147483647)
    (hstart : -2147483648 ≤ start ∧ start ≤ 2147483647)
    (hstop : -2147483648 ≤ stop ∧ stop ≤ 2147483647) (hshort : ¬ Overlong text start stop) :
    (pack text room).range start stop = some (pack (slice text start stop)
      ((text ++ 0 :: room).drop ((slice text start stop).length + 1))) := by
  by_cases hne : text = []
  · subst hne
    simp [Sdshdr.range, slice, intToSize]
  have hpos : text.length ≠ 0 := mt List.length_eq_zero_iff.mp hne
  unfold slice
  simp only [Sdshdr.range, pack_len, intToSize_length (show text.length ≤ 2147483647 by omega),
    hpos, if_false, wrapInt_natCast (show text.length ≤ 2147483647 by omega)]
  rw [fromEnd_eq (by omega) hstart.1, fromEnd_eq (by omega) hstop.1]
  have ha : absolute text.length start ≤ 2147483647 := by
    unfold absolute
    split <;> omega
  have hb : absolute text.length stop ≤ 2147483647 := by
    unfold absolute
    split <;> omega
  have hshort : ¬ (absolute text.length stop = 2147483647 ∧ absolute text.length start = 0) := by
    rintro ⟨hmax, hzero⟩
    refine hshort ⟨hne, ?_, hzero⟩
    unfold absolute at hmax
    split at hmax <;> omega
  generalize absolute text.length start = a at ha hshort ⊢
  generalize absolute text.length stop = b at hb hshort ⊢
  have hempty : ∀ l : List UInt8, l = [] → (pack text room).keep 0 0 =
      some (pack l ((text ++ 0 :: room).drop (l.length + 1))) := by
    rintro l rfl
    simpa using keep_pack (n := 0) (Nat.zero_le text.length) hfits
  have hkeep : ∀ (l : List UInt8) (k : Nat), a + k ≤ text.length → (text.drop a).take k = l →
      (pack text room).keep a k = some (pack l ((text ++ 0 :: room).drop (l.length + 1))) := by
    rintro l k hk rfl
    rw [keep_pack hk hfits, List.length_take, List.length_drop, Nat.min_eq_left (by omega)]
  rw [span_eq ha hb, if_neg hshort]
  simp only [Option.bind_eq_bind, Option.bind_some, Int.toNat_natCast, Int.ofNat_le]
  by_cases hlt : b + 1 - a = 0
  · rw [if_pos hlt]
    exact hempty _ (List.drop_of_length_le (by simp; omega))
  rw [if_neg hlt]
  by_cases hstart : text.length ≤ a
  · rw [if_pos hstart]
    exact hempty _ (List.drop_of_length_le (by simp; omega))
  rw [if_neg hstart]
  by_cases hstop : text.length ≤ b
  · have hlast : wrapInt ((text.length : Int) - 1) = ((text.length - 1 : Nat) : Int) := by
      rw [← wrapInt_natCast (n := text.length - 1) (by omega)]
      congr 1
      omega
    rw [if_pos hstop, hlast, span_eq ha (by omega), if_neg (by omega), Option.bind_some]
    apply hkeep
    · omega
    · rw [List.take_of_length_le (by simp; omega), List.take_of_length_le (by omega)]
  · rw [if_neg hstop]
    apply hkeep
    · omega
    · rw [List.drop_take]

theorem range_overlong {start stop : Int} (hfits : text.length + room.length ≤ 2147483647)
    (hstart : -2147483648 ≤ start) (hlong : Overlong text start stop) :
    (pack text room).range start stop = none := by
  obtain ⟨hne, rfl, hzero⟩ := hlong
  have hpos : text.length ≠ 0 := mt List.length_eq_zero_iff.mp hne
  have hmax : absolute text.length 2147483647 = 2147483647 := rfl
  simp only [Sdshdr.range, pack_len, intToSize_length (show text.length ≤ 2147483647 by omega),
    hpos, if_false]
  rw [fromEnd_eq (by omega) hstart, fromEnd_eq (by omega) (by omega), hzero, hmax,
    span_eq (by omega) (by omega)]
  rfl

theorem sdsrange_spec {start stop : Int} (hs : Holds h F s text room)
    (hstart : -2147483648 ≤ start ∧ start ≤ 2147483647)
    (hstop : -2147483648 ≤ stop ∧ stop ≤ 2147483647) (hshort : ¬ Overlong text start stop) :
    ∃ h' room', sdsrange h s start stop = some h' ∧
      Holds h' F s (slice text start stop) room' := by
  have hfits := hs.fits
  obtain ⟨h', hmod, hs'⟩ := hs.modify (range_pack hfits hstart hstop hshort) (by
    unfold slice
    simp
    omega)
  exact ⟨h', _, hmod, hs'⟩

/-- The only undefined call asks for more bytes than an `int` counts; any other one slices. -/
theorem sdsrange_slices {start stop : Int} (hs : Holds h F s text room)
    (hstart : -2147483648 ≤ start ∧ start ≤ 2147483647)
    (hstop : -2147483648 ≤ stop ∧ stop ≤ 2147483647) :
    (sdsrange h s start stop = none ↔ Overlong text start stop) ∧
    ∀ h', sdsrange h s start stop = some h' →
      ∃ room', Holds h' F s (slice text start stop) room' := by
  by_cases hlong : Overlong text start stop
  · have hrange := range_overlong hs.fits hstart.1 hlong
    have hnone : sdsrange h s start stop = none := by
      simp [sdsrange, modify, header_of_cell hs.cell, hrange]
    simp [hnone, hlong]
  · obtain ⟨h', room', hrun, hs'⟩ := sdsrange_spec hs hstart hstop hlong
    rw [hrun]
    constructor
    · simp [hlong]
    · intro h'' hr
      cases hr
      exact ⟨room', hs'⟩

theorem sdsrange_slices_negative :
    (sdsrange (single [1, 2, 3, 4] []) 0 (-3) (-2) = none ↔ Overlong [1, 2, 3, 4] (-3) (-2)) ∧
    ∀ h', sdsrange (single [1, 2, 3, 4] []) 0 (-3) (-2) = some h' →
      ∃ room', Holds h' (fun _ => none) 0 (slice [1, 2, 3, 4] (-3) (-2)) room' :=
  sdsrange_slices (single_holds (by decide)) (by decide) (by decide)

/-! ## Characters -/

theorem mapM_eq_map {α β : Type*} {f : α → Option β} {g : α → β} {l : List α}
    (hf : ∀ a ∈ l, f a = some (g a)) : l.mapM f = some (l.map g) := by
  induction l with
  | nil => rfl
  | cons a l ih =>
      rw [List.mapM_cons, hf a (by simp), ih fun b hb => hf b (by simp [hb])]
      rfl

theorem mapText_spec {f : UInt8 → Option UInt8} {g : UInt8 → UInt8}
    (hs : Holds h F s text room) (hf : ∀ c ∈ text, f c = some (g c)) :
    ∃ h', modify h s (Sdshdr.mapText f) = some h' ∧ Holds h' F s (text.map g) room := by
  have hfits := hs.fits
  have hread : text.length ≤ (text ++ 0 :: room).length := by simp
  apply hs.modify
  · simp only [Sdshdr.mapText, pack_len, pack_buf,
      intToSize_length (show text.length ≤ 2147483647 by omega), guard_of_true hread,
      Option.bind_eq_bind, Option.bind_some, List.take_left, List.drop_left, mapM_eq_map hf]
    simp [pack]
  · simpa using hfits

/-- The character that `sdsmapchars` puts in the place of `c`: that of the first index. -/
def mapped (fromSet toSet : List UInt8) (c : UInt8) : UInt8 :=
  ((fromSet.zip toSet).lookup c).getD c

theorem mapchar_eq {fromSet toSet : List UInt8} (c : UInt8)
    (hlen : fromSet.length = toSet.length) (n i : Nat) (hn : i + n = fromSet.length) :
    mapchar fromSet toSet c n i = some (mapped (fromSet.drop i) (toSet.drop i) c) := by
  induction n generalizing i with
  | zero =>
      rw [List.drop_of_length_le (by omega)]
      rfl
  | succ n ih =>
      have hi : i < fromSet.length := by omega
      have hi' : i < toSet.length := by omega
      unfold mapchar
      rw [ih (i + 1) (by omega), List.drop_eq_getElem_cons hi, List.drop_eq_getElem_cons hi',
        List.getElem?_eq_getElem hi, List.getElem?_eq_getElem hi']
      simp only [Option.bind_eq_bind, Option.bind_some, mapped, List.zip_cons_cons,
        List.lookup_cons]
      by_cases hc : c = fromSet[i]
      · simp [hc]
      · simp [hc, beq_false_of_ne hc]

theorem sdsmapchars_spec {fromSet toSet : List UInt8} (hs : Holds h F s text room)
    (hlen : fromSet.length = toSet.length) :
    ∃ h', sdsmapchars h s fromSet toSet fromSet.length = some h' ∧
      Holds h' F s (text.map (mapped fromSet toSet)) room :=
  mapText_spec hs fun c _ => mapchar_eq c hlen fromSet.length 0 (Nat.zero_add _)

theorem sdstolower_spec (hs : Holds h F s text room) :
    ∃ h', sdstolower h s = some h' ∧ Holds h' F s (text.map tolower) room :=
  mapText_spec hs fun _ _ => rfl

theorem sdstoupper_spec (hs : Holds h F s text room) :
    ∃ h', sdstoupper h s = some h' ∧ Holds h' F s (text.map toupper) room :=
  mapText_spec hs fun _ _ => rfl

/-! ## Comparison -/

/-- The result of `sdscmp` for two texts. -/
def comparison (a b : List UInt8) : Int :=
  let cmp := memcmp (a.take (min a.length b.length)) (b.take (min a.length b.length))
  if cmp = 0 then (a.length : Int) - b.length else cmp

theorem comparison_cons (x y : UInt8) (a b : List UInt8) :
    comparison (x :: a) (y :: b) =
      if x = y then comparison a b else (x.toNat : Int) - y.toNat := by
  unfold comparison
  simp only [List.length_cons, Nat.add_min_add_right, List.take_succ_cons, memcmp]
  by_cases hxy : x = y
  · simp only [hxy, if_true]
    congr 1
    omega
  · have hne : (x.toNat : Int) - y.toNat ≠ 0 := by
      intro hzero
      exact hxy (UInt8.toNat_inj.mp (by omega))
    simp [hxy, hne]

theorem comparison_eq_zero (a b : List UInt8) : comparison a b = 0 ↔ a = b := by
  induction a generalizing b with
  | nil => cases b <;> simp [comparison, memcmp]; omega
  | cons x a ih =>
      cases b with
      | nil => simp [comparison, memcmp]; omega
      | cons y b =>
          rw [comparison_cons]
          by_cases hxy : x = y
          · simp [hxy, ih]
          · have hne : x.toNat ≠ y.toNat := mt UInt8.toNat_inj.mp hxy
            simp only [hxy, if_false, List.cons.injEq, false_and, iff_false]
            omega

theorem comparison_nil_cons (y : UInt8) (b : List UInt8) :
    comparison [] (y :: b) = -((b.length : Int) + 1) := by
  unfold comparison
  simp only [List.length_nil, List.length_cons, Nat.zero_min, List.take_zero, memcmp, if_true]
  omega

theorem comparison_neg (a b : List UInt8) : comparison a b < 0 ↔ a < b := by
  induction a generalizing b with
  | nil =>
      cases b with
      | nil => simp [comparison, memcmp]
      | cons y b =>
          rw [comparison_nil_cons]
          constructor
          · intro _
            exact List.nil_lt_cons y b
          · intro _
            omega
  | cons x a ih =>
      cases b with
      | nil => simp [comparison, memcmp]; omega
      | cons y b =>
          rw [comparison_cons, List.cons_lt_cons_iff]
          by_cases hxy : x = y
          · simp [hxy, ih]
          · have hne : x.toNat ≠ y.toNat := mt UInt8.toNat_inj.mp hxy
            simp only [hxy, if_false, false_and, or_false, UInt8.lt_iff_toNat_lt]
            omega

theorem comparison_swap (a b : List UInt8) : comparison a b = -comparison b a := by
  induction a generalizing b with
  | nil => cases b <;> simp [comparison, memcmp]
  | cons x a ih =>
      cases b with
      | nil => simp [comparison, memcmp]
      | cons y b =>
          rw [comparison_cons, comparison_cons]
          by_cases hxy : x = y
          · simp [hxy, ih b]
          · rw [if_neg hxy, if_neg (Ne.symm hxy)]
            omega

theorem sdscmp_spec {G : Nat → Option Block} {s1 s2 : Nat} {a b roomA roomB : List UInt8}
    (ha : Holds h F s1 a roomA) (hb : Holds h G s2 b roomB) :
    sdscmp h s1 s2 = some (comparison a b) := by
  have hfitsA := ha.fits
  have hfitsB := hb.fits
  have hread : ∀ {F : Nat → Option Block} {s n : Nat} {text room : List UInt8},
      Holds h F s text room → n ≤ text.length →
        read h (.inside s 0) n = some (text.take n) := by
    intro F s n text room hs hn
    simp only [read, readable_of_holds hs, Option.bind_eq_bind, Option.bind_some]
    rw [if_pos (by simp; omega), List.take_append_of_le_length hn]
  have hmin : (if a.length < b.length then a.length else b.length) = min a.length b.length := by
    split <;> omega
  have hdiff : wrapInt ((a.length : Int) - b.length) = a.length - b.length := by
    simp only [wrapInt, Int.bmod]
    omega
  simp only [sdscmp, sdslen_of_holds ha, sdslen_of_holds hb, Option.bind_eq_bind,
    Option.bind_some, hmin, hread ha (Nat.min_le_left _ _), hread hb (Nat.min_le_right _ _),
    hdiff]
  rfl

/-- The sign of the answer is the lexicographic order of the bytes. -/
theorem sdscmp_order {G : Nat → Option Block} {s1 s2 : Nat} {a b roomA roomB : List UInt8}
    (ha : Holds h F s1 a roomA) (hb : Holds h G s2 b roomB) :
    ∃ c, sdscmp h s1 s2 = some c ∧ (c = 0 ↔ a = b) ∧ (c < 0 ↔ a < b) ∧ (0 < c ↔ b < a) := by
  refine ⟨_, sdscmp_spec ha hb, comparison_eq_zero a b, comparison_neg a b, ?_⟩
  rw [← comparison_neg, comparison_swap b a]
  omega

def twoStrings : Heap := (single [1, 2] []).push (.string (pack [1, 2, 0] []))

theorem sdscmp_order_prefix :
    ∃ c, sdscmp twoStrings 0 1 = some c ∧ (c = 0 ↔ ([1, 2] : List UInt8) = [1, 2, 0]) ∧
      (c < 0 ↔ ([1, 2] : List UInt8) < [1, 2, 0]) ∧
      (0 < c ↔ ([1, 2, 0] : List UInt8) < [1, 2]) := by
  have ha : Holds twoStrings (Function.update twoStrings.block 0 none) 0 [1, 2] [] :=
    ⟨cell_of_get rfl, by decide⟩
  have hb : Holds twoStrings (single [1, 2] []).block 1 [1, 2, 0] [] := ⟨cell_push, by decide⟩
  exact sdscmp_order ha hb

end Libnc.Sds
