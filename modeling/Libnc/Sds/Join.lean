import Mathlib.Data.List.Forall2
import Libnc.Sds.Printf
import Libnc.Sds.Split

/-!
# Joining

`sdsjoin` and `sdsjoinsds`, and that splitting and joining undo each other.
-/

namespace Libnc.Sds

open Libnc.Foundation Blocks

/-! ## The functions of the source -/

/-- The loop over the arguments; `cat` appends the argument `j`, and a NULL is dereferenced. -/
def joinLoop (malloc : Allocator) (cat : Heap → Nat → Nat → Option (Heap × Option Nat))
    (argc : Int) (sep : Source) (seplen : Nat) :
    Nat → Nat → Heap → Option Nat → Option (Heap × Option Nat)
  | 0, _, h, join => some (h, join)
  | rounds + 1, j, h, join => do
      let (h, join) ← cat h (← join) j
      if (j : Int) ≠ argc - 1 then do
        let (h, join) ← sdscatlen malloc h (← join) sep seplen
        joinLoop malloc cat argc sep seplen rounds (j + 1) h join
      else joinLoop malloc cat argc sep seplen rounds (j + 1) h join

def sdsjoin (malloc : Allocator) (h : Heap) (argv : List Source) (argc : Int) (sep : Source)
    (seplen : Nat) : Option (Heap × Option Nat) := do
  let (h, join) ← sdsempty malloc h
  let cat (h : Heap) (join j : Nat) : Option (Heap × Option Nat) := do
    sdscat malloc h join (← argv[j]?)
  joinLoop malloc cat argc sep seplen argc.toNat 0 h join

def sdsjoinsds (malloc : Allocator) (h : Heap) (argv : Nat) (argc : Int) (sep : Source)
    (seplen : Nat) : Option (Heap × Option Nat) := do
  let (h, join) ← sdsempty malloc h
  let cat (h : Heap) (join j : Nat) : Option (Heap × Option Nat) := do
    sdscatsds malloc h join (← ← getSlot h argv j)
  joinLoop malloc cat argc sep seplen argc.toNat 0 h join

variable {malloc : Allocator} {h h' : Heap} {F m : Nat → Option Block} {v p s n : Nat}
  {ps : List Nat} {ts : List (List UInt8)} {text room l sl : List UInt8} {sep : Source}

/-! ## The loop -/

theorem intercalate_drop {j : Nat} (hj : j < ts.length) :
    sl.intercalate (ts.drop j) =
      ts[j] ++ if j + 1 = ts.length then [] else sl ++ sl.intercalate (ts.drop (j + 1)) := by
  rw [List.drop_eq_getElem_cons hj]
  split
  · rename_i hlast
    rw [List.drop_of_length_le (by omega), List.intercalate_singleton, List.append_nil]
  · have hne : ts.drop (j + 1) ≠ [] := by
      rw [Ne, List.drop_eq_nil_iff]
      omega
    rw [intercalate_cons hne, List.append_assoc]

/-- The loop appends the join of the arguments when each round appends its argument. -/
theorem joinLoop_spec (cat : Heap → Nat → Nat → Option (Heap × Option Nat))
    (ts : List (List UInt8)) (hm : Reliable malloc)
    (hcat : ∀ {h s text room j}, Holds h F s text room → (hj : j < ts.length) →
      text.length + ts[j].length ≤ maxText →
      ∃ h' s' room', cat h s j = some (h', some s') ∧ Holds h' F s' (text ++ ts[j]) room')
    (hsep : readable F sep = some sl) (hn : n ≤ sl.length) {rounds j : Nat}
    (hrounds : j + rounds = ts.length) (hs : Holds h F s text room)
    (hb : text.length + ((sl.take n).intercalate (ts.drop j)).length ≤ maxText) :
    ∃ h' s' room',
      joinLoop malloc cat ts.length sep n rounds j h (some s) = some (h', some s') ∧
        Holds h' F s' (text ++ (sl.take n).intercalate (ts.drop j)) room' := by
  induction rounds generalizing h s text room j with
  | zero =>
      rw [List.drop_of_length_le (by omega), List.intercalate_nil, List.append_nil]
      exact ⟨h, s, room, rfl, hs⟩
  | succ rounds ih =>
      have hj : j < ts.length := by omega
      rw [intercalate_drop hj] at hb ⊢
      rw [List.length_append] at hb
      obtain ⟨h₁, s₁, room₁, hrun₁, hs₁⟩ := hcat hs hj (by omega)
      unfold joinLoop
      simp only [Option.bind_eq_bind, Option.bind_some, hrun₁]
      by_cases hlast : j + 1 = ts.length
      · obtain rfl : rounds = 0 := by omega
        have heq : (j : Int) = ts.length - 1 := by omega
        rw [if_neg (not_not_intro heq), if_pos hlast, List.append_nil]
        exact ⟨h₁, s₁, room₁, rfl, hs₁⟩
      · have hne : (j : Int) ≠ ts.length - 1 := by omega
        rw [if_neg hlast, List.length_append] at hb
        obtain ⟨r, hrun₂, hout⟩ := sdscatlen_spec malloc hs₁ hsep hn (fun _ => by
          rw [List.length_append]
          rw [List.length_take] at hb
          omega)
        obtain ⟨h₂, s₂, room₂, rfl, hs₂⟩ := hout.of_reliable hm
        have := ih (j := j + 1) (by omega) hs₂ (by
          simp only [List.length_append]
          omega)
        rw [if_pos hne, if_neg hlast]
        simp only [hrun₂]
        simpa using this

/-! ## The two functions -/

/-- The pointers of the array refer to C strings with these texts. -/
def Argv (F : Nat → Option Block) (argv : List Source) (ts : List (List UInt8)) : Prop :=
  List.Forall₂ (fun t text => ∃ l, readable F t = some l ∧ 0 ∈ l ∧ cstr l = text) argv ts

theorem sdsjoin_spec {argv : List Source} (hm : Reliable malloc) (h : Heap)
    (hargv : Argv h.block argv ts) (hsep : readable h.block sep = some sl) (hn : n ≤ sl.length)
    (hb : ((sl.take n).intercalate ts).length ≤ maxText) :
    ∃ h' s room, sdsjoin malloc h argv ts.length sep n = some (h', some s) ∧
      Holds h' h.block s ((sl.take n).intercalate ts) room := by
  obtain ⟨r, hempty, hout⟩ := sdsempty_spec malloc h
  obtain ⟨h₀, s₀, room₀, rfl, hs₀⟩ := hout.of_reliable hm
  have hloop := joinLoop_spec (fun h join j => argv[j]?.bind (sdscat malloc h join)) ts hm ?_
    hsep hn (Nat.zero_add ts.length) hs₀ (by simpa using hb)
  · obtain ⟨h', s, room, hrun, hs⟩ := hloop
    refine ⟨h', s, room, ?_, by simpa using hs⟩
    unfold sdsjoin
    rw [hempty]
    exact hrun
  · intro h s text room j hs hj hb
    obtain ⟨hlen, hall⟩ := List.forall₂_iff_get.mp hargv
    have hj' : j < argv.length := by omega
    obtain ⟨l, hread, hzero, htext⟩ := hall j hj' hj
    rw [← take_idxOf_zero] at htext
    obtain ⟨r, hrun, hout⟩ := sdscat_spec malloc hs hread hzero (fun _ => by
      have := congrArg List.length htext
      rw [List.length_take, Nat.min_eq_left List.idxOf_le_length] at this
      simp only [List.get_eq_getElem] at this
      omega)
    obtain ⟨h', s', room', rfl, hs'⟩ := hout.of_reliable hm
    rw [htext] at hs'
    exact ⟨h', s', room', by simpa [hj'] using hrun, hs'⟩

theorem sdsjoinsds_spec (hm : Reliable malloc) (ht : Tokens h F v ts)
    (hsep : readable h.block sep = some sl) (hn : n ≤ sl.length)
    (hb : ((sl.take n).intercalate ts).length ≤ maxText) :
    ∃ h' s room, sdsjoinsds malloc h v ts.length sep n = some (h', some s) ∧
      Holds h' h.block s ((sl.take n).intercalate ts) room := by
  obtain ⟨r, hempty, hout⟩ := sdsempty_spec malloc h
  obtain ⟨h₀, s₀, room₀, rfl, hs₀⟩ := hout.of_reliable hm
  have hloop := joinLoop_spec
    (fun h join j => (getSlot h v j).bind fun t => t.bind (sdscatsds malloc h join)) ts
    hm ?_ hsep hn (Nat.zero_add ts.length) hs₀ (by simpa using hb)
  · obtain ⟨h', s, room, hrun, hs⟩ := hloop
    refine ⟨h', s, room, ?_, by simpa using hs⟩
    unfold sdsjoinsds
    rw [hempty]
    exact hrun
  · intro h' s text room j hs hj hb
    obtain ⟨p, roomP, hslot, hp, hfits⟩ := ht.get hj
    have hv : h.block v ≠ none := by
      intro hnone
      simp [getSlot, hnone] at hslot
    have hslot' : getSlot h' v j = some (some p) := by
      rw [← hslot]
      obtain ⟨b, hb⟩ := Option.ne_none_iff_exists'.mp hv
      simp [getSlot, hs.cell.frame hb, hb]
    obtain ⟨r, hrun, hout⟩ := sdscatsds_spec malloc hs hp hfits (fun _ => hb)
    obtain ⟨h'', s', room', rfl, hs'⟩ := hout.of_reliable hm
    exact ⟨h'', s', room', by simpa [hslot'] using hrun, hs'⟩

/-! ## Splitting and joining undo each other -/

/-- Split a text, join the tokens with the same separator and release them. -/
def splitJoin (malloc : Allocator) (h : Heap) (t : Source) (len : Nat) (sep : Source)
    (seplen : Nat) : Option (Heap × Option Nat) := do
  let (h, tokens, count) ← sdssplitlen malloc h t len sep seplen
  let tokens ← tokens
  let count ← count
  let (h, join) ← sdsjoinsds malloc h tokens count sep seplen
  let h ← sdsfreesplitres h (some tokens) count
  some (h, join)

theorem SplitOutcome.of_reliable {r : Splitting} (hm : Reliable malloc)
    (hr : SplitOutcome malloc h F ts r) :
    ∃ h' v, r = (h', some v, some ts.length) ∧ Tokens h' F v ts := by
  cases hr with
  | null hrefused _ _ => exact absurd hrefused hm.not_refused
  | done ht => exact ⟨_, _, rfl, ht⟩

/-- The heap gains a copy of the text and nothing else. -/
theorem splitJoin_spec {t : Source} {len : Nat} (hm : Reliable malloc) (h : Heap)
    (ht : readable h.block t = some l) (hlen : len ≤ l.length) (hmax : len ≤ maxText)
    (hsep : readable h.block sep = some sl) (hn : n ≤ sl.length) (hpos : 0 < n)
    (hts : Pieces (sl.take n) (l.take len) ts) (hcount : ts.length ≤ maxTokens) :
    ∃ h' s room, splitJoin malloc h t len sep n = some (h', some s) ∧
      Holds h' h.block s (l.take len) room := by
  have hint : maxText ≤ 2147483647 := by decide
  obtain ⟨r, hsplit, hr⟩ := sdssplitlen_spec malloc ht hlen (by omega) hsep hn hpos hts hcount
  obtain ⟨h₁, v, rfl, htokens⟩ := hr.of_reliable hm
  have hsep₁ : readable h₁.block sep = some sl := by
    obtain ⟨m, ps, extra, hstrings, hc⟩ := htokens
    exact readable_of_frame hc (hstrings.readable hsep)
  have hjoined := hts.intercalate
  obtain ⟨h₂, s, room, hjoin, hs⟩ := sdsjoinsds_spec hm htokens hsep₁ hn (by
    rw [hjoined, List.length_take]
    omega)
  rw [hjoined] at hs
  obtain ⟨htokens₂, habsent⟩ := htokens.beside hs.cell
  obtain ⟨h₃, hfree, hblock⟩ := sdsfreesplitres_spec htokens₂
  refine ⟨h₃, s, room, ?_, ⟨hblock, habsent⟩, hs.fits⟩
  simp [splitJoin, hsplit, hjoin, hfree]

theorem pieces_comma : Pieces [44] [97, 44, 98] [[97], [98]] := by
  have hseparable : Separable [44] [[97], [(98 : UInt8)]] := by
    unfold Separable Separable Absent
    decide
  exact .inr ⟨by decide, splits_iff.mpr ⟨hseparable, by decide⟩⟩

theorem splitJoin_spec_comma :
    ∃ h' s room, splitJoin zeros Blocks.empty (.bytes [97, 44, 98]) 3 (.bytes [44]) 1 =
        some (h', some s) ∧
      Holds h' Blocks.empty.block s (([97, 44, 98] : List UInt8).take 3) room := by
  have hts : Pieces (List.take 1 [44]) (List.take 3 [97, 44, 98]) [[97], [98]] := pieces_comma
  exact splitJoin_spec zeros_reliable Blocks.empty rfl (by decide) (by decide) rfl (by decide)
    (by decide) hts (by decide)

/-- Join C strings and split the result at the same separator. -/
def joinSplit (malloc : Allocator) (h : Heap) (argv : List Source) (sep : Source)
    (seplen : Nat) : Option Splitting := do
  let (h, join) ← sdsjoin malloc h argv argv.length sep seplen
  let join ← join
  let len ← sdslen h join
  sdssplitlen malloc h (.inside join 0) (wrapInt len) sep seplen

theorem pieces_intercalate {sep : List UInt8} (hsep : sep ≠ []) :
    Pieces sep (sep.intercalate ts) ts ↔ ts = [] ∨ Separable sep ts ∧ ts ≠ [[]] := by
  have hempty : Splits sep [] ts → ts = [[]] := fun hts =>
    hts.of_absent hsep fun i hi => absurd hi (Nat.not_lt_zero i)
  constructor
  · rintro (⟨-, rfl⟩ | ⟨hne, hts⟩)
    · exact .inl rfl
    · right
      refine ⟨(splits_iff.mp hts).1, ?_⟩
      rintro rfl
      exact hne List.intercalate_singleton
  · rintro (rfl | ⟨hts, hne⟩)
    · exact .inl ⟨rfl, rfl⟩
    · right
      have hsplits := splits_iff.mpr ⟨hts, rfl⟩
      refine ⟨?_, hsplits⟩
      intro hnil
      rw [hnil] at hsplits
      exact hne (hempty hsplits)

/-- The tokens come back when the separator appears in their join only between them. -/
theorem joinSplit_spec {argv : List Source} (hm : Reliable malloc) (h : Heap)
    (hargv : Argv h.block argv ts) (hsep : readable h.block sep = some sl) (hn : n ≤ sl.length)
    (hpos : 0 < n) (hts : ts = [] ∨ Separable (sl.take n) ts ∧ ts ≠ [[]])
    (hb : ((sl.take n).intercalate ts).length ≤ maxText) (hcount : ts.length ≤ maxTokens) :
    ∃ h' v s room, joinSplit malloc h argv sep n = some (h', some v, some ts.length) ∧
      h.block s = none ∧
      Tokens h' (Function.update h.block s
        (some (.string (pack ((sl.take n).intercalate ts) room)))) v ts := by
  have hint : maxText ≤ 2147483647 := by decide
  have hne : sl.take n ≠ [] := by
    apply List.ne_nil_of_length_pos
    rw [List.length_take]
    omega
  obtain ⟨h₁, s, room, hjoin, hs⟩ := sdsjoin_spec hm h hargv hsep hn hb
  rw [← hargv.length_eq] at hjoin
  have hread := readable_of_holds hs
  have hpieces : Pieces (sl.take n) (((sl.take n).intercalate ts ++ 0 :: room).take
      ((sl.take n).intercalate ts).length) ts := by
    rw [List.take_left]
    exact (pieces_intercalate hne).mpr hts
  obtain ⟨r, hsplit, hr⟩ := sdssplitlen_spec malloc hread (by simp) (by omega)
    (readable_of_frame hs.cell hsep) hn hpos hpieces hcount
  obtain ⟨h₂, v, rfl, htokens⟩ := hr.of_reliable hm
  refine ⟨h₂, v, s, room, ?_, hs.cell.absent, hs.cell.block ▸ htokens⟩
  have hwrap : wrapInt ((sl.take n).intercalate ts).length = ((sl.take n).intercalate ts).length :=
    wrapInt_natCast (by omega)
  simp [joinSplit, hjoin, sdslen_of_holds hs, hwrap, hsplit]

theorem joinSplit_spec_empty :
    ∃ h' v s room, joinSplit zeros Blocks.empty [.bytes [97, 0], .bytes [0, 98]] (.bytes [44]) 1 =
        some (h', some v, some 2) ∧ (Blocks.empty : Heap).block s = none ∧
      Tokens h' (Function.update Blocks.empty.block s (some (.string
        (pack ((([44] : List UInt8).take 1).intercalate [[97], []]) room)))) v [[97], []] := by
  have hargv : Argv Blocks.empty.block [.bytes [97, 0], .bytes [0, 98]] [[97], []] :=
    .cons ⟨_, rfl, by decide, by decide⟩ (.cons ⟨_, rfl, by decide, by decide⟩ .nil)
  have hseparable : Separable (([44] : List UInt8).take 1) [[97], []] := by
    unfold Separable Separable Absent
    decide
  exact joinSplit_spec zeros_reliable Blocks.empty hargv rfl (by decide) (by decide)
    (.inr ⟨hseparable, by decide⟩) (by decide) (by decide)

end Libnc.Sds
