import Mathlib.Data.List.Nodup
import Mathlib.Data.Nat.ModEq
import Libnc.Foundation.Listed
import Libnc.Pool.Model

/-!
# The invariant of the pool

The blocks in the order of the chain, each with the region behind its header,
the records of the large list, the large blocks, and the ranges that have been
cut off the blocks.
-/

namespace Libnc.Pool

open Libnc.Foundation Span

variable {malloc : Allocator} {t t' : NcPool} {sys sys' : System} {p : Nat} {size psize : Nat}

/-! ## Addresses -/

theorem ncAlignPtr_dvd (p : Nat) : ncAlignment ∣ ncAlignPtr p ncAlignment :=
  Dvd.intro_left _ rfl

/-- Rounding up goes to the next multiple, or from the last word of the address space to 0. -/
theorem ncAlignPtr_bounds (h : p < 2 ^ 64) :
    p ≤ ncAlignPtr p ncAlignment ∧ ncAlignPtr p ncAlignment < p + ncAlignment ∨
      ncAlignPtr p ncAlignment = 0 := by
  simp only [ncAlignPtr, ncAlignment]
  omega

theorem ncAlignPtr_of_dvd (h : p < 2 ^ 64) (hp : ncAlignment ∣ p) :
    ncAlignPtr p ncAlignment = p := by
  simp only [ncAlignPtr, ncAlignment] at hp ⊢
  omega

theorem ncAlignPtr_le {e : Nat} (hp : p ≤ e) (he : e < 2 ^ 64) (hdvd : ncAlignment ∣ e) :
    p ≤ ncAlignPtr p ncAlignment ∧ ncAlignPtr p ncAlignment ≤ e := by
  simp only [ncAlignPtr, ncAlignment] at hdvd ⊢
  omega

theorem sizeDiff_of_le {a b : Nat} (hab : b ≤ a) (ha : a < 2 ^ 64) : sizeDiff a b = a - b := by
  simp only [sizeDiff]
  omega

/-- The difference to a greater pointer is huge. -/
theorem sizeDiff_of_lt {a b : Nat} (hab : a < b) (hb : b ≤ 2 ^ 64) :
    sizeDiff a b = 2 ^ 64 - (b - a) := by
  simp only [sizeDiff]
  omega

/-! ## The system allocator -/

/-- How often the calls have handed out, or taken back, a block at `p`. -/
def handedOut (calls : List SystemCall) (p : Nat) : Nat :=
  calls.countP fun | .alloc _ q => q == p | _ => false

def takenBack (calls : List SystemCall) (p : Nat) : Nat :=
  calls.countP fun | .free q => q == p | _ => false

/--
At each time a block is taken back as often as handed out, or once less often;
the latter are those that are held.
-/
structure System.Accounted (sys : System) : Prop where
  always : ∀ calls, calls <:+ sys.calls → ∀ p, p ≠ null →
    takenBack calls p ≤ handedOut calls p ∧ handedOut calls p ≤ takenBack calls p + 1
  now : ∀ p, p ≠ null →
    handedOut sys.calls p = takenBack sys.calls p + if p ∈ sys.held.map start then 1 else 0

theorem System.Accounted.of_calls {call : SystemCall} (h : sys.Accounted)
    (hcalls : sys'.calls = call :: sys.calls)
    (hnow : ∀ p, p ≠ null → handedOut sys'.calls p =
      takenBack sys'.calls p + if p ∈ sys'.held.map start then 1 else 0) : sys'.Accounted := by
  refine ⟨fun calls hsuffix p hp => ?_, hnow⟩
  rw [hcalls] at hsuffix
  rcases List.suffix_cons_iff.mp hsuffix with rfl | hsuffix
  · rw [← hcalls, hnow p hp]
    split <;> omega
  · exact h.always calls hsuffix p hp

/--
Nonempty separate ranges, aligned and inside the address space, and all accounted for;
they are what the calls say.
-/
structure System.Sound (sys : System) : Prop where
  accounted : sys.Accounted
  replayed : sys.held = heldAfter sys.calls
  separate : Separate sys.held
  pos : ∀ s ∈ sys.held, 0 < s.size
  start_pos : ∀ s ∈ sys.held, 0 < s.start
  aligned : ∀ s ∈ sys.held, 16 ∣ s.start
  bound : ∀ s ∈ sys.held, s.finish < 2 ^ 64

theorem System.Sound.alloc (hm : malloc.Lawful) (h : sys.Sound) (hsize : 0 < size) :
    ∃ p sys', sys.alloc malloc size = (p, sys') ∧ sys'.Sound ∧
      (p = null ∧ sys'.held = sys.held ∨ p ≠ null ∧ sys'.held = ⟨p, size⟩ :: sys.held) := by
  refine ⟨_, _, rfl, ?_⟩
  by_cases hp : malloc sys size = null
  · refine ⟨⟨?_, ?_, ?_, ?_, ?_, ?_, ?_⟩, .inl ⟨hp, if_pos hp⟩⟩ <;> rw [if_pos hp]
    · apply h.accounted.of_calls rfl
      intro q hq
      have hnow := h.accounted.now q hq
      have hne : (malloc sys size == q) = false := by simp [hp, hq.symm]
      simpa [handedOut, takenBack, hne] using hnow
    · rw [heldAfter, if_pos hp, h.replayed]
    · exact h.separate
    · exact h.pos
    · exact h.start_pos
    · exact h.aligned
    · exact h.bound
  · obtain ⟨hdvd, hbound, happart⟩ := (hm sys size).resolve_left hp
    have hnew : malloc sys size ∉ sys.held.map start := fun hmem => by
      obtain ⟨s, hs, hstart⟩ := List.mem_map.mp hmem
      exact (happart s hs).start_ne (h.pos s hs) hsize hstart
    refine ⟨⟨?_, ?_, ?_, ?_, ?_, ?_, ?_⟩, .inr ⟨hp, if_neg hp⟩⟩ <;> rw [if_neg hp]
    · apply h.accounted.of_calls rfl
      intro q hq
      have hnow := h.accounted.now q hq
      by_cases heq : malloc sys size = q
      · subst heq
        rw [if_neg hnew] at hnow
        simp [handedOut, takenBack] at hnow ⊢
        omega
      · have hne : (malloc sys size == q) = false := by simp [heq]
        simpa [handedOut, takenBack, hne, Ne.symm heq] using hnow
    · rw [heldAfter, if_neg hp, h.replayed]
    · exact List.pairwise_cons.mpr ⟨fun s hs => (happart s hs).symm, h.separate⟩
    · exact List.forall_mem_cons.mpr ⟨hsize, h.pos⟩
    · exact List.forall_mem_cons.mpr ⟨Nat.pos_of_ne_zero hp, h.start_pos⟩
    · exact List.forall_mem_cons.mpr ⟨hdvd, h.aligned⟩
    · exact List.forall_mem_cons.mpr ⟨hbound, h.bound⟩

theorem System.Sound.free (h : sys.Sound) {s : Span} (hs : s ∈ sys.held) :
    ∃ sys', sys.free s.start = some sys' ∧
      sys'.held = sys.held.filter (·.start != s.start) ∧ sys'.Sound := by
  have hstart : s.start ≠ null := (h.start_pos s hs).ne'
  have hany : sys.held.any (·.start == s.start) = true := List.any_eq_true.mpr ⟨s, hs, by simp⟩
  refine ⟨_, by rw [System.free, if_neg hstart, if_pos hany], rfl, ?_⟩
  have hsub : ∀ u ∈ sys.held.filter (·.start != s.start), u ∈ sys.held :=
    fun u hu => (List.mem_filter.mp hu).1
  have haccounted : System.Accounted
      ⟨sys.held.filter (·.start != s.start), .free s.start :: sys.calls⟩ := by
    apply h.accounted.of_calls rfl
    intro q hq
    have hnow := h.accounted.now q hq
    by_cases heq : s.start = q
    · subst heq
      have hgone : s.start ∉ (sys.held.filter (·.start != s.start)).map start := by simp
      rw [if_pos (List.mem_map_of_mem hs)] at hnow
      rw [if_neg hgone]
      simp [handedOut, takenBack] at hnow ⊢
      omega
    · have hne : (s.start == q) = false := by simp [heq]
      have hmem : q ∈ (sys.held.filter (·.start != s.start)).map start ↔
          q ∈ sys.held.map start := by
        simp only [List.mem_map, List.mem_filter, bne_iff_ne]
        exact ⟨fun ⟨u, hu, hq⟩ => ⟨u, hu.1, hq⟩,
          fun ⟨u, hu, hq⟩ => ⟨u, ⟨hu, hq ▸ Ne.symm heq⟩, hq⟩⟩
      simp only [hmem]
      simpa [handedOut, takenBack, hne] using hnow
  have hreplayed : sys.held.filter (·.start != s.start) =
      heldAfter (.free s.start :: sys.calls) := by
    rw [heldAfter, h.replayed]
  exact ⟨haccounted, hreplayed, h.separate.filter _, fun u hu => h.pos u (hsub u hu),
    fun u hu => h.start_pos u (hsub u hu), fun u hu => h.aligned u (hsub u hu),
    fun u hu => h.bound u (hsub u hu)⟩

theorem System.Sound.runHandler (h : sys.Sound) (record handler data : Nat) :
    (sys.runHandler record handler data).Sound := by
  refine ⟨?_, h.replayed, h.separate, h.pos, h.start_pos, h.aligned, h.bound⟩
  apply h.accounted.of_calls rfl
  intro p hp
  simpa [handedOut, takenBack, System.runHandler] using h.accounted.now p hp

theorem System.free_calls (h : sys.free p = some sys') :
    sys'.calls = if p = null then sys.calls else .free p :: sys.calls := by
  unfold System.free at h
  split at h
  · rw [if_pos ‹_›, Option.some.inj h]
  · rw [if_neg ‹_›]
    split at h
    · exact (congrArg System.calls (Option.some.inj h)).symm
    · cases h

theorem System.Sound.free_perm (h : sys.Sound) {s : Span} {rest : List Span}
    (hperm : sys.held.Perm (s :: rest)) :
    ∃ sys', sys.free s.start = some sys' ∧ sys'.Sound ∧ sys'.held.Perm rest := by
  have hs : s ∈ sys.held := hperm.mem_iff.mpr List.mem_cons_self
  obtain ⟨sys', hfree, hheld, hsound⟩ := h.free hs
  refine ⟨sys', hfree, hsound, ?_⟩
  have hkeep : rest.filter (·.start != s.start) = rest := by
    rw [List.filter_eq_self]
    intro u hu
    have hu' : u ∈ sys.held := hperm.mem_iff.mpr (List.mem_cons_of_mem _ hu)
    have happart := (List.pairwise_cons.mp (h.separate.perm hperm)).1 u hu
    simpa using (happart.start_ne (h.pos s hs) (h.pos u hu')).symm
  rw [hheld]
  have hfilter := hperm.filter (·.start != s.start)
  rwa [List.filter_cons_of_neg (by simp), hkeep] at hfilter

/-! ## The pool -/

structure Block where
  base : Nat
  region : Region

structure Layout where
  blocks : List Block
  records : List Nat
  larges : List Span
  spans : List Span

namespace Layout

def bases (L : Layout) : List Nat := L.blocks.map Block.base

def regions (L : Layout) : List Region := L.blocks.map Block.region

/-- The ranges that the pool has handed out, or holds for itself. -/
def ranges (L : Layout) : List Span := L.spans ++ L.larges

def length (L : Layout) : Nat := L.blocks.length + L.records.length

/-- What is cut off the blocks is not longer than `max`, what is not is longer. -/
structure Sized (max : Nat) (L : Layout) : Prop where
  spans : ∀ s ∈ L.spans, s.size ≤ max
  larges : ∀ s ∈ L.larges, max < s.size

/-- The ranges of the records of the large list. -/
def recordSpans (L : Layout) : List Span := L.records.map fun l => ⟨l, sizeofNcPoolLarge⟩

end Layout

/-- The header of the first block is that of the pool. -/
def headerSize (t : NcPool) (b : Nat) : Nat :=
  if b = t.base then sizeofNcPool else sizeofNcPoolData

theorem headerSize_bounds (t : NcPool) (b : Nat) :
    sizeofNcPoolData ≤ headerSize t b ∧ headerSize t b ≤ sizeofNcPool := by
  unfold headerSize
  split <;> decide

/-- The blocks and the records are as the layout says, and what it says is held. -/
structure Shape (t : NcPool) (psize : Nat) (L : Layout) : Prop where
  psize_ge : sizeofNcPool ≤ psize
  max_eq : t.max = min (psize - sizeofNcPool) ncMaxAllocFromPool
  chain : Listed (fun p => (t.data p).next) null t.base L.bases
  nonempty : L.blocks ≠ []
  low_eq : ∀ b ∈ L.blocks, b.region.low = b.base + headerSize t b.base
  last_eq : ∀ b ∈ L.blocks, (t.data b.base).last = b.region.top
  end_eq : ∀ b ∈ L.blocks, (t.data b.base).end_ = b.region.high
  high_eq : ∀ b ∈ L.blocks, b.region.high = b.base + psize
  current_mem : t.current ∈ L.bases
  records : Listed (fun l => (t.largeAt l).next) null t.large L.records
  held : t.system.held.Perm ((L.bases.map fun b => ⟨b, psize⟩) ++ L.larges)
  system : t.system.Sound
  packed : Region.Packed L.regions (L.spans ++ L.recordSpans)

/-- The large blocks that the records have. -/
def allocs (t : NcPool) (records : List Nat) : List Nat :=
  (records.map fun l => (t.largeAt l).alloc).filter (· ≠ null)

/-- Besides, the large blocks are those of the records. -/
structure Rep (t : NcPool) (psize : Nat) (L : Layout) : Prop extends Shape t psize L where
  recorded : (L.larges.map start).Perm (allocs t L.records)

namespace Shape

variable {L : Layout} {b : Block}

theorem mem_held (h : Shape t psize L) (hb : b ∈ L.blocks) : ⟨b.base, psize⟩ ∈ t.system.held :=
  h.held.mem_iff.mpr (List.mem_append_left _
    (List.mem_map_of_mem (List.mem_map_of_mem hb)))

theorem base_ne_null (h : Shape t psize L) (hb : b ∈ L.blocks) : b.base ≠ null :=
  h.chain.ne_null (List.mem_map_of_mem hb)

theorem high_bound (h : Shape t psize L) (hb : b ∈ L.blocks) :
    b.region.high < 2 ^ 64 := by
  rw [h.high_eq b hb]
  exact h.system.bound _ (h.mem_held hb)

theorem base_aligned (h : Shape t psize L) (hb : b ∈ L.blocks) : 16 ∣ b.base :=
  h.system.aligned _ (h.mem_held hb)

theorem blocks_nodup (h : Shape t psize L) : L.bases.Nodup := by
  have hsep : Separate ((L.bases.map fun b => (⟨b, psize⟩ : Span)) ++ L.larges) :=
    h.system.separate.perm h.held
  have hleft : Separate (L.bases.map fun b => (⟨b, psize⟩ : Span)) :=
    (List.pairwise_append.mp hsep).1
  have hpos : 0 < psize := h.psize_ge.trans_lt' (by decide)
  refine (List.pairwise_map.mp hleft).imp fun hab heq => ?_
  exact hab.start_ne hpos hpos heq

theorem exists_block {p : Nat} (hp : p ∈ L.bases) : ∃ b ∈ L.blocks, b.base = p :=
  List.mem_map.mp hp

theorem headerSize_le (h : Shape t psize L) (p : Nat) : headerSize t p ≤ psize :=
  (headerSize_bounds t p).2.trans h.psize_ge

/-! ### Nothing overlaps -/

theorem held_separate (h : Shape t psize L) :
    Separate ((L.bases.map fun b => (⟨b, psize⟩ : Span)) ++ L.larges) :=
  h.system.separate.perm h.held

theorem header_inside (h : Shape t psize L) (p : Nat) :
    Inside ⟨p, headerSize t p⟩ ⟨p, psize⟩ :=
  ⟨le_rfl, Nat.add_le_add_left (h.headerSize_le p) p⟩

theorem exists_room (h : Shape t psize L) {s : Span} (hs : s ∈ L.spans ++ L.recordSpans) :
    ∃ b ∈ L.blocks, b.base + headerSize t b.base ≤ s.start ∧ s.finish ≤ b.region.top := by
  obtain ⟨r, hr, hsr⟩ := h.packed.inside s hs
  obtain ⟨b, hb, rfl⟩ := List.mem_map.mp hr
  have hlow := b.region.low_le
  refine ⟨b, hb, h.low_eq b hb ▸ hsr.1, hsr.2.trans (le_of_eq ?_)⟩
  simp only [Region.used, finish]
  omega

theorem inside_block (h : Shape t psize L) {s : Span} (hs : s ∈ L.spans ++ L.recordSpans) :
    ∃ b ∈ L.bases, s.Inside ⟨b, psize⟩ := by
  obtain ⟨b, hb, hlow, hhigh⟩ := h.exists_room hs
  have htop := b.region.top_le.trans_eq (h.high_eq b hb)
  exact ⟨b.base, List.mem_map_of_mem hb, (Nat.le_add_right _ _).trans hlow, hhigh.trans htop⟩

theorem apart_header (h : Shape t psize L) {s : Span} (hs : s ∈ L.spans ++ L.recordSpans)
    {p : Nat} (hp : p ∈ L.bases) : s.Apart ⟨p, headerSize t p⟩ := by
  obtain ⟨b, hb, hlow, hhigh⟩ := h.exists_room hs
  obtain ⟨c, hc, rfl⟩ := exists_block hp
  by_cases heq : b.base = c.base
  · exact .inr (heq ▸ hlow)
  · have hapart := h.system.separate.apart (h.mem_held hb) (h.mem_held hc) (by simpa using heq)
    have htop := b.region.top_le.trans_eq (h.high_eq b hb)
    exact hapart.mono ⟨(Nat.le_add_right _ _).trans hlow, hhigh.trans htop⟩ (h.header_inside _)

theorem separate (h : Shape t psize L) :
    Separate ((L.spans ++ L.recordSpans) ++
      (L.larges ++ L.bases.map fun b => ⟨b, headerSize t b⟩)) := by
  obtain ⟨hblocks, hlarges, hcross⟩ := List.pairwise_append.mp h.held_separate
  have hheader : ∀ s ∈ L.larges, ∀ b ∈ L.bases, s.Apart ⟨b, headerSize t b⟩ :=
    fun s hs b hb => (hcross _ (List.mem_map_of_mem hb) s hs).symm.mono (.refl s)
      (h.header_inside b)
  refine List.pairwise_append.mpr ⟨h.packed.spans_apart,
    List.pairwise_append.mpr ⟨hlarges, ?_, ?_⟩, ?_⟩
  · exact List.pairwise_map.mpr ((List.pairwise_map.mp hblocks).imp fun hab =>
      hab.mono (h.header_inside _) (h.header_inside _))
  · intro s hs u hu
    obtain ⟨b, hb, rfl⟩ := List.mem_map.mp hu
    exact hheader s hs b hb
  · intro s hs u hu
    rcases List.mem_append.mp hu with hu | hu
    · obtain ⟨b, hb, hsb⟩ := h.inside_block hs
      exact (hcross _ (List.mem_map_of_mem hb) u hu).mono hsb (.refl u)
    · obtain ⟨b, hb, rfl⟩ := List.mem_map.mp hu
      exact h.apart_header hs hb

theorem records_nodup (h : Shape t psize L) : L.records.Nodup := by
  have hsep := (List.pairwise_append.mp h.packed.spans_apart).2.1
  have hpos : 0 < sizeofNcPoolLarge := by decide
  exact (List.pairwise_map.mp hsep).imp fun hab => hab.start_ne hpos hpos

end Shape

end Libnc.Pool
