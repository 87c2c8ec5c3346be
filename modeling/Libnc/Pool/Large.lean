import Libnc.Pool.Small

/-!
# Large allocations

A large block comes from the system; its record is one whose block is gone, or a
new one that is cut off a block of the pool.
-/

namespace Libnc.Pool

open Libnc.Foundation Span

variable {malloc : Allocator} {t t' : NcPool} {L L' : Layout} {psize size fuel p l a : Nat}
variable {records : List Nat}

/-! ## The records -/

theorem allocs_congr (h : ∀ l ∈ records, (t'.largeAt l).alloc = (t.largeAt l).alloc) :
    allocs t' records = allocs t records :=
  congrArg (List.filter _) (List.map_congr_left h)

theorem allocs_putLarge (hnodup : records.Nodup) (hl : l ∈ records) (a : Nat) :
    ∃ xs ys, allocs t records = xs ++ [(t.largeAt l).alloc].filter (· ≠ null) ++ ys ∧
      allocs (t.putLarge l { t.largeAt l with alloc := a }) records =
        xs ++ [a].filter (· ≠ null) ++ ys := by
  obtain ⟨xs, ys, rfl⟩ := List.append_of_mem hl
  have hsplit : ∀ u : NcPool, allocs u (xs ++ l :: ys) =
      allocs u xs ++ [(u.largeAt l).alloc].filter (· ≠ null) ++ allocs u ys := fun u => by
    rw [allocs, List.map_append, List.map_cons, List.append_cons, List.filter_append,
      List.filter_append]
    rfl
  obtain ⟨-, hys, hcross⟩ := List.nodup_append.mp hnodup
  refine ⟨allocs t xs, allocs t ys, hsplit t, ?_⟩
  rw [hsplit]
  congr 1
  · congr 1
    · apply allocs_congr
      intro q hq
      have hne : q ≠ l := hcross q hq l (by simp)
      simp [NcPool.putLarge, hne]
    · simp [NcPool.putLarge]
  · apply allocs_congr
    intro q hq
    have hne : q ≠ l := fun heq => (List.nodup_cons.mp hys).1 (heq ▸ hq)
    simp [NcPool.putLarge, hne]

theorem reusableLarge_spec (h : Listed (fun l => (t.largeAt l).next) null l records) (n : Nat)
    (hfuel : records.length < fuel) :
    reusableLarge t fuel n l = some null ∨
      ∃ r ∈ records, reusableLarge t fuel n l = some r ∧ (t.largeAt r).alloc = null := by
  induction records generalizing l fuel n with
  | nil =>
      obtain ⟨fuel, rfl⟩ := Nat.exists_eq_succ_of_ne_zero (Nat.ne_zero_of_lt hfuel)
      exact .inl (if_pos h)
  | cons r records ih =>
      obtain ⟨rfl, hl, hrest⟩ := h
      simp only [List.length_cons] at hfuel
      obtain ⟨fuel, rfl⟩ : ∃ k, fuel = k + 1 := ⟨fuel - 1, by omega⟩
      unfold reusableLarge
      rw [if_neg hl]
      split
      · rename_i halloc
        exact .inr ⟨l, by simp, rfl, halloc⟩
      · split
        · exact .inl rfl
        · have hlen : records.length < fuel := by omega
          rcases ih hrest (n + 1) hlen with hnone | ⟨r, hr, hsome, halloc⟩
          · exact .inl hnone
          · exact .inr ⟨r, List.mem_cons_of_mem _ hr, hsome, halloc⟩

theorem Shape.putLarge (h : Shape t psize L) (l a : Nat) :
    Shape (t.putLarge l { t.largeAt l with alloc := a }) psize L := by
  refine ⟨h.psize_ge, h.max_eq, h.chain, h.nonempty, h.low_eq, h.last_eq, h.end_eq, h.high_eq,
    h.current_mem, h.records.congr fun q _ => ?_, h.held, h.system, h.packed⟩
  by_cases hq : q = l <;> simp [NcPool.putLarge, hq]

theorem Shape.hold (h : Shape t psize L) {sys : System} (hsys : sys.Sound)
    (hheld : sys.held = ⟨p, size⟩ :: t.system.held) :
    Shape (t.setSystem sys) psize { L with larges := ⟨p, size⟩ :: L.larges } := by
  refine ⟨h.psize_ge, h.max_eq, h.chain, h.nonempty, h.low_eq, h.last_eq, h.end_eq, h.high_eq,
    h.current_mem, h.records, ?_, hsys, h.packed⟩
  change sys.held.Perm _
  rw [hheld]
  exact (h.held.cons _).trans List.perm_middle.symm

theorem Shape.record (h : Shape t psize { L with spans := ⟨l, sizeofNcPoolLarge⟩ :: L.spans })
    (hl : l ≠ null) :
    Shape { t.putLarge l ⟨t.large, a⟩ with large := l } psize
        { L with records := l :: L.records } ∧ l ∉ L.records := by
  have hnew : l ∉ L.records := fun hmem => by
    have hsep := List.pairwise_cons.mp h.packed.spans_apart
    have happart := hsep.1 ⟨l, sizeofNcPoolLarge⟩
      (List.mem_append_right _ (List.mem_map.mpr ⟨l, hmem, rfl⟩))
    have hpos : 0 < sizeofNcPoolLarge := by decide
    exact happart.start_ne hpos hpos rfl
  have hlist : Listed (fun q => ((t.putLarge l ⟨t.large, a⟩).largeAt q).next) null l
      (l :: L.records) := by
    refine ⟨rfl, hl, ?_⟩
    have hhead : ((t.putLarge l ⟨t.large, a⟩).largeAt l).next = t.large := by
      simp [NcPool.putLarge]
    change Listed _ null ((t.putLarge l ⟨t.large, a⟩).largeAt l).next L.records
    rw [hhead]
    apply h.records.congr
    intro q hq
    have hne : q ≠ l := ne_of_mem_of_not_mem hq hnew
    simp [NcPool.putLarge, hne]
  refine ⟨⟨h.psize_ge, h.max_eq, h.chain, h.nonempty, h.low_eq, h.last_eq, h.end_eq, h.high_eq,
    h.current_mem, hlist, h.held, h.system, ?_⟩, hnew⟩
  exact h.packed.perm List.perm_middle.symm

/-! ## The allocation -/

theorem Shape.apart_own (h : Shape t psize L) {s : Span} (hs : s ∈ L.ranges) :
    (∀ b ∈ L.bases, s.Apart ⟨b, headerSize t b⟩) ∧
      ∀ l ∈ L.records, s.Apart ⟨l, sizeofNcPoolLarge⟩ := by
  obtain ⟨hleft, hright, hcross⟩ := List.pairwise_append.mp h.separate
  have hrecord : ∀ l ∈ L.records, (⟨l, sizeofNcPoolLarge⟩ : Span) ∈ L.recordSpans :=
    fun l hl => List.mem_map.mpr ⟨l, hl, rfl⟩
  have hheader : ∀ b ∈ L.bases, (⟨b, headerSize t b⟩ : Span) ∈
      L.bases.map fun b => (⟨b, headerSize t b⟩ : Span) :=
    fun b hb => List.mem_map.mpr ⟨b, hb, rfl⟩
  rcases List.mem_append.mp hs with hs | hs
  · exact ⟨fun b hb => h.apart_header (List.mem_append_left _ hs) hb, fun l hl =>
      (List.pairwise_append.mp hleft).2.2 s hs _ (hrecord l hl)⟩
  · exact ⟨fun b hb => (List.pairwise_append.mp hright).2.2 s hs _ (hheader b hb), fun l hl =>
      (hcross _ (List.mem_append_right _ (hrecord l hl)) s (List.mem_append_left _ hs)).symm⟩

/-- What is written stays apart from the ranges. -/
structure Outside (ranges : List Span) (t t' : NcPool) : Prop where
  data : ∀ b, t'.data b ≠ t.data b → ∀ s ∈ ranges, s.Apart ⟨b, sizeofNcPoolData⟩
  largeAt : ∀ l, t'.largeAt l ≠ t.largeAt l → ∀ s ∈ ranges, s.Apart ⟨l, sizeofNcPoolLarge⟩
  cleanupAt : ∀ c, t'.cleanupAt c ≠ t.cleanupAt c →
    ∀ s ∈ ranges, s.Apart ⟨c, sizeofNcPoolCleanup⟩

theorem Outside.of_eq {ranges : List Span} (hdata : t'.data = t.data)
    (hlargeAt : t'.largeAt = t.largeAt) (hcleanupAt : t'.cleanupAt = t.cleanupAt) :
    Outside ranges t t' :=
  ⟨fun _ hne => absurd (congrFun hdata _) hne, fun _ hne => absurd (congrFun hlargeAt _) hne,
    fun _ hne => absurd (congrFun hcleanupAt _) hne⟩

theorem Outside.trans {ranges : List Span} {t'' : NcPool} (h : Outside ranges t t')
    (h' : Outside ranges t' t'') : Outside ranges t t'' := by
  refine ⟨fun b hne => ?_, fun l hne => ?_, fun c hne => ?_⟩
  · by_cases heq : t''.data b = t'.data b
    · exact h.data b (heq ▸ hne)
    · exact h'.data b heq
  · by_cases heq : t''.largeAt l = t'.largeAt l
    · exact h.largeAt l (heq ▸ hne)
    · exact h'.largeAt l heq
  · by_cases heq : t''.cleanupAt c = t'.cleanupAt c
    · exact h.cleanupAt c (heq ▸ hne)
    · exact h'.cleanupAt c heq

theorem Outside.mono {ranges ranges' : List Span} (h : Outside ranges t t')
    (hsub : ∀ s ∈ ranges', s ∈ ranges) : Outside ranges' t t' :=
  ⟨fun b hne s hs => h.data b hne s (hsub s hs), fun l hne s hs => h.largeAt l hne s (hsub s hs),
    fun c hne s hs => h.cleanupAt c hne s (hsub s hs)⟩

/-- What the pool writes into its own headers and records is apart from all ranges. -/
theorem Shape.outside (h : Shape t' psize L) (hdata : ∀ b ∉ L.bases, t'.data b = t.data b)
    (hlargeAt : ∀ l ∉ L.records, t'.largeAt l = t.largeAt l)
    (hcleanupAt : t'.cleanupAt = t.cleanupAt) : Outside L.ranges t t' := by
  refine ⟨fun b hne s hs => ?_, fun l hne s hs => ?_,
    fun c hne => absurd (congrFun hcleanupAt c) hne⟩
  · have hb : b ∈ L.bases := by
      by_contra hb
      exact hne (hdata b hb)
    have hheader : Inside ⟨b, sizeofNcPoolData⟩ ⟨b, headerSize t' b⟩ :=
      ⟨le_rfl, Nat.add_le_add_left (headerSize_bounds t' b).1 b⟩
    exact ((h.apart_own hs).1 b hb).mono (.refl s) hheader
  · have hl : l ∈ L.records := by
      by_contra hl
      exact hne (hlargeAt l hl)
    exact (h.apart_own hs).2 l hl

/-- Handing out the range at `p` leaves the list of cleanup records alone. -/
structure Kept (p size : Nat) (t t' : NcPool) : Prop where
  base : t'.base = t.base
  max : t'.max = t.max
  cleanup : t'.cleanup = t.cleanup
  cleanupAt : ∀ c, Apart ⟨p, size⟩ ⟨c, sizeofNcPoolCleanup⟩ → t'.cleanupAt c = t.cleanupAt c

theorem SameLists.kept (h : SameLists t t') : Kept p size t t' :=
  ⟨h.base, h.max, h.cleanup, fun c _ => by rw [h.cleanupAt]⟩

/-- The layout after the ranges `new` have been handed out. -/
structure Grown (max : Nat) (new : List Span) (L L' : Layout) : Prop where
  bases : L.bases <+: L'.bases
  length : L'.length ≤ L.length + 2 * new.length
  ranges : L'.ranges.Perm (new ++ L.ranges)
  sized : L.Sized max → L'.Sized max

theorem Grown.trans {max : Nat} {new new' : List Span} {L'' : Layout} (h : Grown max new L L')
    (h' : Grown max new' L' L'') : Grown max (new' ++ new) L L'' := by
  refine ⟨h.bases.trans h'.bases, ?_, ?_, fun hs => h'.sized (h.sized hs)⟩
  · have hlen := h.length
    have hlen' := h'.length
    rw [List.length_append]
    omega
  · rw [List.append_assoc]
    exact h'.ranges.trans (h.ranges.append_left new')

theorem Grown.small {max : Nat} {blocks : List Block} (hsize : size ≤ max)
    (hbases : L.bases <+: blocks.map Block.base) (hlength : blocks.length ≤ L.blocks.length + 1) :
    Grown max [⟨p, size⟩] L { L with blocks := blocks, spans := ⟨p, size⟩ :: L.spans } := by
  refine ⟨hbases, ?_, .refl _, fun h => ⟨List.forall_mem_cons.mpr ⟨hsize, h.spans⟩, h.larges⟩⟩
  simp only [Layout.length, List.length_singleton]
  omega

theorem Grown.large {max : Nat} (hsize : max < size) (hbases : L.bases <+: L'.bases)
    (hlength : L'.length ≤ L.length + 2) (hspans : L'.spans = L.spans)
    (hlarges : L'.larges = ⟨p, size⟩ :: L.larges) : Grown max [⟨p, size⟩] L L' := by
  refine ⟨hbases, hlength, ?_, fun h => ⟨hspans ▸ h.spans, ?_⟩⟩
  · rw [Layout.ranges, hspans, hlarges]
    exact List.perm_middle
  · rw [hlarges]
    exact List.forall_mem_cons.mpr ⟨hsize, h.larges⟩

/-- What an allocation of `size` bytes that returns `p` leaves behind. -/
structure AllocResult (psize : Nat) (L : Layout) (size : Nat) (t : NcPool) (p : Nat)
    (t' : NcPool) : Prop where
  kept : Kept p size t t'
  result : p = null ∧ Unchanged t t' ∨
    p ≠ null ∧ ∃ L', Rep t' psize L' ∧ Grown t.max [⟨p, size⟩] L L'

theorem Unchanged.rep (hu : Unchanged t t') (h : Rep t psize L) : Rep t' psize L := by
  have hsame : allocs t' L.records = allocs t L.records :=
    allocs_congr fun l _ => by rw [hu.lists.largeAt]
  exact ⟨hu.shape h.toShape, hsame ▸ h.recorded⟩

theorem Unchanged.outside {ranges : List Span} (hu : Unchanged t t') : Outside ranges t t' := by
  rw [hu.eq]
  exact .of_eq rfl rfl rfl

theorem Unchanged.undo {u : NcPool} (hu : Unchanged t u)
    (hheld : t.system.held = ⟨p, size⟩ :: t'.system.held) (ht : t = t'.setSystem t.system) :
    ∃ u', u.free p = some u' ∧ Unchanged t' u' := by
  have hheld' : u.system.held = ⟨p, size⟩ :: t'.system.held := hu.held.trans hheld
  have hmem : (⟨p, size⟩ : Span) ∈ u.system.held := by simp [hheld']
  obtain ⟨sys, hfree, hsys, hsound⟩ := hu.sound.free hmem
  refine ⟨u.setSystem sys, by simp [NcPool.free, hfree], ?_, ?_, hsound⟩
  · rw [hu.eq, ht]
    rfl
  · change sys.held = _
    have hsep := hu.sound.separate
    have hpos := hu.sound.pos
    rw [hheld'] at hsep hpos
    rw [hsys, hheld', List.filter_cons_of_neg (by simp), List.filter_eq_self]
    intro s hs
    have happart := (List.pairwise_cons.mp hsep).1 s hs
    have hne := happart.start_ne (hpos _ (by simp)) (hpos s (by simp [hs]))
    simpa using hne.symm

theorem Shape.reuse (h : Shape t psize { L with larges := ⟨p, size⟩ :: L.larges })
    (hrecorded : (L.larges.map start).Perm (allocs t L.records)) (hl : l ∈ L.records)
    (hnull : (t.largeAt l).alloc = null) (hp : p ≠ null) :
    Rep (t.putLarge l { t.largeAt l with alloc := p }) psize
      { L with larges := ⟨p, size⟩ :: L.larges } := by
  refine ⟨h.putLarge l p, ?_⟩
  obtain ⟨xs, ys, hbefore, hafter⟩ := allocs_putLarge (t := t) h.records_nodup hl p
  have hgone : [(t.largeAt l).alloc].filter (· ≠ null) = [] := by simp [hnull]
  have hnew : [p].filter (· ≠ null) = [p] := by simp [hp]
  rw [hafter, hnew, List.append_assoc]
  rw [hbefore, hgone, List.append_nil] at hrecorded
  exact (hrecorded.cons p).trans List.perm_middle.symm

theorem Shape.extend
    (h : Shape t psize
      { L with larges := ⟨p, size⟩ :: L.larges, spans := ⟨l, sizeofNcPoolLarge⟩ :: L.spans })
    (hrecorded : (L.larges.map start).Perm (allocs t L.records)) (hl : l ≠ null) (hp : p ≠ null) :
    Rep { t.putLarge l ⟨t.large, p⟩ with large := l } psize
      { L with records := l :: L.records, larges := ⟨p, size⟩ :: L.larges } := by
  obtain ⟨hshape, hnew⟩ := Shape.record (L := { L with larges := ⟨p, size⟩ :: L.larges })
    (a := p) h hl
  refine ⟨hshape, ?_⟩
  have hrest : allocs (t.putLarge l ⟨t.large, p⟩) L.records = allocs t L.records :=
    allocs_congr fun q hq => by
      have hne : q ≠ l := ne_of_mem_of_not_mem hq hnew
      simp [NcPool.putLarge, hne]
  have hall : allocs (t.putLarge l ⟨t.large, p⟩) (l :: L.records) = p :: allocs t L.records := by
    rw [← hrest, allocs, List.map_cons, List.filter_cons_of_pos (by simp [NcPool.putLarge, hp])]
    simp [NcPool.putLarge, allocs]
  change (p :: L.larges.map start).Perm (allocs (t.putLarge l ⟨t.large, p⟩) (l :: L.records))
  rw [hall]
  exact hrecorded.cons p

/-- If the call searches the blocks for a new record, rounding stays inside them. -/
def RecordInside (malloc : Allocator) (fuel : Nat) (t : NcPool) (size : Nat) : Prop :=
  malloc t.system size ≠ null → reusableLarge t fuel 0 t.large = some null →
    RoundsInside t sizeofNcPoolLarge fuel t.current

instance decidableRecordInside (malloc : Allocator) (fuel : Nat) (t : NcPool) (size : Nat) :
    Decidable (RecordInside malloc fuel t size) :=
  have := decidableRoundsInside t sizeofNcPoolLarge fuel t.current
  inferInstanceAs (Decidable (_ → _ → _))

theorem reusableLarge_congr (h : t'.largeAt = t.largeAt) (n : Nat) :
    reusableLarge t' fuel n l = reusableLarge t fuel n l := by
  induction fuel generalizing n l with
  | zero => rfl
  | succ fuel ih => simp only [reusableLarge, h, ih]

theorem Rep.ncPallocLarge_spec (h : Rep t psize L) (hm : malloc.Lawful)
    (hinside : RecordInside malloc fuel t size) (hsize : t.max < size)
    (hfuel : L.length < fuel) :
    ∃ p t', ncPallocLarge malloc fuel t size = some (p, t') ∧ ncAlignment ∣ p ∧
      AllocResult psize L size t p t' ∧ Outside L.ranges t t' := by
  simp only [Layout.length] at hfuel
  obtain ⟨p, sys, halloc, hsys, ⟨rfl, hheld⟩ | ⟨hp, hheld⟩⟩ := h.system.alloc hm
    (Nat.zero_lt_of_lt hsize)
  · refine ⟨null, t.setSystem sys, ?_, Nat.dvd_zero _, ⟨⟨rfl, rfl, rfl, fun _ _ => rfl⟩,
      .inl ⟨rfl, rfl, hheld, hsys⟩⟩, .of_eq rfl rfl rfl⟩
    simp [ncPallocLarge, halloc]
  · have haligned : ncAlignment ∣ p := by
      have hdvd : 16 ∣ p := hsys.aligned ⟨p, size⟩ (by simp [hheld])
      exact Nat.dvd_trans (by decide) hdvd
    have hshape : Shape (t.setSystem sys) psize { L with larges := ⟨p, size⟩ :: L.larges } :=
      h.toShape.hold hsys hheld
    have hlen : L.records.length < fuel := by omega
    rcases reusableLarge_spec hshape.records 0 hlen with hnone | ⟨l, hl, hreuse, hnull⟩
    · -- the record is a small allocation, which may need a new block
      have hanswer : malloc t.system size ≠ null := (congrArg Prod.fst halloc).trans_ne hp
      have hsafe : true = true → RoundsInside (t.setSystem sys) sizeofNcPoolLarge fuel
          (t.setSystem sys).current := fun _ => by
        have hlists : (t.setSystem sys).largeAt = t.largeAt := rfl
        have hsame : reusableLarge (t.setSystem sys) fuel 0 t.large =
            reusableLarge t fuel 0 t.large := reusableLarge_congr hlists 0
        exact (hinside hanswer (hsame.symm.trans hnone)).congr fun _ => rfl
      have hroom : sizeofNcPoolData + sizeofNcPoolLarge ≤ psize :=
        le_trans (by decide) h.psize_ge
      have hblocks : L.blocks.length ≤ fuel := by omega
      obtain ⟨l, u, hsmall, -, hlists, ⟨rfl, hu⟩ | ⟨hl, blocks, hshape', htaken, hdata⟩⟩ :=
        hshape.ncPallocSmall_spec hm hroom hblocks hsafe
      · obtain ⟨t', hfree, ht'⟩ := hu.undo hheld rfl
        refine ⟨null, t', ?_, Nat.dvd_zero _, ⟨ht'.lists.kept, .inl ⟨rfl, ht'⟩⟩, ht'.outside⟩
        simp [ncPallocLarge, halloc, hp, hnone, hsmall, hfree]
      · have hsame : allocs u L.records = allocs t L.records :=
          allocs_congr fun l _ => by rw [hlists.largeAt]; rfl
        have hrep := Shape.extend (L := { L with blocks := blocks }) hshape'
          (hsame ▸ h.recorded) hl hp
        refine ⟨p, { u.putLarge l ⟨u.large, p⟩ with large := l }, ?_, haligned,
          ⟨⟨hlists.base, hlists.max, hlists.cleanup, fun c _ => congrFun hlists.cleanupAt c⟩,
          .inr ⟨hp, _, hrep, .large hsize htaken.bases ?_ rfl rfl⟩⟩, ?_⟩
        rotate_right
        · have hout := hrep.toShape.outside (t := t) hdata (fun q hq => ?_) hlists.cleanupAt
          · exact hout.mono fun s hs => List.mem_append.mpr
              ((List.mem_append.mp hs).imp_right (List.mem_cons_of_mem _))
          · have hne : q ≠ l := fun heq => hq (heq ▸ List.mem_cons_self)
            exact (Function.update_of_ne hne _ _).trans (congrFun hlists.largeAt q)
        · simp [ncPallocLarge, halloc, hp, hnone, hsmall, hl]
        · have hlength := htaken.length
          simp only [Layout.length, List.length_cons] at hlength ⊢
          omega
    · have hl0 : l ≠ null := h.records.ne_null hl
      have hrep := hshape.reuse h.recorded hl hnull hp
      refine ⟨p, (t.setSystem sys).putLarge l { t.largeAt l with alloc := p }, ?_, haligned,
        ⟨⟨rfl, rfl, rfl, fun _ _ => rfl⟩, .inr ⟨hp, _, hrep,
          .large hsize (List.prefix_refl _) (Nat.le_add_right _ _) rfl rfl⟩⟩, ?_⟩
      rotate_right
      · have hout := hrep.toShape.outside (t := t) (fun _ _ => rfl) (fun q hq => by
          have hne : q ≠ l := fun heq => hq (heq ▸ hl : q ∈ L.records)
          exact Function.update_of_ne hne _ _) rfl
        exact hout.mono fun s hs => List.mem_append.mpr
          ((List.mem_append.mp hs).imp_right (List.mem_cons_of_mem _))
      simp only [ncPallocLarge, halloc, if_neg hp, hreuse, Option.bind_eq_bind, Option.bind_some,
        if_pos hl0]
      rfl

end Libnc.Pool
