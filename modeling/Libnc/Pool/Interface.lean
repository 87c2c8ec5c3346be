import Libnc.Pool.Large

/-!
# The interface of the allocations

`nc_palloc`, `nc_pnalloc` and `nc_pcalloc` hand out one more range; the zeros that
`nc_pcalloc` writes stay inside it.
-/

namespace Libnc.Pool

open Libnc.Foundation Span

variable {malloc : Allocator} {t t' : NcPool} {L L' : Layout} {psize size fuel p a : Nat}
variable {align : Bool}

theorem Rep.congr (h : Rep t psize L) (hbase : t'.base = t.base) (hmax : t'.max = t.max)
    (hcurrent : t'.current = t.current) (hlarge : t'.large = t.large)
    (hsystem : t'.system = t.system) (hdata : ∀ b ∈ L.bases, t'.data b = t.data b)
    (hlargeAt : ∀ l ∈ L.records, t'.largeAt l = t.largeAt l) : Rep t' psize L := by
  have hblock : ∀ b ∈ L.blocks, t'.data b.base = t.data b.base :=
    fun b hb => hdata _ (List.mem_map_of_mem hb)
  refine ⟨⟨h.psize_ge, hmax.trans h.max_eq, ?_, h.nonempty, fun b hb => ?_, fun b hb => ?_,
    fun b hb => ?_, h.high_eq, hcurrent ▸ h.current_mem, ?_, hsystem ▸ h.held, hsystem ▸ h.system,
    h.packed⟩, ?_⟩
  · exact hbase ▸ h.chain.congr fun b hb => by rw [hdata b hb]
  · unfold headerSize
    rw [hbase]
    exact h.low_eq b hb
  · rw [hblock b hb]
    exact h.last_eq b hb
  · rw [hblock b hb]
    exact h.end_eq b hb
  · exact hlarge ▸ h.records.congr fun l hl => by rw [hlargeAt l hl]
  · have hsame : Libnc.Pool.allocs t' L.records = Libnc.Pool.allocs t L.records :=
      allocs_congr fun l hl => by rw [hlargeAt l hl]
    exact hsame ▸ h.recorded

/-! ## Zeroing -/

theorem zeroed_of_apart {s : Span} {v : Nat} (h : Apart ⟨p, size⟩ s) (hlow : s.start ≤ a)
    (hhigh : a < s.finish) : zeroed p size a v = v := by
  apply if_neg
  intro hin
  simp only [Apart, finish] at h hhigh
  omega

/-- What zeroing a range of the pool does not change. -/
structure ZeroFrame (t : NcPool) (L : Layout) (t' : NcPool) : Prop where
  max : t'.max = t.max
  current : t'.current = t.current
  large : t'.large = t.large
  cleanup : t'.cleanup = t.cleanup
  data : ∀ b ∈ L.bases, t'.data b = t.data b
  largeAt : ∀ l ∈ L.records, t'.largeAt l = t.largeAt l

theorem Shape.memsetZero_frame (h : Shape t psize L) (hs : (⟨p, size⟩ : Span) ∈ L.ranges) :
    ZeroFrame t L (memsetZero t p size) := by
  obtain ⟨hheader, hrecord⟩ := h.apart_own hs
  have hpool := hheader _ h.base_mem
  rw [headerSize, if_pos rfl] at hpool
  have hfield : ∀ i v, i < sizeofNcPool → zeroed p size (t.base + i) v = v :=
    fun i v hi => zeroed_of_apart hpool (Nat.le_add_right _ _) (Nat.add_lt_add_left hi _)
  refine ⟨hfield 32 _ (by decide), hfield 40 _ (by decide), hfield 48 _ (by decide),
    hfield 56 _ (by decide), fun b hb => ?_, fun l hl => ?_⟩
  · have hword : ∀ i v, i < sizeofNcPoolData → zeroed p size (b + i) v = v :=
      fun i v hi => zeroed_of_apart (hheader b hb) (Nat.le_add_right _ _)
        (Nat.add_lt_add_left (hi.trans_le (headerSize_bounds t b).1) _)
    have hfirst : ∀ v, zeroed p size b v = v := fun v => hword 0 v (by decide)
    simp only [memsetZero, hfirst, hword 8 _ (by decide), hword 16 _ (by decide),
      hword 24 _ (by decide)]
  · have hword : ∀ i v, i < sizeofNcPoolLarge → zeroed p size (l + i) v = v :=
      fun i v hi => zeroed_of_apart (hrecord l hl) (Nat.le_add_right _ _)
        (Nat.add_lt_add_left hi _)
    have hfirst : ∀ v, zeroed p size l v = v := fun v => hword 0 v (by decide)
    simp only [memsetZero, hfirst, hword 8 _ (by decide)]

theorem memsetZero_cleanupAt {c : Nat} (h : Apart ⟨p, size⟩ ⟨c, sizeofNcPoolCleanup⟩) :
    (memsetZero t p size).cleanupAt c = t.cleanupAt c := by
  have hword : ∀ i v, i < sizeofNcPoolCleanup → zeroed p size (c + i) v = v :=
    fun i v hi => zeroed_of_apart h (Nat.le_add_right _ _) (Nat.add_lt_add_left hi _)
  have hfirst : ∀ v, zeroed p size c v = v := fun v => hword 0 v (by decide)
  simp only [memsetZero, hfirst, hword 8 _ (by decide), hword 16 _ (by decide)]

theorem Rep.memsetZero_spec (h : Rep t psize L) (hs : (⟨p, size⟩ : Span) ∈ L.ranges) :
    Rep (memsetZero t p size) psize L ∧ Kept p size t (memsetZero t p size) := by
  have hframe := h.memsetZero_frame hs
  exact ⟨h.congr rfl hframe.max hframe.current hframe.large rfl hframe.data hframe.largeAt,
    rfl, hframe.max, hframe.cleanup, fun c hc => memsetZero_cleanupAt hc⟩

/-! ## The allocations -/

/-- `nc_palloc` and `nc_pnalloc`, which differ in the alignment of small ranges. -/
def allocWith (malloc : Allocator) (fuel : Nat) (align : Bool) (t : NcPool) (size : Nat) :
    Option (Nat × NcPool) :=
  if size ≤ t.max then ncPallocSmall malloc fuel t size align
  else ncPallocLarge malloc fuel t size

theorem ncPalloc_eq : ncPalloc malloc fuel t size = allocWith malloc fuel true t size := rfl

theorem ncPnalloc_eq : ncPnalloc malloc fuel t size = allocWith malloc fuel false t size := rfl

theorem Rep.small_spec (h : Rep t psize L) (hm : malloc.Lawful) (hsize : size ≤ t.max)
    (hfuel : L.blocks.length ≤ fuel)
    (hsafe : align = true → RoundsInside t size fuel t.current) :
    ∃ p t', ncPallocSmall malloc fuel t size align = some (p, t') ∧
      (align = true → ncAlignment ∣ p) ∧ AllocResult psize L size t p t' ∧
      Outside L.ranges t t' ∧
      (p ≠ null → ∃ blocks, Taken L blocks p size ∧
        Rep t' psize { L with blocks := blocks, spans := ⟨p, size⟩ :: L.spans }) := by
  obtain ⟨p, t', hrun, hdvd, hlists, hresult⟩ :=
    h.toShape.ncPallocSmall_spec hm (h.data_le hsize) hfuel hsafe
  refine ⟨p, t', hrun, hdvd, ?_⟩
  have hsame : Libnc.Pool.allocs t' L.records = Libnc.Pool.allocs t L.records :=
    allocs_congr fun l _ => by rw [hlists.largeAt]
  rcases hresult with ⟨rfl, hu⟩ | ⟨hp, blocks, hshape, htaken, hdata⟩
  · exact ⟨⟨hlists.kept, .inl ⟨rfl, hu⟩⟩, hu.outside, fun hp => absurd rfl hp⟩
  · have hrep : Rep t' psize { L with blocks := blocks, spans := ⟨p, size⟩ :: L.spans } :=
      ⟨hshape, hsame ▸ h.recorded⟩
    have hout := hshape.outside hdata (fun l _ => congrFun hlists.largeAt l) hlists.cleanupAt
    exact ⟨⟨hlists.kept, .inr ⟨hp, _, hrep, .small hsize htaken.bases htaken.length⟩⟩,
      hout.mono fun s hs => List.mem_cons_of_mem _ hs, fun _ => ⟨blocks, htaken, hrep⟩⟩

/-- Rounding stays inside the blocks in every search that the call makes. -/
def AllocInside (malloc : Allocator) (fuel : Nat) (align : Bool) (t : NcPool) (size : Nat) :
    Prop :=
  if size ≤ t.max then align = true → RoundsInside t size fuel t.current
  else RecordInside malloc fuel t size

instance decidableAllocInside (malloc : Allocator) (fuel : Nat) (align : Bool) (t : NcPool)
    (size : Nat) : Decidable (AllocInside malloc fuel align t size) :=
  have := decidableRoundsInside t size fuel t.current
  have := decidableRecordInside malloc fuel t size
  inferInstanceAs (Decidable (if size ≤ t.max then align = true →
    RoundsInside t size fuel t.current else RecordInside malloc fuel t size))

/-- In blocks whose size is a multiple of the alignment it always does. -/
theorem Rep.allocInside (h : Rep t psize L) (hdvd : ncAlignment ∣ psize) (align : Bool)
    (size : Nat) : AllocInside malloc fuel align t size := by
  unfold AllocInside
  split
  · exact fun _ => h.roundsInside hdvd h.current_mem
  · exact fun _ _ => h.roundsInside hdvd h.current_mem

theorem Rep.allocWith_spec (h : Rep t psize L) (hm : malloc.Lawful)
    (hinside : AllocInside malloc fuel align t size) (hfuel : L.length < fuel) :
    ∃ p t', allocWith malloc fuel align t size = some (p, t') ∧
      (align = true → ncAlignment ∣ p) ∧ AllocResult psize L size t p t' ∧
      Outside L.ranges t t' := by
  by_cases hsize : size ≤ t.max
  · have hblocks : L.blocks.length ≤ fuel := by
      simp only [Layout.length] at hfuel
      omega
    rw [AllocInside, if_pos hsize] at hinside
    obtain ⟨p, t', hrun, halign, hresult, hout, -⟩ := h.small_spec hm hsize hblocks hinside
    exact ⟨p, t', (if_pos hsize).trans hrun, halign, hresult, hout⟩
  · rw [AllocInside, if_neg hsize] at hinside
    obtain ⟨p, t', hrun, halign, hresult⟩ :=
      h.ncPallocLarge_spec hm hinside (not_le.mp hsize) hfuel
    exact ⟨p, t', (if_neg hsize).trans hrun, fun _ => halign, hresult⟩

theorem Grown.mem {max : Nat} {new : List Span} (h : Grown max new L L') {s : Span}
    (hs : s ∈ new) : s ∈ L'.ranges :=
  h.ranges.mem_iff.mpr (List.mem_append_left _ hs)

theorem Grown.mono {max : Nat} {new : List Span} (h : Grown max new L L') {s : Span}
    (hs : s ∈ L.ranges) : s ∈ L'.ranges :=
  h.ranges.mem_iff.mpr (List.mem_append_right _ hs)

theorem Rep.ncPcalloc_spec (h : Rep t psize L) (hm : malloc.Lawful)
    (hinside : AllocInside malloc fuel true t size) (hfuel : L.length < fuel) :
    ∃ p t', ncPcalloc malloc fuel t size = some (p, t') ∧ ncAlignment ∣ p ∧
      AllocResult psize L size t p t' := by
  obtain ⟨p, u, hrun, halign, ⟨hkept, hresult⟩, -⟩ := h.allocWith_spec hm hinside hfuel
  rw [← ncPalloc_eq] at hrun
  rcases hresult with ⟨rfl, hu⟩ | ⟨hp, L', hrep, hgrown⟩
  · exact ⟨null, u, by simp [ncPcalloc, hrun], Nat.dvd_zero _, hkept, .inl ⟨rfl, hu⟩⟩
  · obtain ⟨hrep', hkept'⟩ := hrep.memsetZero_spec (hgrown.mem List.mem_cons_self)
    refine ⟨p, memsetZero u p size, by simp [ncPcalloc, hrun, hp], halign rfl,
      ⟨hkept'.base.trans hkept.base, hkept'.max.trans hkept.max,
        hkept'.cleanup.trans hkept.cleanup, fun c hc => ?_⟩, .inr ⟨hp, L', hrep', hgrown⟩⟩
    rw [hkept'.cleanupAt c hc, hkept.cleanupAt c hc]

/-! ## Creation -/

theorem ncPoolCreate_spec (hm : malloc.Lawful) (hsize : sizeofNcPool ≤ psize)
    (hsys : t.system = ⟨[], []⟩) (hcreate : ncPoolCreate malloc t psize = (p, t'))
    (hp : p ≠ null) :
    ∃ b, Rep t' psize ⟨[b], [], [], []⟩ ∧ t'.base = p ∧ t'.cleanup = null ∧
      (t'.data p).failed = 0 ∧ t'.current = p := by
  have hempty : t.system.Sound := by
    rw [hsys]
    refine ⟨⟨fun calls hcalls q _ => ?_, by simp [handedOut, takenBack]⟩, rfl, .nil, by simp,
      by simp, by simp, by simp⟩
    rw [List.suffix_nil.mp hcalls]
    simp [handedOut, takenBack]
  have hpos : 0 < psize := Nat.lt_of_lt_of_le (by decide) hsize
  obtain ⟨q, sys, halloc, hsound, ⟨rfl, -⟩ | ⟨hq, hheld⟩⟩ := hempty.alloc hm hpos
  · simp only [ncPoolCreate, halloc, if_true, Prod.mk.injEq] at hcreate
    exact absurd hcreate.1.symm hp
  · simp only [ncPoolCreate, halloc, if_neg hq, Prod.mk.injEq] at hcreate
    obtain ⟨rfl, rfl⟩ := hcreate
    rw [hsys] at hheld
    have hbound : q + psize < 2 ^ 64 := hsound.bound ⟨q, psize⟩ (by simp [hheld])
    have hdiff : sizeDiff psize sizeofNcPool = psize - sizeofNcPool :=
      sizeDiff_of_le hsize (by omega)
    let b : Block :=
      { base := q
        region :=
          { low := q + sizeofNcPool, top := q + sizeofNcPool, high := q + psize
            low_le := le_rfl, top_le := Nat.add_le_add_left hsize q } }
    refine ⟨b, ⟨⟨hsize, ?_, ?_, by simp, ?_, ?_, ?_, ?_, ?_, rfl, ?_, hsound, ?_⟩, .nil⟩, rfl,
      rfl, ?_, rfl⟩
    · exact congrArg (min · ncMaxAllocFromPool) hdiff
    · exact ⟨rfl, hq, by simp [b, NcPool.putData, Listed]⟩
    · simp [b, headerSize]
    · simp [b, NcPool.putData]
    · simp [b, NcPool.putData]
    · simp [b]
    · exact List.mem_singleton.mpr rfl
    · exact .of_eq hheld
    · exact ⟨by simp [Layout.regions, Separate], .nil, by simp [Layout.recordSpans]⟩
    · simp [NcPool.putData]

/-! ## Cleanup records -/

theorem Shape.ranges_separate (h : Shape t psize L) : Separate L.ranges := by
  refine h.separate.subperm (List.Sublist.subperm ?_)
  exact (List.sublist_append_left _ _).append (List.sublist_append_left _ _)

theorem Grown.apart {max : Nat} {s : Span} (h : Grown max [s] L L') (h' : Shape t psize L') :
    ∀ u ∈ L.ranges, s.Apart u :=
  (List.pairwise_cons.mp (h'.ranges_separate.perm h.ranges)).1

/-- The record and the data area of a registration. -/
def registered (c data size : Nat) : List Span :=
  if size = 0 then [⟨c, sizeofNcPoolCleanup⟩] else [⟨data, size⟩, ⟨c, sizeofNcPoolCleanup⟩]

/-- What a registration with `size` bytes of data that returns `c` leaves behind. -/
structure CleanupResult (psize : Nat) (L : Layout) (size : Nat) (t : NcPool) (c : Nat)
    (t' : NcPool) : Prop where
  base : t'.base = t.base
  max : t'.max = t.max
  outside : Outside L.ranges t t'
  result :
    c = null ∧ t'.cleanup = t.cleanup ∧
        (∃ new L', Rep t' psize L' ∧ Grown t.max new L L' ∧ new.length ≤ 1) ∨
      c ≠ null ∧ t'.cleanup = c ∧ ∃ data L', t'.cleanupAt c = ⟨null, data, t.cleanup⟩ ∧
        (data = null ↔ size = 0) ∧ Rep t' psize L' ∧ Grown t.max (registered c data size) L L'

theorem Rep.putCleanup (h : Rep t psize L) (c cleanup : Nat) (r : NcPoolCleanup) :
    Rep { t.putCleanup c r with cleanup := cleanup } psize L :=
  h.congr rfl rfl rfl rfl rfl (fun _ _ => rfl) fun _ _ => rfl

theorem Outside.putCleanup {ranges : List Span} (h : Outside ranges t t') {c : Nat}
    (hc : ∀ s ∈ ranges, s.Apart ⟨c, sizeofNcPoolCleanup⟩) (cleanup : Nat) (r : NcPoolCleanup) :
    Outside ranges t { t'.putCleanup c r with cleanup := cleanup } := by
  refine h.trans ⟨fun _ hne => absurd rfl hne, fun _ hne => absurd rfl hne, fun q hne s hs => ?_⟩
  by_cases hq : q = c
  · exact hq ▸ hc s hs
  · exact absurd (Function.update_of_ne hq _ _) hne

theorem CleanupResult.frame {c q : Nat} (h : CleanupResult psize L size t c t')
    (hq : ⟨q, sizeofNcPoolCleanup⟩ ∈ L.ranges) : t'.cleanupAt q = t.cleanupAt q := by
  by_contra hne
  have hpos : 0 < sizeofNcPoolCleanup := by decide
  exact (h.outside.cleanupAt q hne _ hq).start_ne hpos hpos rfl

theorem AllocResult.cleanup_frame {c : Nat} {u : NcPool}
    (h : AllocResult psize L sizeofNcPoolCleanup t c u) (hc : c ≠ null) :
    ∃ L', Rep u psize L' ∧ Grown t.max [⟨c, sizeofNcPoolCleanup⟩] L L' ∧
      ∀ s ∈ L.ranges, s.Apart ⟨c, sizeofNcPoolCleanup⟩ := by
  obtain ⟨hkept, ⟨rfl, -⟩ | ⟨-, L', hrep, hgrown⟩⟩ := h
  · exact absurd rfl hc
  · exact ⟨L', hrep, hgrown, fun s hs => (hgrown.apart hrep.toShape s hs).symm⟩

/-- The same for the two allocations of a registration. -/
def CleanupInside (malloc : Allocator) (fuel : Nat) (t : NcPool) (size : Nat) : Prop :=
  AllocInside malloc fuel true t sizeofNcPoolCleanup ∧
    (size ≠ 0 → ∀ r ∈ ncPalloc malloc fuel t sizeofNcPoolCleanup, r.1 ≠ null →
      AllocInside malloc fuel true r.2 size)

instance decidableCleanupInside (malloc : Allocator) (fuel : Nat) (t : NcPool) (size : Nat) :
    Decidable (CleanupInside malloc fuel t size) :=
  inferInstanceAs (Decidable (_ ∧ (_ → ∀ r ∈ ncPalloc malloc fuel t sizeofNcPoolCleanup,
    r.1 ≠ null → AllocInside malloc fuel true r.2 size)))

theorem Rep.cleanupInside (h : Rep t psize L) (hm : malloc.Lawful) (hdvd : ncAlignment ∣ psize)
    (hfuel : L.length < fuel) (size : Nat) : CleanupInside malloc fuel t size := by
  refine ⟨h.allocInside hdvd _ _, ?_⟩
  rintro - ⟨c, u⟩ hrecord hc
  obtain ⟨c', u', hrun, -, ⟨-, hresult⟩, -⟩ :=
    h.allocWith_spec hm (h.allocInside hdvd true sizeofNcPoolCleanup) hfuel
  rw [← ncPalloc_eq] at hrun
  obtain ⟨rfl, rfl⟩ := Prod.mk.inj (Option.some.inj (hrun.symm.trans hrecord))
  rcases hresult with ⟨rfl, -⟩ | ⟨-, L', hrep, -⟩
  · exact absurd rfl hc
  · exact hrep.allocInside hdvd _ _

theorem Rep.ncPoolCleanupAdd_spec (h : Rep t psize L) (hm : malloc.Lawful)
    (hinside : CleanupInside malloc fuel t size) (hfuel : L.length + 2 < fuel) :
    ∃ c t', ncPoolCleanupAdd malloc fuel t size = some (c, t') ∧
      CleanupResult psize L size t c t' := by
  have hfuel₁ : L.length < fuel := by omega
  obtain ⟨c, u, hrecord, -, hresult, hout₁⟩ := h.allocWith_spec hm hinside.1 hfuel₁
  rw [← ncPalloc_eq] at hrecord
  by_cases hc : c = null
  · subst hc
    obtain ⟨hkept, ⟨-, hu⟩ | ⟨hne, -⟩⟩ := hresult
    · refine ⟨null, u, by simp [ncPoolCleanupAdd, hrecord], hkept.base, hkept.max, hout₁,
        .inl ⟨rfl, hkept.cleanup, [], L, hu.rep h, ?_, Nat.zero_le _⟩⟩
      exact ⟨List.prefix_refl _, Nat.le_refl _, .refl _, id⟩
    · exact absurd rfl hne
  · have hkept := hresult.kept
    obtain ⟨L₁, hrep₁, hgrown₁, hapart⟩ := hresult.cleanup_frame hc
    have hfuel₂ : L₁.length < fuel := by
      have := hgrown₁.length
      simp only [List.length_singleton] at this
      omega
    by_cases hsize : size = 0
    · subst hsize
      refine ⟨c, { u.putCleanup c ⟨null, null, u.cleanup⟩ with cleanup := c },
        by simp [ncPoolCleanupAdd, hrecord, hc, NcPool.putCleanup],
        hkept.base, hkept.max, hout₁.putCleanup hapart _ _, .inr ⟨hc, rfl, null, L₁, ?_, by simp,
          hrep₁.putCleanup c c _, hgrown₁⟩⟩
      simp [NcPool.putCleanup, hkept.cleanup]
    · obtain ⟨data, v, hdata, -, ⟨hkept₂, hresult₂⟩, hout₂⟩ :=
        hrep₁.allocWith_spec hm (hinside.2 hsize _ hrecord hc) hfuel₂
      rw [← ncPalloc_eq] at hdata
      have hout := hout₁.trans (hout₂.mono fun s hs => hgrown₁.mono hs)
      rcases hresult₂ with ⟨rfl, hv⟩ | ⟨hne, L₂, hrep₂, hgrown₂⟩
      · -- the record stays behind, but not in the list
        refine ⟨null, v.putCleanup c { v.cleanupAt c with data := null },
          by simp [ncPoolCleanupAdd, hrecord, hc, hsize, hdata], hkept₂.base.trans hkept.base,
          hkept₂.max.trans hkept.max, hout.putCleanup hapart v.cleanup _,
          .inl ⟨rfl, hkept₂.cleanup.trans hkept.cleanup, _, L₁, ?_, hgrown₁, Nat.le_refl _⟩⟩
        exact (hv.rep hrep₁).putCleanup c v.cleanup _
      · refine ⟨c, { v.putCleanup c ⟨null, data, v.cleanup⟩ with cleanup := c },
          by simp [ncPoolCleanupAdd, hrecord, hc, hsize, hdata, hne, NcPool.putCleanup],
          hkept₂.base.trans hkept.base, hkept₂.max.trans hkept.max, hout.putCleanup hapart _ _,
          .inr ⟨hc, rfl, data, L₂, ?_, by simp [hne, hsize], hrep₂.putCleanup c c _, ?_⟩⟩
        · simp [NcPool.putCleanup, hkept₂.cleanup, hkept.cleanup]
        · unfold registered
          rw [if_neg hsize]
          exact hgrown₁.trans (hkept.max ▸ hgrown₂)

end Libnc.Pool
