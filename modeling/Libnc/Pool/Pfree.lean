import Libnc.Pool.Session

/-!
# Which pointers `nc_pfree` recognises

The large blocks that the caller owns are those that the records have, whatever has
been released and whichever records have been used again.  The search of `nc_pfree` for
another pointer than NULL finds a record exactly when it is one of them; NULL is what a
record without a block has.
-/

namespace Libnc.Pool

open Libnc.Foundation Span

variable {malloc : Allocator} {s s' : Session} {L L' : Layout} {psize fuel p : Nat} {op : Op}
variable {t t' t₀ : NcPool} {b : Span}

/-- The large blocks handed out since the last reset and not released. -/
def liveLarge (s : Session) : List Span :=
  (live s.pool.max s.log).filter fun b => decide (s.pool.max < b.size)

/-- A record of the large list has no block. -/
def HasIdleRecord (t : NcPool) : Prop :=
  ∃ records, Listed (fun l => (t.largeAt l).next) null t.large records ∧
    ∃ l ∈ records, (t.largeAt l).alloc = null

/-- The block `b` and nothing else has been freed, and its record has no block any more. -/
structure Released (b : Span) (t t' : NcPool) : Prop where
  held : t.system.held.Perm (b :: t'.system.held)
  calls : t'.system.calls = .free b.start :: t.system.calls
  record : ∃ records l, Listed (fun l => (t.largeAt l).next) null t.large records ∧
    l ∈ records ∧ (t.largeAt l).alloc = b.start ∧
    t' = (t.setSystem t'.system).putLarge l { t.largeAt l with alloc := null }

/-- `nc_pfree` for `p` succeeds, and then releases, exactly when `p` is a live large block. -/
structure PfreeExact (s : Session) (p : Nat) (result : Int) (t' : NcPool) : Prop where
  ok_iff : result = 0 ↔ ∃ b ∈ liveLarge s, b.start = p
  released : result = 0 → ∃ b ∈ liveLarge s, b.start = p ∧ Released b s.pool t'
  refused : result ≠ 0 → result = -1 ∧ t' = s.pool

/-! ## One call -/

theorem Rep.larges_perm (h : Rep t psize L) (h' : Rep t psize L') : L.larges.Perm L'.larges := by
  have hbases : L.bases = L'.bases := h.chain.unique h'.chain
  have hheld := h.held.symm.trans h'.held
  rw [hbases] at hheld
  exact (List.perm_append_left_iff _).mp hheld

theorem Rep.hasIdleRecord_iff (h : Rep t psize L) :
    HasIdleRecord t ↔ ∃ l ∈ L.records, (t.largeAt l).alloc = null := by
  constructor
  · rintro ⟨records, hlisted, hidle⟩
    rwa [h.records.unique hlisted]
  · exact fun hidle => ⟨L.records, h.records, hidle⟩

theorem Rep.released (h : Rep t psize L) {l : Nat} {sys : System} (hl : l ∈ L.records)
    (hb : b ∈ L.larges) (halloc : (t.largeAt l).alloc = b.start)
    (hfree : t.system.free b.start = some sys) :
    Released b t ((t.setSystem sys).putLarge l { t.largeAt l with alloc := null }) := by
  have hmem : b ∈ t.system.held := h.held.mem_iff.mpr (List.mem_append_right _ hb)
  have hsplit := List.perm_cons_erase hmem
  obtain ⟨sys', hfree', -, hrest⟩ := h.system.free_perm hsplit
  obtain rfl := Option.some.inj (hfree.symm.trans hfree')
  have hne : b.start ≠ null := (h.system.start_pos b hmem).ne'
  have hcalls := System.free_calls hfree
  rw [if_neg hne] at hcalls
  exact ⟨hsplit.trans (hrest.symm.cons b), hcalls, L.records, l, h.records, hl, halloc, rfl⟩

/-- When the live blocks are those of the records, the one pointer that misleads is NULL. -/
theorem Rep.ncPfree_exact_iff (h : Rep s.pool psize L) (hlive : (liveLarge s).Perm L.larges)
    (hfuel : L.records.length < fuel) (p : Nat) :
    (∃ result t', ncPfree fuel s.pool p = some (result, t') ∧ PfreeExact s p result t') ↔
      ¬(p = null ∧ HasIdleRecord s.pool) := by
  obtain ⟨result, t', hrun, hresult⟩ := h.ncPfree_result hfuel p
  have hmem : ∀ b, b ∈ liveLarge s ↔ b ∈ L.larges := fun b => hlive.mem_iff
  cases hresult with
  | missing hnone =>
      have hnot : ¬∃ b ∈ liveLarge s, b.start = p := by
        rintro ⟨b, hb, rfl⟩
        have hstart := List.mem_map_of_mem (f := start) ((hmem b).mp hb)
        obtain ⟨-, r, hr, halloc⟩ := mem_allocs.mp (h.recorded.mem_iff.mp hstart)
        exact hnone r hr halloc
      refine iff_of_true ⟨-1, _, hrun, ⟨by simp [hnot], by simp, fun _ => ⟨rfl, rfl⟩⟩⟩ ?_
      rintro ⟨rfl, hidle⟩
      obtain ⟨l, hl, halloc⟩ := h.hasIdleRecord_iff.mp hidle
      exact hnone l hl halloc
  | idle hp hl halloc =>
      refine iff_of_false ?_ (not_not_intro ⟨hp, h.hasIdleRecord_iff.mpr ⟨_, hl, halloc⟩⟩)
      rintro ⟨result, t', hrun', hexact⟩
      obtain ⟨rfl, rfl⟩ := Prod.mk.inj (Option.some.inj (hrun.symm.trans hrun'))
      obtain ⟨b, hb, hstart⟩ := hexact.ok_iff.mp rfl
      exact h.null_not_mem (hp ▸ hstart ▸ List.mem_map_of_mem ((hmem b).mp hb))
  | @released l b sys hl hb hp halloc hfree hheld hsys =>
      have hlarge : b ∈ liveLarge s := (hmem b).mpr hb
      have hne : p ≠ null := fun hnull => h.null_not_mem (hnull ▸ hp ▸ List.mem_map_of_mem hb)
      refine iff_of_true ⟨0, _, hrun, ?_⟩ fun hidle => hne hidle.1
      exact ⟨iff_of_true rfl ⟨b, hlarge, hp.symm⟩,
        fun _ => ⟨b, hlarge, hp.symm, h.released hl hb halloc hfree⟩, fun hne => absurd rfl hne⟩

/-! ## Every run -/

/-- The caller's large blocks are those of the records. -/
def Tracked (psize : Nat) (s : Session) : Prop :=
  ∀ L, Rep s.pool psize L → (liveLarge s).Perm L.larges

theorem Tracked.of_rep (h : Rep s.pool psize L) (hlive : (liveLarge s).Perm L.larges) :
    Tracked psize s := fun _ h' => hlive.trans (h.larges_perm h')

theorem Layout.Sized.filter_ranges {max : Nat} (h : L.Sized max) :
    L.ranges.filter (fun b => decide (max < b.size)) = L.larges := by
  have hspans : L.spans.filter (fun b => decide (max < b.size)) = [] := by
    apply List.filter_eq_nil_iff.mpr
    intro b hb
    simpa using h.spans b hb
  have hlarges : L.larges.filter (fun b => decide (max < b.size)) = L.larges := by
    apply List.filter_eq_self.mpr
    intro b hb
    simpa using h.larges b hb
  rw [Layout.ranges, List.filter_append, hspans, hlarges, List.nil_append]

theorem Grown.larges_perm {max : Nat} {new : List Span} (h : Grown max new L L')
    (hsized : L.Sized max) :
    L'.larges.Perm (new.filter (fun b => decide (max < b.size)) ++ L.larges) := by
  have hranges := h.ranges.filter fun b => decide (max < b.size)
  rwa [List.filter_append, hsized.filter_ranges, (h.sized hsized).filter_ranges] at hranges

theorem Tracked.alloc (h : Tracked psize s) (hsound : Sound psize s L) {align : Bool} {size : Nat}
    (hresult : AllocResult psize L size s.pool p t) :
    Tracked psize ⟨t, .alloc align size p :: s.log⟩ := by
  have hlive := h L hsound.rep
  obtain ⟨hkept, ⟨rfl, hu⟩ | ⟨hp, L', hrep, hgrown⟩⟩ := hresult
  · apply Tracked.of_rep (hu.rep hsound.rep)
    unfold liveLarge
    rw [hkept.max, live, Event.ranges, if_pos rfl]
    exact hlive
  · apply Tracked.of_rep hrep
    unfold liveLarge
    rw [hkept.max, live, Event.ranges, if_neg hp, List.filter_append]
    exact (hlive.append_left _).trans (hgrown.larges_perm hsound.sized).symm

theorem Tracked.pfree (h : Tracked psize s) (hsound : Sound psize s L) {result : Int}
    (hfreed : Freed s.pool t)
    (hrep : Rep t psize { L with larges := L.larges.filter (·.start != p) })
    (hresult : result = 0 ∨ result = -1 ∧ t = s.pool ∧ p ∉ L.larges.map start) :
    Tracked psize ⟨t, .pfree p result :: s.log⟩ := by
  have hlive := h L hsound.rep
  have hmax : t.max = s.pool.max := by rw [hfreed.eq]
  rcases hresult with rfl | ⟨rfl, rfl, -⟩
  · apply Tracked.of_rep hrep
    have hsame : liveLarge ⟨t, .pfree p 0 :: s.log⟩ =
        (liveLarge s).filter (·.start != p) := by
      unfold liveLarge
      rw [hmax, live, if_pos rfl, List.filter_filter, List.filter_filter]
      apply List.filter_congr
      intro b _
      by_cases hlarge : s.pool.max < b.size <;> simp [hlarge, bne]
    rw [hsame]
    exact hlive.filter _
  · exact .of_rep hsound.rep hlive

theorem Tracked.step (h : Tracked psize s) (hsound : Sound psize s L)
    (hstep : StepResult psize L s op s') (hop : ∀ size handler, op ≠ .cleanupAdd size handler) :
    Tracked psize s' := by
  cases hstep with
  | alloc _ _ hresult => exact h.alloc hsound hresult
  | pfree hfreed hrep hresult => exact h.pfree hsound hfreed hrep hresult
  | @cleanupAdd size handler => exact absurd rfl (hop size handler)
  | reset hrep hreset => exact .of_rep hrep .nil

/--
After every run of calls that stay inside the blocks `nc_pfree` recognises exactly the
live large blocks, for every pointer but NULL while a record has no block.
-/
theorem ncPool_pfree_exact_iff (hm : malloc.Lawful) (hcreate : Created malloc psize t₀ t)
    {ops : List Op} (hops : ∀ op ∈ ops, ∀ size handler, op ≠ .cleanupAdd size handler)
    (hfuel : 4 * ops.length + 4 ≤ fuel)
    (hinside : Along (step malloc fuel) (StaysInside malloc fuel) (opened t) ops) :
    ∃ s, run (step malloc fuel) (opened t) ops = some s ∧ ∀ p,
      (∃ result t', ncPfree fuel s.pool p = some (result, t') ∧ PfreeExact s p result t') ↔
        ¬(p = null ∧ HasIdleRecord s.pool) := by
  have hinit : Tracked psize (opened t) := by
    obtain ⟨b, hrep, -⟩ :=
      ncPoolCreate_spec hm hcreate.size hcreate.system hcreate.create hcreate.base
    exact .of_rep hrep .nil
  obtain ⟨s, L, hrun, hsound, htracked, hlen, -⟩ := run_inside hm hcreate (Tracked psize)
    (fun s op => StaysInside malloc fuel s op ∧ ∀ size handler, op ≠ .cleanupAdd size handler)
    (fun _ _ _ _ _ hok => hok.1) hinit
    (fun s L op s' L' hs hs' hres hok hinv => hinv.step hs hres hok.2) hfuel
    (hinside.and (Along.of_forall fun _ op hop => hops op hop))
  refine ⟨s, hrun, hsound.rep.ncPfree_exact_iff (htracked L hsound.rep) ?_⟩
  simp only [Layout.length] at hlen
  omega

/-- A record used again, and one that has no block, in a pool of 133 bytes. -/
theorem ncPool_pfree_exact_iff_reused :
    ∃ s, run (step (bump []) 32) (opened (fresh [] 133))
        [.palloc 100, .pcalloc 200, .pfree 4240, .pnalloc 70, .pfree 4352] = some s ∧ ∀ p,
      (∃ result t', ncPfree 32 s.pool p = some (result, t') ∧ PfreeExact s p result t') ↔
        ¬(p = null ∧ HasIdleRecord s.pool) :=
  ncPool_pfree_exact_iff (bump_lawful [])
    (show Created (bump []) 133 blank (fresh [] 133) from ⟨rfl, by decide, rfl, by decide⟩)
    (by simp) (by decide) (by decide +kernel)

/-- Once a large block has been released `nc_pfree` accepts NULL. -/
theorem ncPfree_accepts_null :
    Created (bump []) 128 blank (fresh [] 128) ∧
      ∃ s r, run (step (bump []) 16) (opened (fresh [] 128)) [.palloc 100, .pfree 4224] = some s ∧
        ncPfree 16 s.pool null = some r ∧ r.1 = 0 ∧ liveLarge s = [] ∧
        ¬PfreeExact s null r.1 r.2 := by
  have hlive : liveLarge (Option.get (run (step (bump []) 16) (opened (fresh [] 128))
      [.palloc 100, .pfree 4224]) (by decide +kernel)) = [] := by decide +kernel
  refine ⟨⟨rfl, by decide, rfl, by decide⟩, _, Option.get _ (by decide +kernel),
    (Option.some_get _).symm, (Option.some_get _).symm, by decide +kernel, hlive, fun h => ?_⟩
  obtain ⟨b, hb, -⟩ := h.ok_iff.mp (by decide +kernel)
  rw [hlive] at hb
  cases hb

end Libnc.Pool
