import Libnc.Foundation.Run
import Libnc.Pool.Interface
import Libnc.Pool.Release

/-!
# Runs of a pool

A session is a pool with the log of the calls that its caller has made and of
their answers.  What the caller owns is read off the log.
-/

namespace Libnc.Pool

open Libnc.Foundation Span

inductive Op where
  | palloc (size : Nat)
  | pnalloc (size : Nat)
  | pcalloc (size : Nat)
  | pfree (p : Nat)
  | cleanupAdd (size handler : Nat)
  | reset
  deriving DecidableEq, Repr

/-- A call with its answer; `aligned` tells `nc_palloc` and `nc_pcalloc` from `nc_pnalloc`. -/
inductive Event where
  | alloc (aligned : Bool) (size p : Nat)
  | pfree (p : Nat) (result : Int)
  | cleanupAdd (size handler c data : Nat)
  | reset
  deriving DecidableEq, Repr

structure Session where
  pool : NcPool
  log : List Event

/-- The caller of `nc_pool_cleanup_add` sets the handler of the record. -/
def setHandler (t : NcPool) (c handler : Nat) : NcPool :=
  if c = null then t else t.putCleanup c { t.cleanupAt c with handler := handler }

def step (malloc : Allocator) (fuel : Nat) (s : Session) : Op → Option Session
  | .palloc size => do
      let (p, t) ← ncPalloc malloc fuel s.pool size
      some ⟨t, .alloc true size p :: s.log⟩
  | .pnalloc size => do
      let (p, t) ← ncPnalloc malloc fuel s.pool size
      some ⟨t, .alloc false size p :: s.log⟩
  | .pcalloc size => do
      let (p, t) ← ncPcalloc malloc fuel s.pool size
      some ⟨t, .alloc true size p :: s.log⟩
  | .pfree p => do
      let (result, t) ← ncPfree fuel s.pool p
      some ⟨t, .pfree p result :: s.log⟩
  | .cleanupAdd size handler => do
      let (c, t) ← ncPoolCleanupAdd malloc fuel s.pool size
      some ⟨setHandler t c handler, .cleanupAdd size handler c (t.cleanupAt c).data :: s.log⟩
  | .reset => do
      let t ← ncPoolReset fuel s.pool
      some ⟨t, .reset :: s.log⟩

/-- The ranges that a call hands out. -/
def Event.ranges : Event → List Span
  | .alloc _ size p => if p = null then [] else [⟨p, size⟩]
  | .cleanupAdd size _ c data => if c = null then [] else registered c data size
  | _ => []

/-- The ranges handed out since the last reset and not released; newest first. -/
def live (max : Nat) : List Event → List Span
  | [] => []
  | .pfree p result :: log =>
      if result = 0 then (live max log).filter fun s => !(s.start == p && decide (max < s.size))
      else live max log
  | .reset :: _ => []
  | .alloc align size p :: log => Event.ranges (.alloc align size p) ++ live max log
  | .cleanupAdd size handler c data :: log =>
      Event.ranges (.cleanupAdd size handler c data) ++ live max log

variable {malloc : Allocator} {s s' : Session} {L L' : Layout} {psize fuel p : Nat} {op : Op}
variable {t : NcPool}

/-! ## One step -/

/-- The size and the alignment that an allocating call asks for. -/
def Op.request : Op → Option (Bool × Nat)
  | .palloc size => some (true, size)
  | .pnalloc size => some (false, size)
  | .pcalloc size => some (true, size)
  | _ => none

/-- All that a call can do. -/
inductive StepResult (psize : Nat) (L : Layout) (s : Session) : Op → Session → Prop
  | alloc {op : Op} {align : Bool} {size p : Nat} {t : NcPool}
      (hop : op.request = some (align, size)) (halign : align = true → ncAlignment ∣ p)
      (h : AllocResult psize L size s.pool p t) :
      StepResult psize L s op ⟨t, .alloc align size p :: s.log⟩
  | pfree {p : Nat} {result : Int} {t : NcPool} (hfreed : Freed s.pool t)
      (hrep : Rep t psize { L with larges := L.larges.filter (·.start != p) })
      (hresult : result = 0 ∨ result = -1 ∧ t = s.pool ∧ p ∉ L.larges.map start) :
      StepResult psize L s (.pfree p) ⟨t, .pfree p result :: s.log⟩
  | cleanupAdd {size handler c : Nat} {t : NcPool} (h : CleanupResult psize L size s.pool c t) :
      StepResult psize L s (.cleanupAdd size handler)
        ⟨setHandler t c handler, .cleanupAdd size handler c (t.cleanupAt c).data :: s.log⟩
  | reset {t : NcPool} (hrep : Rep t psize L.rewound) (h : Reset L s.pool t) :
      StepResult psize L s .reset ⟨t, .reset :: s.log⟩

/-- Rounding stays inside the blocks in every search that the call makes. -/
def StaysInside (malloc : Allocator) (fuel : Nat) (s : Session) : Op → Prop
  | .palloc size => AllocInside malloc fuel true s.pool size
  | .pnalloc size => AllocInside malloc fuel false s.pool size
  | .pcalloc size => AllocInside malloc fuel true s.pool size
  | .cleanupAdd size _ => CleanupInside malloc fuel s.pool size
  | .pfree _ => True
  | .reset => True

instance decidableStaysInside (malloc : Allocator) (fuel : Nat) (s : Session) :
    ∀ op, Decidable (StaysInside malloc fuel s op)
  | .palloc size => decidableAllocInside malloc fuel true s.pool size
  | .pnalloc size => decidableAllocInside malloc fuel false s.pool size
  | .pcalloc size => decidableAllocInside malloc fuel true s.pool size
  | .cleanupAdd size _ => decidableCleanupInside malloc fuel s.pool size
  | .pfree _ => isTrue trivial
  | .reset => isTrue trivial

theorem staysInside_of_dvd (h : Rep s.pool psize L) (hm : malloc.Lawful)
    (hdvd : ncAlignment ∣ psize) (hfuel : L.length < fuel) (op : Op) :
    StaysInside malloc fuel s op := by
  cases op with
  | palloc size => exact h.allocInside hdvd _ _
  | pnalloc size => exact h.allocInside hdvd _ _
  | pcalloc size => exact h.allocInside hdvd _ _
  | cleanupAdd size handler => exact h.cleanupInside hm hdvd hfuel size
  | pfree p => trivial
  | reset => trivial

theorem step_result (h : Rep s.pool psize L) (hm : malloc.Lawful)
    (hfuel : L.length + 2 < fuel) {op : Op} (hinside : StaysInside malloc fuel s op) :
    ∃ s', step malloc fuel s op = some s' ∧ StepResult psize L s op s' := by
  have hlen : L.length < fuel := by omega
  cases op with
  | palloc size =>
      obtain ⟨p, t, hrun, halign, hresult, -⟩ := h.allocWith_spec hm hinside hlen
      rw [← ncPalloc_eq] at hrun
      exact ⟨_, by simp only [step, hrun]; rfl, .alloc rfl halign hresult⟩
  | pnalloc size =>
      obtain ⟨p, t, hrun, halign, hresult, -⟩ := h.allocWith_spec hm hinside hlen
      rw [← ncPnalloc_eq] at hrun
      exact ⟨_, by simp only [step, hrun]; rfl, .alloc rfl halign hresult⟩
  | pcalloc size =>
      obtain ⟨p, t, hrun, halign, hresult⟩ := h.ncPcalloc_spec hm hinside hlen
      exact ⟨_, by simp only [step, hrun]; rfl, .alloc rfl (fun _ => halign) hresult⟩
  | pfree p =>
      have hrecords : L.records.length < fuel := by
        simp only [Layout.length] at hlen
        omega
      obtain ⟨result, t, hrun, hfreed, hrep, hresult⟩ := h.ncPfree_spec hrecords p
      exact ⟨_, by simp only [step, hrun]; rfl, .pfree hfreed hrep hresult⟩
  | cleanupAdd size handler =>
      obtain ⟨c, t, hrun, hresult⟩ := h.ncPoolCleanupAdd_spec hm hinside hfuel
      exact ⟨_, by simp only [step, hrun]; rfl, .cleanupAdd hresult⟩
  | reset =>
      obtain ⟨t, hrun, hrep, hreset⟩ := h.ncPoolReset_spec hlen
      exact ⟨_, by simp only [step, hrun]; rfl, .reset hrep hreset⟩

/-! ## The invariant -/

/-- The pool is in order and what its caller owns is among its ranges. -/
structure Sound (psize : Nat) (s : Session) (L : Layout) : Prop where
  rep : Rep s.pool psize L
  sized : L.Sized s.pool.max
  owned : (live s.pool.max s.log).Subperm L.ranges
  aligned : ∀ size p, .alloc true size p ∈ s.log → ncAlignment ∣ p

theorem Rep.setHandler (h : Rep t psize L) (c handler : Nat) :
    Rep (setHandler t c handler) psize L := by
  unfold Libnc.Pool.setHandler
  split
  · exact h
  · exact h.putCleanup c t.cleanup _

theorem filter_ranges {max : Nat} (h : L.Sized max) (p : Nat) :
    L.ranges.filter (fun s => !(s.start == p && decide (max < s.size))) =
      { L with larges := L.larges.filter (·.start != p) }.ranges := by
  rw [Layout.ranges, Layout.ranges, List.filter_append]
  congr 1
  · rw [List.filter_eq_self]
    intro s hs
    simp [(h.spans s hs).not_gt]
  · apply List.filter_congr
    intro s hs
    simp [h.larges s hs, bne]

theorem Sound.grown {new : List Span} {log : List Event} (h : Sound psize s L)
    (hrep : Rep t psize L') (hgrown : Grown s.pool.max new L L') (hmax : t.max = s.pool.max)
    (hlive : (live s.pool.max log).Subperm (new ++ live s.pool.max s.log))
    (haligned : ∀ size p, .alloc true size p ∈ log → ncAlignment ∣ p) :
    Sound psize ⟨t, log⟩ L' := by
  refine ⟨hrep, hmax ▸ hgrown.sized h.sized, ?_, haligned⟩
  rw [hmax]
  refine hlive.trans (.trans ?_ hgrown.ranges.symm.subperm)
  exact (List.subperm_append_left new).mpr h.owned

theorem setHandler_max (t : NcPool) (c handler : Nat) :
    (setHandler t c handler).max = t.max ∧ (setHandler t c handler).base = t.base := by
  unfold setHandler
  split <;> exact ⟨rfl, rfl⟩

theorem Sound.alloc (h : Sound psize s L) {align : Bool} {size p : Nat} {t : NcPool}
    (halign : align = true → ncAlignment ∣ p) (hresult : AllocResult psize L size s.pool p t) :
    ∃ L', Sound psize ⟨t, .alloc align size p :: s.log⟩ L' ∧ L'.length ≤ L.length + 4 := by
  have haligned : ∀ size' p', Event.alloc true size' p' ∈ .alloc align size p :: s.log →
      ncAlignment ∣ p' := fun size' p' hmem => by
    rcases List.mem_cons.mp hmem with heq | hmem
    · obtain ⟨rfl, -, rfl⟩ := Event.alloc.inj heq
      exact halign rfl
    · exact h.aligned _ _ hmem
  obtain ⟨hkept, ⟨rfl, hu⟩ | ⟨hp, L', hrep, hgrown⟩⟩ := hresult
  · refine ⟨L, ⟨hu.rep h.rep, hkept.max ▸ h.sized, ?_, haligned⟩, Nat.le_add_right _ _⟩
    rw [live, Event.ranges, if_pos rfl, hkept.max, List.nil_append]
    exact h.owned
  · refine ⟨L', h.grown hrep hgrown hkept.max ?_ haligned, ?_⟩
    · rw [live, Event.ranges, if_neg hp]
    · have hlen := hgrown.length
      simp only [List.length_singleton] at hlen
      omega

theorem Sound.pfree (h : Sound psize s L) {result : Int} {t : NcPool}
    (hfreed : Freed s.pool t)
    (hrep : Rep t psize { L with larges := L.larges.filter (·.start != p) })
    (hresult : result = 0 ∨ result = -1 ∧ t = s.pool ∧ p ∉ L.larges.map start) :
    ∃ L', Sound psize ⟨t, .pfree p result :: s.log⟩ L' ∧ L'.length ≤ L.length + 4 := by
  have hmax : t.max = s.pool.max := by rw [hfreed.eq]
  have haligned : ∀ size' p', Event.alloc true size' p' ∈ .pfree p result :: s.log →
      ncAlignment ∣ p' := fun size' p' hmem => h.aligned _ _ (by simpa using hmem)
  rcases hresult with rfl | ⟨rfl, rfl, -⟩
  · refine ⟨_, ⟨hrep, ?_, ?_, haligned⟩, Nat.le_add_right _ _⟩
    · exact ⟨hmax ▸ h.sized.spans, fun s hs => hmax ▸ h.sized.larges s (List.mem_filter.mp hs).1⟩
    · unfold live
      rw [if_pos rfl, hmax, ← filter_ranges h.sized p]
      exact h.owned.filter _
  · exact ⟨L, ⟨h.rep, h.sized, h.owned, haligned⟩, Nat.le_add_right _ _⟩

theorem Sound.cleanupAdd (h : Sound psize s L) {size handler c : Nat} {t : NcPool}
    (hresult : CleanupResult psize L size s.pool c t) :
    ∃ L', Sound psize
      ⟨setHandler t c handler, .cleanupAdd size handler c (t.cleanupAt c).data :: s.log⟩ L' ∧
      L'.length ≤ L.length + 4 := by
  have hmax : (setHandler t c handler).max = s.pool.max :=
    (setHandler_max t c handler).1.trans hresult.max
  have haligned : ∀ size' p',
      Event.alloc true size' p' ∈ .cleanupAdd size handler c (t.cleanupAt c).data :: s.log →
      ncAlignment ∣ p' := fun size' p' hmem => h.aligned _ _ (by simpa using hmem)
  rcases hresult.result with ⟨rfl, -, new, L', hrep, hgrown, hnew⟩ |
    ⟨hc, -, data, L', hrecord, -, hrep, hgrown⟩
  · refine ⟨L', h.grown (hrep.setHandler _ _) hgrown hmax ?_ haligned, ?_⟩
    · rw [live, Event.ranges, if_pos rfl]
      exact (List.sublist_append_right _ _).subperm
    · have hlen := hgrown.length
      omega
  · refine ⟨L', h.grown (hrep.setHandler _ _) hgrown hmax ?_ haligned, ?_⟩
    · rw [live, Event.ranges, if_neg hc, hrecord]
    · have hlen := hgrown.length
      have hnew : (registered c data size).length ≤ 2 := by
        unfold registered
        split <;> simp
      omega

theorem StepResult.sound (hstep : StepResult psize L s op s') (h : Sound psize s L) :
    ∃ L', Sound psize s' L' ∧ L'.length ≤ L.length + 4 := by
  cases hstep with
  | alloc hop halign hresult => exact h.alloc halign hresult
  | pfree hfreed hrep hresult => exact h.pfree hfreed hrep hresult
  | cleanupAdd hresult => exact h.cleanupAdd hresult
  | reset hrep hreset =>
      refine ⟨L.rewound, ⟨hrep, ⟨by simp [Layout.rewound], by simp [Layout.rewound]⟩,
        List.nil_subperm, fun size p hmem => h.aligned size p (by simpa using hmem)⟩, ?_⟩
      simp [Layout.length, Layout.rewound, Nat.add_assoc]

theorem StepResult.same (hstep : StepResult psize L s op s') :
    s'.pool.base = s.pool.base ∧ s'.pool.max = s.pool.max := by
  cases hstep with
  | alloc hop halign hresult => exact ⟨hresult.kept.base, hresult.kept.max⟩
  | pfree hfreed hrep hresult =>
      rw [hfreed.eq]
      exact ⟨rfl, rfl⟩
  | @cleanupAdd size handler c t hresult =>
      obtain ⟨hmax, hbase⟩ := setHandler_max t c handler
      exact ⟨hbase.trans hresult.base, hmax.trans hresult.max⟩
  | reset hrep hreset => exact ⟨hreset.base, hreset.max⟩

theorem StepResult.log (hstep : StepResult psize L s op s') : ∃ e, s'.log = e :: s.log := by
  cases hstep <;> exact ⟨_, rfl⟩

/-! ## Whole runs -/

/-- The session right after `nc_pool_create`. -/
def opened (t : NcPool) : Session := ⟨t, []⟩

/-- `t` is a fresh pool of `psize` bytes; `t₀` is the memory before. -/
structure Created (malloc : Allocator) (psize : Nat) (t₀ t : NcPool) : Prop where
  system : t₀.system = ⟨[], []⟩
  size : sizeofNcPool ≤ psize
  create : ncPoolCreate malloc t₀ psize = (t.base, t)
  base : t.base ≠ null

theorem step_inside (h : Sound psize s L) (hm : malloc.Lawful) (hfuel : L.length + 2 < fuel)
    {op : Op} (hinside : StaysInside malloc fuel s op) :
    ∃ s' L', step malloc fuel s op = some s' ∧ Sound psize s' L' ∧ L'.length ≤ L.length + 4 ∧
      StepResult psize L s op s' := by
  obtain ⟨s', hrun, hstep⟩ := step_result h.rep hm hfuel hinside
  obtain ⟨L', hs', hlen⟩ := hstep.sound h
  exact ⟨s', L', hrun, hs', hlen, hstep⟩

theorem step_spec (h : Sound psize s L) (hm : malloc.Lawful) (hdvd : ncAlignment ∣ psize)
    (hfuel : L.length + 2 < fuel) (op : Op) :
    ∃ s' L', step malloc fuel s op = some s' ∧ Sound psize s' L' ∧ L'.length ≤ L.length + 4 ∧
      StepResult psize L s op s' :=
  step_inside h hm hfuel (staysInside_of_dvd h.rep hm hdvd (by omega) op)

theorem Created.sound {t₀ : NcPool} (h : Created malloc psize t₀ t) (hm : malloc.Lawful) :
    ∃ L, Sound psize (opened t) L ∧ L.length = 1 ∧ t.cleanup = null ∧ t.current = t.base ∧
      (t.data t.base).failed = 0 := by
  obtain ⟨b, hrep, -, hcleanup, hfailed, hcurrent⟩ :=
    ncPoolCreate_spec hm h.size h.system h.create h.base
  exact ⟨_, ⟨hrep, ⟨by simp, by simp⟩, List.nil_subperm, by simp [opened]⟩, rfl, hcleanup, hcurrent,
    hfailed⟩

/--
Every run from a fresh pool whose calls stay inside the blocks returns.  A further
invariant of its states may use what the calls do, and a condition on the calls.
-/
theorem run_inside (hm : malloc.Lawful) {t₀ : NcPool} (hcreate : Created malloc psize t₀ t)
    (Inv : Session → Prop) (ok : Session → Op → Prop)
    (hinside : ∀ s L op, Sound psize s L → L.length < fuel → ok s op →
      StaysInside malloc fuel s op)
    (hinit : Inv (opened t))
    (hstep : ∀ s L op s' L', Sound psize s L → Sound psize s' L' → StepResult psize L s op s' →
      ok s op → Inv s → Inv s')
    {ops : List Op} (hfuel : 4 * ops.length + 4 ≤ fuel)
    (hok : Along (step malloc fuel) ok (opened t) ops) :
    ∃ s L, run (step malloc fuel) (opened t) ops = some s ∧ Sound psize s L ∧ Inv s ∧
      L.length ≤ 4 * ops.length + 1 ∧ s.log.length = ops.length := by
  obtain ⟨L₀, hsound₀, hlen₀, -⟩ := hcreate.sound hm
  obtain ⟨s, hrun, L, hs, hinv, hlen, hlog⟩ := Along.run_total
    (fun (past : List Op) s => ∃ L, Sound psize s L ∧ Inv s ∧ L.length ≤ 4 * past.length + 1 ∧
      s.log.length = past.length) ops.length
    (fun past s op hpast ⟨L, hs, hinv, hlen, hlog⟩ hop => by
      have hfuel' : L.length + 2 < fuel := by omega
      obtain ⟨s', L', hrun, hs', hlen', hres⟩ :=
        step_inside hs hm hfuel' (hinside s L op hs (by omega) hop)
      refine ⟨s', hrun, L', hs', hstep s L op s' L' hs hs' hres hop hinv, ?_, ?_⟩
      · rw [List.length_append, List.length_singleton]
        omega
      · obtain ⟨e, he⟩ := hres.log
        rw [he, List.length_cons, hlog, List.length_append, List.length_singleton])
    [] (by simp) ⟨L₀, hsound₀, hinit, by simp [hlen₀], rfl⟩ hok
  exact ⟨s, L, hrun, hs, hinv, hlen, hlog⟩

/-- In blocks whose size is a multiple of the alignment every call stays inside. -/
theorem run_spec (hm : malloc.Lawful) (hdvd : ncAlignment ∣ psize) {t₀ : NcPool}
    (hcreate : Created malloc psize t₀ t) (Inv : Session → Prop) (ok : Session → Op → Prop)
    (hinit : Inv (opened t))
    (hstep : ∀ s L op s' L', Sound psize s L → Sound psize s' L' → StepResult psize L s op s' →
      ok s op → Inv s → Inv s')
    {ops : List Op} (hfuel : 4 * ops.length + 4 ≤ fuel)
    (hok : Along (step malloc fuel) ok (opened t) ops) :
    ∃ s L, run (step malloc fuel) (opened t) ops = some s ∧ Sound psize s L ∧ Inv s ∧
      L.length ≤ 4 * ops.length + 1 ∧ s.log.length = ops.length :=
  run_inside hm hcreate Inv ok
    (fun _ _ op hs hlen _ => staysInside_of_dvd hs.rep hm hdvd hlen op) hinit hstep hfuel hok

/-- What holds of every call on a pool in order holds all along the run. -/
theorem along_spec (hm : malloc.Lawful) (hdvd : ncAlignment ∣ psize) {t₀ : NcPool}
    (hcreate : Created malloc psize t₀ t) (Inv : Session → Prop) (good : Session → Op → Prop)
    (hinit : Inv (opened t))
    (hgood : ∀ s L op s', Sound psize s L → L.length + 2 < fuel →
      step malloc fuel s op = some s' → StepResult psize L s op s' → Inv s → good s op ∧ Inv s')
    {ops : List Op} (hfuel : 4 * ops.length + 4 ≤ fuel) :
    Along (step malloc fuel) good (opened t) ops := by
  obtain ⟨L₀, hsound₀, hlen₀, -⟩ := hcreate.sound hm
  refine Along.of_invariant_past
    (fun (past : List Op) s => ∃ L, Sound psize s L ∧ Inv s ∧ L.length ≤ 4 * past.length + 1)
    ops.length (fun past s op hpast ⟨L, hs, hinv, hlen⟩ _ => ?_) [] (by simp)
    ⟨L₀, hsound₀, hinit, by simp [hlen₀]⟩
    (Along.of_forall fun _ _ _ => trivial : Along (step malloc fuel) (fun _ _ => True) _ ops)
  have hfuel' : L.length + 2 < fuel := by omega
  obtain ⟨s', L', hrun, hs', hlen', hres⟩ := step_spec hs hm hdvd hfuel' op
  obtain ⟨hop, hinv'⟩ := hgood s L op s' hs hfuel' hrun hres hinv
  refine ⟨hop, fun s'' hrun' => ?_⟩
  obtain rfl := Option.some.inj (hrun.symm.trans hrun')
  refine ⟨L', hs', hinv', ?_⟩
  rw [List.length_append, List.length_singleton]
  omega

/-! ## A system allocator -/

/-- The first multiple of 16 above everything that is held. -/
def above : List Span → Nat
  | [] => 4096
  | s :: held => max (above held) ((s.finish + 15) / 16 * 16)

/-- Allocate above everything that is held; the calls with the given numbers are refused. -/
def bump (refused : List Nat) : Allocator := fun sys size =>
  if sys.calls.length ∈ refused ∨ 2 ^ 64 ≤ above sys.held + size then null else above sys.held

theorem above_spec (held : List Span) :
    16 ∣ above held ∧ ∀ s ∈ held, s.finish ≤ above held := by
  induction held with
  | nil => exact ⟨by decide, by simp⟩
  | cons s held ih =>
      obtain ⟨hdvd, hfinish⟩ := ih
      have hround : s.finish ≤ (s.finish + 15) / 16 * 16 := by omega
      refine ⟨?_, List.forall_mem_cons.mpr ⟨hround.trans (le_max_right _ _),
        fun u hu => (hfinish u hu).trans (le_max_left _ _)⟩⟩
      rw [above]
      rcases le_total (above held) ((s.finish + 15) / 16 * 16) with hle | hle
      · rw [max_eq_right hle]
        exact Nat.dvd_mul_left _ _
      · rwa [max_eq_left hle]

theorem bump_lawful (refused : List Nat) : (bump refused).Lawful := by
  intro sys size
  obtain ⟨hdvd, hfinish⟩ := above_spec sys.held
  rw [bump]
  split
  · exact .inl rfl
  · rename_i hroom
    exact .inr ⟨hdvd, by omega, fun s hs => .inl (hfinish s hs)⟩

/-- Zeroed memory without a pool. -/
def blank : NcPool :=
  { base := 0, max := 0, current := 0, large := 0, cleanup := 0, data := fun _ => ⟨0, 0, 0, 0⟩
    largeAt := fun _ => ⟨0, 0⟩, cleanupAt := fun _ => ⟨0, 0, 0⟩, system := ⟨[], []⟩ }

/-- A fresh pool of `psize` bytes. -/
def fresh (refused : List Nat) (psize : Nat) : NcPool :=
  (ncPoolCreate (bump refused) blank psize).2

end Libnc.Pool
