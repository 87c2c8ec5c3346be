import Libnc.Pool.Separation

/-!
# Cleanup records

A record stays what its caller has made of it as long as its range is reserved.  A
reset gives the ranges of all records away without emptying the list.
-/

namespace Libnc.Pool

open Libnc.Foundation Span

variable {malloc : Allocator} {s s' : Session} {L L' : Layout} {psize fuel : Nat} {t t₀ : NcPool}
variable {op : Op}

/-- A registration that has succeeded. -/
structure Registration where
  record : Nat
  handler : Nat
  data : Nat
  deriving DecidableEq, Repr

def Event.registration : Event → Option Registration
  | .cleanupAdd _ handler c data => if c = null then none else some ⟨c, handler, data⟩
  | _ => none

/-- The registrations, newest first. -/
def registrations (log : List Event) : List Registration := log.filterMap Event.registration

def recordSpan (r : Registration) : Span := ⟨r.record, sizeofNcPoolCleanup⟩

/-- The list of the pool has the registrations, and their records are reserved. -/
structure Chained (s : Session) : Prop where
  list : Listed (fun c => (s.pool.cleanupAt c).next) null s.pool.cleanup
    ((registrations s.log).map Registration.record)
  content : ∀ r ∈ registrations s.log, (s.pool.cleanupAt r.record).handler = r.handler ∧
    (s.pool.cleanupAt r.record).data = r.data
  reserved : ∀ r ∈ registrations s.log, recordSpan r ∈ live s.pool.max s.log

/-- The call does not give the range of a record away. -/
def KeepsRecords (s : Session) : Op → Prop
  | .reset => s.pool.cleanup = null
  | .pfree p => s.pool.max < sizeofNcPoolCleanup →
      p ∉ (registrations s.log).map Registration.record
  | _ => True

theorem Chained.eq_nil (h : Chained s) (hnull : s.pool.cleanup = null) :
    registrations s.log = [] := by
  simpa using h.list.nil_iff.mpr hnull

theorem Sound.live_separate (h : Sound psize s L) : Separate (live s.pool.max s.log) :=
  h.rep.ranges_separate.subperm h.owned

theorem Chained.same (h : Chained s) (hlog : registrations s'.log = registrations s.log)
    (hcleanup : s'.pool.cleanup = s.pool.cleanup)
    (hframe : ∀ r ∈ registrations s.log,
      s'.pool.cleanupAt r.record = s.pool.cleanupAt r.record)
    (hlive : ∀ r ∈ registrations s.log, recordSpan r ∈ live s'.pool.max s'.log) :
    Chained s' := by
  refine ⟨?_, fun r hr => ?_, fun r hr => ?_⟩
  · rw [hlog, hcleanup]
    apply h.list.congr
    intro c hc
    obtain ⟨r, hr, rfl⟩ := List.mem_map.mp hc
    rw [hframe r hr]
  · rw [hlog] at hr
    rw [hframe r hr]
    exact h.content r hr
  · rw [hlog] at hr
    exact hlive r hr

theorem Chained.alloc (h : Chained s) {align : Bool} {size p : Nat}
    (hs' : Sound psize ⟨t, .alloc align size p :: s.log⟩ L')
    (hresult : AllocResult psize L size s.pool p t) :
    Chained ⟨t, .alloc align size p :: s.log⟩ := by
  have hkept := hresult.kept
  refine h.same rfl hkept.cleanup (fun r hr => ?_) fun r hr => ?_
  · rcases hresult.result with ⟨-, hu⟩ | ⟨hp, -⟩
    · exact congrFun hu.lists.cleanupAt r.record
    · have hsep := hs'.live_separate
      simp only [live, Event.ranges, if_neg hp, hkept.max] at hsep
      exact hkept.cleanupAt _ ((List.pairwise_cons.mp hsep).1 _ (h.reserved r hr))
  · simp only [live, hkept.max]
    exact List.mem_append_right _ (h.reserved r hr)

theorem setHandler_cleanup (t : NcPool) (c handler : Nat) :
    (setHandler t c handler).cleanup = t.cleanup ∧
      ∀ q, q ≠ c → (setHandler t c handler).cleanupAt q = t.cleanupAt q := by
  unfold setHandler
  split
  · exact ⟨rfl, fun _ _ => rfl⟩
  · exact ⟨rfl, fun q hq => Function.update_of_ne hq _ _⟩

theorem Chained.cleanupAdd (h : Chained s) (hs : Sound psize s L) {size handler c : Nat}
    (hs' : Sound psize
      ⟨setHandler t c handler, .cleanupAdd size handler c (t.cleanupAt c).data :: s.log⟩ L')
    (hresult : CleanupResult psize L size s.pool c t) :
    Chained ⟨setHandler t c handler, .cleanupAdd size handler c (t.cleanupAt c).data :: s.log⟩ := by
  have hmax : (setHandler t c handler).max = s.pool.max :=
    (setHandler_max t c handler).1.trans hresult.max
  obtain ⟨hcleanup, hother⟩ := setHandler_cleanup t c handler
  have hframe : ∀ r ∈ registrations s.log,
      t.cleanupAt r.record = s.pool.cleanupAt r.record :=
    fun r hr => hresult.frame (hs.owned.subset (h.reserved r hr))
  have hreserved : ∀ r ∈ registrations s.log, recordSpan r ∈ live (setHandler t c handler).max
      (.cleanupAdd size handler c (t.cleanupAt c).data :: s.log) := fun r hr => by
    rw [live, hmax]
    exact List.mem_append_right _ (h.reserved r hr)
  rcases hresult.result with ⟨rfl, hsame, -⟩ | ⟨hc, hnew, data, -, hrecord, -⟩
  · exact h.same rfl (hcleanup.trans hsame) (fun r hr => hframe r hr) hreserved
  · have hspan : (⟨c, sizeofNcPoolCleanup⟩ : Span) ∈
        Event.ranges (.cleanupAdd size handler c (t.cleanupAt c).data) := by
      rw [Event.ranges, if_neg hc, registered]
      split <;> simp
    have hne : ∀ r ∈ registrations s.log, r.record ≠ c := fun r hr => by
      have hsep := hs'.live_separate
      rw [live] at hsep
      have happart := (List.pairwise_append.mp hsep).2.2 _ hspan (recordSpan r) (by
        rw [hmax]
        exact h.reserved r hr)
      have hpos : 0 < sizeofNcPoolCleanup := by decide
      exact (happart.start_ne hpos hpos).symm
    have hregs : registrations (.cleanupAdd size handler c (t.cleanupAt c).data :: s.log) =
        ⟨c, handler, data⟩ :: registrations s.log := by
      simp [registrations, Event.registration, hc, hrecord]
    have hat : (setHandler t c handler).cleanupAt c = ⟨handler, data, s.pool.cleanup⟩ := by
      simp [setHandler, hc, NcPool.putCleanup, hrecord]
    have hold : ∀ r ∈ registrations s.log,
        (setHandler t c handler).cleanupAt r.record = s.pool.cleanupAt r.record :=
      fun r hr => (hother _ (hne r hr)).trans (hframe r hr)
    refine ⟨?_, fun r hr => ?_, fun r hr => ?_⟩
    · rw [hregs, List.map_cons, hcleanup, hnew]
      refine ⟨rfl, hc, ?_⟩
      change Listed _ null ((setHandler t c handler).cleanupAt c).next _
      rw [hat]
      apply h.list.congr
      intro q hq
      obtain ⟨r, hr, rfl⟩ := List.mem_map.mp hq
      exact congrArg NcPoolCleanup.next (hold r hr)
    · rw [hregs] at hr
      rcases List.mem_cons.mp hr with rfl | hr
      · exact ⟨congrArg NcPoolCleanup.handler hat, congrArg NcPoolCleanup.data hat⟩
      · change ((setHandler t c handler).cleanupAt r.record).handler = _ ∧
          ((setHandler t c handler).cleanupAt r.record).data = _
        rw [hold r hr]
        exact h.content r hr
    · rw [hregs] at hr
      rcases List.mem_cons.mp hr with rfl | hr
      · exact List.mem_append_left _ hspan
      · exact hreserved r hr

/-- A call that gives the range of no record away keeps the list. -/
theorem Chained.step (h : Chained s) (hs : Sound psize s L) (hs' : Sound psize s' L')
    (hstep : StepResult psize L s op s') (hop : KeepsRecords s op) : Chained s' := by
  cases hstep with
  | alloc _ halign hresult => exact h.alloc hs' hresult
  | @pfree p result t hfreed hrep hresult =>
      have hmax : t.max = s.pool.max := by rw [hfreed.eq]
      refine h.same rfl (by rw [hfreed.eq]) (fun r _ => by rw [hfreed.eq]) fun r hr => ?_
      simp only [live, hmax]
      split
      · refine List.mem_filter.mpr ⟨h.reserved r hr, ?_⟩
        have hkeep : r.record = p → ¬ s.pool.max < sizeofNcPoolCleanup := fun heq hlt =>
          hop hlt (heq ▸ List.mem_map_of_mem hr)
        by_cases heq : r.record = p <;> simp [recordSpan, heq, hkeep]
      · exact h.reserved r hr
  | cleanupAdd hresult => exact h.cleanupAdd hs hs' hresult
  | reset hrep hreset =>
      have hnil := h.eq_nil hop
      refine h.same rfl hreset.cleanup (fun r _ => congrFun hreset.cleanupAt r.record) ?_
      rw [hnil]
      simp

/-! ## Storage of the registrations -/

/-- What was handed out with a registration and after it is all still owned. -/
def Retained (s : Session) : Prop :=
  ∀ later size handler c data earlier,
    s.log = later ++ .cleanupAdd size handler c data :: earlier → c ≠ null →
      (later.flatMap Event.ranges ++ registered c data size).Sublist (live s.pool.max s.log)

theorem Retained.cons (h : Retained s) {e : Event} (hmax : t.max = s.pool.max)
    (hlive : live t.max (e :: s.log) = e.ranges ++ live t.max s.log) :
    Retained ⟨t, e :: s.log⟩ := by
  intro later size handler c data earlier hlog hc
  change (_ : List Span).Sublist (live t.max (e :: s.log))
  rw [hlive]
  cases later with
  | nil =>
      obtain ⟨rfl, -⟩ := List.cons.inj hlog
      rw [Event.ranges, if_neg hc]
      exact List.sublist_append_left _ _
  | cons e' later =>
      obtain ⟨rfl, hrest⟩ := List.cons.inj hlog
      rw [List.flatMap_cons, List.append_assoc, hmax]
      exact (h later size handler c data earlier hrest hc).append_left _

theorem mem_registrations {log later earlier : List Event} {size handler c data : Nat}
    (hlog : log = later ++ .cleanupAdd size handler c data :: earlier) (hc : c ≠ null) :
    ⟨c, handler, data⟩ ∈ registrations log := by
  refine List.mem_filterMap.mpr ⟨.cleanupAdd size handler c data, by simp [hlog], ?_⟩
  rw [Event.registration, if_neg hc]

theorem Retained.step (h : Retained s) (hchained : Chained s) (hstep : StepResult psize L s op s')
    (hfree : ∀ p, op ≠ .pfree p) (hreset : op = .reset → s.pool.cleanup = null) :
    Retained s' := by
  have hmax := hstep.same.2
  cases hstep with
  | alloc _ halign hresult => exact h.cons hmax rfl
  | @pfree p => exact absurd rfl (hfree p)
  | cleanupAdd hresult => exact h.cons hmax rfl
  | reset hrep _ =>
      intro later size handler c data earlier hlog hc
      have hnil := hchained.eq_nil (hreset rfl)
      cases later with
      | nil => simp at hlog
      | cons e later =>
          have hmem := mem_registrations (List.cons.inj hlog).2 hc
          rw [hnil] at hmem
          simp at hmem

theorem Retained.apart (h : Retained s) (hs : Sound psize s L) {later earlier : List Event}
    {size handler c data : Nat} (hlog : s.log = later ++ .cleanupAdd size handler c data :: earlier)
    (hc : c ≠ null) {u : Span} (hu : u ∈ registered c data size) :
    (∀ r ∈ later.flatMap Event.ranges, r.Apart u) ∧ u ∈ live s.pool.max s.log := by
  have hsub := h later size handler c data earlier hlog hc
  have hsep := List.pairwise_append.mp (hs.live_separate.sublist hsub)
  exact ⟨fun r hr => hsep.2.2 r hr u hu, hsub.subset (List.mem_append_right _ hu)⟩

theorem exists_cleanupAdd {log : List Event} {r : Registration} (hr : r ∈ registrations log) :
    ∃ later size earlier, log = later ++ .cleanupAdd size r.handler r.record r.data :: earlier ∧
      r.record ≠ null := by
  obtain ⟨e, he, hsome⟩ := List.mem_filterMap.mp hr
  obtain ⟨later, earlier, hlog⟩ := List.append_of_mem he
  cases e with
  | cleanupAdd size handler c data =>
      rw [Event.registration] at hsome
      split at hsome
      · cases hsome
      · obtain rfl := Option.some.inj hsome
        exact ⟨later, size, earlier, hlog, ‹_›⟩
  | _ => cases hsome

/-! ## Destruction -/

theorem length_registrations (log : List Event) : (registrations log).length ≤ log.length :=
  List.length_filterMap_le _ _

/-- The registrations that have a handler, newest first. -/
def handlers (log : List Event) : List Registration :=
  (registrations log).filter (·.handler ≠ null)

def Registration.call (r : Registration) : SystemCall := .handler r.record r.handler r.data

theorem Chained.handled (h : Chained s) :
    Pool.handled s.pool ((registrations s.log).map Registration.record) =
      (handlers s.log).map Registration.record := by
  rw [Pool.handled, List.filter_map, handlers]
  apply congrArg
  apply List.filter_congr
  intro r hr
  simp [h.content r hr]

theorem Chained.destroy (h : Chained s) (hs : Sound psize s L) (hfuel : L.length < fuel)
    (hlog : s.log.length < fuel) :
    ∃ t' released, ncPoolDestroy fuel s.pool =
        some ((handlers s.log).map fun r => (r.handler, r.data), t') ∧
      t'.system.calls = released ++ (((handlers s.log).map Registration.call).reverse ++
        s.pool.system.calls) ∧
      ∀ call ∈ released, ∃ p, call = .free p := by
  have hlen : ((registrations s.log).map Registration.record).length < fuel := by
    rw [List.length_map]
    exact (length_registrations _).trans_lt hlog
  obtain ⟨t', released, hrun, -, -, hcalls, hfree⟩ :=
    hs.rep.ncPoolDestroy_spec h.list hfuel hlen
  rw [h.handled, List.map_map] at hrun hcalls
  have hcontent : ∀ r ∈ handlers s.log, (s.pool.cleanupAt r.record).handler = r.handler ∧
      (s.pool.cleanupAt r.record).data = r.data :=
    fun r hr => h.content r (List.mem_filter.mp hr).1
  refine ⟨t', released, hrun.trans ?_, hcalls.trans ?_, hfree⟩
  · congr 2
    apply List.map_congr_left
    intro r hr
    obtain ⟨hhandler, hdata⟩ := hcontent r hr
    exact Prod.ext hhandler hdata
  · congr 3
    apply List.map_congr_left
    intro r hr
    obtain ⟨hhandler, hdata⟩ := hcontent r hr
    simp only [Function.comp_apply, handlerCall, Registration.call, hhandler, hdata]

theorem heldAfter_handlers (rs : List Registration) (calls : List SystemCall) :
    heldAfter (rs.map Registration.call ++ calls) = heldAfter calls := by
  induction rs with
  | nil => rfl
  | cons r rs ih => exact ih

/-- The calls before one of the handlers are those of other handlers. -/
theorem handler_split {released later earlier calls : List SystemCall}
    {rs : List Registration} {c handler data : Nat}
    (hfree : ∀ call ∈ released, ∃ p, call = .free p)
    (hsplit : released ++ ((rs.map Registration.call).reverse ++ calls) =
      later ++ .handler c handler data :: (earlier ++ calls)) :
    ∃ xs ys, rs.reverse = xs ++ ⟨c, handler, data⟩ :: ys ∧ earlier = ys.map Registration.call := by
  rw [← List.cons_append, ← List.append_assoc, ← List.append_assoc] at hsplit
  have hmid : ∃ xs, (rs.map Registration.call).reverse =
      xs ++ .handler c handler data :: earlier := by
    rcases List.append_eq_append_iff.mp (List.append_cancel_right hsplit) with
      ⟨xs, -, hxs⟩ | ⟨xs, hreleased, hxs⟩
    · exact ⟨xs, hxs⟩
    · cases xs with
      | nil => exact ⟨[], hxs.symm⟩
      | cons call xs =>
          obtain ⟨rfl, -⟩ := List.cons.inj hxs
          obtain ⟨p, hp⟩ := hfree (.handler c handler data) (by simp [hreleased])
          cases hp
  obtain ⟨xs, hxs⟩ := hmid
  rw [← List.map_reverse] at hxs
  obtain ⟨as, bs, hrs, -, hbs⟩ := List.map_eq_append_iff.mp hxs
  obtain ⟨r, ys, rfl, hr, rfl⟩ := List.map_eq_cons_iff.mp hbs
  obtain ⟨hc, hhandler, hdata⟩ := SystemCall.handler.inj hr
  exact ⟨as, ys, by rw [hrs, ← hc, ← hhandler, ← hdata], rfl⟩

/-- What the registrations keep lies in what the allocator holds. -/
theorem Retained.held (h : Retained s) (hs : Sound psize s L) {later earlier : List Event}
    {size handler c data : Nat} (hlog : s.log = later ++ .cleanupAdd size handler c data :: earlier)
    (hc : c ≠ null) {u : Span} (hu : u ∈ registered c data size) :
    ∃ v ∈ s.pool.system.held, u.Inside v := by
  rcases hs.place (h.apart hs hlog hc hu).2 with hin | ⟨hheld, -⟩
  · obtain ⟨p, hp, hlow, hhigh⟩ := hin
    obtain ⟨b, hb, rfl⟩ := Shape.exists_block hp
    have hend := (hs.rep.end_eq b hb).trans (hs.rep.high_eq b hb)
    exact ⟨_, hs.rep.mem_held hb, (Nat.le_add_right _ _).trans hlow, hhigh.trans hend.le⟩
  · exact ⟨u, hheld, .refl u⟩

/--
In every run without `nc_pfree` that resets the pool only before the first
registration, the record and the data of each registration are apart from all that
is handed out later and lie in storage that is held.  The destruction runs the
handlers in reverse order with the data that they were registered with, all before the
first block is given back: when a handler is called, its record and its data still lie
in storage that the calls so far have left allocated.
-/
theorem ncPool_cleanups_intact (hm : malloc.Lawful) (hdvd : ncAlignment ∣ psize)
    (hcreate : Created malloc psize t₀ t) {ops : List Op} (hfuel : 4 * ops.length + 4 ≤ fuel)
    (hops : ∀ op ∈ ops, ∀ p, op ≠ .pfree p)
    (hok : Along (step malloc fuel) (fun s op => op = .reset → s.pool.cleanup = null)
      (opened t) ops) :
    ∃ s blocks, run (step malloc fuel) (opened t) ops = some s ∧
      Listed (fun b => (s.pool.data b).next) null s.pool.base blocks ∧
      (∀ b ∈ blocks, ⟨b, psize⟩ ∈ s.pool.system.held ∧ (s.pool.data b).end_ = b + psize) ∧
      (∀ later size handler c data earlier,
        s.log = later ++ .cleanupAdd size handler c data :: earlier → c ≠ null →
          ∀ u ∈ registered c data size, (∀ r ∈ later.flatMap Event.ranges, r.Apart u) ∧
            (InBlock s.pool blocks u ∨ u ∈ s.pool.system.held ∧ u.start ∉ blocks)) ∧
      ∃ t' released, ncPoolDestroy fuel s.pool =
          some ((handlers s.log).map fun r => (r.handler, r.data), t') ∧
        t'.system.calls = released ++ (((handlers s.log).map Registration.call).reverse ++
          s.pool.system.calls) ∧
        (∀ call ∈ released, ∃ p, call = .free p) ∧
        ∀ later c handler data earlier, t'.system.calls =
            later ++ .handler c handler data :: (earlier ++ s.pool.system.calls) →
          ∃ size, .cleanupAdd size handler c data ∈ s.log ∧ ∀ u ∈ registered c data size,
            ∃ v ∈ heldAfter (earlier ++ s.pool.system.calls), u.Inside v := by
  have hops' : Along (step malloc fuel) (fun _ op => ∀ p, op ≠ Op.pfree p) (opened t) ops :=
    Along.of_forall fun _ => hops
  obtain ⟨L₀, -, -, hnull, -⟩ := hcreate.sound hm
  obtain ⟨s, L, hrun, hs, ⟨hchained, hretained⟩, hlen, hlog⟩ := run_spec hm hdvd hcreate
    (fun s => Chained s ∧ Retained s) _
    ⟨⟨hnull, by simp [registrations, opened], by simp [registrations, opened]⟩,
      by simp [Retained, opened]⟩
    (fun s L op s' L' hs hs' hstep ⟨hfree, hreset⟩ ⟨hchained, hretained⟩ => by
      refine ⟨hchained.step hs hs' hstep ?_, hretained.step hchained hstep hfree hreset⟩
      cases op with
      | pfree p => exact absurd rfl (hfree p)
      | reset => exact hreset rfl
      | _ => trivial)
    hfuel (hops'.and hok)
  refine ⟨s, L.bases, hrun, hs.rep.chain, fun p hp => ?_, ?_, ?_⟩
  · obtain ⟨b, hb, rfl⟩ := Shape.exists_block hp
    exact ⟨hs.rep.mem_held hb, (hs.rep.end_eq b hb).trans (hs.rep.high_eq b hb)⟩
  · intro later size handler c data earlier hsplit hc u hu
    obtain ⟨hlater, hlive⟩ := hretained.apart hs hsplit hc hu
    exact ⟨hlater, hs.place hlive⟩
  · obtain ⟨t', released, hdestroy, hcalls, hfree⟩ :=
      hchained.destroy hs (show L.length < fuel by omega) (by omega)
    refine ⟨t', released, hdestroy, hcalls, hfree, fun later c handler data earlier hsplit => ?_⟩
    obtain ⟨xs, ys, hrs, rfl⟩ := handler_split hfree (hcalls.symm.trans hsplit)
    have hr : ⟨c, handler, data⟩ ∈ handlers s.log := by
      rw [← List.mem_reverse, hrs]
      simp
    obtain ⟨after, size, before, hlog, hc⟩ := exists_cleanupAdd (List.mem_filter.mp hr).1
    refine ⟨size, by simp [hlog], fun u hu => ?_⟩
    rw [heldAfter_handlers, ← hs.rep.system.replayed]
    exact hretained.held hs hlog hc hu

/-- Two registrations after a reset, one without data, and a large range. -/
theorem ncPool_cleanups_intact_two :
    ∃ s blocks, run (step (bump []) 32) (opened (fresh [] 128))
        [.palloc 20, .reset, .cleanupAdd 16 7, .pcalloc 24, .cleanupAdd 0 9, .palloc 900] =
          some s ∧
      Listed (fun b => (s.pool.data b).next) null s.pool.base blocks ∧
      (∀ b ∈ blocks, ⟨b, 128⟩ ∈ s.pool.system.held ∧ (s.pool.data b).end_ = b + 128) ∧
      (∀ later size handler c data earlier,
        s.log = later ++ .cleanupAdd size handler c data :: earlier → c ≠ null →
          ∀ u ∈ registered c data size, (∀ r ∈ later.flatMap Event.ranges, r.Apart u) ∧
            (InBlock s.pool blocks u ∨ u ∈ s.pool.system.held ∧ u.start ∉ blocks)) ∧
      ∃ t' released, ncPoolDestroy 32 s.pool =
          some ((handlers s.log).map fun r => (r.handler, r.data), t') ∧
        t'.system.calls = released ++ (((handlers s.log).map Registration.call).reverse ++
          s.pool.system.calls) ∧
        (∀ call ∈ released, ∃ p, call = .free p) ∧
        ∀ later c handler data earlier, t'.system.calls =
            later ++ .handler c handler data :: (earlier ++ s.pool.system.calls) →
          ∃ size, .cleanupAdd size handler c data ∈ s.log ∧ ∀ u ∈ registered c data size,
            ∃ v ∈ heldAfter (earlier ++ s.pool.system.calls), u.Inside v :=
  ncPool_cleanups_intact (bump_lawful []) (by decide)
    (show Created (bump []) 128 blank (fresh [] 128) from ⟨rfl, by decide, rfl, by decide⟩)
    (by decide) (by simp) (by decide +kernel)

/-- After a reset the record is handed out again, and its handler never runs. -/
theorem ncPool_reset_loses_cleanup :
    Created (bump []) 128 blank (fresh [] 128) ∧
      ∃ s, run (step (bump []) 16) (opened (fresh [] 128))
          [.cleanupAdd 0 7, .reset, .pcalloc 24] = some s ∧
        s.log = [.alloc true 24 4160, .reset, .cleanupAdd 0 7 4160 0] ∧ s.pool.cleanup = 4160 ∧
        (ncPoolDestroy 16 s.pool).map Prod.fst = some [] :=
  ⟨⟨rfl, by decide, rfl, by decide⟩, Option.get _ (by decide +kernel), (Option.some_get _).symm,
    by decide +kernel, by decide +kernel, by decide +kernel⟩

end Libnc.Pool
