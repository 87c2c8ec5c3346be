import Libnc.Pool.Cleanup

/-!
# Failed calls

A call that answers NULL has changed nothing but the calls to the system
allocator, or, where it was to register a handler, nothing that its caller owns.
-/

namespace Libnc.Pool

open Libnc.Foundation Span

variable {malloc : Allocator} {s s' : Session} {L : Layout} {psize fuel : Nat} {t t₀ : NcPool}
variable {op : Op}

theorem StepResult.alloc_failed (hstep : StepResult psize L s op s') {align : Bool} {size : Nat}
    {log : List Event} (hlog : s'.log = .alloc align size null :: log) :
    Unchanged s.pool s'.pool := by
  cases hstep with
  | alloc hop halign hresult =>
      obtain ⟨-, rfl, rfl⟩ := Event.alloc.inj (List.cons.inj hlog).1
      rcases hresult.result with ⟨-, hu⟩ | ⟨hne, -⟩
      · exact hu
      · exact absurd rfl hne
  | pfree => simp at hlog
  | cleanupAdd => simp at hlog
  | reset => simp at hlog

theorem StepResult.cleanup_failed (hstep : StepResult psize L s op s') (hs : Sound psize s L)
    {size handler data : Nat} {log : List Event}
    (hlog : s'.log = .cleanupAdd size handler null data :: log) :
    s'.pool.cleanup = s.pool.cleanup ∧
      live s'.pool.max s'.log = live s.pool.max s.log ∧
      Outside (live s.pool.max s.log) s.pool s'.pool := by
  have hmax := hstep.same.2
  cases hstep with
  | alloc => simp at hlog
  | pfree => simp at hlog
  | cleanupAdd hresult =>
      obtain ⟨-, -, rfl, -⟩ := Event.cleanupAdd.inj (List.cons.inj hlog).1
      simp only [setHandler] at hmax ⊢
      refine ⟨?_, ?_, hresult.outside.mono fun u hu => hs.owned.subset hu⟩
      · rcases hresult.result with ⟨-, hcleanup, -⟩ | ⟨hne, -⟩
        · exact hcleanup
        · exact absurd rfl hne
      · rw [live, Event.ranges, if_pos rfl, hmax, List.nil_append]
  | reset => simp at hlog

theorem Chained.kept (h : Chained s)
    (hout : Outside (live s.pool.max s.log) s.pool t) :
    ∀ c ∈ (registrations s.log).map Registration.record, t.cleanupAt c = s.pool.cleanupAt c := by
  intro c hc
  obtain ⟨r, hr, rfl⟩ := List.mem_map.mp hc
  by_contra hne
  have hpos : 0 < sizeofNcPoolCleanup := by decide
  exact (hout.cleanupAt _ hne _ (h.reserved r hr)).start_ne hpos hpos rfl

/--
In every state that calls can reach, an allocation that answers NULL has left the
pool as it was and no block allocated.  Where no call has given the range of a
record away, a registration that answers NULL has left the records as they were and
has written to nothing that was handed out.
-/
theorem ncPool_failure_unchanged (hm : malloc.Lawful) (hdvd : ncAlignment ∣ psize)
    (hcreate : Created malloc psize t₀ t) {ops : List Op} (hfuel : 4 * ops.length + 4 ≤ fuel)
    (op : Op) :
    ∃ s s', run (step malloc fuel) (opened t) ops = some s ∧ step malloc fuel s op = some s' ∧
      (∀ align size log, s'.log = .alloc align size null :: log →
        s'.pool = s.pool.setSystem s'.pool.system ∧
          s'.pool.system.held = s.pool.system.held) ∧
      (Along (step malloc fuel) KeepsRecords (opened t) ops →
        ∀ size handler data log, s'.log = .cleanupAdd size handler null data :: log →
          s'.pool.cleanup = s.pool.cleanup ∧
            (∃ records, Listed (fun c => (s.pool.cleanupAt c).next) null s.pool.cleanup records ∧
              ∀ c ∈ records, s'.pool.cleanupAt c = s.pool.cleanupAt c) ∧
            live s'.pool.max s'.log = live s.pool.max s.log ∧
            Outside (live s.pool.max s.log) s.pool s'.pool) := by
  obtain ⟨s, L, hrun, hs, -, hlen, -⟩ := run_spec hm hdvd hcreate (fun _ => True)
    (fun _ _ => True) trivial (fun _ _ _ _ _ _ _ _ _ _ => trivial) hfuel
    (Along.of_forall fun _ _ _ => trivial)
  have hroom : L.length + 2 < fuel := by omega
  obtain ⟨s', L', hstep, -, -, hresult⟩ := step_spec hs hm hdvd hroom op
  refine ⟨s, s', hrun, hstep, fun align size log hlog => ?_,
    fun hok size handler data log hlog => ?_⟩
  · have hu := hresult.alloc_failed hlog
    exact ⟨hu.eq, hu.held⟩
  · obtain ⟨L₀, -, -, hnull, -⟩ := hcreate.sound hm
    obtain ⟨s₁, -, hrun₁, -, hchained, -⟩ := run_spec hm hdvd hcreate Chained KeepsRecords
      ⟨hnull, by simp [registrations, opened], by simp [registrations, opened]⟩
      (fun s L op s' L' hs hs' hstep hop hchained => hchained.step hs hs' hstep hop) hfuel hok
    obtain rfl := Option.some.inj (hrun.symm.trans hrun₁)
    obtain ⟨hcleanup, hlive, hout⟩ := hresult.cleanup_failed hs hlog
    exact ⟨hcleanup, ⟨_, hchained.list, hchained.kept hout⟩, hlive, hout⟩

/-- The record of the registration that fails is taken from a new block, its data refused. -/
theorem ncPool_failure_unchanged_record :
    ∃ s s', run (step (bump [3]) 16) (opened (fresh [3] 128))
        [.cleanupAdd 16 7, .palloc 300] = some s ∧
      step (bump [3]) 16 s (.cleanupAdd 400 9) = some s' ∧
      (∀ align size log, s'.log = .alloc align size null :: log →
        s'.pool = s.pool.setSystem s'.pool.system ∧
          s'.pool.system.held = s.pool.system.held) ∧
      (Along (step (bump [3]) 16) KeepsRecords (opened (fresh [3] 128))
          [.cleanupAdd 16 7, .palloc 300] →
        ∀ size handler data log, s'.log = .cleanupAdd size handler null data :: log →
          s'.pool.cleanup = s.pool.cleanup ∧
            (∃ records, Listed (fun c => (s.pool.cleanupAt c).next) null s.pool.cleanup records ∧
              ∀ c ∈ records, s'.pool.cleanupAt c = s.pool.cleanupAt c) ∧
            live s'.pool.max s'.log = live s.pool.max s.log ∧
            Outside (live s.pool.max s.log) s.pool s'.pool) :=
  ncPool_failure_unchanged (bump_lawful [3]) (by decide)
    (show Created (bump [3]) 128 blank (fresh [3] 128) from ⟨rfl, by decide, rfl, by decide⟩)
    (by decide) (.cleanupAdd 400 9)

/--
In a pool without room a record is a large block, which `nc_pfree` releases; the next
registration takes it again, fails, and has changed the record in the list.
-/
theorem ncPool_failure_overwrites :
    Created (bump [9]) 64 blank (fresh [9] 64) ∧
      ∃ s s', run (step (bump [9]) 32) (opened (fresh [9] 64))
          [.palloc 5, .pfree 4160, .cleanupAdd 8 7, .pfree 4272, .pfree 4240] = some s ∧
        step (bump [9]) 32 s (.cleanupAdd 8 9) = some s' ∧
        (∃ data, s'.log = .cleanupAdd 8 9 null data :: s.log) ∧
        Listed (fun c => (s.pool.cleanupAt c).next) null s.pool.cleanup [4240] ∧
        s.pool.cleanupAt 4240 = ⟨7, 4272, null⟩ ∧ s'.pool.cleanupAt 4240 = ⟨7, null, null⟩ :=
  ⟨⟨rfl, by decide, rfl, by decide⟩, Option.get _ (by decide +kernel),
    Option.get _ (by decide +kernel), (Option.some_get _).symm, (Option.some_get _).symm,
    ⟨null, by decide +kernel⟩, by decide +kernel, by decide +kernel, by decide +kernel⟩

end Libnc.Pool
