import Libnc.Pool.Session

/-!
# The blocks of the system

Every block comes from the system once and goes back once; a large block goes back
only when the caller says so.
-/

namespace Libnc.Pool

open Libnc.Foundation Span

variable {malloc : Allocator} {s s' : Session} {psize fuel p q size : Nat} {t t' t₀ : NcPool}
variable {align : Bool} {op : Op}

/-! ## The calls to the system allocator -/

/-- The calls between two states, of which `ok` holds for each block that goes back. -/
def Returns (ok : List SystemCall → Nat → Prop) (t t' : NcPool) : Prop :=
  ∃ new, t'.system.calls = new ++ t.system.calls ∧ ∀ q, .free q ∈ new → ok new q

/-- Nothing goes back. -/
def Takes (t t' : NcPool) : Prop := Returns (fun _ _ => False) t t'

theorem Takes.of_calls (h : t'.system.calls = t.system.calls) : Takes t t' :=
  ⟨[], by simp [h], by simp⟩

theorem Takes.alloc {r : Nat}
    (h : t'.system.calls = .alloc size r :: t.system.calls) : Takes t t' :=
  ⟨[.alloc size r], h, by simp⟩

theorem countFailures_system (h : countFailures fuel t p = some (q, t')) :
    t'.system = t.system := by
  induction fuel generalizing t p with
  | zero => cases h
  | succ fuel ih =>
      obtain ⟨d, -, hrest⟩ := Option.bind_eq_some_iff.mp h
      split at hrest
      · obtain ⟨-, rfl⟩ := Prod.mk.inj (Option.some.inj hrest)
        rfl
      · apply (ih hrest).trans
        split <;> rfl

theorem ncPallocBlock_takes (h : ncPallocBlock malloc fuel t size = some (p, t')) :
    Takes t t' := by
  obtain ⟨d, -, hrest⟩ := Option.bind_eq_some_iff.mp h
  simp only [System.alloc] at hrest
  split at hrest
  · obtain ⟨-, rfl⟩ := Prod.mk.inj (Option.some.inj hrest)
    exact .alloc rfl
  · obtain ⟨⟨q, u⟩, hcount, hrest⟩ := Option.bind_eq_some_iff.mp hrest
    obtain ⟨d', -, hrest⟩ := Option.bind_eq_some_iff.mp hrest
    obtain ⟨-, rfl⟩ := Prod.mk.inj (Option.some.inj hrest)
    exact .alloc (congrArg System.calls (countFailures_system hcount))

theorem ncPallocSmall_takes (h : ncPallocSmall malloc fuel t size align = some (p, t')) :
    Takes t t' := by
  obtain ⟨found, -, hrest⟩ := Option.bind_eq_some_iff.mp h
  cases found with
  | none => exact ncPallocBlock_takes hrest
  | some found =>
      obtain ⟨d, -, hrest⟩ := Option.bind_eq_some_iff.mp hrest
      obtain ⟨-, rfl⟩ := Prod.mk.inj (Option.some.inj hrest)
      exact .of_calls rfl

theorem Takes.after {u : NcPool} {r : Nat} (h : Takes t t')
    (hcalls : t.system.calls = .alloc size r :: u.system.calls) : Takes u t' := by
  obtain ⟨new, hnew, hfree⟩ := h
  refine ⟨new ++ [.alloc size r], by rw [hnew, hcalls, List.append_assoc]; rfl, fun q hq => ?_⟩
  rcases List.mem_append.mp hq with hq | hq
  · exact hfree q hq
  · simp at hq

theorem Takes.undo {u v : NcPool} {r : Nat} (h : Takes t t')
    (hcalls : t.system.calls = .alloc size r :: u.system.calls) (hfree : t'.free r = some v) :
    Returns (fun new q => ∃ n, .alloc n q ∈ new) u v := by
  obtain ⟨new, hnew, hkeep⟩ := h
  have hmem : ∀ q, .free q ∈ new ++ [SystemCall.alloc size r] → False := fun q hq => by
    rcases List.mem_append.mp hq with hq | hq
    · exact hkeep q hq
    · simp at hq
  have hall : t'.system.calls = (new ++ [.alloc size r]) ++ u.system.calls := by
    rw [hnew, hcalls, List.append_assoc]
    rfl
  rcases NcPool.free_calls hfree with hlast | hlast
  · exact ⟨_, hlast.trans hall, fun q hq => absurd (hmem q hq) id⟩
  · refine ⟨.free r :: (new ++ [.alloc size r]), by rw [hlast, hall]; rfl, fun q hq => ?_⟩
    rcases List.mem_cons.mp hq with heq | hq
    · obtain rfl := SystemCall.free.inj heq
      exact ⟨size, by simp⟩
    · exact absurd (hmem q hq) id

theorem ncPallocLarge_returns (h : ncPallocLarge malloc fuel t size = some (p, t')) :
    Returns (fun new q => p = null ∧ ∃ n, .alloc n q ∈ new) t t' := by
  have hweaken : Takes t t' → Returns (fun new q => p = null ∧ ∃ n, .alloc n q ∈ new) t t' :=
    fun ⟨new, hnew, hfree⟩ => ⟨new, hnew, fun q hq => absurd (hfree q hq) id⟩
  simp only [ncPallocLarge, System.alloc] at h
  split at h
  · obtain ⟨-, rfl⟩ := Prod.mk.inj (Option.some.inj h)
    exact hweaken (.alloc rfl)
  · obtain ⟨l, -, h⟩ := Option.bind_eq_some_iff.mp h
    split at h
    · obtain ⟨-, rfl⟩ := Prod.mk.inj (Option.some.inj h)
      exact hweaken (.alloc rfl)
    · obtain ⟨⟨r, u⟩, hsmall, h⟩ := Option.bind_eq_some_iff.mp h
      have htakes := ncPallocSmall_takes hsmall
      by_cases hr : r = null
      · simp only [if_pos hr] at h
        obtain ⟨v, hfree, h⟩ := Option.bind_eq_some_iff.mp h
        obtain ⟨rfl, rfl⟩ := Prod.mk.inj (Option.some.inj h)
        obtain ⟨new, hnew, hback⟩ := htakes.undo rfl hfree
        exact ⟨new, hnew, fun q hq => ⟨rfl, hback q hq⟩⟩
      · simp only [if_neg hr] at h
        obtain ⟨-, rfl⟩ := Prod.mk.inj (Option.some.inj h)
        obtain ⟨new, hnew, hfree⟩ := htakes.after rfl
        exact hweaken ⟨new, hnew, hfree⟩

theorem allocWith_returns (h : allocWith malloc fuel align t size = some (p, t')) :
    Returns (fun new q => p = null ∧ ∃ n, .alloc n q ∈ new) t t' := by
  unfold allocWith at h
  split at h
  · obtain ⟨new, hnew, hfree⟩ := ncPallocSmall_takes h
    exact ⟨new, hnew, fun q hq => absurd (hfree q hq) id⟩
  · exact ncPallocLarge_returns h

theorem ncPcalloc_returns (h : ncPcalloc malloc fuel t size = some (p, t')) :
    Returns (fun new q => p = null ∧ ∃ n, .alloc n q ∈ new) t t' := by
  obtain ⟨⟨r, u⟩, halloc, h⟩ := Option.bind_eq_some_iff.mp h
  have hreturns := allocWith_returns halloc
  by_cases hr : r = null
  · simp only [hr, ne_eq, not_true_eq_false, if_false] at h
    obtain ⟨rfl, rfl⟩ := Prod.mk.inj (Option.some.inj h)
    exact hr ▸ hreturns
  · simp only [ne_eq, hr, not_false_eq_true, if_true] at h
    obtain ⟨rfl, rfl⟩ := Prod.mk.inj (Option.some.inj h)
    exact hreturns

theorem pfreeSearch_eq {l r : Nat} (h : pfreeSearch t p fuel l = some r) (hr : r ≠ null) :
    (t.largeAt r).alloc = p := by
  induction fuel generalizing l with
  | zero => cases h
  | succ fuel ih =>
      rw [pfreeSearch] at h
      split at h
      · exact absurd (Option.some.inj h).symm hr
      · split at h
        · obtain rfl := Option.some.inj h
          rename_i halloc
          exact halloc.symm
        · exact ih h

theorem ncPfree_returns {result : Int} (h : ncPfree fuel t p = some (result, t')) :
    Returns (fun _ q => q = p) t t' := by
  obtain ⟨l, hsearch, h⟩ := Option.bind_eq_some_iff.mp h
  by_cases hl : l = null
  · simp only [if_pos hl] at h
    obtain ⟨-, rfl⟩ := Prod.mk.inj (Option.some.inj h)
    exact ⟨[], rfl, by simp⟩
  · simp only [if_neg hl] at h
    obtain ⟨u, hfree, h⟩ := Option.bind_eq_some_iff.mp h
    obtain ⟨-, rfl⟩ := Prod.mk.inj (Option.some.inj h)
    rw [pfreeSearch_eq hsearch hl] at hfree
    rcases NcPool.free_calls hfree with hcalls | hcalls
    · exact ⟨[], hcalls, by simp⟩
    · refine ⟨[.free p], hcalls, fun q hq => ?_⟩
      simpa using hq

/-! ## Runs -/

/--
What a call other than a reset gives back to the system: the block that `nc_pfree`
is asked for, or the one that an allocation has obtained before it fails.
-/
def ReturnsOnly (malloc : Allocator) (fuel : Nat) (s : Session) (op : Op) : Prop :=
  ∀ s', step malloc fuel s op = some s' → op = .reset ∨ Returns (fun new q => op = .pfree q ∨
    (∃ align size, s'.log = .alloc align size null :: s.log) ∧ ∃ n, .alloc n q ∈ new)
    s.pool s'.pool

theorem returnsOnly (hop : ∀ size handler, op ≠ .cleanupAdd size handler) :
    ReturnsOnly malloc fuel s op := by
  have halloc : ∀ {align size p t}, Returns (fun new q => p = null ∧ ∃ n, .alloc n q ∈ new)
      s.pool t → Returns (fun new q => op = .pfree q ∨ (∃ align' size', Session.log
        ⟨t, .alloc align size p :: s.log⟩ = .alloc align' size' null :: s.log) ∧
          ∃ n, .alloc n q ∈ new) s.pool t :=
    fun {align size p t} ⟨new, hnew, hback⟩ => ⟨new, hnew, fun q hq => by
      obtain ⟨rfl, hmem⟩ := hback q hq
      exact .inr ⟨⟨align, size, rfl⟩, hmem⟩⟩
  intro s' h
  cases op with
  | palloc size =>
      obtain ⟨⟨p, t⟩, hrun, h⟩ := Option.bind_eq_some_iff.mp h
      obtain rfl := Option.some.inj h
      exact .inr (halloc (allocWith_returns hrun))
  | pnalloc size =>
      obtain ⟨⟨p, t⟩, hrun, h⟩ := Option.bind_eq_some_iff.mp h
      obtain rfl := Option.some.inj h
      exact .inr (halloc (allocWith_returns hrun))
  | pcalloc size =>
      obtain ⟨⟨p, t⟩, hrun, h⟩ := Option.bind_eq_some_iff.mp h
      obtain rfl := Option.some.inj h
      exact .inr (halloc (ncPcalloc_returns hrun))
  | pfree p =>
      obtain ⟨⟨result, t⟩, hrun, h⟩ := Option.bind_eq_some_iff.mp h
      obtain rfl := Option.some.inj h
      obtain ⟨new, hnew, hback⟩ := ncPfree_returns hrun
      exact .inr ⟨new, hnew, fun q hq => .inl (by rw [hback q hq])⟩
  | cleanupAdd size handler => exact absurd rfl (hop size handler)
  | reset => exact .inl rfl

theorem StepResult.cleanup_null {L : Layout} (hstep : StepResult psize L s op s')
    (hop : ∀ size handler, op ≠ .cleanupAdd size handler) (h : s.pool.cleanup = null) :
    s'.pool.cleanup = null := by
  cases hstep with
  | alloc _ halign hresult => exact hresult.kept.cleanup.trans h
  | pfree hfreed hrep hresult =>
      rw [hfreed.eq]
      exact h
  | @cleanupAdd size handler => exact absurd rfl (hop size handler)
  | reset hrep hreset => exact hreset.cleanup.trans h

/-- What is held are the blocks and the large blocks of the records, each once. -/
theorem Rep.held_starts {L : Layout} (h : Rep t psize L) :
    (t.system.held.map start).Perm (L.bases ++ allocs t L.records) ∧
      (L.bases ++ allocs t L.records).Nodup := by
  have hperm : (t.system.held.map start).Perm (L.bases ++ allocs t L.records) := by
    apply (h.held.map start).trans
    rw [List.map_append, List.map_map]
    have hid : start ∘ (fun b => (⟨b, psize⟩ : Span)) = id := rfl
    rw [hid, List.map_id]
    exact h.recorded.append_left _
  refine ⟨hperm, hperm.nodup_iff.mp (List.pairwise_map.mpr ?_)⟩
  refine h.system.separate.imp_of_mem fun {a b} ha hb hab => ?_
  exact hab.start_ne (h.system.pos a ha) (h.system.pos b hb)

/--
In every run without registrations, only `nc_pfree` of a large block, a reset and the
undoing of a failed allocation give a block back; the blocks of the chain and those of
the records are just what is held; and after `nc_pool_destroy` every block that was ever
handed out has been taken back exactly once.
-/
theorem ncPool_blocks_released_once (hm : malloc.Lawful) (hdvd : ncAlignment ∣ psize)
    (hcreate : Created malloc psize t₀ t) {ops : List Op} (hfuel : 4 * ops.length + 4 ≤ fuel)
    (hops : ∀ op ∈ ops, ∀ size handler, op ≠ .cleanupAdd size handler) :
    ∃ s blocks records t', run (step malloc fuel) (opened t) ops = some s ∧
      Along (step malloc fuel) (ReturnsOnly malloc fuel) (opened t) ops ∧
      Listed (fun b => (s.pool.data b).next) null s.pool.base blocks ∧
      Listed (fun l => (s.pool.largeAt l).next) null s.pool.large records ∧
      (s.pool.system.held.map start).Perm (blocks ++ allocs s.pool records) ∧
      (blocks ++ allocs s.pool records).Nodup ∧
      ncPoolDestroy fuel s.pool = some ([], t') ∧ t'.system.held = [] ∧
      (∀ p, p ≠ null → handedOut t'.system.calls p = takenBack t'.system.calls p) ∧
      ∀ calls, calls <:+ t'.system.calls → ∀ p, p ≠ null →
        takenBack calls p ≤ handedOut calls p ∧ handedOut calls p ≤ takenBack calls p + 1 := by
  obtain ⟨L₀, -, -, hnull, -⟩ := hcreate.sound hm
  obtain ⟨s, L, hrun, hs, hcleanup, hlen, -⟩ := run_spec hm hdvd hcreate
    (fun s => s.pool.cleanup = null) (fun _ op => ∀ size handler, op ≠ .cleanupAdd size handler)
    hnull (fun s L op s' L' _ _ hstep hop hclean => hstep.cleanup_null hop hclean) hfuel
    (Along.of_forall fun _ => hops)
  have hlist : Listed (fun c => (s.pool.cleanupAt c).next) null s.pool.cleanup [] := hcleanup
  obtain ⟨t', -, hdestroy, hsound, hempty, -⟩ := hs.rep.ncPoolDestroy_spec hlist
    (by omega : L.length < fuel) (by simp only [List.length_nil]; omega)
  obtain ⟨hperm, hnodup⟩ := hs.rep.held_starts
  refine ⟨s, L.bases, L.records, t', hrun,
    Along.of_forall fun _ op hop => returnsOnly (hops op hop), hs.rep.chain, hs.rep.records,
    hperm, hnodup, hdestroy, hempty, fun p hp => ?_, hsound.accounted.always⟩
  have hnow := hsound.accounted.now p hp
  simpa [hempty] using hnow

/-- A released and a lost large block, refused requests, and a reset in between. -/
theorem ncPool_blocks_released_once_refused :
    ∃ s blocks records t', run (step (bump [2, 5]) 40) (opened (fresh [2, 5] 64))
        [.palloc 5000, .palloc 700, .pfree 4224, .palloc 800, .reset, .pcalloc 900, .pfree 0,
          .pnalloc 40] = some s ∧
      Along (step (bump [2, 5]) 40) (ReturnsOnly (bump [2, 5]) 40) (opened (fresh [2, 5] 64))
        [.palloc 5000, .palloc 700, .pfree 4224, .palloc 800, .reset, .pcalloc 900, .pfree 0,
          .pnalloc 40] ∧
      Listed (fun b => (s.pool.data b).next) null s.pool.base blocks ∧
      Listed (fun l => (s.pool.largeAt l).next) null s.pool.large records ∧
      (s.pool.system.held.map start).Perm (blocks ++ allocs s.pool records) ∧
      (blocks ++ allocs s.pool records).Nodup ∧
      ncPoolDestroy 40 s.pool = some ([], t') ∧ t'.system.held = [] ∧
      (∀ p, p ≠ null → handedOut t'.system.calls p = takenBack t'.system.calls p) ∧
      ∀ calls, calls <:+ t'.system.calls → ∀ p, p ≠ null →
        takenBack calls p ≤ handedOut calls p ∧ handedOut calls p ≤ takenBack calls p + 1 :=
  ncPool_blocks_released_once (bump_lawful [2, 5]) (by decide)
    (show Created (bump [2, 5]) 64 blank (fresh [2, 5] 64) from ⟨rfl, by decide, rfl, by decide⟩)
    (by decide) (by simp)

end Libnc.Pool
