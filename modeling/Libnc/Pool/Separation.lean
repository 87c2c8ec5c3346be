import Libnc.Pool.Session

/-!
# Allocations do not overlap

Whatever the calls, the ranges that the caller owns, the records of the large
blocks and the headers of the blocks are separate.
-/

namespace Libnc.Pool

open Libnc.Foundation Span

variable {malloc : Allocator} {s : Session} {L : Layout} {psize fuel : Nat} {t t₀ : NcPool}

/-- Between the header and the end of one of the blocks. -/
def InBlock (t : NcPool) (blocks : List Nat) (r : Span) : Prop :=
  ∃ b ∈ blocks, b + headerSize t b ≤ r.start ∧ r.finish ≤ (t.data b).end_

theorem Shape.inBlock (h : Shape t psize L) {r : Span} (hr : r ∈ L.spans ++ L.recordSpans) :
    InBlock t L.bases r := by
  obtain ⟨b, hb, hlow, hhigh⟩ := h.exists_room hr
  refine ⟨b.base, List.mem_map_of_mem hb, hlow, hhigh.trans ?_⟩
  rw [h.end_eq b hb]
  exact b.region.top_le

theorem Sound.place (h : Sound psize s L) {r : Span} (hr : r ∈ live s.pool.max s.log) :
    InBlock s.pool L.bases r ∨ r ∈ s.pool.system.held ∧ r.start ∉ L.bases := by
  rcases List.mem_append.mp (h.owned.subset hr) with hr | hr
  · exact .inl (h.rep.inBlock (List.mem_append_left _ hr))
  · have hheld : r ∈ s.pool.system.held := h.rep.held.mem_iff.mpr (List.mem_append_right _ hr)
    refine .inr ⟨hheld, fun hb => ?_⟩
    have hpos : 0 < psize := h.rep.psize_ge.trans_lt' (by decide)
    have happart := (List.pairwise_append.mp h.rep.held_separate).2.2 _
      (List.mem_map_of_mem (f := fun b => (⟨b, psize⟩ : Span)) hb) r hr
    exact happart.start_ne hpos (h.rep.system.pos r hheld) rfl

theorem Sound.separate (h : Sound psize s L) :
    Separate (live s.pool.max s.log ++ (L.recordSpans ++
      L.bases.map fun b => ⟨b, headerSize s.pool b⟩)) := by
  refine h.rep.separate.subperm (((List.subperm_append_right _).mpr h.owned).trans
    (List.Perm.subperm ?_))
  rw [Layout.ranges]
  generalize L.bases.map (fun b => (⟨b, headerSize s.pool b⟩ : Span)) = headers
  rw [List.append_assoc, List.append_assoc]
  apply List.Perm.append_left _
  rw [← List.append_assoc, ← List.append_assoc]
  exact List.perm_append_comm.append_right _

/--
After every run from a fresh pool what the caller owns, the records of the large
list and the headers do not overlap, and all of it lies where it should.
-/
theorem ncPool_ranges_separate (hm : malloc.Lawful) (hdvd : ncAlignment ∣ psize)
    (hcreate : Created malloc psize t₀ t) {ops : List Op} (hfuel : 4 * ops.length + 4 ≤ fuel) :
    ∃ s blocks records, run (step malloc fuel) (opened t) ops = some s ∧
      Listed (fun b => (s.pool.data b).next) null s.pool.base blocks ∧
      Listed (fun l => (s.pool.largeAt l).next) null s.pool.large records ∧
      (∀ b ∈ blocks, ⟨b, psize⟩ ∈ s.pool.system.held ∧ (s.pool.data b).end_ = b + psize) ∧
      Separate (live s.pool.max s.log ++ ((records.map fun l => ⟨l, sizeofNcPoolLarge⟩) ++
        blocks.map fun b => ⟨b, headerSize s.pool b⟩)) ∧
      (∀ l ∈ records, InBlock s.pool blocks ⟨l, sizeofNcPoolLarge⟩) ∧
      (∀ r ∈ live s.pool.max s.log,
        InBlock s.pool blocks r ∨ r ∈ s.pool.system.held ∧ r.start ∉ blocks) ∧
      ∀ size p, .alloc true size p ∈ s.log → ncAlignment ∣ p := by
  obtain ⟨s, L, hrun, hs, -⟩ := run_spec hm hdvd hcreate (fun _ => True) (fun _ _ => True)
    trivial (fun _ _ _ _ _ _ _ _ _ _ => trivial) hfuel (Along.of_forall fun _ _ _ => trivial)
  refine ⟨s, L.bases, L.records, hrun, hs.rep.chain, hs.rep.records, fun p hp => ?_, hs.separate,
    fun l hl => ?_, fun r hr => hs.place hr, hs.aligned⟩
  · obtain ⟨b, hb, rfl⟩ := Shape.exists_block hp
    exact ⟨hs.rep.mem_held hb, (hs.rep.end_eq b hb).trans (hs.rep.high_eq b hb)⟩
  · exact hs.rep.inBlock (List.mem_append_right _ (List.mem_map.mpr ⟨l, hl, rfl⟩))

/-- Aligned and unaligned ranges, a large block that is released and one that is not. -/
theorem ncPool_ranges_separate_mixed :
    ∃ s blocks records, run (step (bump []) 40) (opened (fresh [] 128))
        [.palloc 10, .pnalloc 3, .palloc 5000, .pcalloc 16, .pfree 4224, .palloc 6000, .reset,
          .pnalloc 7, .palloc 70] = some s ∧
      Listed (fun b => (s.pool.data b).next) null s.pool.base blocks ∧
      Listed (fun l => (s.pool.largeAt l).next) null s.pool.large records ∧
      (∀ b ∈ blocks, ⟨b, 128⟩ ∈ s.pool.system.held ∧ (s.pool.data b).end_ = b + 128) ∧
      Separate (live s.pool.max s.log ++ ((records.map fun l => ⟨l, sizeofNcPoolLarge⟩) ++
        blocks.map fun b => ⟨b, headerSize s.pool b⟩)) ∧
      (∀ l ∈ records, InBlock s.pool blocks ⟨l, sizeofNcPoolLarge⟩) ∧
      (∀ r ∈ live s.pool.max s.log,
        InBlock s.pool blocks r ∨ r ∈ s.pool.system.held ∧ r.start ∉ blocks) ∧
      ∀ size p, .alloc true size p ∈ s.log → ncAlignment ∣ p :=
  ncPool_ranges_separate (bump_lawful []) (by decide)
    (show Created (bump []) 128 blank (fresh [] 128) from ⟨rfl, by decide, rfl, by decide⟩)
    (by decide)

end Libnc.Pool
