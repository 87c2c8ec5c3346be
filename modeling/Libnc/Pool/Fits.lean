import Libnc.Pool.Session

/-!
# Small allocations fit in their block

For pools of any size.  Where the size is not a multiple of the alignment the top of
a block may be rounded up past its end, and then the test for room is passed by
every request.
-/

namespace Libnc.Pool

open Libnc.Foundation Span

variable {malloc : Allocator} {s : Session} {L : Layout} {psize fuel : Nat} {t t₀ : NcPool}
variable {op : Op}

/-- Requests that are served from the blocks, and resets. -/
def SmallRequest (s : Session) : Op → Prop
  | .palloc size => size ≤ s.pool.max
  | .pnalloc size => size ≤ s.pool.max
  | .pcalloc size => size ≤ s.pool.max
  | .reset => True
  | _ => False

instance decidableSmallRequest (s : Session) : ∀ op, Decidable (SmallRequest s op)
  | .palloc size => inferInstanceAs (Decidable (size ≤ s.pool.max))
  | .pnalloc size => inferInstanceAs (Decidable (size ≤ s.pool.max))
  | .pcalloc size => inferInstanceAs (Decidable (size ≤ s.pool.max))
  | .pfree _ => isFalse id
  | .cleanupAdd _ _ => isFalse id
  | .reset => isTrue trivial

/-- An aligned request finds no block whose top is rounded up past its end. -/
def Rounds (fuel : Nat) (s : Session) : Op → Prop
  | .palloc size => RoundsInside s.pool size fuel s.pool.current
  | .pcalloc size => RoundsInside s.pool size fuel s.pool.current
  | _ => True

instance decidableRounds (fuel : Nat) (s : Session) : ∀ op, Decidable (Rounds fuel s op)
  | .palloc size => decidableRoundsInside s.pool size fuel s.pool.current
  | .pcalloc size => decidableRoundsInside s.pool size fuel s.pool.current
  | .pnalloc _ => isTrue trivial
  | .pfree _ => isTrue trivial
  | .cleanupAdd _ _ => isTrue trivial
  | .reset => isTrue trivial

/-- In blocks whose size is a multiple of the alignment rounding is always inside. -/
theorem rounds_of_dvd (h : Rep s.pool psize L) (hdvd : ncAlignment ∣ psize) (op : Op) :
    Rounds fuel s op := by
  cases op with
  | palloc size => exact h.roundsInside hdvd h.current_mem
  | pcalloc size => exact h.roundsInside hdvd h.current_mem
  | _ => trivial

/-- Where rounding is not inside, the search stops at a range that leaves its block. -/
theorem Shape.pallocSearch_outside {size : Nat} {xs ys : List Block} {b : Block}
    (h : Shape t psize L) (hL : L.blocks = xs ++ b :: ys) (hsize : size ≤ t.max)
    (hout : ¬ RoundsInside t size fuel b.base) :
    ∃ c ∈ L.blocks, ∃ m, pallocSearch t size true fuel b.base = some (some (c.base, m)) ∧
      ¬ (c.region.top ≤ m ∧ m ≤ c.region.high) := by
  induction fuel generalizing xs b ys with
  | zero => exact absurd trivial hout
  | succ fuel ih =>
      have hb : b ∈ L.blocks := by simp [hL]
      have hhigh := h.high_bound hb
      have htop := b.region.top_le
      rw [h.pallocSearch_step hb, searchStart, if_pos rfl]
      simp only [RoundsInside, h.last_eq b hb, h.end_eq b hb] at hout
      by_cases hround : b.region.top ≤ ncAlignPtr b.region.top ncAlignment ∧
          ncAlignPtr b.region.top ncAlignment ≤ b.region.high
      · have hrest : sizeDiff b.region.high (ncAlignPtr b.region.top ncAlignment) < size ∧
            (t.data b.base).next ≠ null ∧ ¬ RoundsInside t size fuel (t.data b.base).next := by
          by_contra hnot
          refine hout ⟨hround, fun hlt hne => ?_⟩
          by_contra hnext
          exact hnot ⟨hlt, hne, hnext⟩
        obtain ⟨hlt, hne, hnext⟩ := hrest
        rw [if_neg hlt.not_ge, if_neg hne]
        cases ys with
        | nil => exact absurd (h.next_eq hL).1 hne
        | cons c ys =>
            obtain ⟨hc, -⟩ := (h.next_eq hL).2 c rfl
            rw [hc] at hnext ⊢
            exact ih (show L.blocks = (xs ++ [b]) ++ c :: ys by simp [hL]) hnext
      · refine ⟨b, hb, _, if_pos ?_, hround⟩
        have hmax := h.max_eq ▸ hsize
        have hend := h.high_eq b hb
        simp only [ncMaxAllocFromPool] at hmax
        rcases ncAlignPtr_bounds (htop.trans_lt hhigh) with ⟨hle, hlt⟩ | hzero
        · -- the difference to the rounded top is negative
          have hpast : b.region.high < ncAlignPtr b.region.top ncAlignment := by omega
          have hword : ncAlignPtr b.region.top ncAlignment ≤ 2 ^ 64 := by
            simp only [ncAlignPtr, ncAlignment]
            omega
          rw [sizeDiff_of_lt hpast hword]
          simp only [ncAlignment] at hlt
          omega
        · rw [hzero, sizeDiff_of_le (Nat.zero_le _) hhigh]
          omega

/-- What the last call has returned was cut off the block that it is the top of. -/
def LastFits (s : Session) (L : Layout) : Prop :=
  ∀ align size p log, s.log = .alloc align size p :: log → p ≠ null →
    ∃ c ∈ L.blocks, c.region.low ≤ p ∧ c.region.top = p + size

theorem small_step (zero : Bool) {align : Bool} {size : Nat} (h : Rep s.pool psize L)
    (hm : malloc.Lawful) (hsize : size ≤ s.pool.max) (hfuel : L.length < fuel)
    (hsafe : align = true → RoundsInside s.pool size fuel s.pool.current) :
    ∃ p u L', ncPallocSmall malloc fuel s.pool size align = some (p, u) ∧
      Rep u psize L' ∧ Rep (if zero ∧ p ≠ null then memsetZero u p size else u) psize L' ∧
      L'.length ≤ L.length + 4 ∧
      (p ≠ null → ∃ c ∈ L'.blocks, c.region.low ≤ p ∧ c.region.top = p + size) := by
  have hblocks : L.blocks.length ≤ fuel := by
    simp only [Layout.length] at hfuel
    omega
  obtain ⟨p, u, hrun, -, ⟨hkept, hresult⟩, -, howner⟩ := h.small_spec hm hsize hblocks hsafe
  by_cases hp : p = null
  · rcases hresult with ⟨-, hu⟩ | ⟨hne, -⟩
    · refine ⟨p, u, L, hrun, hu.rep h, ?_, Nat.le_add_right _ _, fun hne => absurd hp hne⟩
      rw [if_neg fun hz => hz.2 hp]
      exact hu.rep h
    · exact absurd hp hne
  · obtain ⟨blocks, htaken, hrep⟩ := howner hp
    refine ⟨p, u, _, hrun, hrep, ?_, ?_, fun _ => htaken.owner⟩
    · split
      · exact (hrep.memsetZero_spec (by simp [Layout.ranges])).1
      · exact hrep
    · have hlength := htaken.length
      simp only [Layout.length]
      omega

theorem fits_step (h : Rep s.pool psize L) (hm : malloc.Lawful) (hfuel : L.length < fuel)
    (hsmall : SmallRequest s op) (hsafe : Rounds fuel s op) :
    ∃ s' L', step malloc fuel s op = some s' ∧ Rep s'.pool psize L' ∧
      L'.length ≤ L.length + 4 ∧ LastFits s' L' := by
  cases op with
  | palloc size =>
      obtain ⟨p, u, L', hrun, hrep, -, hlen, hfits⟩ :=
        small_step false h hm hsmall hfuel fun _ : true = true => hsafe
      refine ⟨⟨u, .alloc true size p :: s.log⟩, L', ?_, hrep, hlen, ?_⟩
      · simp only [step, ncPalloc, if_pos (show size ≤ s.pool.max from hsmall), hrun]
        rfl
      · rintro _ _ _ _ ⟨⟩ hp
        exact hfits hp
  | pnalloc size =>
      obtain ⟨p, u, L', hrun, hrep, -, hlen, hfits⟩ :=
        small_step false h hm hsmall hfuel fun halign : false = true => Bool.noConfusion halign
      refine ⟨⟨u, .alloc false size p :: s.log⟩, L', ?_, hrep, hlen, ?_⟩
      · simp only [step, ncPnalloc, if_pos (show size ≤ s.pool.max from hsmall), hrun]
        rfl
      · rintro _ _ _ _ ⟨⟩ hp
        exact hfits hp
  | pcalloc size =>
      obtain ⟨p, u, L', hrun, -, hrep, hlen, hfits⟩ :=
        small_step true h hm hsmall hfuel fun _ : true = true => hsafe
      refine ⟨⟨if true ∧ p ≠ null then memsetZero u p size else u,
        .alloc true size p :: s.log⟩, L', ?_, hrep, hlen, ?_⟩
      · simp only [step, ncPcalloc, ncPalloc, if_pos (show size ≤ s.pool.max from hsmall), hrun]
        by_cases hp : p = null <;> simp [hp]
      · rintro _ _ _ _ ⟨⟩ hp
        exact hfits hp
  | pfree p => exact absurd hsmall id
  | cleanupAdd size handler => exact absurd hsmall id
  | reset =>
      obtain ⟨t, hrun, hrep, -⟩ := h.ncPoolReset_spec hfuel
      refine ⟨⟨t, .reset :: s.log⟩, L.rewound, by simp only [step, hrun]; rfl, hrep, ?_, ?_⟩
      · simp [Layout.length, Layout.rewound, Nat.add_assoc]
      · rintro _ _ _ _ ⟨⟩

/--
In every run of small requests and resets in which rounding stays inside the
blocks, the range that the last call has returned lies in the block it was cut off,
and no block is used past its end.
-/
theorem ncPool_small_fits (hm : malloc.Lawful) (hcreate : Created malloc psize t₀ t) {ops : List Op}
    (hfuel : 4 * ops.length + 4 ≤ fuel)
    (hsmall : Along (step malloc fuel) SmallRequest (opened t) ops)
    (hsafe : Along (step malloc fuel) (Rounds fuel) (opened t) ops) :
    ∃ s blocks, run (step malloc fuel) (opened t) ops = some s ∧
      Listed (fun b => (s.pool.data b).next) null s.pool.base blocks ∧
      (∀ b ∈ blocks, (s.pool.data b).last ≤ (s.pool.data b).end_) ∧
      ∀ align size p log, s.log = .alloc align size p :: log → p ≠ null →
        ∃ b ∈ blocks, b + headerSize s.pool b ≤ p ∧ (s.pool.data b).last = p + size ∧
          p + size ≤ (s.pool.data b).end_ := by
  obtain ⟨L₀, hsound₀, hlen₀, -⟩ := hcreate.sound hm
  obtain ⟨s, hrun, L, hrep, hlen, hfits⟩ := Along.run_total
    (fun past s => ∃ L, Rep s.pool psize L ∧ L.length ≤ 4 * past.length + 1 ∧ LastFits s L)
    ops.length
    (by
      rintro past s op hpast ⟨L, hrep, hlen, -⟩ ⟨hop, hround⟩
      have hfuel' : L.length < fuel := by omega
      obtain ⟨s', L', hrun, hrep', hlen', hfits⟩ := fits_step hrep hm hfuel' hop hround
      refine ⟨s', hrun, L', hrep', ?_, hfits⟩
      rw [List.length_append, List.length_singleton]
      omega)
    [] (by simp) ⟨L₀, hsound₀.rep, by simp [hlen₀], by rintro _ _ _ _ ⟨⟩⟩ (hsmall.and hsafe)
  refine ⟨s, L.bases, hrun, hrep.chain, fun p hp => ?_, fun align size p log hlog hp => ?_⟩
  · obtain ⟨b, hb, rfl⟩ := Shape.exists_block hp
    rw [hrep.last_eq b hb, hrep.end_eq b hb]
    exact b.region.top_le
  · obtain ⟨c, hc, hlow, htop⟩ := hfits align size p log hlog hp
    refine ⟨c.base, List.mem_map_of_mem hc, hrep.low_eq c hc ▸ hlow,
      (hrep.last_eq c hc).trans htop, ?_⟩
    rw [hrep.end_eq c hc, ← htop]
    exact c.region.top_le

/-- After a reset the second request does not fit into what the first has left. -/
theorem ncPool_small_fits_unaligned :
    ∃ s blocks, run (step (bump []) 24) (opened (fresh [] 77))
        [.palloc 4, .pnalloc 2, .reset, .palloc 5, .pnalloc 13] = some s ∧
      Listed (fun b => (s.pool.data b).next) null s.pool.base blocks ∧
      (∀ b ∈ blocks, (s.pool.data b).last ≤ (s.pool.data b).end_) ∧
      ∀ align size p log, s.log = .alloc align size p :: log → p ≠ null →
        ∃ b ∈ blocks, b + headerSize s.pool b ≤ p ∧ (s.pool.data b).last = p + size ∧
          p + size ≤ (s.pool.data b).end_ :=
  ncPool_small_fits (bump_lawful [])
    (show Created (bump []) 77 blank (fresh [] 77) from ⟨rfl, by decide, rfl, by decide⟩)
    (by decide) (by decide +kernel) (by decide +kernel)

/-- In a pool of 65 bytes the second byte is handed out behind the end of the block. -/
theorem ncPool_small_overruns :
    Created (bump []) 65 blank (fresh [] 65) ∧
      Along (step (bump []) 12) SmallRequest (opened (fresh [] 65)) [.palloc 1, .palloc 1] ∧
      ∃ s, run (step (bump []) 12) (opened (fresh [] 65)) [.palloc 1, .palloc 1] = some s ∧
        Listed (fun b => (s.pool.data b).next) null s.pool.base [4096] ∧
        s.log.head? = some (.alloc true 1 4168) ∧
        (s.pool.data 4096).last = 4169 ∧ (s.pool.data 4096).end_ = 4161 :=
  ⟨⟨rfl, by decide, rfl, by decide⟩, by decide +kernel, Option.get _ (by decide +kernel),
    (Option.some_get _).symm, by decide +kernel,
    by decide +kernel, by decide +kernel, by decide +kernel⟩

end Libnc.Pool
