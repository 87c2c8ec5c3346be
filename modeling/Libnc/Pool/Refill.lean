import Libnc.Foundation.FirstFit
import Libnc.Pool.Session

/-!
# What a reset gives back

After a reset the search starts at the first block again, and every block offers what
is behind a header of the size of the pool's.  So the blocks are bins of one size, and
small requests add no block just when first fit packs them into as many of these bins
as there are blocks.
-/

namespace Libnc.Pool

open Libnc.Foundation Span

variable {malloc : Allocator} {s s' : Session} {L L' : Layout} {psize fuel p used : Nat}
variable {t t' t₀ : NcPool} {b : Block} {xs ys : List Block} {levels : List Nat}

/-- A call of `nc_palloc` or, if `align` is false, of `nc_pnalloc`. -/
structure Request where
  align : Bool
  size : Nat
  deriving DecidableEq, Repr

namespace Request

def op (r : Request) : Op := if r.align then .palloc r.size else .pnalloc r.size

/-- Where the request is served in a bin of which the first `used` bytes are taken. -/
def offset (r : Request) (used : Nat) : Nat :=
  if r.align then (used + (ncAlignment - 1)) / ncAlignment * ncAlignment else used

/-- What is taken of a bin of `room` bytes after the request, if it fits. -/
def put (room used : Nat) (r : Request) : Option Nat :=
  if r.offset used + r.size ≤ room then some (r.offset used + r.size) else none

theorem put_zero {room : Nat} {r : Request} (h : r.size ≤ room) : (put room 0 r).isSome := by
  have hzero : r.offset 0 = 0 := by
    unfold offset
    split <;> simp [ncAlignment]
  simp [put, hzero, h]

end Request

/-- Behind a header of the size of the pool's the first `used` bytes are taken. -/
def AtLevel (b : Block) (used : Nat) : Prop := b.region.top = b.base + sizeofNcPool + used

/-! ## One request -/

theorem Shape.searchStart_level (h : Shape t psize L) (hdvd : ncAlignment ∣ psize)
    (hb : b ∈ L.blocks) (hlevel : AtLevel b used) (r : Request) :
    searchStart r.align b.region.top = b.base + sizeofNcPool + r.offset used ∧
      b.region.top ≤ searchStart r.align b.region.top ∧
      searchStart r.align b.region.top ≤ b.region.high := by
  have hbound := h.high_bound hb
  have htop := b.region.top_le
  cases halign : r.align with
  | false => simp [searchStart, Request.offset, halign, hlevel.symm, htop]
  | true =>
      have hbase := h.base_aligned hb
      have hhigh := h.high_eq b hb
      simp only [AtLevel, sizeofNcPool] at hlevel
      simp only [searchStart, Request.offset, halign, if_true, ncAlignPtr, ncAlignment,
        sizeofNcPool] at hdvd ⊢
      omega

theorem Shape.fits_put (h : Shape t psize L) (hdvd : ncAlignment ∣ psize) (hb : b ∈ L.blocks)
    (hlevel : AtLevel b used) (r : Request) :
    r.size ≤ sizeDiff b.region.high (searchStart r.align b.region.top) ↔
      r.offset used + r.size ≤ psize - sizeofNcPool := by
  obtain ⟨heq, -, hle⟩ := h.searchStart_level hdvd hb hlevel r
  rw [h.fits_iff hb hle, heq, h.high_eq b hb]
  have hge := h.psize_ge
  omega

/-- The search finds the block in which first fit puts the request. -/
theorem Shape.pallocSearch_fill (h : Shape t psize L) (hdvd : ncAlignment ∣ psize)
    (r : Request) (hL : L.blocks = xs ++ b :: ys)
    (hlevels : List.Forall₂ AtLevel (b :: ys) levels) (hfuel : ys.length < fuel) :
    pallocSearch t r.size r.align fuel b.base = some none ∧
        FirstFit.fill (Request.put (psize - sizeofNcPool)) levels r = none ∨
      ∃ (zs : List Block) (c : Block) (ws : List Block) (m : Nat) (levels' : List Nat)
        (hm : c.region.top ≤ m) (hsize : m + r.size ≤ c.region.high),
        b :: ys = zs ++ c :: ws ∧
        pallocSearch t r.size r.align fuel b.base = some (some (c.base, m)) ∧
        FirstFit.fill (Request.put (psize - sizeofNcPool)) levels r = some levels' ∧
        List.Forall₂ AtLevel (zs ++ c.raise m r.size hm hsize :: ws) levels' := by
  induction fuel generalizing xs b ys levels with
  | zero => exact absurd hfuel (Nat.not_lt_zero _)
  | succ fuel ih =>
      obtain ⟨used, rest, hlevel, htail, rfl⟩ := List.forall₂_cons_left_iff.mp hlevels
      have hb : b ∈ L.blocks := by simp [hL]
      obtain ⟨heq, hle, hhigh⟩ := h.searchStart_level hdvd hb hlevel r
      have hfits := h.fits_put hdvd hb hlevel r
      rw [h.pallocSearch_step hb]
      by_cases hroom : r.offset used + r.size ≤ psize - sizeofNcPool
      · -- the request fits here
        have hput : Request.put (psize - sizeofNcPool) used r = some (r.offset used + r.size) :=
          if_pos hroom
        refine .inr ⟨[], b, ys, _, _, hle, (h.fits_iff hb hhigh).mp (hfits.mpr hroom), rfl,
          if_pos (hfits.mpr hroom), FirstFit.fill_cons_some hput rest, .cons ?_ htail⟩
        change searchStart r.align b.region.top + r.size = b.base + sizeofNcPool + _
        rw [heq, Nat.add_assoc]
      · have hput : Request.put (psize - sizeofNcPool) used r = none := if_neg hroom
        rw [if_neg fun hyes => hroom (hfits.mp hyes), FirstFit.fill_cons_none hput]
        obtain ⟨hnil, hcons⟩ := h.next_eq hL
        cases ys with
        | nil =>
            cases htail
            exact .inl ⟨if_pos hnil, rfl⟩
        | cons c ys =>
            obtain ⟨hnext, hc⟩ := hcons c rfl
            rw [hnext, if_neg hc]
            have hL' : L.blocks = (xs ++ [b]) ++ c :: ys := by simp [hL]
            rcases ih hL' htail (Nat.lt_of_succ_lt_succ hfuel) with ⟨hsearch, hfill⟩ |
              ⟨zs, c', ws, m, levels', hm, hsize, hsplit, hsearch, hfill, hlevels'⟩
            · exact .inl ⟨hsearch, by rw [hfill]; rfl⟩
            · exact .inr ⟨b :: zs, c', ws, m, _, hm, hsize, by rw [hsplit]; rfl, hsearch,
                by rw [hfill]; rfl, .cons hlevel hlevels'⟩

/-- The chain is a row of bins, and the search starts at its head. -/
structure Leveled (t : NcPool) (psize : Nat) (L : Layout) (levels : List Nat) : Prop
    extends Shape t psize L where
  current_eq : t.current = t.base
  levels : List.Forall₂ AtLevel L.blocks levels

/-- The request is served as first fit does it, or else a block is added. -/
theorem Leveled.ncPallocSmall_spec (h : Leveled t psize L levels) (hm : malloc.Lawful)
    (hdvd : ncAlignment ∣ psize) {r : Request} (hsize : r.size ≤ t.max)
    (hfuel : L.blocks.length ≤ fuel) :
    ∃ p t', ncPallocSmall malloc fuel t r.size r.align = some (p, t') ∧ SameLists t t' ∧
      ((∃ L' levels', FirstFit.fill (Request.put (psize - sizeofNcPool)) levels r = some levels' ∧
          Leveled t' psize L' levels' ∧ L'.bases = L.bases) ∨
        FirstFit.fill (Request.put (psize - sizeofNcPool)) levels r = none ∧
          (p = null ∨ ∃ q L', Shape t' psize L' ∧ L'.bases = L.bases ++ [q])) := by
  obtain ⟨b, ys, hL, hbase⟩ := h.exists_first
  have hcurrent : t.current = b.base := h.current_eq.trans hbase.symm
  have hfirst : L.blocks = [] ++ b :: ys := hL
  have hlevels : List.Forall₂ AtLevel (b :: ys) levels := hL ▸ h.levels
  have hlength : ys.length < fuel := by
    rw [hL, List.length_cons] at hfuel
    omega
  rcases h.pallocSearch_fill hdvd r hfirst hlevels hlength with ⟨hsearch, hfill⟩ |
    ⟨zs, c, ws, m, levels', hm', hroom, hsplit, hsearch, hfill, hlevels'⟩
  · obtain ⟨p, t', hrun, -, hresult, hadded⟩ := h.ncPallocBlock_spec hm (h.data_le hsize) hfuel
    refine ⟨p, t', ?_, hresult.lists, .inr ⟨hfill, hadded⟩⟩
    simp [ncPallocSmall, hcurrent, hsearch, hrun]
  · have hL' : L.blocks = zs ++ c :: ws := hL.trans hsplit
    have hc : c ∈ L.blocks := by simp [hL']
    refine ⟨m, t.putData c.base { t.data c.base with last := m + r.size }, ?_,
      ⟨rfl, rfl, rfl, rfl, rfl, rfl⟩, .inl ⟨_, levels', hfill,
        ⟨h.carve hL' hm' hroom, h.current_eq, hlevels'⟩, ?_⟩⟩
    · simp [ncPallocSmall, hcurrent, hsearch, NcPool.getData, h.base_ne_null hc]
    · simp [Layout.bases, hL', Block.raise]

/-! ## A sequence of requests -/

def Event.failed : Event → Bool
  | .alloc _ _ p => p == null
  | .cleanupAdd _ _ c _ => c == null
  | _ => false

/-- The call does not return NULL. -/
def Granted (malloc : Allocator) (fuel : Nat) (s : Session) (op : Op) : Prop :=
  ∀ s' ∈ step malloc fuel s op, ∀ e ∈ s'.log.head?, e.failed = false

instance decidableGranted (malloc : Allocator) (fuel : Nat) (s : Session) (op : Op) :
    Decidable (Granted malloc fuel s op) :=
  inferInstanceAs (Decidable (∀ s' ∈ step malloc fuel s op, ∀ e ∈ s'.log.head?, e.failed = false))

theorem step_op {r : Request} (hsize : r.size ≤ s.pool.max)
    (hrun : ncPallocSmall malloc fuel s.pool r.size r.align = some (p, t)) :
    step malloc fuel s r.op = some ⟨t, .alloc r.align r.size p :: s.log⟩ := by
  cases halign : r.align <;> rw [halign] at hrun <;>
    simp [Request.op, step, ncPalloc, ncPnalloc, hsize, halign, hrun]

theorem Shape.step_op (h : Shape s.pool psize L) (hm : malloc.Lawful) (hdvd : ncAlignment ∣ psize)
    {r : Request} (hsize : r.size ≤ s.pool.max) (hfuel : L.blocks.length ≤ fuel) :
    ∃ s' L', step malloc fuel s r.op = some s' ∧ Shape s'.pool psize L' ∧
      s'.pool.max = s.pool.max ∧ L.bases <+: L'.bases ∧
      L'.blocks.length ≤ L.blocks.length + 1 := by
  obtain ⟨p, t, hrun, -, hlists, hresult⟩ := h.ncPallocSmall_spec hm (h.data_le hsize) hfuel
    fun _ => h.roundsInside hdvd h.current_mem
  have hstep := Libnc.Pool.step_op hsize hrun
  rcases hresult with ⟨-, hu⟩ | ⟨-, blocks, hshape, htaken, -⟩
  · exact ⟨_, L, hstep, hu.shape h, hlists.max, List.prefix_refl _, Nat.le_succ _⟩
  · exact ⟨_, _, hstep, hshape, hlists.max, htaken.bases, htaken.length⟩

/-- Small requests only add blocks. -/
theorem Shape.run_ops (h : Shape s.pool psize L) (hm : malloc.Lawful) (hdvd : ncAlignment ∣ psize)
    {reqs : List Request} (hsmall : ∀ r ∈ reqs, r.size ≤ s.pool.max)
    (hfuel : L.blocks.length + reqs.length ≤ fuel) :
    ∃ s' L', run (step malloc fuel) s (reqs.map Request.op) = some s' ∧
      Shape s'.pool psize L' ∧ L.bases <+: L'.bases := by
  induction reqs generalizing s L with
  | nil => exact ⟨s, L, rfl, h, List.prefix_refl _⟩
  | cons r reqs ih =>
      obtain ⟨hsize, hrest⟩ := List.forall_mem_cons.mp hsmall
      rw [List.length_cons] at hfuel
      obtain ⟨s₁, L₁, hstep, h₁, hmax, hgrows, hlength⟩ :=
        h.step_op hm hdvd hsize (show L.blocks.length ≤ fuel by omega)
      obtain ⟨s', L', hrun, h', hgrows'⟩ := ih h₁ (hmax.symm ▸ hrest) (by omega)
      exact ⟨s', L', run_cons_some hstep hrun, h', hgrows.trans hgrows'⟩

/-- No block is added just when first fit needs no other bins. -/
theorem Leveled.run_iff (h : Leveled s.pool psize L levels) (hm : malloc.Lawful)
    (hdvd : ncAlignment ∣ psize) {reqs : List Request} (hsmall : ∀ r ∈ reqs, r.size ≤ s.pool.max)
    (hfuel : L.blocks.length + reqs.length ≤ fuel)
    (hgranted : Along (step malloc fuel) (Granted malloc fuel) s (reqs.map Request.op)) :
    ∃ s' L', run (step malloc fuel) s (reqs.map Request.op) = some s' ∧
      Shape s'.pool psize L' ∧ (L'.bases = L.bases ↔
        (run (FirstFit.fill (Request.put (psize - sizeofNcPool))) levels reqs).isSome) := by
  induction reqs generalizing s L levels with
  | nil => exact ⟨s, L, rfl, h.toShape, by simp⟩
  | cons r reqs ih =>
      obtain ⟨hsize, hrest⟩ := List.forall_mem_cons.mp hsmall
      rw [List.length_cons] at hfuel
      obtain ⟨p, t, hserve, hlists, hresult⟩ :=
        h.ncPallocSmall_spec hm hdvd hsize (show L.blocks.length ≤ fuel by omega)
      have hstep := Libnc.Pool.step_op hsize hserve
      have hp : p ≠ null := by
        have hanswer := hgranted.1 _ hstep (.alloc r.align r.size p) List.head?_cons
        simpa [Event.failed] using hanswer
      rw [run]
      rcases hresult with ⟨L₁, levels₁, hfill, h₁, hbases⟩ | ⟨hfill, hadded⟩
      · have hlength : L₁.blocks.length = L.blocks.length := by
          simpa [Layout.bases] using congrArg List.length hbases
        obtain ⟨s', L', hrun, h', hiff⟩ := ih (s := ⟨t, _⟩) h₁ (hlists.max.symm ▸ hrest)
          (by omega) (hgranted.2 _ hstep)
        exact ⟨s', L', run_cons_some hstep hrun, h', by rw [hfill, ← hbases]; exact hiff⟩
      · -- the chain has grown, and stays longer than it was
        obtain ⟨q, L₁, h₁, hbases⟩ := hadded.resolve_left hp
        have hlength := congrArg List.length hbases
        simp only [Layout.bases, List.length_map, List.length_append, List.length_singleton]
          at hlength
        have hrest' : ∀ r' ∈ reqs, r'.size ≤ t.max := hlists.max.symm ▸ hrest
        obtain ⟨s', L', hrun, h', hgrows⟩ := Shape.run_ops
          (s := ⟨t, .alloc r.align r.size p :: s.log⟩) h₁ hm hdvd hrest'
          (show _ ≤ fuel by omega)
        refine ⟨s', L', run_cons_some hstep hrun, h',
          iff_of_false (fun heq => ?_) (by simp [hfill])⟩
        have hle := hgrows.length_le
        rw [heq] at hle
        simp only [Layout.bases, List.length_map] at hle
        omega

/-! ## The reset -/

theorem Reset.leveled (h : Reset L t t') (hrep : Rep t' psize L.rewound) :
    Leveled t' psize L.rewound (List.replicate L.blocks.length 0) := by
  refine ⟨hrep.toShape, h.current.trans h.base.symm, ?_⟩
  rw [← List.map_const', Layout.rewound, List.forall₂_map_left_iff, List.forall₂_map_right_iff,
    List.forall₂_same]
  intro b hb
  have hlast := hrep.last_eq _ (List.mem_map_of_mem hb)
  change (t'.data b.base).last = _ at hlast
  unfold AtLevel
  rw [← hlast, h.data b.base (List.mem_map_of_mem hb)]
  exact (Nat.add_zero _).symm

/--
A sequence of small requests that is repeated after a reset adds no block, just when
first fit packs it into as many bins of the first block's room as there are blocks.
-/
theorem ncPoolReset_refills_iff (hm : malloc.Lawful) (hdvd : ncAlignment ∣ psize)
    (hcreate : Created malloc psize t₀ t) {reqs : List Request}
    (hsmall : ∀ r ∈ reqs, r.size ≤ t.max) (hfuel : 5 * reqs.length + 4 ≤ fuel)
    (hgranted : Along (step malloc fuel) (Granted malloc fuel) (opened t)
      (reqs.map Request.op ++ .reset :: reqs.map Request.op)) :
    ∃ s s' blocks,
      run (step malloc fuel) (opened t) (reqs.map Request.op ++ [.reset]) = some s ∧
      Listed (fun b => (s.pool.data b).next) null s.pool.base blocks ∧
      run (step malloc fuel) s (reqs.map Request.op) = some s' ∧
      (Listed (fun b => (s'.pool.data b).next) null s'.pool.base blocks ↔
        (FirstFit.bins (Request.put (psize - sizeofNcPool)) 0 reqs).length ≤ blocks.length) := by
  obtain ⟨s₀, L, hrun₀, hsound, hmax, hlen, -⟩ := run_spec hm hdvd hcreate
    (fun s => s.pool.max = t.max) (fun _ _ => True) rfl
    (fun _ _ _ _ _ _ _ hres _ heq => hres.same.2.trans heq)
    (show 4 * (reqs.map Request.op).length + 4 ≤ fuel by rw [List.length_map]; omega)
    (Along.of_forall fun _ _ _ => trivial)
  rw [List.length_map] at hlen
  obtain ⟨u, hreset, hrep, hu⟩ := hsound.rep.ncPoolReset_spec (show L.length < fuel by omega)
  have hstep : step malloc fuel s₀ .reset = some ⟨u, .reset :: s₀.log⟩ := by
    simp [step, hreset]
  have hsmall' : ∀ r ∈ reqs, r.size ≤ u.max := by rwa [hu.max, hmax]
  have hblocks : L.rewound.blocks.length = L.blocks.length := by simp [Layout.rewound]
  simp only [Layout.length] at hlen
  obtain ⟨s', L', hrun, h', hiff⟩ := (hu.leveled hrep).run_iff (s := ⟨u, .reset :: s₀.log⟩) hm hdvd
    hsmall' (by omega) (((along_append _ _ _ _).mp hgranted).2 s₀ hrun₀ |>.2 _ hstep)
  refine ⟨_, s', L.rewound.bases, ?_, hrep.chain, hrun, ?_⟩
  · rw [run_append, hrun₀]
    simp [run, hstep]
  · have hfit : ∀ r ∈ reqs, (Request.put (psize - sizeofNcPool) 0 r).isSome := fun r hr =>
      Request.put_zero ((hsmall' r hr).trans (hrep.max_eq ▸ Nat.min_le_left _ _))
    have hsame : Listed (fun b => (s'.pool.data b).next) null s'.pool.base L.rewound.bases ↔
        L'.bases = L.rewound.bases :=
      ⟨fun hlist => h'.chain.unique hlist, fun heq => heq ▸ h'.chain⟩
    rw [hsame, hiff, FirstFit.run_fill_iff hfit]
    simp [Layout.bases, hblocks]

/-- Requests that leave the first block and find room again after the reset. -/
theorem ncPoolReset_refills_iff_two :
    ∃ s s' blocks,
      run (step (bump []) 24) (opened (fresh [] 128))
        ([⟨true, 60⟩, ⟨false, 30⟩, ⟨true, 20⟩].map Request.op ++ [.reset]) = some s ∧
      Listed (fun b => (s.pool.data b).next) null s.pool.base blocks ∧
      run (step (bump []) 24) s ([⟨true, 60⟩, ⟨false, 30⟩, ⟨true, 20⟩].map Request.op) = some s' ∧
      (Listed (fun b => (s'.pool.data b).next) null s'.pool.base blocks ↔
        (FirstFit.bins (Request.put (128 - sizeofNcPool)) 0
          [⟨true, 60⟩, ⟨false, 30⟩, ⟨true, 20⟩]).length ≤ blocks.length) :=
  ncPoolReset_refills_iff (bump_lawful []) (by decide)
    (show Created (bump []) 128 blank (fresh [] 128) from ⟨rfl, by decide, rfl, by decide⟩)
    (by decide) (by decide) (by decide +kernel)

/-- The second of two blocks has 96 bytes for these requests, and 64 after the reset. -/
theorem ncPoolReset_loses_room :
    Created (bump []) 128 blank (fresh [] 128) ∧ ncAlignment ∣ 128 ∧
      (∀ r ∈ [⟨true, 64⟩, ⟨true, 48⟩, ⟨false, 48⟩], Request.size r ≤ (fresh [] 128).max) ∧
      Along (step (bump []) 24) (Granted (bump []) 24) (opened (fresh [] 128))
        ([⟨true, 64⟩, ⟨true, 48⟩, ⟨false, 48⟩].map Request.op ++ .reset ::
          [⟨true, 64⟩, ⟨true, 48⟩, ⟨false, 48⟩].map Request.op) ∧
      ∃ s s', run (step (bump []) 24) (opened (fresh [] 128))
          ([⟨true, 64⟩, ⟨true, 48⟩, ⟨false, 48⟩].map Request.op ++ [.reset]) = some s ∧
        Listed (fun b => (s.pool.data b).next) null s.pool.base [4096, 4224] ∧
        run (step (bump []) 24) s ([⟨true, 64⟩, ⟨true, 48⟩, ⟨false, 48⟩].map Request.op) =
          some s' ∧
        Listed (fun b => (s'.pool.data b).next) null s'.pool.base [4096, 4224, 4352] :=
  ⟨⟨rfl, by decide, rfl, by decide⟩, by decide, by decide, by decide +kernel,
    Option.get _ (by decide +kernel), Option.get _ (by decide +kernel), (Option.some_get _).symm,
    by decide +kernel, (Option.some_get _).symm, by decide +kernel⟩

end Libnc.Pool
