import Libnc.Pool.Invariant

/-!
# Small allocations

The search finds a block with room for the request, or a new block is added.
An aligned request needs that rounding up does not leave the blocks it looks at.
-/

namespace Libnc.Pool

open Libnc.Foundation Span

variable {malloc : Allocator} {t t' : NcPool} {L : Layout} {psize size fuel m : Nat}
variable {align : Bool} {xs ys : List Block} {b c : Block}

/-- Everything but the blocks and the system is the same. -/
structure SameLists (t t' : NcPool) : Prop where
  base : t'.base = t.base
  max : t'.max = t.max
  large : t'.large = t.large
  cleanup : t'.cleanup = t.cleanup
  largeAt : t'.largeAt = t.largeAt
  cleanupAt : t'.cleanupAt = t.cleanupAt

theorem SameLists.refl (t : NcPool) : SameLists t t := ⟨rfl, rfl, rfl, rfl, rfl, rfl⟩

theorem SameLists.trans {t'' : NcPool} (h : SameLists t t') (h' : SameLists t' t'') :
    SameLists t t'' :=
  ⟨h'.base.trans h.base, h'.max.trans h.max, h'.large.trans h.large, h'.cleanup.trans h.cleanup,
    h'.largeAt.trans h.largeAt, h'.cleanupAt.trans h.cleanupAt⟩

/-- In the blocks that an aligned search looks at, rounding up stays inside. -/
def RoundsInside (t : NcPool) (size : Nat) : Nat → Nat → Prop
  | 0, _ => True
  | fuel + 1, p =>
      ((t.data p).last ≤ ncAlignPtr (t.data p).last ncAlignment ∧
          ncAlignPtr (t.data p).last ncAlignment ≤ (t.data p).end_) ∧
        (sizeDiff (t.data p).end_ (ncAlignPtr (t.data p).last ncAlignment) < size →
          (t.data p).next ≠ null → RoundsInside t size fuel (t.data p).next)

theorem RoundsInside.congr {p : Nat} (h : RoundsInside t size fuel p)
    (hdata : ∀ q, t'.data q = t.data q) : RoundsInside t' size fuel p := by
  induction fuel generalizing p with
  | zero => trivial
  | succ fuel ih =>
      unfold RoundsInside
      rw [hdata p]
      exact ⟨h.1, fun hfull hnext => ih (h.2 hfull hnext)⟩

instance decidableRoundsInside (t : NcPool) (size : Nat) :
    ∀ fuel p, Decidable (RoundsInside t size fuel p)
  | 0, _ => isTrue trivial
  | fuel + 1, p =>
      have := decidableRoundsInside t size fuel (t.data p).next
      inferInstanceAs (Decidable (_ ∧ (_ → _ → RoundsInside t size fuel (t.data p).next)))

/-! ## The search -/

/-- The address in a block at which a request would be served. -/
def searchStart (align : Bool) (last : Nat) : Nat :=
  if align then ncAlignPtr last ncAlignment else last

theorem searchStart_dvd (h : align = true) (last : Nat) :
    ncAlignment ∣ searchStart align last := by
  unfold searchStart
  rw [if_pos h]
  exact ncAlignPtr_dvd last

theorem Shape.next_eq (h : Shape t psize L) (hL : L.blocks = xs ++ b :: ys) :
    (t.data b.base).next = (ys.head?.map Block.base).getD null ∧
      ∀ c ∈ ys.head?, (t.data b.base).next = c.base ∧ c.base ≠ null := by
  have hchain := h.chain
  rw [Layout.bases, hL, List.map_append, List.map_cons] at hchain
  cases ys with
  | nil => exact ⟨hchain.next_last, by simp⟩
  | cons c ys =>
      have hnext := hchain.next_eq
      refine ⟨hnext, ?_⟩
      rintro d ⟨⟩
      exact ⟨hnext, hchain.ne_null (by simp)⟩

theorem Shape.pallocSearch_step (h : Shape t psize L) (hb : b ∈ L.blocks) :
    pallocSearch t size align (fuel + 1) b.base =
      if size ≤ sizeDiff b.region.high (searchStart align b.region.top) then
        some (some (b.base, searchStart align b.region.top))
      else if (t.data b.base).next = null then some none
      else pallocSearch t size align fuel (t.data b.base).next := by
  rw [pallocSearch, NcPool.getData, if_neg (h.base_ne_null hb), Option.bind_eq_bind,
    Option.bind_some, h.last_eq b hb, h.end_eq b hb]
  rfl

theorem Shape.fits_iff (h : Shape t psize L) (hb : b ∈ L.blocks)
    (hm : searchStart align b.region.top ≤ b.region.high) :
    size ≤ sizeDiff b.region.high (searchStart align b.region.top) ↔
      searchStart align b.region.top + size ≤ b.region.high := by
  have := sizeDiff_of_le hm (h.high_bound hb)
  omega

theorem Shape.pallocSearch_spec (h : Shape t psize L) (hL : L.blocks = xs ++ b :: ys)
    (hsafe : align = true → RoundsInside t size fuel b.base) (hfuel : ys.length < fuel) :
    pallocSearch t size align fuel b.base = some none ∨
      ∃ xs' c ys' m, L.blocks = xs' ++ c :: ys' ∧
        pallocSearch t size align fuel b.base = some (some (c.base, m)) ∧
        c.region.top ≤ m ∧ m + size ≤ c.region.high ∧ (align = true → ncAlignment ∣ m) := by
  induction fuel generalizing xs b ys with
  | zero => exact absurd hfuel (Nat.not_lt_zero _)
  | succ fuel ih =>
      have hb : b ∈ L.blocks := by simp [hL]
      obtain ⟨-, hnext⟩ := h.next_eq hL
      have hm : b.region.top ≤ searchStart align b.region.top ∧
          searchStart align b.region.top ≤ b.region.high := by
        cases halign : align with
        | true =>
            have hround := (hsafe halign).1
            rwa [h.last_eq b hb, h.end_eq b hb] at hround
        | false => exact ⟨le_rfl, b.region.top_le⟩
      rw [h.pallocSearch_step hb]
      split
      · rename_i hfits
        exact .inr ⟨xs, b, ys, _, hL, rfl, hm.1, (h.fits_iff hb hm.2).mp hfits,
          fun halign => searchStart_dvd halign _⟩
      · rename_i hfits
        split
        · exact .inl rfl
        · rename_i hne
          cases ys with
          | nil => exact absurd (h.next_eq hL).1 hne
          | cons c ys =>
              obtain ⟨hc, -⟩ := hnext c rfl
              rw [hc]
              have hL' : L.blocks = (xs ++ [b]) ++ c :: ys := by simp [hL]
              refine ih hL' (fun halign => ?_) (by simpa using hfuel)
              have hrest := (hsafe halign).2
              rw [h.last_eq b hb, h.end_eq b hb, hc] at hrest
              rw [searchStart, if_pos halign] at hfits
              exact hrest (not_le.mp hfits) (hc ▸ hne)

theorem Shape.roundsInside (h : Shape t psize L) (hdvd : ncAlignment ∣ psize) {p : Nat}
    (hp : p ∈ L.bases) : RoundsInside t size fuel p := by
  induction fuel generalizing p with
  | zero => trivial
  | succ fuel ih =>
      obtain ⟨b, hb, rfl⟩ := exists_block hp
      have hhigh : ncAlignment ∣ b.region.high := by
        rw [h.high_eq b hb]
        have halign : ncAlignment ∣ 16 := by decide
        exact Nat.dvd_add (halign.trans (h.base_aligned hb)) hdvd
      constructor
      · rw [h.last_eq b hb, h.end_eq b hb]
        exact ncAlignPtr_le b.region.top_le (h.high_bound hb) hhigh
      · intro _ hne
        obtain ⟨xs, ys, hL⟩ := List.append_of_mem hb
        obtain ⟨hnext, hcons⟩ := h.next_eq hL
        cases ys with
        | nil => exact absurd hnext hne
        | cons c ys =>
            rw [(hcons c rfl).1]
            exact ih (List.mem_map_of_mem (by simp [hL]))

/-! ## Cutting off a range -/

theorem Shape.data_ne (h : Shape t psize L) (hL : L.blocks = xs ++ c :: ys) (hb : b ∈ xs ∨ b ∈ ys) :
    b.base ≠ c.base := by
  have hnodup := h.blocks_nodup
  rw [Layout.bases, hL, List.map_append, List.map_cons] at hnodup
  obtain ⟨-, hc, hcross⟩ := List.nodup_append.mp hnodup
  rcases hb with hb | hb
  · exact hcross _ (List.mem_map_of_mem hb) _ (by simp)
  · exact fun heq => (List.nodup_cons.mp hc).1 (heq ▸ List.mem_map_of_mem hb)

/-- The block from which a range is cut off. -/
def Block.raise (c : Block) (m size : Nat) (hm : c.region.top ≤ m)
    (hsize : m + size ≤ c.region.high) : Block :=
  ⟨c.base, c.region.raise m size hm hsize⟩

theorem Shape.carve (h : Shape t psize L) (hL : L.blocks = xs ++ c :: ys) (hm : c.region.top ≤ m)
    (hsize : m + size ≤ c.region.high) :
    Shape (t.putData c.base { t.data c.base with last := m + size }) psize
      { L with blocks := xs ++ c.raise m size hm hsize :: ys, spans := ⟨m, size⟩ :: L.spans } := by
  have hc : c ∈ L.blocks := by simp [hL]
  have hsplit : ∀ b ∈ xs ++ c.raise m size hm hsize :: ys,
      b = c.raise m size hm hsize ∨ (b ∈ L.blocks ∧ b.base ≠ c.base) := fun b hb => by
    rw [List.mem_append, List.mem_cons] at hb
    rcases hb with hb | rfl | hb
    · exact .inr ⟨by simp [hL, hb], h.data_ne hL (.inl hb)⟩
    · exact .inl rfl
    · exact .inr ⟨by simp [hL, hb], h.data_ne hL (.inr hb)⟩
  have hbases : (xs ++ c.raise m size hm hsize :: ys).map Block.base = L.bases := by
    simp [Layout.bases, hL, Block.raise]
  have hlast : ∀ b : Block, b.base ≠ c.base →
      (t.putData c.base { t.data c.base with last := m + size }).data b.base = t.data b.base :=
    fun b hne => by simp [NcPool.putData, hne]
  have hsame : (t.putData c.base { t.data c.base with last := m + size }).data c.base =
      { t.data c.base with last := m + size } := by simp [NcPool.putData]
  refine ⟨h.psize_ge, h.max_eq, ?_, by simp, ?_, ?_, ?_, ?_, ?_, h.records, ?_, h.system,
    ?_⟩
  · rw [Layout.bases, hbases]
    apply h.chain.congr
    intro p _
    by_cases hp : p = c.base
    · simp [hp, hsame]
    · simp [NcPool.putData, hp]
  · intro b hb
    rcases hsplit b hb with rfl | ⟨hb, hne⟩
    · exact h.low_eq c hc
    · exact h.low_eq b hb
  · intro b hb
    rcases hsplit b hb with rfl | ⟨hb, hne⟩
    · exact congrArg NcPoolData.last hsame
    · rw [hlast b hne, h.last_eq b hb]
  · intro b hb
    rcases hsplit b hb with rfl | ⟨hb, hne⟩
    · exact (congrArg NcPoolData.end_ hsame).trans (h.end_eq c hc)
    · rw [hlast b hne, h.end_eq b hb]
  · intro b hb
    rcases hsplit b hb with rfl | ⟨hb, hne⟩
    · exact h.high_eq c hc
    · exact h.high_eq b hb
  · rw [Layout.bases, hbases]
    exact h.current_mem
  · rw [Layout.bases, hbases]
    exact h.held
  · have hpacked := h.packed
    rw [Layout.regions, hL, List.map_append, List.map_cons] at hpacked
    rw [Layout.regions, List.map_append, List.map_cons]
    exact hpacked.carve hm hsize

/-! ## A new block -/

/-- Only failure counters and the current block differ. -/
structure Counted (t t' : NcPool) : Prop where
  lists : SameLists t t'
  system : t'.system = t.system
  last : ∀ p, (t'.data p).last = (t.data p).last
  end_ : ∀ p, (t'.data p).end_ = (t.data p).end_
  next : ∀ p, (t'.data p).next = (t.data p).next

theorem Counted.refl (t : NcPool) : Counted t t :=
  ⟨.refl t, rfl, fun _ => rfl, fun _ => rfl, fun _ => rfl⟩

theorem Counted.trans {t'' : NcPool} (h : Counted t t') (h' : Counted t' t'') : Counted t t'' :=
  ⟨h.lists.trans h'.lists, h'.system.trans h.system, fun p => (h'.last p).trans (h.last p),
    fun p => (h'.end_ p).trans (h.end_ p), fun p => (h'.next p).trans (h.next p)⟩

theorem Counted.failed (t : NcPool) (p n : Nat) :
    Counted t (t.putData p { t.data p with failed := n }) := by
  refine ⟨⟨rfl, rfl, rfl, rfl, rfl, rfl⟩, rfl, fun q => ?_, fun q => ?_, fun q => ?_⟩ <;>
    by_cases hq : q = p <;> simp [NcPool.putData, hq]

/-- The loop ends at the last block of the chain. -/
theorem countFailures_spec {p : Nat} {ps : List Nat}
    (h : Listed (fun p => (t.data p).next) null p (p :: ps)) (hfuel : ps.length < fuel) :
    ∃ init q t', p :: ps = init ++ [q] ∧ countFailures fuel t p = some (q, t') ∧ Counted t t' ∧
      t'.current ∈ t.current :: ps ∧ ∀ b ∉ p :: ps, t'.data b = t.data b := by
  obtain ⟨fuel, rfl⟩ := Nat.exists_eq_succ_of_ne_zero (Nat.ne_zero_of_lt hfuel)
  induction ps generalizing t p fuel with
  | nil =>
      refine ⟨[], p, t, rfl, ?_, .refl t, by simp, fun _ _ => rfl⟩
      have hnext : (t.data p).next = null := h.2.2
      simp [countFailures, NcPool.getData, h.2.1, hnext]
  | cons q ps ih =>
      simp only [List.length_cons] at hfuel
      obtain ⟨fuel, rfl⟩ : ∃ k, fuel = k + 1 := ⟨fuel - 1, by omega⟩
      have hnext : (t.data p).next = q := h.2.2.1
      have hq : q ≠ null := h.2.2.2.1
      -- whatever the counter says, the chain is the same
      obtain ⟨u, hu, hcurrent, hother, hrun⟩ : ∃ u, Counted t u ∧
          u.current ∈ t.current :: q :: ps ∧ (∀ b, b ≠ p → u.data b = t.data b) ∧
          countFailures (fuel + 2) t p = countFailures (fuel + 1) u q := by
        have hcount := Counted.failed t p (((t.data p).failed + 1) % 2 ^ 32)
        by_cases hfailed : 4 < (t.data p).failed
        · refine ⟨{ t.putData p { t.data p with failed := ((t.data p).failed + 1) % 2 ^ 32 } with
              current := q }, ⟨⟨rfl, rfl, rfl, rfl, rfl, rfl⟩, rfl, hcount.last, hcount.end_,
              hcount.next⟩, by simp, fun b hb => Function.update_of_ne hb _ _, ?_⟩
          simp [countFailures, NcPool.getData, h.2.1, hnext, hq, hfailed]
        · refine ⟨_, hcount, List.mem_cons_self, fun b hb => Function.update_of_ne hb _ _, ?_⟩
          rw [countFailures]
          simp [NcPool.getData, h.2.1, hnext, hq, hfailed]
      have hrest : Listed (fun p => (u.data p).next) null q (q :: ps) := by
        have hold := h.2.2
        simp only [hnext] at hold
        exact hold.congr fun p _ => hu.next p
      obtain ⟨init, r, t', hsplit, hrun', ht', hcur, hframe⟩ := ih hrest fuel (by omega)
      refine ⟨p :: init, r, t', by rw [hsplit, List.cons_append], hrun.trans hrun',
        hu.trans ht', ?_, fun b hb => ?_⟩
      rotate_left
      · rw [List.mem_cons, not_or] at hb
        rw [hframe b hb.2, hother b hb.1]
      rcases List.mem_cons.mp hcur with heq | hmem
      · exact heq ▸ hcurrent
      · exact List.mem_cons_of_mem _ (List.mem_cons_of_mem _ hmem)

theorem Shape.exists_first (h : Shape t psize L) :
    ∃ b ys, L.blocks = b :: ys ∧ b.base = t.base := by
  obtain ⟨b, ys, hL⟩ := List.exists_cons_of_ne_nil h.nonempty
  have hchain := h.chain
  rw [Layout.bases, hL, List.map_cons] at hchain
  exact ⟨b, ys, hL, hchain.1.symm⟩

theorem Shape.base_mem (h : Shape t psize L) : t.base ∈ L.bases := by
  obtain ⟨b, ys, hL, hb⟩ := h.exists_first
  exact hb ▸ List.mem_map_of_mem (by simp [hL])

/-- The size of the first block, from which that of the others is computed. -/
theorem Shape.psize_eq (h : Shape t psize L) :
    t.getData t.base = some (t.data t.base) ∧ sizeDiff (t.data t.base).end_ t.base = psize := by
  obtain ⟨b, ys, hL, hbase⟩ := h.exists_first
  have hb : b ∈ L.blocks := by simp [hL]
  have hbound := h.high_bound hb
  have hhigh := h.high_eq b hb
  rw [← hbase, h.end_eq b hb]
  refine ⟨if_neg (h.base_ne_null hb), ?_⟩
  rw [sizeDiff_of_le (by omega) hbound]
  omega

/-- A small request fits in a new block. -/
theorem Shape.data_le (h : Shape t psize L) (hsize : size ≤ t.max) :
    sizeofNcPoolData + size ≤ psize := by
  have hmax := h.max_eq ▸ hsize
  have hge := h.psize_ge
  simp only [sizeofNcPool, sizeofNcPoolData] at hmax hge ⊢
  omega

/-- An added block, of which the first request takes the lower part. -/
def Block.fresh (p psize size : Nat) (h : sizeofNcPoolData + size ≤ psize) : Block where
  base := p
  region :=
    { low := p + sizeofNcPoolData
      top := p + sizeofNcPoolData + size
      high := p + psize
      low_le := Nat.le_add_right _ _
      top_le := by omega }

/-- The pool after the block at `p` has been linked behind the block at `q`. -/
structure Added (p q psize size : Nat) (t t' : NcPool) : Prop where
  lists : SameLists t t'
  held : t'.system.held = ⟨p, psize⟩ :: t.system.held
  last : ∀ z, z ≠ p → (t'.data z).last = (t.data z).last
  end_ : ∀ z, z ≠ p → (t'.data z).end_ = (t.data z).end_
  next : ∀ z, z ≠ p → (t'.data z).next = if z = q then p else (t.data z).next
  new_last : (t'.data p).last = p + sizeofNcPoolData + size
  new_end : (t'.data p).end_ = p + psize
  new_next : (t'.data p).next = null

theorem Counted.added {u : NcPool} {sys : System} {p q : Nat}
    (hu : Counted ((t.setSystem sys).putData p
      ⟨p + sizeofNcPoolData + size, p + psize, null, 0⟩) u)
    (hheld : sys.held = ⟨p, psize⟩ :: t.system.held) (hqp : q ≠ p) :
    Added p q psize size t (u.putData q { u.data q with next := p }) := by
  have hlists := hu.lists
  refine ⟨⟨hlists.base, hlists.max, hlists.large, hlists.cleanup, hlists.largeAt,
    hlists.cleanupAt⟩, ?_, fun z hz => ?_, fun z hz => ?_, fun z hz => ?_, ?_, ?_, ?_⟩
  · exact (congrArg System.held hu.system).trans hheld
  · have hread := hu.last z
    by_cases hzq : z = q
    · subst hzq
      simpa [NcPool.putData, NcPool.setSystem, hz] using hread
    · simpa [NcPool.putData, NcPool.setSystem, hz, hzq] using hread
  · have hread := hu.end_ z
    by_cases hzq : z = q
    · subst hzq
      simpa [NcPool.putData, NcPool.setSystem, hz] using hread
    · simpa [NcPool.putData, NcPool.setSystem, hz, hzq] using hread
  · have hread := hu.next z
    by_cases hzq : z = q
    · simp [NcPool.putData, hzq]
    · simpa [NcPool.putData, NcPool.setSystem, hz, hzq] using hread
  · simpa [NcPool.putData, hqp.symm] using hu.last p
  · simpa [NcPool.putData, hqp.symm] using hu.end_ p
  · simpa [NcPool.putData, hqp.symm] using hu.next p

theorem Shape.apart_fresh (h : Shape t psize L) {p : Nat} {sys : System} (hsys : sys.Sound)
    (hheld : sys.held = ⟨p, psize⟩ :: t.system.held) :
    ∀ b ∈ L.blocks, Apart ⟨p, psize⟩ ⟨b.base, psize⟩ ∧ b.base ≠ p := by
  have hsep := hsys.separate
  rw [hheld] at hsep
  have hpos : 0 < psize := h.psize_ge.trans_lt' (by decide)
  intro b hb
  have happart := (List.pairwise_cons.mp hsep).1 _ (h.mem_held hb)
  exact ⟨happart, (happart.start_ne hpos hpos).symm⟩

theorem Shape.add_block (h : Shape t psize L) {p q : Nat} {init : List Nat}
    (hsize : sizeofNcPoolData + size ≤ psize) (hp : p ≠ null) (ht' : Added p q psize size t t')
    (hsys : t'.system.Sound) (hbases : L.bases = init ++ [q]) (hcurrent : t'.current ∈ L.bases) :
    Shape t' psize
      { L with
        blocks := L.blocks ++ [Block.fresh p psize size hsize]
        spans := ⟨p + sizeofNcPoolData, size⟩ :: L.spans } := by
  have hfresh := h.apart_fresh hsys ht'.held
  have hne : ∀ b ∈ L.blocks, b.base ≠ p := fun b hb => (hfresh b hb).2
  have hfirst : p ≠ t.base := by
    obtain ⟨b, ys, hL, hb⟩ := h.exists_first
    exact hb ▸ (hne b (by simp [hL])).symm
  have hqp : q ≠ p := by
    obtain ⟨b, hb, rfl⟩ := List.mem_map.mp (show q ∈ L.bases by simp [hbases])
    exact hne b hb
  have hblocks : ∀ b ∈ L.blocks ++ [Block.fresh p psize size hsize],
      b ∈ L.blocks ∨ b = Block.fresh p psize size hsize := by simp
  have hbases' : (L.blocks ++ [Block.fresh p psize size hsize]).map Block.base =
      L.bases ++ [p] := by
    simp [Layout.bases, Block.fresh]
  refine ⟨h.psize_ge, ht'.lists.max.trans h.max_eq, ?_, by simp, ?_, ?_, ?_, ?_, ?_, ?_, ?_,
    hsys, ?_⟩
  · rw [Layout.bases, hbases', hbases, ht'.lists.base, List.append_assoc]
    have hchain := h.chain
    have hnodup := h.blocks_nodup
    rw [hbases] at hchain hnodup
    refine hchain.concat (fun y hy => ?_) ?_ hp ht'.new_next
    · have hyq : y ≠ q := (List.nodup_append.mp hnodup).2.2 y hy q (by simp)
      obtain ⟨b, hb, rfl⟩ : ∃ b ∈ L.blocks, b.base = y :=
        List.mem_map.mp (show y ∈ L.bases by simp [hbases, hy])
      rw [ht'.next _ (hne b hb), if_neg hyq]
    · rw [ht'.next q hqp, if_pos rfl]
  · intro b hb
    unfold headerSize
    rw [ht'.lists.base]
    rcases hblocks b hb with hb | rfl
    · exact h.low_eq b hb
    · exact (congrArg (p + ·) (if_neg hfirst)).symm
  · intro b hb
    rcases hblocks b hb with hb | rfl
    · rw [ht'.last _ (hne b hb), h.last_eq b hb]
    · exact ht'.new_last
  · intro b hb
    rcases hblocks b hb with hb | rfl
    · rw [ht'.end_ _ (hne b hb), h.end_eq b hb]
    · exact ht'.new_end
  · intro b hb
    rcases hblocks b hb with hb | rfl
    · exact h.high_eq b hb
    · rfl
  · rw [Layout.bases, hbases']
    exact List.mem_append_left _ hcurrent
  · rw [ht'.lists.large, ht'.lists.largeAt]
    exact h.records
  · rw [Layout.bases, hbases', ht'.held, List.map_append, List.append_assoc]
    exact (h.held.cons _).trans List.perm_middle.symm
  · have hused : (Block.fresh p psize size hsize).region.used = ⟨p + sizeofNcPoolData, size⟩ := by
      simp [Region.used, Block.fresh]
    rw [Layout.regions, List.map_append, List.cons_append, ← hused]
    apply h.packed.add
    intro r hr
    obtain ⟨b, hb, rfl⟩ := List.mem_map.mp hr
    have hlow := h.low_eq b hb
    have hhigh := h.high_eq b hb
    have hle := b.region.low_le.trans b.region.top_le
    refine (hfresh b hb).1.symm.mono ?_ ?_
    · simp only [Inside, Region.span, finish]
      omega
    · simp only [Inside, Region.span, Block.fresh, finish]
      omega

/-- The calls to the system allocator have left nothing behind. -/
structure Unchanged (t t' : NcPool) : Prop where
  eq : t' = t.setSystem t'.system
  held : t'.system.held = t.system.held
  sound : t'.system.Sound

theorem Unchanged.lists (h : Unchanged t t') : SameLists t t' := by
  rw [h.eq]
  exact ⟨rfl, rfl, rfl, rfl, rfl, rfl⟩

theorem Unchanged.shape (hu : Unchanged t t') (h : Shape t psize L) : Shape t' psize L := by
  obtain ⟨heq, hheld, hsound⟩ := hu
  rw [heq]
  exact ⟨h.psize_ge, h.max_eq, h.chain, h.nonempty, h.low_eq, h.last_eq, h.end_eq, h.high_eq,
    h.current_mem, h.records, hheld ▸ h.held, hsound, h.packed⟩

/-- The blocks after a range has been taken: the same ones and at most one more. -/
structure Taken (L : Layout) (blocks : List Block) (p size : Nat) : Prop where
  bases : L.bases <+: blocks.map Block.base
  length : blocks.length ≤ L.blocks.length + 1
  owner : ∃ c ∈ blocks, c.region.low ≤ p ∧ c.region.top = p + size

/-- What a small allocation of `size` bytes that returns `p` leaves behind. -/
structure SmallResult (psize : Nat) (L : Layout) (size : Nat) (t : NcPool) (p : Nat)
    (t' : NcPool) : Prop where
  lists : SameLists t t'
  result : p = null ∧ Unchanged t t' ∨ p ≠ null ∧ ∃ blocks,
    Shape t' psize { L with blocks := blocks, spans := ⟨p, size⟩ :: L.spans } ∧
      Taken L blocks p size ∧ ∀ b ∉ blocks.map Block.base, t'.data b = t.data b

theorem ncAlignPtr_data (hsize : sizeofNcPoolData + size ≤ psize) {q : Nat} {sys : System}
    (hsys : sys.Sound) (hmem : ⟨q, psize⟩ ∈ sys.held) :
    ncAlignPtr (q + sizeofNcPoolData) ncAlignment = q + sizeofNcPoolData ∧
      ncAlignment ∣ q + sizeofNcPoolData := by
  have haligned := hsys.aligned ⟨q, psize⟩ hmem
  have hbound := hsys.bound ⟨q, psize⟩ hmem
  simp only [finish, sizeofNcPoolData] at hbound hsize haligned ⊢
  have hdvd : ncAlignment ∣ q + 32 := by
    simp only [ncAlignment]
    omega
  exact ⟨ncAlignPtr_of_dvd (by omega) hdvd, hdvd⟩

/-- The second half of `nc_palloc_block`, for a new block at `q`. -/
theorem Shape.link_block (h : Shape t psize L) {q : Nat} {sys : System}
    (hsize : sizeofNcPoolData + size ≤ psize) (hfuel : L.blocks.length ≤ fuel) (hq : q ≠ null)
    (hsys : sys.Sound) (hheld : sys.held = ⟨q, psize⟩ :: t.system.held) :
    ∃ r u, countFailures fuel ((t.setSystem sys).putData q
        ⟨q + sizeofNcPoolData + size, q + psize, null, 0⟩) t.current = some (r, u) ∧ r ≠ null ∧
      SmallResult psize L size t (q + sizeofNcPoolData)
        (u.putData r { u.data r with next := q }) ∧
      ∃ L', Shape (u.putData r { u.data r with next := q }) psize L' ∧
        L'.bases = L.bases ++ [q] := by
  have hne : ∀ b ∈ L.blocks, b.base ≠ q := fun b hb => (h.apart_fresh hsys hheld b hb).2
  obtain ⟨b, hb, hcurrent⟩ := List.mem_map.mp h.current_mem
  obtain ⟨xs, ys, hL⟩ := List.append_of_mem hb
  have hbases : L.bases = xs.map Block.base ++ b.base :: ys.map Block.base := by
    simp [Layout.bases, hL]
  generalize ht₁ : (t.setSystem sys).putData q
    ⟨q + sizeofNcPoolData + size, q + psize, null, 0⟩ = t₁
  have ht₁c : t₁.current = b.base := by rw [← ht₁, hcurrent]; rfl
  have hchain : Listed (fun p => (t₁.data p).next) null b.base (b.base :: ys.map Block.base) := by
    have hsuffix := h.chain
    rw [hbases] at hsuffix
    apply hsuffix.suffix.congr
    intro p hp
    have hpq : p ≠ q := by
      obtain ⟨c, hc, rfl⟩ : ∃ c ∈ L.blocks, c.base = p :=
        List.mem_map.mp (show p ∈ L.bases by rw [hbases]; exact List.mem_append_right _ hp)
      exact hne c hc
    simp [← ht₁, NcPool.putData, NcPool.setSystem, hpq]
  have hlength : (ys.map Block.base).length < fuel := by
    simp only [hL, List.length_append, List.length_cons, List.length_map] at hfuel ⊢
    omega
  obtain ⟨init, r, u, hsplit, hrun, hu, hcur, hframe⟩ := countFailures_spec hchain hlength
  have hbases' : L.bases = (xs.map Block.base ++ init) ++ [r] := by
    rw [hbases, hsplit, List.append_assoc]
  obtain ⟨c, hc, hcr⟩ := List.mem_map.mp (show r ∈ L.bases by simp [hbases'])
  have hcurrent' : u.current ∈ L.bases := by
    rw [ht₁c] at hcur
    rw [hbases]
    exact List.mem_append_right _ hcur
  have hsystem : u.system = sys := by rw [hu.system, ← ht₁]; rfl
  have hadded := (ht₁ ▸ hu : Counted _ u).added hheld (hcr ▸ hne c hc)
  have hrep := h.add_block hsize hq hadded (hsystem ▸ hsys : u.system.Sound) hbases' hcurrent'
  have htaken : Taken L (L.blocks ++ [Block.fresh q psize size hsize])
      (q + sizeofNcPoolData) size :=
    ⟨by simp [Layout.bases], by simp, Block.fresh q psize size hsize, by simp, le_rfl, rfl⟩
  refine ⟨r, u, hcurrent ▸ hrun, hcr ▸ h.base_ne_null hc, ⟨hadded.lists,
    .inr ⟨by simp [null, sizeofNcPoolData], _, hrep, htaken, fun z hz => ?_⟩⟩,
    _, hrep, by simp [Layout.bases, Block.fresh]⟩
  have hnot : z ∉ L.bases ∧ z ≠ q := by simpa [Layout.bases, Block.fresh] using hz
  have hzr : z ≠ r := fun heq => hnot.1 (heq ▸ hbases' ▸ by simp)
  have hzp : z ∉ b.base :: ys.map Block.base := fun hmem =>
    hnot.1 (hbases ▸ List.mem_append_right _ hmem)
  have hread : (u.putData r { u.data r with next := q }).data z = u.data z :=
    Function.update_of_ne hzr _ _
  rw [hread, hframe z hzp, ← ht₁]
  exact Function.update_of_ne hnot.2 _ _

/-- A block is added unless the system refuses it. -/
theorem Shape.ncPallocBlock_spec (h : Shape t psize L) (hm : malloc.Lawful)
    (hsize : sizeofNcPoolData + size ≤ psize) (hfuel : L.blocks.length ≤ fuel) :
    ∃ p t', ncPallocBlock malloc fuel t size = some (p, t') ∧ ncAlignment ∣ p ∧
      SmallResult psize L size t p t' ∧
      (p = null ∨ ∃ q L', Shape t' psize L' ∧ L'.bases = L.bases ++ [q]) := by
  obtain ⟨hdata, hpsize⟩ := h.psize_eq
  have hpos : 0 < psize := h.psize_ge.trans_lt' (by decide)
  obtain ⟨q, sys, halloc, hsys, ⟨rfl, hheld⟩ | ⟨hq, hheld⟩⟩ := h.system.alloc hm hpos
  · refine ⟨null, t.setSystem sys, ?_, Nat.dvd_zero _, ⟨⟨rfl, rfl, rfl, rfl, rfl, rfl⟩,
      .inl ⟨rfl, rfl, hheld, hsys⟩⟩, .inl rfl⟩
    simp [ncPallocBlock, hdata, hpsize, halloc]
  · obtain ⟨halign, hdvd⟩ := ncAlignPtr_data hsize hsys (q := q) (by simp [hheld])
    obtain ⟨r, u, hrun, hr, hresult, hadded⟩ := h.link_block hsize hfuel hq hsys hheld
    have hlast : u.getData r = some (u.data r) := if_neg hr
    refine ⟨q + sizeofNcPoolData, _, ?_, hdvd, hresult, .inr ⟨q, hadded⟩⟩
    simp only [ncPallocBlock, hdata, Option.bind_eq_bind, Option.bind_some, hpsize, halloc,
      if_neg hq, halign]
    change ((countFailures fuel _ t.current).bind _) = _
    simp only [hrun, Option.bind_some, hlast]

theorem Shape.ncPallocSmall_spec (h : Shape t psize L) (hm : malloc.Lawful)
    (hsize : sizeofNcPoolData + size ≤ psize) (hfuel : L.blocks.length ≤ fuel)
    (hsafe : align = true → RoundsInside t size fuel t.current) :
    ∃ p t', ncPallocSmall malloc fuel t size align = some (p, t') ∧
      (align = true → ncAlignment ∣ p) ∧ SmallResult psize L size t p t' := by
  obtain ⟨b, hb, hcurrent⟩ := List.mem_map.mp h.current_mem
  obtain ⟨xs, ys, hL⟩ := List.append_of_mem hb
  have hlength : ys.length < fuel := by
    simp only [hL, List.length_append, List.length_cons] at hfuel
    omega
  rw [← hcurrent] at hsafe
  rcases h.pallocSearch_spec hL hsafe hlength with
    hnone | ⟨xs', c, ys', m, hL', hsome, hm', hroom, hdvd⟩
  · obtain ⟨p, t', hrun, hp, hresult, -⟩ := h.ncPallocBlock_spec hm hsize hfuel
    refine ⟨p, t', ?_, fun _ => hp, hresult⟩
    simp [ncPallocSmall, ← hcurrent, hnone, hrun]
  · have hc : c ∈ L.blocks := by simp [hL']
    have hlow := h.low_eq c hc
    have hpos := c.region.low_le
    have htaken : Taken L (xs' ++ c.raise m size hm' hroom :: ys') m size :=
      ⟨by simp [Layout.bases, hL', Block.raise], by simp [hL'], c.raise m size hm' hroom, by simp,
        hpos.trans hm', rfl⟩
    have hsame : ∀ z ∉ (xs' ++ c.raise m size hm' hroom :: ys').map Block.base,
        (t.putData c.base { t.data c.base with last := m + size }).data z = t.data z :=
      fun z hz => Function.update_of_ne (fun heq => hz (by simp [heq, Block.raise])) _ _
    refine ⟨m, t.putData c.base { t.data c.base with last := m + size }, ?_, hdvd,
      ⟨⟨rfl, rfl, rfl, rfl, rfl, rfl⟩, .inr ⟨?_, _, h.carve hL' hm' hroom, htaken, hsame⟩⟩⟩
    · simp [ncPallocSmall, ← hcurrent, hsome, NcPool.getData, h.base_ne_null hc]
    · have := h.base_ne_null hc
      simp only [null] at this ⊢
      omega

end Libnc.Pool
