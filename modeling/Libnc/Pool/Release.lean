import Libnc.Pool.Large

/-!
# Giving memory back

One large block by `nc_pfree`, all of them and the tops of the blocks by
`nc_pool_reset`, and everything by `nc_pool_destroy`.
-/

namespace Libnc.Pool

open Libnc.Foundation Span

variable {t t' : NcPool} {L : Layout} {psize fuel p l : Nat} {records : List Nat}
variable {kept gone : List Span}

/-- Only blocks of the large list have been given back. -/
structure Freed (t t' : NcPool) : Prop where
  eq : t' = { t with largeAt := t'.largeAt, system := t'.system }
  next : ∀ l, (t'.largeAt l).next = (t.largeAt l).next
  sound : t'.system.Sound

theorem Freed.trans {t'' : NcPool} (h : Freed t t') (h' : Freed t' t'') : Freed t t'' := by
  refine ⟨?_, fun l => (h'.next l).trans (h.next l), h'.sound⟩
  rw [h'.eq, h.eq]

theorem NcPool.free_calls (h : t.free p = some t') :
    t'.system.calls = t.system.calls ∨ t'.system.calls = .free p :: t.system.calls := by
  obtain ⟨sys, hsys, hrest⟩ := Option.bind_eq_some_iff.mp h
  obtain rfl := Option.some.inj hrest
  have hcalls := System.free_calls hsys
  split at hcalls
  · exact .inl hcalls
  · exact .inr hcalls

/-! ## One large block -/

theorem pfreeSearch_spec (h : Listed (fun l => (t.largeAt l).next) null l records)
    (hfuel : records.length < fuel) :
    pfreeSearch t p fuel l = some null ∧ (∀ r ∈ records, (t.largeAt r).alloc ≠ p) ∨
      ∃ r ∈ records, pfreeSearch t p fuel l = some r ∧ (t.largeAt r).alloc = p := by
  induction records generalizing l fuel with
  | nil =>
      obtain ⟨fuel, rfl⟩ := Nat.exists_eq_succ_of_ne_zero (Nat.ne_zero_of_lt hfuel)
      exact .inl ⟨if_pos h, by simp⟩
  | cons r records ih =>
      obtain ⟨rfl, hl, hrest⟩ := h
      simp only [List.length_cons] at hfuel
      obtain ⟨fuel, rfl⟩ : ∃ k, fuel = k + 1 := ⟨fuel - 1, by omega⟩
      unfold pfreeSearch
      rw [if_neg hl]
      by_cases halloc : p = (t.largeAt l).alloc
      · exact .inr ⟨l, by simp, if_pos halloc, halloc.symm⟩
      · rw [if_neg halloc]
        have hlen : records.length < fuel := by omega
        rcases ih hrest hlen with ⟨hnone, hall⟩ | ⟨r, hr, hsome, halloc'⟩
        · exact .inl ⟨hnone, List.forall_mem_cons.mpr ⟨Ne.symm halloc, hall⟩⟩
        · exact .inr ⟨r, List.mem_cons_of_mem _ hr, hsome, halloc'⟩

theorem mem_allocs : p ∈ allocs t records ↔ p ≠ null ∧ ∃ r ∈ records, (t.largeAt r).alloc = p := by
  simp only [allocs, List.mem_filter, List.mem_map, decide_eq_true_eq]
  tauto

theorem Rep.freed (h : Rep t psize L) {sys : System} {s : Span} (hs : s ∈ L.larges)
    (hl : l ∈ L.records) (halloc : (t.largeAt l).alloc = s.start) (hsys : sys.Sound)
    (hheld : sys.held.Perm (t.system.held.filter (·.start != s.start))) :
    Rep ((t.setSystem sys).putLarge l { t.largeAt l with alloc := null }) psize
      { L with larges := L.larges.filter (·.start != s.start) } := by
  have hmem : s ∈ t.system.held := h.held.mem_iff.mpr (List.mem_append_right _ hs)
  have hs0 : s.start ≠ null := (h.system.start_pos s hmem).ne'
  have hblocks : (L.bases.map fun b => (⟨b, psize⟩ : Span)).filter (·.start != s.start) =
      L.bases.map fun b => ⟨b, psize⟩ := by
    have hpos : 0 < psize := h.psize_ge.trans_lt' (by decide)
    rw [List.filter_eq_self]
    intro u hu
    have happart := (List.pairwise_append.mp h.held_separate).2.2 u hu s hs
    obtain ⟨b, -, rfl⟩ := List.mem_map.mp hu
    simpa using happart.start_ne hpos (h.system.pos s hmem)
  have hshape : Shape (t.setSystem sys) psize
      { L with larges := L.larges.filter (·.start != s.start) } := by
    refine ⟨h.psize_ge, h.max_eq, h.chain, h.nonempty, h.low_eq, h.last_eq, h.end_eq, h.high_eq,
      h.current_mem, h.records, ?_, hsys, h.packed⟩
    have hfilter := h.held.filter (·.start != s.start)
    rw [List.filter_append, hblocks] at hfilter
    exact hheld.trans hfilter
  refine ⟨hshape.putLarge l null, ?_⟩
  obtain ⟨xs, ys, hbefore, hafter⟩ := allocs_putLarge (t := t.setSystem sys) h.records_nodup hl null
  have hone : [((t.setSystem sys).largeAt l).alloc].filter (· ≠ null) = [s.start] := by
    change [(t.largeAt l).alloc].filter (· ≠ null) = _
    simp [halloc, hs0]
  have hrecorded : (L.larges.map start).Perm (xs ++ [s.start] ++ ys) := by
    rw [← hone, ← hbefore]
    exact h.recorded
  have hstarts : (L.larges.map start).Nodup := by
    have hsep := (List.pairwise_append.mp h.held_separate).2.1
    refine List.pairwise_map.mpr (hsep.imp_of_mem fun {a b} ha hb hab => ?_)
    exact hab.start_ne (h.system.pos a (h.held.mem_iff.mpr (List.mem_append_right _ ha)))
      (h.system.pos b (h.held.mem_iff.mpr (List.mem_append_right _ hb)))
  have hperm : (L.larges.map start).Perm (s.start :: (xs ++ ys)) := by
    rw [List.append_assoc] at hrecorded
    exact hrecorded.trans List.perm_middle
  have hnot : s.start ∉ xs ++ ys := (List.nodup_cons.mp (hperm.nodup_iff.mp hstarts)).1
  have hkeep : (xs ++ ys).filter (· != s.start) = xs ++ ys := by
    rw [List.filter_eq_self]
    exact fun a ha => by simpa using ne_of_mem_of_not_mem ha hnot
  have hgone : [null].filter (· ≠ null) = ([] : List Nat) := by simp
  have hfilter := hperm.filter (· != s.start)
  rw [List.filter_cons_of_neg (by simp), hkeep, List.filter_map] at hfilter
  change ((L.larges.filter (·.start != s.start)).map start).Perm
    (Libnc.Pool.allocs ((t.setSystem sys).putLarge l
      { (t.setSystem sys).largeAt l with alloc := null }) L.records)
  rw [hafter, hgone, List.append_nil]
  exact hfilter

/-- What `nc_pfree` does: nothing, nothing but a free of NULL, or the release of one block. -/
inductive PfreeResult (L : Layout) (p : Nat) (t : NcPool) : Int → NcPool → Prop
  | missing (hnone : ∀ r ∈ L.records, (t.largeAt r).alloc ≠ p) : PfreeResult L p t (-1) t
  | idle {l : Nat} (hp : p = null) (hl : l ∈ L.records) (halloc : (t.largeAt l).alloc = null) :
      PfreeResult L p t 0 t
  | released {l : Nat} {s : Span} {sys : System} (hl : l ∈ L.records) (hs : s ∈ L.larges)
      (hp : p = s.start) (halloc : (t.largeAt l).alloc = s.start)
      (hfree : t.system.free s.start = some sys)
      (hheld : sys.held = t.system.held.filter (·.start != s.start)) (hsys : sys.Sound) :
      PfreeResult L p t 0 ((t.setSystem sys).putLarge l { t.largeAt l with alloc := null })

theorem Rep.ncPfree_result (h : Rep t psize L) (hfuel : L.records.length < fuel) (p : Nat) :
    ∃ result t', ncPfree fuel t p = some (result, t') ∧ PfreeResult L p t result t' := by
  rcases pfreeSearch_spec h.records hfuel with ⟨hnone, hall⟩ | ⟨l, hl, hsome, halloc⟩
  · exact ⟨-1, t, by simp [ncPfree, hnone], .missing hall⟩
  · have hl0 : l ≠ null := h.records.ne_null hl
    by_cases hp : p = null
    · -- a record without a block: NULL is given back
      have hsame : t.putLarge l { t.largeAt l with alloc := null } = t := by
        have : ({ t.largeAt l with alloc := null } : NcPoolLarge) = t.largeAt l := by
          rw [← hp, ← halloc]
        rw [this, NcPool.putLarge, Function.update_eq_self]
      have hfree : t.free (t.largeAt l).alloc = some t := by
        rw [halloc, hp]
        rfl
      exact ⟨0, t, by simp [ncPfree, hsome, hl0, hfree, hsame], .idle hp hl (halloc.trans hp)⟩
    · obtain ⟨s, hs, rfl⟩ := List.mem_map.mp
        (h.recorded.mem_iff.mpr (mem_allocs.mpr ⟨hp, l, hl, halloc⟩))
      have hmem : s ∈ t.system.held := h.held.mem_iff.mpr (List.mem_append_right _ hs)
      obtain ⟨sys, hfree, hheld, hsys⟩ := h.system.free hmem
      have hrun : t.free (t.largeAt l).alloc = some (t.setSystem sys) := by
        simp [NcPool.free, halloc, hfree]
      refine ⟨0, _, ?_, .released hl hs rfl halloc hfree hheld hsys⟩
      simp only [ncPfree, hsome, Option.bind_eq_bind, Option.bind_some, if_neg hl0, hrun]
      rfl

theorem filter_starts {spans : List Span} (hp : p ∉ spans.map start) :
    spans.filter (·.start != p) = spans := by
  rw [List.filter_eq_self]
  intro s hs
  simpa using fun heq : s.start = p => hp (heq ▸ List.mem_map_of_mem hs)

theorem Rep.null_not_mem (h : Rep t psize L) : null ∉ L.larges.map start := fun hmem =>
  (mem_allocs.mp (h.recorded.mem_iff.mp hmem)).1 rfl

theorem Rep.ncPfree_spec (h : Rep t psize L) (hfuel : L.records.length < fuel) (p : Nat) :
    ∃ result t', ncPfree fuel t p = some (result, t') ∧ Freed t t' ∧
      Rep t' psize { L with larges := L.larges.filter (·.start != p) } ∧
      (result = 0 ∨ result = -1 ∧ t' = t ∧ p ∉ L.larges.map start) := by
  obtain ⟨result, t', hrun, hresult⟩ := h.ncPfree_result hfuel p
  have hsame : Freed t t := ⟨rfl, fun _ => rfl, h.system⟩
  refine ⟨result, t', hrun, ?_⟩
  cases hresult with
  | missing hnone =>
      have hp : p ∉ L.larges.map start := fun hmem => by
        obtain ⟨-, r, hr, hpr⟩ := mem_allocs.mp (h.recorded.mem_iff.mp hmem)
        exact hnone r hr hpr
      rw [filter_starts hp]
      exact ⟨hsame, h, .inr ⟨rfl, rfl, hp⟩⟩
  | idle hp hl halloc =>
      rw [filter_starts (hp ▸ h.null_not_mem)]
      exact ⟨hsame, h, .inl rfl⟩
  | @released l s sys hl hs hp halloc hfree hheld hsys =>
      rw [hp]
      refine ⟨⟨rfl, fun q => ?_, hsys⟩, h.freed hs hl halloc hsys (.of_eq hheld), .inl rfl⟩
      by_cases hq : q = l <;> simp [NcPool.putLarge, NcPool.setSystem, hq]

/-! ## All large blocks -/

theorem freeLarge_spec (h : Listed (fun l => (t.largeAt l).next) null l records)
    (hnodup : records.Nodup) (hsys : t.system.Sound) (hheld : t.system.held.Perm (gone ++ kept))
    (hgone : (gone.map start).Perm (allocs t records)) (hfuel : records.length < fuel) :
    ∃ t', freeLarge fuel t l = some t' ∧ Freed t t' ∧ t'.system.held.Perm kept := by
  induction records generalizing t l gone fuel with
  | nil =>
      obtain ⟨fuel, rfl⟩ := Nat.exists_eq_succ_of_ne_zero (Nat.ne_zero_of_lt hfuel)
      have hnil : gone = [] := by simpa [allocs] using hgone
      exact ⟨t, if_pos h, ⟨rfl, fun _ => rfl, hsys⟩, by simpa [hnil] using hheld⟩
  | cons r records ih =>
      obtain ⟨rfl, hl, hrest⟩ := h
      obtain ⟨hnot, hnodup⟩ := List.nodup_cons.mp hnodup
      simp only [List.length_cons] at hfuel
      obtain ⟨fuel, rfl⟩ : ∃ k, fuel = k + 1 := ⟨fuel - 1, by omega⟩
      have hlen : records.length < fuel := by omega
      unfold freeLarge
      rw [if_neg hl]
      by_cases halloc : (t.largeAt l).alloc = null
      · have hskip : allocs t (l :: records) = allocs t records := by
          simp [allocs, halloc]
        obtain ⟨t', hrun, ht'⟩ := ih hrest hnodup hsys hheld (hskip ▸ hgone) hlen
        exact ⟨t', by simp [halloc, hrun], ht'⟩
      · have hhead : allocs t (l :: records) = (t.largeAt l).alloc :: allocs t records := by
          simp [allocs, halloc]
        rw [hhead] at hgone
        obtain ⟨s, hs, hstart⟩ := List.mem_map.mp (hgone.mem_iff.mpr List.mem_cons_self)
        have hsplit := List.perm_cons_erase hs
        obtain ⟨sys, hfree, hsound, hheld'⟩ := hsys.free_perm
          (hheld.trans (hsplit.append_right kept))
        rw [hstart] at hfree
        have hrun : t.free (t.largeAt l).alloc = some (t.setSystem sys) := by
          simp [NcPool.free, hfree]
        generalize hu : (t.setSystem sys).putLarge l { t.largeAt l with alloc := null } = u
        have hnext : ∀ q, (u.largeAt q).next = (t.largeAt q).next := fun q => by
          by_cases hq : q = l <;> simp [← hu, NcPool.putLarge, NcPool.setSystem, hq]
        have hallocs : allocs u records = allocs t records := allocs_congr fun q hq => by
          have hne : q ≠ l := ne_of_mem_of_not_mem hq hnot
          simp [← hu, NcPool.putLarge, NcPool.setSystem, hne]
        have hgone' : ((gone.erase s).map start).Perm (allocs u records) := by
          have hmap := (hsplit.map start).symm.trans hgone
          rw [List.map_cons, hstart] at hmap
          exact hallocs ▸ hmap.cons_inv
        have hrest' : Listed (fun q => (u.largeAt q).next) null (t.largeAt l).next records :=
          hrest.congr fun q _ => hnext q
        have husys : u.system = sys := by rw [← hu]; rfl
        obtain ⟨t', hrun', ht', hkept⟩ := ih hrest' hnodup (husys ▸ hsound : u.system.Sound)
          (husys ▸ hheld' : u.system.held.Perm _) hgone' hlen
        have hfreed : Freed t u := ⟨by rw [← hu]; rfl, hnext, husys ▸ hsound⟩
        refine ⟨t', ?_, hfreed.trans ht', hkept⟩
        simp [halloc, hrun, hu, hrun']

/-! ## The tops of the blocks -/

/-- The loop sets the top of each block behind a header of the size of the pool's. -/
theorem rewind_spec {ps : List Nat} (h : Listed (fun p => (t.data p).next) null p ps)
    (hnodup : ps.Nodup) (hfuel : ps.length < fuel) :
    ∃ t', rewind fuel t p = some t' ∧ t' = { t with data := t'.data } ∧
      (∀ q ∉ ps, t'.data q = t.data q) ∧
      ∀ q ∈ ps, t'.data q = { t.data q with last := q + sizeofNcPool, failed := 0 } := by
  induction ps generalizing t p fuel with
  | nil =>
      obtain ⟨fuel, rfl⟩ := Nat.exists_eq_succ_of_ne_zero (Nat.ne_zero_of_lt hfuel)
      exact ⟨t, if_pos h, rfl, fun _ _ => rfl, by simp⟩
  | cons r ps ih =>
      obtain ⟨rfl, hp, hrest⟩ := h
      obtain ⟨hnot, hnodup⟩ := List.nodup_cons.mp hnodup
      simp only [List.length_cons] at hfuel
      obtain ⟨fuel, rfl⟩ : ∃ k, fuel = k + 1 := ⟨fuel - 1, by omega⟩
      have hlen : ps.length < fuel := by omega
      have hstep : rewind (fuel + 1) t p = rewind fuel
          (t.putData p { t.data p with last := p + sizeofNcPool, failed := 0 })
          (t.data p).next := by
        rw [rewind, if_neg hp]
      rw [hstep]
      generalize hu : t.putData p { t.data p with last := p + sizeofNcPool, failed := 0 } = u
      have hother : ∀ q, q ≠ p → u.data q = t.data q := fun q hq => by
        simp [← hu, NcPool.putData, hq]
      have hrest' : Listed (fun q => (u.data q).next) null (t.data p).next ps :=
        hrest.congr fun q hq => by rw [hother q (ne_of_mem_of_not_mem hq hnot)]
      obtain ⟨t', hrun, heq, hout, hin⟩ := ih hrest' hnodup hlen
      refine ⟨t', hrun, ?_, fun q hq => ?_, fun q hq => ?_⟩
      · rw [heq, ← hu]
        rfl
      · rw [List.mem_cons, not_or] at hq
        rw [hout q hq.2, hother q hq.1]
      · rcases List.mem_cons.mp hq with rfl | hq
        · rw [hout q hnot, ← hu]
          simp [NcPool.putData]
        · rw [hin q hq, hother q (ne_of_mem_of_not_mem hq hnot)]

/-! ## Reset -/

def Block.rewound (b : Block) : Block := ⟨b.base, b.region.setTop (b.base + sizeofNcPool)⟩

/-- Nothing is in use but the headers. -/
def Layout.rewound (L : Layout) : Layout := ⟨L.blocks.map Block.rewound, [], [], []⟩

theorem Layout.rewound_bases (L : Layout) : L.rewound.bases = L.bases := by
  simp [Layout.rewound, Layout.bases, Block.rewound]

/-- The pool after a reset. -/
structure Reset (L : Layout) (t t' : NcPool) : Prop where
  base : t'.base = t.base
  max : t'.max = t.max
  cleanup : t'.cleanup = t.cleanup
  cleanupAt : t'.cleanupAt = t.cleanupAt
  current : t'.current = t.base
  data : ∀ b ∈ L.bases,
    t'.data b = { t.data b with last := b + sizeofNcPool, failed := 0 }

theorem Rep.large_split (h : Rep t psize L) :
    t.system.held.Perm (L.larges ++ L.bases.map fun b => ⟨b, psize⟩) :=
  h.held.trans List.perm_append_comm

theorem Reset.shape (hr : Reset L t t') (h : Shape t psize L) (hlarge : t'.large = null)
    (hheld : t'.system.held.Perm (L.bases.map fun b => ⟨b, psize⟩))
    (hsystem : t'.system.Sound) : Shape t' psize L.rewound where
  psize_ge := h.psize_ge
  max_eq := hr.max.trans h.max_eq
  chain := by
    rw [L.rewound_bases, hr.base]
    exact h.chain.congr fun b hb => by rw [hr.data b hb]
  nonempty := by simpa [Layout.rewound] using h.nonempty
  low_eq := fun c hc => by
    obtain ⟨b, hb, rfl⟩ := List.mem_map.mp hc
    unfold headerSize
    rw [hr.base]
    exact h.low_eq b hb
  last_eq := fun c hc => by
    obtain ⟨b, hb, rfl⟩ := List.mem_map.mp hc
    have hlow : b.region.low ≤ b.base + sizeofNcPool := by
      rw [h.low_eq b hb]
      exact Nat.add_le_add_left (headerSize_bounds t _).2 _
    have hhigh := (Nat.add_le_add_left h.psize_ge b.base).trans_eq (h.high_eq b hb).symm
    change (t'.data b.base).last = (b.region.setTop _).top
    rw [hr.data _ (List.mem_map_of_mem hb), b.region.setTop_top hlow hhigh]
  end_eq := fun c hc => by
    obtain ⟨b, hb, rfl⟩ := List.mem_map.mp hc
    change (t'.data b.base).end_ = b.region.high
    rw [hr.data _ (List.mem_map_of_mem hb)]
    exact h.end_eq b hb
  high_eq := fun c hc => by
    obtain ⟨b, hb, rfl⟩ := List.mem_map.mp hc
    exact h.high_eq b hb
  current_mem := by
    rw [L.rewound_bases, hr.current]
    exact h.base_mem
  records := hlarge
  held := by
    rw [L.rewound_bases]
    exact hheld.trans (by simp [Layout.rewound])
  system := hsystem
  packed := by
    apply h.packed.clear
    simp [Layout.rewound, Layout.regions, Block.rewound, Region.setTop, Region.span]

theorem Rep.ncPoolReset_spec (h : Rep t psize L)
    (hfuel : L.length < fuel) :
    ∃ t', ncPoolReset fuel t = some t' ∧ Rep t' psize L.rewound ∧ Reset L t t' := by
  simp only [Layout.length] at hfuel
  have hrecords : L.records.length < fuel := by omega
  have hblocks : L.bases.length < fuel := by
    rw [Layout.bases, List.length_map]
    omega
  obtain ⟨u, hfree, hu, hheld⟩ := freeLarge_spec h.records h.records_nodup h.system
    h.large_split h.recorded hrecords
  have hchain : Listed (fun p => (u.data p).next) null u.base L.bases := by
    rw [hu.eq]
    exact h.chain
  obtain ⟨v, hrewind, hv, -, hdata⟩ := rewind_spec hchain h.blocks_nodup hblocks
  have hbase : v.base = t.base := by rw [hv, hu.eq]
  have hsystem : v.system = u.system := by rw [hv]
  have hreset : Reset L t { v with current := v.base, large := null } :=
    ⟨hbase, by rw [hv, hu.eq], by rw [hv, hu.eq], by rw [hv, hu.eq], hbase,
      fun b hb => (hdata b hb).trans (by rw [hu.eq])⟩
  refine ⟨_, by simp [ncPoolReset, hfree, hrewind], ⟨?_, .nil⟩, hreset⟩
  exact hreset.shape h.toShape rfl ((congrArg System.held hsystem).symm ▸ hheld)
    (hsystem ▸ hu.sound)

/-! ## Destruction -/

/-- The records whose handlers run. -/
def handled (t : NcPool) (cs : List Nat) : List Nat :=
  cs.filter fun c => (t.cleanupAt c).handler ≠ null

def handlerCall (t : NcPool) (c : Nat) : SystemCall :=
  .handler c (t.cleanupAt c).handler (t.cleanupAt c).data

/-- The loop makes the calls of the handlers and changes nothing else. -/
theorem runCleanups_spec {c : Nat} {cs : List Nat}
    (h : Listed (fun c => (t.cleanupAt c).next) null c cs) (hsys : t.system.Sound)
    (hfuel : cs.length < fuel) :
    ∃ sys, runCleanups fuel t c = some ((handled t cs).map fun c =>
        ((t.cleanupAt c).handler, (t.cleanupAt c).data), t.setSystem sys) ∧
      sys.Sound ∧ sys.held = t.system.held ∧
      sys.calls = ((handled t cs).map (handlerCall t)).reverse ++ t.system.calls := by
  induction cs generalizing t c fuel with
  | nil =>
      obtain ⟨fuel, rfl⟩ := Nat.exists_eq_succ_of_ne_zero (Nat.ne_zero_of_lt hfuel)
      exact ⟨t.system, if_pos h, hsys, rfl, rfl⟩
  | cons r cs ih =>
      obtain ⟨rfl, hc, hrest⟩ := h
      simp only [List.length_cons] at hfuel
      obtain ⟨fuel, rfl⟩ : ∃ k, fuel = k + 1 := ⟨fuel - 1, by omega⟩
      have hlen : cs.length < fuel := by omega
      unfold runCleanups
      rw [if_neg hc]
      by_cases hhandler : (t.cleanupAt c).handler = null
      · obtain ⟨sys, hrun, hsys'⟩ := ih hrest hsys hlen
        have hskip : handled t (c :: cs) = handled t cs := by
          simp [handled, hhandler]
        rw [hskip]
        exact ⟨sys, by simp [hhandler, hrun], hsys'⟩
      · have hrun : handled t (c :: cs) = c :: handled t cs := by
          simp [handled, hhandler]
        -- what the rest of the loop starts from has the same records
        obtain ⟨sys, hrest', hsound, hheld, hcalls⟩ :=
          ih (t := t.setSystem (t.system.runHandler c (t.cleanupAt c).handler
            (t.cleanupAt c).data)) hrest (hsys.runHandler ..) hlen
        refine ⟨sys, ?_, hsound, hheld, ?_⟩
        · simp only [ne_eq, hhandler, not_false_eq_true, if_true, hrest', Option.bind_eq_bind,
            Option.bind_some, hrun, List.map_cons]
          rfl
        · rw [hcalls, hrun, List.map_cons, List.reverse_cons, List.append_assoc]
          rfl

/-- Nothing is called but `free`. -/
def Releases (t t' : NcPool) : Prop :=
  ∃ released, t'.system.calls = released ++ t.system.calls ∧
    ∀ call ∈ released, ∃ p, call = .free p

theorem Releases.refl (t : NcPool) : Releases t t := ⟨[], rfl, by simp⟩

theorem Releases.trans {t'' : NcPool} (h : Releases t t') (h' : Releases t' t'') :
    Releases t t'' := by
  obtain ⟨xs, hxs, hfree⟩ := h
  obtain ⟨ys, hys, hfree'⟩ := h'
  refine ⟨ys ++ xs, by rw [hys, hxs, List.append_assoc], ?_⟩
  exact List.forall_mem_append.mpr ⟨hfree', hfree⟩

theorem NcPool.free_releases (h : t.free p = some t') : Releases t t' := by
  rcases NcPool.free_calls h with hcalls | hcalls
  · exact ⟨[], hcalls, by simp⟩
  · exact ⟨[.free p], hcalls, by simp⟩

theorem freeLarge_releases (h : freeLarge fuel t l = some t') : Releases t t' := by
  induction fuel generalizing t l with
  | zero => cases h
  | succ fuel ih =>
      unfold freeLarge at h
      split at h
      · obtain rfl := Option.some.inj h
        exact .refl t
      · obtain ⟨u, hu, h⟩ := Option.bind_eq_some_iff.mp h
        apply Releases.trans _ (ih h)
        split at hu
        · obtain ⟨v, hfree, hv⟩ := Option.bind_eq_some_iff.mp hu
          obtain rfl := Option.some.inj hv
          have hreleases := NcPool.free_releases hfree
          exact hreleases
        · obtain rfl := Option.some.inj hu
          exact .refl t

theorem freeBlocks_releases {n : Nat} (h : freeBlocks fuel t p n = some t') :
    Releases t t' := by
  induction fuel generalizing t p n with
  | zero => cases h
  | succ fuel ih =>
      obtain ⟨u, hfree, h⟩ := Option.bind_eq_some_iff.mp h
      have hu := NcPool.free_releases hfree
      split at h
      · obtain rfl := Option.some.inj h
        exact hu
      · obtain ⟨d, -, h⟩ := Option.bind_eq_some_iff.mp h
        exact hu.trans (ih h)

theorem freeBlocks_spec {ps : List Nat} (h : Listed (fun p => (t.data p).next) null p (p :: ps))
    (hsys : t.system.Sound)
    (hheld : t.system.held.Perm ((p :: ps).map fun b => ⟨b, psize⟩)) (hfuel : ps.length < fuel) :
    ∃ t', freeBlocks fuel t p (t.data p).next = some t' ∧ t'.system.Sound ∧
      t'.system.held = [] := by
  induction ps generalizing t p fuel with
  | nil =>
      obtain ⟨fuel, rfl⟩ := Nat.exists_eq_succ_of_ne_zero (Nat.ne_zero_of_lt hfuel)
      obtain ⟨sys, hfree, hsound, hheld'⟩ := hsys.free_perm hheld
      have hnext : (t.data p).next = null := h.2.2
      refine ⟨t.setSystem sys, ?_, hsound, hheld'.eq_nil⟩
      simp only at hfree
      simp [freeBlocks, NcPool.free, hfree, hnext]
  | cons q ps ih =>
      simp only [List.length_cons] at hfuel
      obtain ⟨fuel, rfl⟩ : ∃ k, fuel = k + 1 := ⟨fuel - 1, by omega⟩
      have hlen : ps.length < fuel := by omega
      obtain ⟨sys, hfree, hsound, hheld'⟩ := hsys.free_perm hheld
      simp only at hfree
      have hnext : (t.data p).next = q := h.2.2.1
      have hq : q ≠ null := h.2.2.2.1
      have hrest : Listed (fun p => ((t.setSystem sys).data p).next) null q (q :: ps) :=
        hnext ▸ h.2.2
      obtain ⟨t', hrun, hsound', hnil⟩ := ih hrest hsound hheld' hlen
      refine ⟨t', ?_, hsound', hnil⟩
      have hdata : (t.setSystem sys).getData q = some ((t.setSystem sys).data q) := if_neg hq
      unfold freeBlocks
      rw [NcPool.free, hfree]
      simp only [Option.bind_eq_bind, Option.bind_some, hnext, if_neg hq, hdata, hrun]

theorem Rep.setSystem (h : Rep t psize L) {sys : System} (hsys : sys.Sound)
    (hheld : sys.held = t.system.held) : Rep (t.setSystem sys) psize L :=
  ⟨⟨h.psize_ge, h.max_eq, h.chain, h.nonempty, h.low_eq, h.last_eq, h.end_eq, h.high_eq,
    h.current_mem, h.records, hheld ▸ h.held, hsys, h.packed⟩, h.recorded⟩

/-- The part of the destruction that gives the memory back. -/
theorem Rep.release_spec (h : Rep t psize L) (hfuel : L.length < fuel) :
    ∃ u d t', freeLarge fuel t t.large = some u ∧ u.getData u.base = some d ∧
      freeBlocks fuel u u.base d.next = some t' ∧ t'.system.Sound ∧ t'.system.held = [] := by
  simp only [Layout.length] at hfuel
  have hrecords : L.records.length < fuel := by omega
  obtain ⟨u, hfree, hu, hheld⟩ := freeLarge_spec h.records h.records_nodup h.system
    h.large_split h.recorded hrecords
  obtain ⟨b, ys, hL, hb⟩ := h.exists_first
  have hbases : L.bases = t.base :: ys.map Block.base := by
    simp [Layout.bases, hL, hb]
  have hbase : u.base = t.base := by rw [hu.eq]
  have hdata : u.data = t.data := by rw [hu.eq]
  have hchain : Listed (fun p => (u.data p).next) null t.base (t.base :: ys.map Block.base) := by
    rw [hdata, ← hbases]
    exact h.chain
  rw [hbases] at hheld
  have hlen : (ys.map Block.base).length < fuel := by
    simp only [hL, List.length_cons, List.length_map] at hfuel ⊢
    omega
  obtain ⟨t', hrun, hsound, hnil⟩ := freeBlocks_spec hchain hu.sound hheld hlen
  have hget : u.getData t.base = some (u.data t.base) := if_neg (h.chain.ne_null h.base_mem)
  rw [← hbase] at hget hrun
  exact ⟨u, _, t', hfree, hget, hrun, hsound, hnil⟩

/-- The handlers run first, then everything is given back. -/
theorem Rep.ncPoolDestroy_spec (h : Rep t psize L) {cs : List Nat}
    (hcleanup : Listed (fun c => (t.cleanupAt c).next) null t.cleanup cs)
    (hfuel : L.length < fuel) (hfuel' : cs.length < fuel) :
    ∃ t' released, ncPoolDestroy fuel t = some ((handled t cs).map fun c =>
        ((t.cleanupAt c).handler, (t.cleanupAt c).data), t') ∧
      t'.system.Sound ∧ t'.system.held = [] ∧
      t'.system.calls = released ++ (((handled t cs).map (handlerCall t)).reverse ++
        t.system.calls) ∧
      ∀ call ∈ released, ∃ p, call = .free p := by
  obtain ⟨sys, hhandlers, hsys, hheld, hcalls⟩ := runCleanups_spec hcleanup h.system hfuel'
  obtain ⟨u, d, t', hlarge, hget, hblocks, hsound, hnil⟩ :=
    (h.setSystem hsys hheld).release_spec hfuel
  obtain ⟨released, hreleased, hfree⟩ :=
    (freeLarge_releases hlarge).trans (freeBlocks_releases hblocks)
  refine ⟨t', released, ?_, hsound, hnil, ?_, hfree⟩
  · simp only [ncPoolDestroy, hhandlers, Option.bind_eq_bind, Option.bind_some, hlarge, hget,
      hblocks]
  · rw [hreleased, ← hcalls]
    rfl

end Libnc.Pool
