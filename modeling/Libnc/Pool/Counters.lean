import Libnc.Pool.Accounting

/-!
# Failure counters

A block is left behind by the search after six requests that did not fit.  The
counters fall along the chain, so that the blocks that reach the limit in one pass
are a prefix of those that the pass looks at.
-/

namespace Libnc.Pool

open Libnc.Foundation Span

variable {malloc : Allocator} {s s' : Session} {L : Layout} {psize fuel p size : Nat}
variable {t t' t₀ : NcPool} {align : Bool} {op : Op} {ps blocks missed : List Nat}

/-! ## One pass over the chain -/

/-- The counters of the blocks of a chain of which the search skips `before`. -/
structure Aged (failed : Nat → Nat) (before : List Nat) (current : Nat) (after : List Nat) :
    Prop where
  abandoned : ∀ b ∈ before, failed b = 6
  sorted : (current :: after).Pairwise fun a b => failed b ≤ failed a
  young : ∀ b ∈ current :: after, failed b ≤ 5
  last : ∀ b, (current :: after).getLast? = some b → failed b = 0

theorem Aged.congr {f g : Nat → Nat} {before after : List Nat} {c : Nat}
    (h : Aged f before c after) (hfg : ∀ b ∈ before ++ c :: after, g b = f b) :
    Aged g before c after := by
  have htail : ∀ b ∈ c :: after, g b = f b := fun b hb => hfg b (List.mem_append_right _ hb)
  refine ⟨fun b hb => ?_, ?_, fun b hb => ?_, fun b hb => ?_⟩
  · rw [hfg b (List.mem_append_left _ hb)]
    exact h.abandoned b hb
  · exact h.sorted.imp_of_mem fun ha hb hab => by rwa [htail _ ha, htail _ hb]
  · rw [htail b hb]
    exact h.young b hb
  · rw [htail b (List.mem_of_getLast? hb)]
    exact h.last b hb

/-- What the loop of `nc_palloc_block` does to the counters and to the current block. -/
structure Passed (t t' : NcPool) (ps init mid : List Nat) (last c : Nat) (rest : List Nat) :
    Prop where
  split : ps = init ++ [last]
  stop : ps = mid ++ c :: rest
  counted : ∀ b ∈ init,
    t'.data b = { t.data b with failed := ((t.data b).failed + 1) % 2 ^ 32 }
  other : ∀ b ∉ init, t'.data b = t.data b
  full : ∀ b ∈ mid, 4 < (t.data b).failed
  room : (t.data c).failed ≤ 4 ∨ rest = []
  current : t'.current = if mid = [] then t.current else c

/-- One round of the loop, at a block that is not the last one. -/
theorem countFailures_round (hp : p ≠ null) (hnext : (t.data p).next ≠ null) (fuel : Nat) :
    ∃ u : NcPool, u.data = Function.update t.data p
        { t.data p with failed := ((t.data p).failed + 1) % 2 ^ 32 } ∧
      u.current = (if 4 < (t.data p).failed then (t.data p).next else t.current) ∧
      countFailures (fuel + 1) t p = countFailures fuel u (t.data p).next := by
  by_cases hfailed : 4 < (t.data p).failed
  · refine ⟨{ t.putData p { t.data p with failed := ((t.data p).failed + 1) % 2 ^ 32 } with
      current := (t.data p).next }, rfl, by simp [hfailed], ?_⟩
    simp [countFailures, NcPool.getData, hp, hnext, hfailed]
  · refine ⟨t.putData p { t.data p with failed := ((t.data p).failed + 1) % 2 ^ 32 }, rfl,
      by simp [hfailed, NcPool.putData], ?_⟩
    rw [countFailures]
    simp [NcPool.getData, hp, hnext, hfailed]

/-- A pass over the rest of the chain is one over the chain, if `p` is counted first. -/
theorem Passed.cons {u : NcPool} {q last c : Nat} {init mid rest : List Nat}
    (h : Passed u t' (q :: ps) init mid last c rest)
    (hdata : u.data = Function.update t.data p
      { t.data p with failed := ((t.data p).failed + 1) % 2 ^ 32 })
    (hcurrent : u.current = if 4 < (t.data p).failed then q else t.current)
    (hp : p ∉ q :: ps) (hle : ∀ b ∈ q :: ps, (t.data b).failed ≤ (t.data p).failed) :
    ∃ mid c rest, Passed t t' (p :: q :: ps) (p :: init) mid last c rest := by
  have hother : ∀ b, b ≠ p → u.data b = t.data b := fun b hb => by
    rw [hdata, Function.update_of_ne hb]
  have hold : ∀ b ∈ q :: ps, u.data b = t.data b :=
    fun b hb => hother b (ne_of_mem_of_not_mem hb hp)
  have hinit : ∀ b ∈ init, b ∈ q :: ps := fun b hb => h.split ▸ List.mem_append_left _ hb
  have hcounted : ∀ b ∈ p :: init,
      t'.data b = { t.data b with failed := ((t.data b).failed + 1) % 2 ^ 32 } := fun b hb => by
    rcases List.mem_cons.mp hb with rfl | hb
    · rw [h.other b fun hmem => hp (hinit b hmem), hdata, Function.update_self]
    · rw [h.counted b hb, hold b (hinit b hb)]
  have hkept : ∀ b ∉ p :: init, t'.data b = t.data b := fun b hb => by
    rw [List.mem_cons, not_or] at hb
    rw [h.other b hb.2, hother b hb.1]
  have hsplit : p :: q :: ps = (p :: init) ++ [last] := by rw [h.split]; rfl
  have hmid : ∀ b ∈ mid, 4 < (t.data b).failed := fun b hb => by
    rw [← hold b (h.stop ▸ List.mem_append_left _ hb)]
    exact h.full b hb
  have hc : c ∈ q :: ps := h.stop ▸ List.mem_append_right _ List.mem_cons_self
  by_cases hfailed : 4 < (t.data p).failed
  · -- this block has reached the limit, and the search goes on behind it
    refine ⟨p :: mid, c, rest, hsplit, by rw [h.stop]; rfl, hcounted, hkept,
      List.forall_mem_cons.mpr ⟨hfailed, hmid⟩, hold c hc ▸ h.room, ?_⟩
    rw [h.current, hcurrent, if_pos hfailed, if_neg (List.cons_ne_nil p mid)]
    split
    · rename_i hnil
      have hhead := h.stop
      rw [hnil] at hhead
      exact (List.cons.inj hhead).1
    · rfl
  · -- and so it is with no block behind it
    have hnil : mid = [] := by
      refine List.eq_nil_iff_forall_not_mem.mpr fun b hb => hfailed ?_
      exact (hmid b hb).trans_le (hle b (h.stop ▸ List.mem_append_left _ hb))
    refine ⟨[], p, q :: ps, hsplit, rfl, hcounted, hkept, by simp, .inl (by omega), ?_⟩
    rw [h.current, hcurrent, if_pos hnil, if_neg hfailed, if_pos rfl]

theorem countFailures_passed (h : Listed (fun p => (t.data p).next) null p (p :: ps))
    (hnodup : (p :: ps).Nodup)
    (hsorted : (p :: ps).Pairwise fun a b => (t.data b).failed ≤ (t.data a).failed)
    (hfuel : ps.length < fuel) :
    ∃ init mid last c rest t', countFailures fuel t p = some (last, t') ∧
      Passed t t' (p :: ps) init mid last c rest := by
  induction ps generalizing t p fuel with
  | nil =>
      obtain ⟨fuel, rfl⟩ := Nat.exists_eq_succ_of_ne_zero (Nat.ne_zero_of_lt hfuel)
      have hnext : (t.data p).next = null := h.2.2
      refine ⟨[], [], p, p, [], t, by simp [countFailures, NcPool.getData, h.2.1, hnext], rfl, rfl,
        by simp, fun _ _ => rfl, by simp, .inr rfl, rfl⟩
  | cons q ps ih =>
      obtain ⟨fuel, rfl⟩ := Nat.exists_eq_succ_of_ne_zero (Nat.ne_zero_of_lt hfuel)
      have hnext : (t.data p).next = q := h.2.2.1
      have hq : (t.data p).next ≠ null := by
        rw [hnext]
        exact h.2.2.2.1
      obtain ⟨hp, hnodup⟩ := List.nodup_cons.mp hnodup
      obtain ⟨hle, hsorted⟩ := List.pairwise_cons.mp hsorted
      obtain ⟨u, hu, hcurrent, hrun⟩ := countFailures_round h.2.1 hq fuel
      rw [hnext] at hcurrent hrun
      have hold : ∀ b ∈ q :: ps, u.data b = t.data b := fun b hb => by
        rw [hu, Function.update_of_ne (ne_of_mem_of_not_mem hb hp)]
      have hrest : Listed (fun p => (u.data p).next) null q (q :: ps) := by
        have htail := h.2.2
        simp only [hnext] at htail
        exact htail.congr fun b hb => by rw [hold b hb]
      have hsorted' : (q :: ps).Pairwise fun a b => (u.data b).failed ≤ (u.data a).failed :=
        hsorted.imp_of_mem fun ha hb hab => by rwa [hold _ ha, hold _ hb]
      obtain ⟨init, mid, last, c, rest, t', hrun', hpass⟩ :=
        ih hrest hnodup hsorted' (Nat.lt_of_succ_lt_succ hfuel)
      obtain ⟨mid', c', rest', hpass'⟩ := hpass.cons hu hcurrent hp hle
      exact ⟨p :: init, mid', last, c', rest', t', hrun.trans hrun', hpass'⟩

/-- The counted blocks are those that reach the limit and those behind them but the last. -/
theorem Passed.segments {init mid rest : List Nat} {last c : Nat}
    (h : Passed t t' ps init mid last c rest) :
    ∃ d, c :: rest = d ++ [last] ∧ init = mid ++ d := by
  obtain ⟨d, z, hd⟩ : ∃ d z, c :: rest = d ++ [z] :=
    ⟨_, _, (List.dropLast_append_getLast (List.cons_ne_nil c rest)).symm⟩
  have hjoin : init ++ [last] = (mid ++ d) ++ [z] := by
    rw [← h.split, h.stop, hd, List.append_assoc]
  obtain ⟨rfl, hz⟩ := List.append_inj' hjoin rfl
  obtain rfl : last = z := (List.cons.inj hz).1
  exact ⟨d, hd, rfl⟩

theorem Passed.le_four {init mid rest d : List Nat} {last c : Nat}
    (h : Passed t t' ps init mid last c rest)
    (hsorted : ps.Pairwise fun a b => (t.data b).failed ≤ (t.data a).failed)
    (hd : c :: rest = d ++ [last]) : ∀ b ∈ d, (t.data b).failed ≤ 4 := by
  intro b hb
  rcases h.room with hroom | hnil
  · rw [h.stop] at hsorted
    have hfall := (List.pairwise_append.mp hsorted).2.1
    have hmem : b ∈ c :: rest := by
      rw [hd]
      exact List.mem_append_left _ hb
    rcases List.mem_cons.mp hmem with rfl | hmem
    · exact hroom
    · exact ((List.pairwise_cons.mp hfall).1 b hmem).trans hroom
  · rw [hnil] at hd
    have hlen := congrArg List.length hd
    simp only [List.length_append, List.length_cons, List.length_nil] at hlen
    have : d = [] := List.length_eq_zero_iff.mp (by omega)
    simp [this] at hb

theorem Passed.current_eq {init mid rest : List Nat} {last c : Nat}
    (h : Passed t t' (t.current :: ps) init mid last c rest) : t'.current = c := by
  rw [h.current]
  split
  · rename_i hnil
    have hhead := h.stop
    rw [hnil] at hhead
    exact (List.cons.inj hhead).1
  · rfl

theorem Passed.failed_le {init mid rest : List Nat} {last c : Nat}
    (h : Passed t t' ps init mid last c rest) (b : Nat) :
    (t'.data b).failed ≤ (t.data b).failed + ps.count b := by
  by_cases hb : b ∈ init
  · have hone : 1 ≤ ps.count b :=
      List.one_le_count_iff.mpr (h.split ▸ List.mem_append_left _ hb)
    rw [h.counted b hb]
    exact (Nat.mod_le _ _).trans (Nat.add_le_add_left hone _)
  · rw [h.other b hb]
    exact Nat.le_add_right _ _

/-- The blocks `mid` reach the limit, and `q` is added at the end. -/
theorem Aged.shift {f g : Nat → Nat} {before after mid d rest : List Nat}
    {current last c q : Nat} (h : Aged f before current after)
    (hchain : current :: after = mid ++ (d ++ [last])) (hd : c :: rest = d ++ [last])
    (hbefore : ∀ b ∈ before, g b = f b) (hcount : ∀ b ∈ mid ++ d, g b = f b + 1)
    (hfull : ∀ b ∈ mid, 4 < f b) (hroom : ∀ b ∈ d, f b ≤ 4) (hlast : g last = 0)
    (hnew : g q = 0) : Aged g (before ++ mid) c (rest ++ [q]) := by
  have hrest : c :: (rest ++ [q]) = d ++ [last, q] := by
    rw [← List.cons_append, hd, List.append_assoc]
    rfl
  have hend : ∀ b ∈ [last, q], g b = 0 := by
    simp [hlast, hnew]
  refine ⟨fun b hb => ?_, ?_, fun b hb => ?_, fun b hb => ?_⟩
  · rcases List.mem_append.mp hb with hb | hb
    · rw [hbefore b hb]
      exact h.abandoned b hb
    · have hyoung : f b ≤ 5 := h.young b (by rw [hchain]; exact List.mem_append_left _ hb)
      have hfull := hfull b hb
      rw [hcount b (List.mem_append_left _ hb)]
      omega
  · rw [hrest]
    have hsorted := h.sorted
    rw [hchain] at hsorted
    have hfall := (List.pairwise_append.mp (List.pairwise_append.mp hsorted).2.1).1
    refine List.pairwise_append.mpr ⟨hfall.imp_of_mem fun {a b} ha hb hab => ?_,
      by simp [hlast, hnew], fun a _ b hb => ?_⟩
    · rw [hcount a (List.mem_append_right _ ha), hcount b (List.mem_append_right _ hb)]
      exact Nat.add_le_add_right hab 1
    · rw [hend b hb]
      exact Nat.zero_le _
  · rw [hrest] at hb
    rcases List.mem_append.mp hb with hb | hb
    · have hroom := hroom b hb
      rw [hcount b (List.mem_append_right _ hb)]
      omega
    · rw [hend b hb]
      exact Nat.zero_le _
  · rw [hrest, List.getLast?_append] at hb
    obtain rfl : q = b := by simpa using hb
    exact hnew

/-- After a pass and with a new block at the end the counters are in order again. -/
theorem Aged.pass {before after init mid rest : List Nat} {last c q : Nat} {u : NcPool}
    (h : Aged (fun b => (t.data b).failed) before t.current after)
    (hnodup : (before ++ t.current :: after).Nodup)
    (hpass : Passed t t' (t.current :: after) init mid last c rest)
    (hsame : ∀ b, b ≠ q → (u.data b).failed = (t'.data b).failed)
    (hq : q ∉ before ++ t.current :: after) (hnew : (u.data q).failed = 0) :
    Aged (fun b => (u.data b).failed) (before ++ mid) c (rest ++ [q]) := by
  obtain ⟨d, hd, rfl⟩ := hpass.segments
  have hchain : t.current :: after = mid ++ d ++ [last] := hpass.split
  have hroom := hpass.le_four h.sorted hd
  rw [hchain] at hnodup hq
  obtain ⟨-, hnodup', hcross⟩ := List.nodup_append.mp hnodup
  have hkept : ∀ b ∈ before ++ (mid ++ d ++ [last]), b ∉ mid ++ d →
      (u.data b).failed = (t.data b).failed := fun b hb hout => by
    rw [hsame b (ne_of_mem_of_not_mem hb hq), hpass.other b hout]
  refine h.shift (hchain.trans (List.append_assoc ..)) hd (fun b hb => ?_) (fun b hb => ?_)
    hpass.full hroom ?_ hnew
  · exact hkept b (List.mem_append_left _ hb) fun hmem =>
      hcross b hb b (List.mem_append_left _ hmem) rfl
  · have hmem : b ∈ mid ++ d ++ [last] := List.mem_append_left _ hb
    have hyoung : (t.data b).failed ≤ 5 := h.young b (hchain ▸ hmem)
    have hne : b ≠ q := ne_of_mem_of_not_mem (List.mem_append_right before hmem) hq
    rw [hsame b hne, hpass.counted b hb]
    exact Nat.mod_eq_of_lt (by omega)
  · have hout : last ∉ mid ++ d := fun hmem =>
      (List.nodup_append.mp hnodup').2.2 _ hmem last (by simp) rfl
    rw [hkept last (by simp) hout]
    exact h.last last (by rw [hchain, List.getLast?_append]; simp)

/-! ## Requests that do not fit -/

theorem NcPool.eq_of_getData {d : NcPoolData} (h : t.getData p = some d) : d = t.data p := by
  rw [NcPool.getData] at h
  split at h
  · cases h
  · exact (Option.some.inj h).symm

/-- The blocks that a search looks at in vain. -/
def missedBlocks (t : NcPool) (size : Nat) (align : Bool) : Nat → Nat → List Nat
  | 0, _ => []
  | fuel + 1, p =>
      if size ≤ sizeDiff (t.data p).end_ (searchStart align (t.data p).last) then []
      else p ::
        (if (t.data p).next = null then []
        else missedBlocks t size align fuel (t.data p).next)

theorem pallocSearch_none_round (hp : p ≠ null)
    (h : pallocSearch t size align (fuel + 1) p = some none) :
    ¬ size ≤ sizeDiff (t.data p).end_ (searchStart align (t.data p).last) ∧
      ((t.data p).next ≠ null → pallocSearch t size align fuel (t.data p).next = some none) := by
  rw [pallocSearch, NcPool.getData, if_neg hp, Option.bind_eq_bind, Option.bind_some] at h
  change (if size ≤ sizeDiff _ (searchStart align (t.data p).last) then _ else _) = _ at h
  split at h
  · simp at h
  · rename_i hfits
    refine ⟨hfits, fun hnext => ?_⟩
    rwa [if_neg hnext] at h

theorem missedBlocks_eq (h : Listed (fun p => (t.data p).next) null p (p :: ps))
    (hfuel : ps.length < fuel) (hsearch : pallocSearch t size align fuel p = some none) :
    missedBlocks t size align fuel p = p :: ps := by
  induction ps generalizing p fuel with
  | nil =>
      obtain ⟨fuel, rfl⟩ := Nat.exists_eq_succ_of_ne_zero (Nat.ne_zero_of_lt hfuel)
      have hnext : (t.data p).next = null := h.2.2
      obtain ⟨hfits, -⟩ := pallocSearch_none_round h.2.1 hsearch
      unfold missedBlocks
      rw [if_neg hfits, if_pos hnext]
  | cons q ps ih =>
      obtain ⟨fuel, rfl⟩ := Nat.exists_eq_succ_of_ne_zero (Nat.ne_zero_of_lt hfuel)
      have hnext : (t.data p).next = q := h.2.2.1
      have hq : q ≠ null := h.2.2.2.1
      have hrest : Listed (fun p => (t.data p).next) null q (q :: ps) := by
        have htail := h.2.2
        simpa only [hnext] using htail
      obtain ⟨hfits, htail⟩ := pallocSearch_none_round h.2.1 hsearch
      rw [hnext] at htail
      rw [missedBlocks, if_neg hfits, hnext, if_neg hq,
        ih hrest (Nat.lt_of_succ_lt_succ hfuel) (htail hq)]

/-- The chain with its counters, none of which is above the number of misses. -/
def Counters (t : NcPool) (missed : List Nat) : Prop :=
  ∃ before after, Listed (fun b => (t.data b).next) null t.base (before ++ t.current :: after) ∧
    Aged (fun b => (t.data b).failed) before t.current after ∧
    ∀ b ∈ before ++ t.current :: after, (t.data b).failed ≤ missed.count b

/-- The chain of `t` and what its counters say are the same in `t'`. -/
structure SameCounters (t t' : NcPool) (bases : List Nat) : Prop where
  base : t'.base = t.base
  current : t'.current = t.current
  next : ∀ b ∈ bases, (t'.data b).next = (t.data b).next
  failed : ∀ b ∈ bases, (t'.data b).failed = (t.data b).failed

theorem Counters.same (h : Counters t missed)
    (hsame : ∀ bases, Listed (fun b => (t.data b).next) null t.base bases →
      SameCounters t t' bases) (ms : List Nat) : Counters t' (ms ++ missed) := by
  obtain ⟨before, after, hlist, haged, hcount⟩ := h
  have hs := hsame _ hlist
  refine ⟨before, after, ?_, ?_, fun b hb => ?_⟩
  · rw [hs.base, hs.current]
    exact hlist.congr hs.next
  · rw [hs.current]
    exact haged.congr hs.failed
  · rw [hs.current] at hb
    rw [hs.failed b hb, List.count_append]
    exact (hcount b hb).trans (Nat.le_add_left _ _)

theorem Counters.copy (h : Counters t missed) (hbase : t'.base = t.base)
    (hcurrent : t'.current = t.current) (hdata : t'.data = t.data) : Counters t' missed :=
  h.same (fun _ _ => ⟨hbase, hcurrent, fun b _ => by rw [hdata], fun b _ => by rw [hdata]⟩) []

/-- A block is added after all others from the current one on have been missed. -/
theorem Counters.added {before after : List Nat} {sys : System} {m : Nat} {d : NcPoolData}
    {u : NcPool}
    (hlist : Listed (fun b => (t.data b).next) null t.base (before ++ t.current :: after))
    (haged : Aged (fun b => (t.data b).failed) before t.current after)
    (hcount : ∀ b ∈ before ++ t.current :: after, (t.data b).failed ≤ missed.count b)
    (hnodup : (before ++ t.current :: after).Nodup) (hp : p ∉ before ++ t.current :: after)
    (hd : d.failed = 0)
    (hrun : countFailures fuel ((t.setSystem sys).putData p d) t.current = some (m, u))
    (hlist' : Listed (fun b => ((u.putData m { u.data m with next := p }).data b).next) null u.base
      ((before ++ t.current :: after) ++ [p]))
    (hfuel : after.length < fuel) :
    Counters (u.putData m { u.data m with next := p }) ((t.current :: after) ++ missed) := by
  generalize ht₁ : (t.setSystem sys).putData p d = t₁ at hrun
  have hold : ∀ b ∈ before ++ t.current :: after, t₁.data b = t.data b := fun b hb => by
    have hne : b ≠ p := ne_of_mem_of_not_mem hb hp
    simp [← ht₁, NcPool.putData, NcPool.setSystem, hne]
  have hat : t₁.data p = d := by simp [← ht₁, NcPool.putData]
  have hcurrent : t₁.current = t.current := by rw [← ht₁]; rfl
  have htail : ∀ b ∈ t.current :: after, t₁.data b = t.data b :=
    fun b hb => hold b (List.mem_append_right _ hb)
  have hsuffix : Listed (fun b => (t₁.data b).next) null t.current (t.current :: after) :=
    hlist.suffix.congr fun b hb => by rw [htail b hb]
  have hsorted : (t.current :: after).Pairwise fun a b =>
      (t₁.data b).failed ≤ (t₁.data a).failed :=
    haged.sorted.imp_of_mem fun ha hb hab => by rwa [htail _ ha, htail _ hb]
  obtain ⟨init, mid, last, c, rest, u', hrun', hpass⟩ :=
    countFailures_passed hsuffix (List.nodup_append.mp hnodup).2.1 hsorted hfuel
  obtain ⟨rfl, rfl⟩ := Prod.mk.inj (Option.some.inj (hrun.symm.trans hrun'))
  generalize hv : u.putData m { u.data m with next := p } = v at hlist' ⊢
  have hvfailed : ∀ b, (v.data b).failed = (u.data b).failed := fun b => by
    by_cases hb : b = m <;> simp [← hv, NcPool.putData, hb]
  have hinit : p ∉ init := fun hmem =>
    hp (List.mem_append_right _ (hpass.split ▸ List.mem_append_left _ hmem))
  have hnew : (v.data p).failed = 0 := by
    rw [hvfailed, hpass.other p hinit, hat, hd]
  have hpass₁ : Passed t₁ u (t₁.current :: after) init mid m c rest := hcurrent ▸ hpass
  have hvcurrent : v.current = c := by
    rw [← hpass₁.current_eq, ← hv]
    rfl
  have hchain : (before ++ mid) ++ c :: (rest ++ [p]) = (before ++ t.current :: after) ++ [p] := by
    rw [hpass.stop]
    simp
  refine ⟨before ++ mid, rest ++ [p], ?_, ?_, fun b hb => ?_⟩
  · have hbase : v.base = u.base := by
      rw [← hv]
      rfl
    rw [hvcurrent, hchain, hbase]
    exact hlist'
  · rw [hvcurrent]
    refine Aged.pass ?_ (hcurrent ▸ hnodup) hpass₁ (fun b _ => hvfailed b)
      (hcurrent ▸ hp) hnew
    rw [hcurrent]
    exact haged.congr fun b hb => by rw [hold b hb]
  · rw [hvcurrent, hchain] at hb
    rcases List.mem_append.mp hb with hb | hb
    · have hle := hpass.failed_le b
      rw [hold b hb] at hle
      rw [hvfailed, List.count_append, Nat.add_comm]
      exact hle.trans (Nat.add_le_add_right (hcount b hb) _)
    · obtain rfl := List.mem_singleton.mp hb
      rw [hnew]
      exact Nat.zero_le _

/-! ## The calls -/

theorem Counters.small (hc : Counters t missed) (h : Shape t psize L) (hm : malloc.Lawful)
    (hsize : sizeofNcPoolData + size ≤ psize) (hfuel : L.blocks.length ≤ fuel)
    (hrun : ncPallocSmall malloc fuel t size align = some (p, t')) :
    Counters t' (missedBlocks t size align fuel t.current ++ missed) := by
  obtain ⟨found, hsearch, hrun⟩ := Option.bind_eq_some_iff.mp hrun
  cases found with
  | some found =>
      obtain ⟨d, hd, hrun⟩ := Option.bind_eq_some_iff.mp hrun
      obtain ⟨-, rfl⟩ := Prod.mk.inj (Option.some.inj hrun)
      have hd' := NcPool.eq_of_getData hd
      have hsame : ∀ bases,
          SameCounters t (t.putData found.1 { d with last := found.2 + size }) bases :=
        fun bases => by
          refine ⟨rfl, rfl, fun b _ => ?_, fun b _ => ?_⟩ <;>
            by_cases hb : b = found.1 <;> simp [NcPool.putData, hb, hd']
      exact hc.same (fun bases _ => hsame bases) _
  | none =>
      obtain ⟨hdata, hpsize⟩ := h.psize_eq
      have hpos : 0 < psize := h.psize_ge.trans_lt' (by decide)
      obtain ⟨q, sys, halloc, hsys, ⟨rfl, -⟩ | ⟨hq, hheld⟩⟩ := h.system.alloc hm hpos
      · simp only [ncPallocBlock, hdata, Option.bind_eq_bind, Option.bind_some, hpsize, halloc,
          if_true] at hrun
        obtain ⟨-, rfl⟩ := Prod.mk.inj (Option.some.inj hrun)
        exact hc.same (fun _ _ => ⟨rfl, rfl, fun _ _ => rfl, fun _ _ => rfl⟩) _
      · obtain ⟨halign, -⟩ := ncAlignPtr_data hsize hsys (q := q) (by simp [hheld])
        simp only [ncPallocBlock, hdata, Option.bind_eq_bind, Option.bind_some, hpsize, halloc,
          if_neg hq, halign] at hrun
        obtain ⟨⟨m, u⟩, hcount, hrun⟩ := Option.bind_eq_some_iff.mp hrun
        obtain ⟨d, hd, hrun⟩ := Option.bind_eq_some_iff.mp hrun
        obtain ⟨-, rfl⟩ := Prod.mk.inj (Option.some.inj hrun)
        have hd' := NcPool.eq_of_getData hd
        obtain ⟨m', u', hcount', -, -, L', h', hbases'⟩ := h.link_block hsize hfuel hq hsys hheld
        obtain ⟨rfl, rfl⟩ := Prod.mk.inj (Option.some.inj (hcount.symm.trans hcount'))
        obtain ⟨before, after, hlist, haged, hle⟩ := hc
        have hbases := h.chain.unique hlist
        have hlength : after.length < fuel := by
          have hlen := congrArg List.length hbases
          simp only [Layout.bases, List.length_map, List.length_append, List.length_cons] at hlen
          omega
        have hmissed := missedBlocks_eq hlist.suffix hlength hsearch
        have hnew : q ∉ before ++ t.current :: after := by
          rw [← hbases]
          intro hmem
          obtain ⟨b, hb, rfl⟩ := Shape.exists_block hmem
          exact (h.apart_fresh hsys hheld b hb).2 rfl
        rw [hmissed, hd']
        exact Counters.added hlist haged hle (hbases ▸ h.blocks_nodup) hnew rfl hcount
          (hbases ▸ hbases' ▸ h'.chain) hlength

/-- The blocks that a large allocation looks at in vain for its record. -/
def missedLarge (malloc : Allocator) (fuel : Nat) (t : NcPool) (size : Nat) : List Nat :=
  let (p, sys) := t.system.alloc malloc size
  let t := t.setSystem sys
  if p = null ∨ reusableLarge t fuel 0 t.large ≠ some null then []
  else missedBlocks t sizeofNcPoolLarge true fuel t.current

theorem NcPool.free_same (h : t.free p = some t') :
    t'.base = t.base ∧ t'.current = t.current ∧ t'.data = t.data := by
  obtain ⟨sys, -, hrest⟩ := Option.bind_eq_some_iff.mp h
  obtain rfl := Option.some.inj hrest
  exact ⟨rfl, rfl, rfl⟩

theorem Counters.large (hc : Counters t missed) (h : Rep t psize L) (hm : malloc.Lawful)
    (hsize : 0 < size) (hfuel : L.length < fuel)
    (hrun : ncPallocLarge malloc fuel t size = some (p, t')) :
    Counters t' (missedLarge malloc fuel t size ++ missed) := by
  obtain ⟨q, sys, halloc, hsys, ⟨rfl, hheld⟩ | ⟨hq, hheld⟩⟩ := h.system.alloc hm hsize
  · simp only [ncPallocLarge, halloc, if_true] at hrun
    obtain ⟨-, rfl⟩ := Prod.mk.inj (Option.some.inj hrun)
    exact hc.same (fun _ _ => ⟨rfl, rfl, fun _ _ => rfl, fun _ _ => rfl⟩) _
  · simp only [ncPallocLarge, halloc, if_neg hq] at hrun
    obtain ⟨l, hreuse, hrun⟩ := Option.bind_eq_some_iff.mp hrun
    by_cases hl : l = null
    · subst hl
      simp only [ne_eq, not_true_eq_false, if_false] at hrun
      obtain ⟨⟨r, u⟩, hsmall, hrun⟩ := Option.bind_eq_some_iff.mp hrun
      have hblocks : L.blocks.length ≤ fuel := by
        simp only [Layout.length] at hfuel
        omega
      have hmissed : missedLarge malloc fuel t size =
          missedBlocks (t.setSystem sys) sizeofNcPoolLarge true fuel t.current := by
        simp only [missedLarge, halloc, hreuse, hq, ne_eq, not_true_eq_false, or_self, if_false]
        rfl
      rw [hmissed]
      have hshape : Shape (t.setSystem sys) psize { L with larges := ⟨q, size⟩ :: L.larges } :=
        h.toShape.hold hsys hheld
      have hc₁ : Counters (t.setSystem sys) missed := hc.copy rfl rfl rfl
      have hroom : sizeofNcPoolData + sizeofNcPoolLarge ≤ psize :=
        le_trans (by decide) h.psize_ge
      have hu := hc₁.small hshape hm hroom hblocks hsmall
      by_cases hr : r = null
      · simp only [if_pos hr] at hrun
        obtain ⟨v, hfree, hrun⟩ := Option.bind_eq_some_iff.mp hrun
        obtain ⟨-, rfl⟩ := Prod.mk.inj (Option.some.inj hrun)
        obtain ⟨hbase, hcurrent, hdata⟩ := NcPool.free_same hfree
        exact hu.copy hbase hcurrent hdata
      · simp only [if_neg hr] at hrun
        obtain ⟨-, rfl⟩ := Prod.mk.inj (Option.some.inj hrun)
        exact hu.copy rfl rfl rfl
    · simp only [ne_eq, hl, not_false_eq_true, if_true] at hrun
      obtain ⟨-, rfl⟩ := Prod.mk.inj (Option.some.inj hrun)
      exact hc.same (fun _ _ => ⟨rfl, rfl, fun _ _ => rfl, fun _ _ => rfl⟩) _

def missedAlloc (malloc : Allocator) (fuel : Nat) (align : Bool) (t : NcPool) (size : Nat) :
    List Nat :=
  if size ≤ t.max then missedBlocks t size align fuel t.current
  else missedLarge malloc fuel t size

theorem Counters.allocWith (hc : Counters t missed) (h : Rep t psize L) (hm : malloc.Lawful)
    (hfuel : L.length < fuel) (hrun : allocWith malloc fuel align t size = some (p, t')) :
    Counters t' (missedAlloc malloc fuel align t size ++ missed) := by
  unfold Libnc.Pool.allocWith at hrun
  unfold missedAlloc
  split at hrun
  · rename_i hsize
    rw [if_pos hsize]
    have hblocks : L.blocks.length ≤ fuel := by
      simp only [Layout.length] at hfuel
      omega
    exact hc.small h.toShape hm (h.data_le hsize) hblocks hrun
  · rename_i hsize
    rw [if_neg hsize]
    exact hc.large h hm (Nat.zero_lt_of_lt (not_le.mp hsize)) hfuel hrun

/-- The blocks that the requests of a call look at in vain, with repetitions. -/
def missedBy (malloc : Allocator) (fuel : Nat) (t : NcPool) : Op → List Nat
  | .palloc size => missedAlloc malloc fuel true t size
  | .pnalloc size => missedAlloc malloc fuel false t size
  | .pcalloc size => missedAlloc malloc fuel true t size
  | .cleanupAdd size _ =>
      match ncPalloc malloc fuel t sizeofNcPoolCleanup with
      | some (c, u) =>
          (if c = null ∨ size = 0 then [] else missedAlloc malloc fuel true u size) ++
            missedAlloc malloc fuel true t sizeofNcPoolCleanup
      | none => []
  | .pfree _ => []
  | .reset => []

theorem Counters.pcalloc (hc : Counters t missed) (h : Rep t psize L) (hm : malloc.Lawful)
    (hdvd : ncAlignment ∣ psize) (hfuel : L.length < fuel)
    (hrun : ncPcalloc malloc fuel t size = some (p, t')) :
    Counters t' (missedAlloc malloc fuel true t size ++ missed) := by
  obtain ⟨q, u, hrun', -, ⟨-, hresult⟩, -⟩ := h.allocWith_spec hm
    (h.allocInside hdvd true size) hfuel
  have hu := hc.allocWith h hm hfuel hrun'
  rw [← ncPalloc_eq] at hrun'
  simp only [ncPcalloc, hrun', Option.bind_eq_bind, Option.bind_some] at hrun
  rcases hresult with ⟨rfl, -⟩ | ⟨hq, L', hrep, hgrown⟩
  · simp only [ne_eq, not_true_eq_false, if_false] at hrun
    obtain ⟨-, rfl⟩ := Prod.mk.inj (Option.some.inj hrun)
    exact hu
  · simp only [ne_eq, hq, not_false_eq_true, if_true] at hrun
    obtain ⟨-, rfl⟩ := Prod.mk.inj (Option.some.inj hrun)
    have hframe := hrep.memsetZero_frame (hgrown.mem List.mem_cons_self)
    refine hu.same (fun bases hbases => ?_) []
    obtain rfl := hrep.chain.unique hbases
    exact ⟨rfl, hframe.current, fun b hb => by rw [hframe.data b hb],
      fun b hb => by rw [hframe.data b hb]⟩

theorem Counters.cleanupAdd {c : Nat} (hc : Counters t missed) (h : Rep t psize L)
    (hm : malloc.Lawful) (hdvd : ncAlignment ∣ psize) (hfuel : L.length + 2 < fuel)
    (hrun : ncPoolCleanupAdd malloc fuel t size = some (c, t')) (handler : Nat) :
    Counters t' (missedBy malloc fuel t (.cleanupAdd size handler) ++ missed) := by
  have hfuel₁ : L.length < fuel := by omega
  obtain ⟨q, u, hrecord, -, hresult, -⟩ := h.allocWith_spec hm
    (h.allocInside hdvd true sizeofNcPoolCleanup) hfuel₁
  have hu := hc.allocWith h hm hfuel₁ hrecord
  rw [← ncPalloc_eq] at hrecord
  simp only [ncPoolCleanupAdd, hrecord, Option.bind_eq_bind, Option.bind_some] at hrun
  simp only [missedBy, hrecord]
  by_cases hq : q = null
  · simp only [if_pos hq] at hrun
    obtain ⟨-, rfl⟩ := Prod.mk.inj (Option.some.inj hrun)
    rw [if_pos (.inl hq)]
    exact hu
  · obtain ⟨L₁, hrep₁, hgrown₁, -⟩ := hresult.cleanup_frame hq
    have hfuel₂ : L₁.length < fuel := by
      have := hgrown₁.length
      simp only [List.length_singleton] at this
      omega
    by_cases hsize : size = 0
    · simp only [if_neg hq, hsize, ne_eq, not_true_eq_false, if_false, Option.bind_some,
        false_and] at hrun
      obtain ⟨-, rfl⟩ := Prod.mk.inj (Option.some.inj hrun)
      rw [if_pos (.inr hsize)]
      exact hu.copy rfl rfl rfl
    · obtain ⟨data, v, hdata, -⟩ := hrep₁.allocWith_spec hm
        (hrep₁.allocInside hdvd true size) hfuel₂
      have hv := hu.allocWith hrep₁ hm hfuel₂ hdata
      rw [← ncPalloc_eq] at hdata
      simp only [if_neg hq, ne_eq, hsize, not_false_eq_true, if_true, hdata, Option.bind_some,
        true_and] at hrun
      rw [if_neg (not_or.mpr ⟨hq, hsize⟩), List.append_assoc]
      split at hrun <;> obtain ⟨-, rfl⟩ := Prod.mk.inj (Option.some.inj hrun) <;>
        exact hv.copy rfl rfl rfl

/-! ## Runs -/

/-- A session with the blocks that requests since the last reset have looked at in vain. -/
structure Watched where
  session : Session
  missed : List Nat

def watch (malloc : Allocator) (fuel : Nat) (w : Watched) (op : Op) : Option Watched := do
  let s ← step malloc fuel w.session op
  some ⟨s, if op = .reset then [] else missedBy malloc fuel w.session.pool op ++ w.missed⟩

theorem run_watch (w : Watched) (ops : List Op) :
    (run (watch malloc fuel) w ops).map Watched.session = run (step malloc fuel) w.session ops := by
  induction ops generalizing w with
  | nil => rfl
  | cons op ops ih =>
      cases h : step malloc fuel w.session op with
      | none => simp [run, watch, h]
      | some s => simpa [run, watch, h] using ih _

theorem Reset.counters (h : Reset L t t') (hrep : Rep t psize L) : Counters t' [] := by
  obtain ⟨b, ys, hL, hb⟩ := hrep.exists_first
  have hbases : L.bases = t.base :: ys.map Block.base := by
    simp [Layout.bases, hL, hb]
  have hzero : ∀ b ∈ L.bases, (t'.data b).failed = 0 := fun b hb => by rw [h.data b hb]
  rw [hbases] at hzero
  refine ⟨[], ys.map Block.base, ?_, ?_, fun b hb => ?_⟩
  · rw [h.base, h.current, List.nil_append, ← hbases]
    exact hrep.chain.congr fun b hb => by rw [h.data b hb]
  · rw [h.current]
    refine ⟨by simp, List.pairwise_of_forall_mem_list fun a ha b hb => ?_, fun b hb => ?_,
      fun b hb => hzero b (List.mem_of_getLast? hb)⟩
    · rw [hzero b hb]
      exact Nat.zero_le _
    · rw [hzero b hb]
      exact Nat.zero_le _
  · rw [h.current] at hb
    rw [hzero b hb]
    exact Nat.zero_le _

theorem Counters.step (hc : Counters s.pool missed) (h : Sound psize s L) (hm : malloc.Lawful)
    (hdvd : ncAlignment ∣ psize) (hfuel : L.length + 2 < fuel)
    (hrun : step malloc fuel s op = some s') :
    Counters s'.pool (if op = .reset then [] else missedBy malloc fuel s.pool op ++ missed) := by
  have hlen : L.length < fuel := by omega
  cases op with
  | palloc size =>
      obtain ⟨⟨p, t⟩, hcall, h'⟩ := Option.bind_eq_some_iff.mp hrun
      obtain rfl := Option.some.inj h'
      exact hc.allocWith h.rep hm hlen hcall
  | pnalloc size =>
      obtain ⟨⟨p, t⟩, hcall, h'⟩ := Option.bind_eq_some_iff.mp hrun
      obtain rfl := Option.some.inj h'
      exact hc.allocWith h.rep hm hlen hcall
  | pcalloc size =>
      obtain ⟨⟨p, t⟩, hcall, h'⟩ := Option.bind_eq_some_iff.mp hrun
      obtain rfl := Option.some.inj h'
      exact hc.pcalloc h.rep hm hdvd hlen hcall
  | pfree p =>
      have hrecords : L.records.length < fuel := by
        simp only [Layout.length] at hlen
        omega
      obtain ⟨result, t, hfree, hfreed, -⟩ := h.rep.ncPfree_spec hrecords p
      simp only [Libnc.Pool.step, hfree, Option.bind_eq_bind, Option.bind_some] at hrun
      obtain rfl := Option.some.inj hrun
      exact hc.copy (by rw [hfreed.eq]) (by rw [hfreed.eq]) (by rw [hfreed.eq])
  | cleanupAdd size handler =>
      obtain ⟨⟨c, t⟩, hcall, h'⟩ := Option.bind_eq_some_iff.mp hrun
      obtain rfl := Option.some.inj h'
      have ht := hc.cleanupAdd h.rep hm hdvd hfuel hcall handler
      rw [if_neg (by simp)]
      unfold setHandler
      split
      · exact ht
      · exact ht.copy rfl rfl rfl
  | reset =>
      obtain ⟨t, hreset, -, hreset'⟩ := h.rep.ncPoolReset_spec hlen
      simp only [Libnc.Pool.step, hreset, Option.bind_eq_bind, Option.bind_some] at hrun
      obtain rfl := Option.some.inj hrun
      rw [if_pos rfl]
      exact hreset'.counters h.rep

/-- The blocks after a call are the blocks before it and new ones. -/
def ChainGrows (s s' : Session) : Prop :=
  ∀ blocks, Listed (fun b => (s.pool.data b).next) null s.pool.base blocks →
    ∃ blocks', Listed (fun b => (s'.pool.data b).next) null s'.pool.base blocks' ∧
      blocks <+: blocks'

theorem StepResult.chain_grows (hstep : StepResult psize L s op s') (h : Rep s.pool psize L) :
    ChainGrows s s' := by
  intro blocks hblocks
  obtain rfl := h.chain.unique hblocks
  cases hstep with
  | alloc _ halign hresult =>
      obtain ⟨-, ⟨-, hu⟩ | ⟨-, L', hrep, hgrown⟩⟩ := hresult
      · exact ⟨_, (hu.rep h).chain, List.prefix_refl _⟩
      · exact ⟨_, hrep.chain, hgrown.bases⟩
  | pfree hfreed hrep hresult => exact ⟨_, hrep.chain, List.prefix_refl _⟩
  | @cleanupAdd size handler c t hresult =>
      rcases hresult.result with ⟨-, -, new, L', hrep, hgrown, -⟩ |
        ⟨-, -, data, L', -, -, hrep, hgrown⟩
      · exact ⟨_, (hrep.setHandler c handler).chain, hgrown.bases⟩
      · exact ⟨_, (hrep.setHandler c handler).chain, hgrown.bases⟩
  | reset hrep hreset => exact ⟨_, L.rewound_bases ▸ hrep.chain, List.prefix_refl _⟩

/-- A call raises a counter at most as often as its requests look at the block in vain. -/
def CountsMisses (malloc : Allocator) (fuel : Nat) (s : Session) (op : Op) (s' : Session) : Prop :=
  op ≠ .reset → ∀ blocks blocks', Listed (fun b => (s.pool.data b).next) null s.pool.base blocks →
    Listed (fun b => (s'.pool.data b).next) null s'.pool.base blocks' → ∀ b ∈ blocks',
      (s'.pool.data b).failed ≤ (if b ∈ blocks then (s.pool.data b).failed else 0) +
        (missedBy malloc fuel s.pool op).count b

theorem count_tallies {f : Nat → Nat} (hnodup : blocks.Nodup) (q : Nat) :
    (blocks.flatMap fun b => List.replicate (f b) b).count q = if q ∈ blocks then f q else 0 := by
  induction blocks with
  | nil => rfl
  | cons b blocks ih =>
      obtain ⟨hb, hnodup⟩ := List.nodup_cons.mp hnodup
      rw [List.flatMap_cons, List.count_append, ih hnodup, List.count_replicate]
      by_cases hq : b = q
      · subst hq
        simp [hb]
      · simp [hq, Ne.symm hq]

/-- The counters before a call, taken for misses, bound those after it. -/
theorem Counters.counts_misses (hc : Counters s.pool missed) (h : Sound psize s L)
    (hm : malloc.Lawful) (hdvd : ncAlignment ∣ psize) (hfuel : L.length + 2 < fuel)
    (hrun : Libnc.Pool.step malloc fuel s op = some s') : CountsMisses malloc fuel s op s' := by
  intro hop blocks blocks' hblocks hblocks' b hb
  obtain ⟨before, after, hlist, haged, -⟩ := hc
  have hnodup := h.rep.blocks_nodup
  rw [h.rep.chain.unique hblocks] at hnodup
  have htallies := fun q => count_tallies (f := fun b => (s.pool.data b).failed) hnodup q
  have hstart : Counters s.pool
      (blocks.flatMap fun b => List.replicate (s.pool.data b).failed b) := by
    refine ⟨before, after, hlist, haged, fun b hb => ?_⟩
    rw [htallies, if_pos (hblocks.unique hlist ▸ hb)]
  obtain ⟨before', after', hlist', -, hle⟩ := hstart.step h hm hdvd hfuel hrun
  have hbound := hle b (hblocks'.unique hlist' ▸ hb)
  rw [if_neg hop, List.count_append, htallies] at hbound
  rw [Nat.add_comm]
  exact hbound

/--
In every state that a run reaches the chain is finite and without repetition, no call
takes a block out of it, and with the large blocks of the records it is all that is held;
the counters fall along it, those of the blocks before the current one are 6, the others
at most 5 and the last one 0.  A call raises a counter only for requests that have looked
at the block in vain, and since the last reset there have been as many as the counter says.
-/
theorem ncPool_counters (hm : malloc.Lawful) (hdvd : ncAlignment ∣ psize)
    (hcreate : Created malloc psize t₀ t) {ops : List Op} (hfuel : 4 * ops.length + 4 ≤ fuel) :
    ∃ w before after records, run (watch malloc fuel) ⟨opened t, []⟩ ops = some w ∧
      run (step malloc fuel) (opened t) ops = some w.session ∧
      Along (step malloc fuel) (fun s op => ∀ s', step malloc fuel s op = some s' →
        ChainGrows s s' ∧ CountsMisses malloc fuel s op s') (opened t) ops ∧
      Listed (fun b => (w.session.pool.data b).next) null w.session.pool.base
        (before ++ w.session.pool.current :: after) ∧
      (before ++ w.session.pool.current :: after).Nodup ∧
      Listed (fun l => (w.session.pool.largeAt l).next) null w.session.pool.large records ∧
      (w.session.pool.system.held.map start).Perm
        ((before ++ w.session.pool.current :: after) ++ allocs w.session.pool records) ∧
      ((before ++ w.session.pool.current :: after).Pairwise fun a b =>
        (w.session.pool.data b).failed ≤ (w.session.pool.data a).failed) ∧
      (∀ b ∈ before, (w.session.pool.data b).failed = 6) ∧
      (∀ b ∈ w.session.pool.current :: after, (w.session.pool.data b).failed ≤ 5) ∧
      (∀ b, (w.session.pool.current :: after).getLast? = some b →
        (w.session.pool.data b).failed = 0) ∧
      ∀ b ∈ before ++ w.session.pool.current :: after,
        (w.session.pool.data b).failed ≤ w.missed.count b := by
  obtain ⟨L₀, hsound₀, hlen₀, -, hcurrent, hfailed⟩ := hcreate.sound hm
  have hinit : Counters t [] := by
    obtain ⟨b, ys, hL, hb⟩ := hsound₀.rep.exists_first
    have hys : ys = [] := by
      simp only [Layout.length, hL, List.length_cons] at hlen₀
      exact List.length_eq_zero_iff.mp (by omega)
    have hchain := hsound₀.rep.chain
    rw [Layout.bases, hL, hys, List.map_cons, hb] at hchain
    refine ⟨[], [], ?_, ⟨by simp, by simp, ?_, ?_⟩, ?_⟩ <;> rw [hcurrent]
    · exact hchain
    · simp [hfailed]
    · simp [hfailed]
    · simp [hfailed]
  obtain ⟨w, hrun, L, hs, hlen, before, after, hlist, haged, hcount⟩ := Along.run_total
    (fun (past : List Op) w => ∃ L, Sound psize w.session L ∧ L.length ≤ 4 * past.length + 1 ∧
      Counters w.session.pool w.missed) ops.length
    (by
      rintro past w op hpast ⟨L, hs, hlen, hc⟩ -
      have hfuel' : L.length + 2 < fuel := by omega
      obtain ⟨s', L', hrun, hs', hlen', -⟩ := step_spec hs hm hdvd hfuel' op
      refine ⟨_, by simp only [watch, hrun]; rfl, L', hs', ?_,
        hc.step hs hm hdvd hfuel' hrun⟩
      rw [List.length_append, List.length_singleton]
      omega)
    [] (by simp) ⟨L₀, hsound₀, by simp [hlen₀], hinit⟩
    (Along.of_forall fun _ _ _ => trivial :
      Along (watch malloc fuel) (fun _ _ => True) ⟨opened t, []⟩ ops)
  have hsession : (run (watch malloc fuel) ⟨opened t, []⟩ ops).map Watched.session =
      run (step malloc fuel) (opened t) ops := run_watch ⟨opened t, []⟩ ops
  rw [hrun] at hsession
  have hgrows := along_spec hm hdvd hcreate (fun s => ∃ missed, Counters s.pool missed)
    (fun s op => ∀ s', step malloc fuel s op = some s' →
      ChainGrows s s' ∧ CountsMisses malloc fuel s op s') ⟨[], hinit⟩
    (by
      rintro s L op s' hs hlen hrun hres ⟨missed, hc⟩
      refine ⟨fun s'' hrun' => ?_, _, hc.step hs hm hdvd hlen hrun⟩
      obtain rfl := Option.some.inj (hrun.symm.trans hrun')
      exact ⟨hres.chain_grows hs.rep, hc.counts_misses hs hm hdvd hlen hrun⟩) hfuel
  have hnodup := hs.rep.blocks_nodup
  have hheld := hs.rep.held_starts.1
  rw [hs.rep.chain.unique hlist] at hnodup hheld
  refine ⟨w, before, after, L.records, hrun, hsession.symm, hgrows, hlist, hnodup, hs.rep.records,
    hheld, ?_, haged.abandoned,
    haged.young, haged.last, hcount⟩
  refine List.pairwise_append.mpr ⟨?_, haged.sorted, fun a ha b hb => ?_⟩
  · apply List.pairwise_of_forall_mem_list
    intro a ha b hb
    rw [haged.abandoned a ha, haged.abandoned b hb]
  · rw [haged.abandoned a ha]
    exact (haged.young b hb).trans (by decide)

/-- Requests of a size that fits nowhere drive the first block out of the search. -/
theorem ncPool_counters_abandoned :
    ∃ w before after records, run (watch (bump [3]) 60) ⟨opened (fresh [3] 128), []⟩
        [.palloc 60, .palloc 60, .palloc 60, .pnalloc 60, .palloc 60, .palloc 60, .palloc 60,
          .palloc 60, .cleanupAdd 8 7, .palloc 60, .palloc 10] = some w ∧
      run (step (bump [3]) 60) (opened (fresh [3] 128))
        [.palloc 60, .palloc 60, .palloc 60, .pnalloc 60, .palloc 60, .palloc 60, .palloc 60,
          .palloc 60, .cleanupAdd 8 7, .palloc 60, .palloc 10] = some w.session ∧
      Along (step (bump [3]) 60) (fun s op => ∀ s', step (bump [3]) 60 s op = some s' →
        ChainGrows s s' ∧ CountsMisses (bump [3]) 60 s op s') (opened (fresh [3] 128))
        [.palloc 60, .palloc 60, .palloc 60, .pnalloc 60, .palloc 60, .palloc 60, .palloc 60,
          .palloc 60, .cleanupAdd 8 7, .palloc 60, .palloc 10] ∧
      Listed (fun b => (w.session.pool.data b).next) null w.session.pool.base
        (before ++ w.session.pool.current :: after) ∧
      (before ++ w.session.pool.current :: after).Nodup ∧
      Listed (fun l => (w.session.pool.largeAt l).next) null w.session.pool.large records ∧
      (w.session.pool.system.held.map start).Perm
        ((before ++ w.session.pool.current :: after) ++ allocs w.session.pool records) ∧
      ((before ++ w.session.pool.current :: after).Pairwise fun a b =>
        (w.session.pool.data b).failed ≤ (w.session.pool.data a).failed) ∧
      (∀ b ∈ before, (w.session.pool.data b).failed = 6) ∧
      (∀ b ∈ w.session.pool.current :: after, (w.session.pool.data b).failed ≤ 5) ∧
      (∀ b, (w.session.pool.current :: after).getLast? = some b →
        (w.session.pool.data b).failed = 0) ∧
      ∀ b ∈ before ++ w.session.pool.current :: after,
        (w.session.pool.data b).failed ≤ w.missed.count b :=
  ncPool_counters (bump_lawful [3]) (by decide)
    (show Created (bump [3]) 128 blank (fresh [3] 128) from ⟨rfl, by decide, rfl, by decide⟩)
    (by decide)

end Libnc.Pool
