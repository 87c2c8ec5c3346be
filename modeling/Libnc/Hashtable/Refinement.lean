import Libnc.Hashtable.Session

/-!
# The hash table as a finite map

The meaning of a table is a map from keys to values that cannot tell equal keys
apart.  Every call acts on the map as its documentation says, so the map after
a run is read off the record of the calls.
-/

namespace Libnc.Hashtable

open Libnc.Foundation

/-- The value of the newest call about `key`, unless it removed the key. -/
def lastValue (callbacks : Callbacks) (key : Ptr) : List Event → Option Ptr
  | [] => none
  | .set k value status :: older =>
      if status = 0 ∧ callbacks.cmpKeys k key then some value else lastValue callbacks key older
  | .del k :: older => if callbacks.cmpKeys k key then none else lastValue callbacks key older
  | .clear :: _ => none
  | .iterSet k value :: older =>
      if callbacks.cmpKeys k key then some value else lastValue callbacks key older

/-- Some pair has a key equal to `key` and this value. -/
def Holds (t : NcHashtable) (key value : Ptr) : Prop :=
  ∃ a k, t.view a = some (k, value) ∧ t.callbacks.cmpKeys k key = true

/-- The table stores exactly the map. -/
structure Represents (t : NcHashtable) (map : Ptr → Option Ptr) : Prop where
  holds : ∀ key value, map key = some value → Holds t key value
  absent : ∀ key, map key = none → Absent t key

variable {callbacks : Callbacks} {t t' : NcHashtable} {map : Ptr → Option Ptr}

namespace Represents

theorem empty (hview : t.view = fun _ => none) : Represents t fun _ => none where
  holds := by simp
  absent := by simp [Absent, hview]

theorem congr (h : Represents t map) (hview : t'.view = t.view)
    (hcallbacks : t'.callbacks = t.callbacks) : Represents t' map where
  holds key value hmap := by
    obtain ⟨a, k, hv, hcmp⟩ := h.holds key value hmap
    exact ⟨a, k, by rwa [hview], by rwa [hcallbacks]⟩
  absent key hmap a k v hv := by
    rw [hcallbacks]
    exact h.absent key hmap a k v (by rwa [hview] at hv)

theorem assign (hk : LawfulKeys t.callbacks) (h : Represents t map) {a : Nat}
    {k key value : Ptr} (hcmp : t.callbacks.cmpKeys k key = true)
    (hold : ∀ k' v, t.view a = some (k', v) → k' = k)
    (hview : t'.view = Function.update t.view a (some (k, value)))
    (hcallbacks : t'.callbacks = t.callbacks) :
    Represents t' fun j => if t.callbacks.cmpKeys key j then some value else map j := by
  have hother : ∀ b k' v, t.view b = some (k', v) → ∀ j, t.callbacks.cmpKeys k' j = true →
      ¬ t.callbacks.cmpKeys key j = true → b ≠ a := by
    rintro b k' v hv j hj hkey rfl
    obtain rfl := hold k' v hv
    exact hkey (hk.trans (hk.symm hcmp) hj)
  constructor
  · intro j v hmap
    split at hmap
    · rename_i hkey
      obtain rfl := Option.some.inj hmap
      exact ⟨a, k, by simp [hview], by rw [hcallbacks]; exact hk.trans hcmp hkey⟩
    · rename_i hkey
      obtain ⟨b, k', hv, hj⟩ := h.holds j v hmap
      refine ⟨b, k', ?_, by rwa [hcallbacks]⟩
      rw [hview, Function.update_of_ne (hother b k' v hv j hj hkey)]
      exact hv
  · intro j hmap b k' v hv
    split at hmap
    · simp at hmap
    · rename_i hkey
      rw [hview] at hv
      rw [hcallbacks]
      by_cases hb : b = a
      · subst hb
        simp only [Function.update_self, Option.some.injEq, Prod.mk.injEq] at hv
        obtain ⟨rfl, rfl⟩ := hv
        by_contra hj
        exact hkey (hk.trans (hk.symm hcmp) (by simpa using hj))
      · rw [Function.update_of_ne hb] at hv
        exact h.absent j hmap b k' v hv

theorem erase (hk : LawfulKeys t.callbacks) (h : Represents t map) {a : Nat} {key : Ptr}
    (hunique : ∀ b k' v, t.view b = some (k', v) → t.callbacks.cmpKeys k' key = true → b = a)
    (hequal : ∀ k' v, t.view a = some (k', v) → t.callbacks.cmpKeys k' key = true)
    (hview : t'.view = Function.update t.view a none) (hcallbacks : t'.callbacks = t.callbacks) :
    Represents t' fun j => if t.callbacks.cmpKeys key j then none else map j := by
  constructor
  · intro j v hmap
    split at hmap
    · simp at hmap
    · rename_i hkey
      obtain ⟨b, k', hv, hj⟩ := h.holds j v hmap
      have hb : b ≠ a := by
        rintro rfl
        exact hkey (hk.trans (hk.symm (hequal k' v hv)) hj)
      exact ⟨b, k', by rw [hview, Function.update_of_ne hb]; exact hv, by rwa [hcallbacks]⟩
  · intro j hmap b k' v hv
    have hb : b ≠ a := by
      rintro rfl
      simp [hview] at hv
    rw [hview, Function.update_of_ne hb] at hv
    rw [hcallbacks]
    split at hmap
    · rename_i hkey
      by_contra hj
      rw [Bool.not_eq_false] at hj
      exact hb (hunique b k' v hv (hk.trans hj (hk.symm hkey)))
    · exact h.absent j hmap b k' v hv

theorem erase_absent (hk : LawfulKeys t.callbacks) (h : Represents t map) {key : Ptr}
    (habs : Absent t key) :
    Represents t fun j => if t.callbacks.cmpKeys key j then none else map j where
  holds j v hmap := by
    split at hmap
    · simp at hmap
    · exact h.holds j v hmap
  absent j hmap := by
    split at hmap
    · rename_i hkey
      intro a k v hv
      by_contra hj
      rw [Bool.not_eq_false] at hj
      have := habs a k v hv
      rw [hk.trans hj (hk.symm hkey)] at this
      exact Bool.noConfusion this
    · exact h.absent j hmap

end Represents

theorem Represents.del {n : Nat} {S : Layout} (h : Represents t map)
    (hrep : Rep callbacks t n S) (hcallbacks : t'.callbacks = t.callbacks)
    (hk : LawfulKeys callbacks) {key : Ptr} {status : Int} (hout : DelOutcome t key status t') :
    Represents t' fun j => if callbacks.cmpKeys key j then none else map j := by
  obtain rfl := hrep.callbacks_eq
  cases hout with
  | removed a k v _ held equal view_eq _ =>
      refine h.erase hk (fun b k' v' hv hcmp => ?_) (by simp_all) view_eq hcallbacks
      exact hrep.view_unique hk hv held hcmp equal
  | missing absent => exact h.erase_absent hk absent

/-! ## Queries -/

variable {n fuel : Nat} {S : Layout}

theorem lookup_represents (h : Rep callbacks t n S) (hk : LawfulKeys callbacks)
    (hmap : Represents t map) (hfuel : S.order.length < fuel) (key : Ptr) :
    (∃ a k v, lookup fuel t key = some (some a) ∧ t.view a = some (k, v) ∧
      callbacks.cmpKeys k key = true ∧ map key = some v) ∨
    (lookup fuel t key = some none ∧ Absent t key ∧ map key = none) := by
  rcases h.lookup_spec hk hfuel key with ⟨a, k, v, hrun, hv, hcmp⟩ | ⟨hrun, habs⟩
  · refine .inl ⟨a, k, v, hrun, hv, hcmp, ?_⟩
    cases hkey : map key with
    | none =>
        have := hmap.absent key hkey a k v hv
        rw [h.callbacks_eq, hcmp] at this
        exact Bool.noConfusion this
    | some w =>
        obtain ⟨b, k', hw, hcmp'⟩ := hmap.holds key w hkey
        rw [h.callbacks_eq] at hcmp'
        obtain rfl := h.view_unique hk hv hw hcmp hcmp'
        simp_all
  · refine .inr ⟨hrun, habs, ?_⟩
    cases hkey : map key with
    | none => rfl
    | some w =>
        obtain ⟨b, k', hw, hcmp⟩ := hmap.holds key w hkey
        rw [habs b k' w hw] at hcmp
        exact Bool.noConfusion hcmp

theorem ncHashtableGet_spec (h : Rep callbacks t n S) (hk : LawfulKeys callbacks)
    (hmap : Represents t map) (hfuel : S.order.length < fuel) (key : Ptr) :
    ncHashtableGet fuel t key = some ((map key).getD null) := by
  rcases lookup_represents h hk hmap hfuel key with
    ⟨a, k, v, hrun, hv, -, hkey⟩ | ⟨hrun, -, hkey⟩
  · obtain ⟨ha, -, rfl⟩ := h.view_eq_some hv
    simp [ncHashtableGet, hrun, hkey, getPair_of_live (h.live a ha)]
  · simp [ncHashtableGet, hrun, hkey]

theorem ncHashtableIterAt_spec (h : Rep callbacks t n S) (hk : LawfulKeys callbacks)
    (hmap : Represents t map) (hfuel : S.order.length < fuel) (key : Ptr) :
    ∃ iter, ncHashtableIterAt fuel t key = some iter ∧ iter.isSome = (map key).isSome := by
  rcases lookup_represents h hk hmap hfuel key with
    ⟨a, k, v, hrun, -, -, hkey⟩ | ⟨hrun, -, hkey⟩
  · exact ⟨some (.pair a), by simp [ncHashtableIterAt, hrun], by simp [hkey]⟩
  · exact ⟨none, by simp [ncHashtableIterAt, hrun], by simp [hkey]⟩

theorem DelOutcome.view_iff (hk : LawfulKeys t.callbacks) {key other : Ptr} {status : Int}
    (h : DelOutcome t key status t') (hne : t.callbacks.cmpKeys key other = false) (a : Nat)
    (k v : Ptr) (hother : t.callbacks.cmpKeys k other = true) :
    t'.view a = some (k, v) ↔ t.view a = some (k, v) := by
  cases h with
  | missing _ => rfl
  | removed b j w _ held equal view_eq _ =>
      by_cases hb : a = b
      · subst hb
        have hjk : j ≠ k := by
          rintro rfl
          rw [hk.trans (hk.symm equal) hother] at hne
          exact Bool.noConfusion hne
        simp [view_eq, held, hjk]
      · rw [view_eq, Function.update_of_ne hb]

theorem DelOutcome.status_eq (hmap : Represents t map) {key : Ptr} {status : Int}
    (h : DelOutcome t key status t') : status = if (map key).isSome then 0 else -1 := by
  cases h with
  | removed a k v _ held equal _ _ =>
      cases hkey : map key with
      | none =>
          rw [hmap.absent key hkey a k v held] at equal
          exact Bool.noConfusion equal
      | some w => simp
  | missing absent =>
      cases hkey : map key with
      | none => simp
      | some w =>
          obtain ⟨b, k, hv, hcmp⟩ := hmap.holds key w hkey
          rw [absent b k w hv] at hcmp
          exact Bool.noConfusion hcmp

theorem exists_keys (h : Rep callbacks t n S) (hmap : Represents t map) :
    ∃ keys : List Ptr, keys.Pairwise (fun j k => callbacks.cmpKeys j k = false) ∧
      (∀ key, (map key).isSome ↔ ∃ k ∈ keys, callbacks.cmpKeys k key = true) ∧
      t.size = keys.length := by
  refine ⟨S.order.map fun a => (t.pair a).key, ?_, fun key => ?_, by simp [h.size_eq]⟩
  · refine List.pairwise_map.mpr (h.order_nodup.imp_of_mem fun {a b} ha hb hne => ?_)
    by_contra hcmp
    exact hne (h.distinct a ha b hb (by simpa using hcmp))
  · cases hkey : map key with
    | none =>
        have := h.absent_iff.mp (hmap.absent key hkey)
        simpa using this
    | some v =>
        obtain ⟨a, k, hv, hcmp⟩ := hmap.holds key v hkey
        obtain ⟨ha, rfl, -⟩ := h.view_eq_some hv
        rw [h.callbacks_eq] at hcmp
        simpa using ⟨a, ha, hcmp⟩

/-! ## Runs -/

variable {s s' : Session} {bound : Nat} {op : Op}

/-- One step acts on the map as the record says. -/
theorem Represents.step (hk : LawfulKeys callbacks) (hs : Sound callbacks bound s.table)
    (hs' : Sound callbacks (bound + 1) s'.table)
    (h : Represents s.table fun key => lastValue callbacks key s.events)
    (hout : StepOutcome s op s') :
    Represents s'.table fun key => lastValue callbacks key s'.events := by
  have hcb' := hs'.callbacks_eq.trans hs.callbacks_eq.symm
  obtain ⟨n, S, hrep, -⟩ := hs
  obtain rfl := hrep.callbacks_eq
  cases hout with
  | set outcome =>
      cases outcome with
      | replaced a k v _ held equal view_eq _ =>
          simpa [lastValue] using h.assign hk equal (by simp_all) view_eq hcb'
      | refused _ _ _ view_eq _ => simpa [lastValue] using h.congr view_eq hcb'
      | inserted a _ _ _ fresh view_eq _ =>
          simpa [lastValue] using h.assign hk (hk.refl _) (by simp_all) view_eq hcb'
  | del outcome => exact h.del hrep hcb' hk outcome
  | clear _ view_eq _ => exact Represents.empty view_eq
  | @iterSet a k v value t' held view_eq _ =>
      exact h.assign hk (hk.refl k) (by simp_all) view_eq hcb'

/--
After every run the answers are those of the map that the record describes: the
value of the last call about the key, its presence, the status of a deletion
and the number of keys.
-/
theorem ncHashtable_refines_map (hk : LawfulKeys callbacks) {t₀ : NcHashtable}
    (hinit : ncHashtableInit true callbacks = some t₀) {ops : List Op}
    (hfuel : ops.length < fuel)
    (hok : Along (step fuel) (fun s op => Callable s op ∧ FewPairs s.table) ⟨t₀, []⟩ ops) :
    ∃ s, run (step fuel) ⟨t₀, []⟩ ops = some s ∧
      (∀ key, ncHashtableGet fuel s.table key =
        some ((lastValue callbacks key s.events).getD null)) ∧
      (∀ key, ∃ iter, ncHashtableIterAt fuel s.table key = some iter ∧
        iter.isSome = (lastValue callbacks key s.events).isSome) ∧
      (∀ key, ∃ t', ncHashtableDel fuel s.table key =
          some (if (lastValue callbacks key s.events).isSome then 0 else -1, t') ∧
        ∀ other, callbacks.cmpKeys key other = false →
          ncHashtableGet fuel t' other = ncHashtableGet fuel s.table other ∧
          ncHashtableIterAt fuel t' other = ncHashtableIterAt fuel s.table other) ∧
      (∃ keys : List Ptr, keys.Pairwise (fun j k => callbacks.cmpKeys j k = false) ∧
        (∀ key, (lastValue callbacks key s.events).isSome ↔
          ∃ k ∈ keys, callbacks.cmpKeys k key = true) ∧
        s.table.size = keys.length) ∧
      ∀ reply key value, Callable s (.set reply key value) → reply.pair.isSome →
        FewPairs s.table → ∃ t', ncHashtableSet reply fuel s.table key value = some (0, t') := by
  obtain ⟨hsound, hview, -⟩ := init_sound hinit
  obtain ⟨s, hrun, ⟨n, S, hrep, hlen⟩, hmap⟩ := run_spec hk
    (fun _ s => Represents s.table fun key => lastValue callbacks key s.events)
    (fun _ _ _ _ _ hs hs' h hout => h.step hk hs hs' hout) hsound (Represents.empty hview)
    (by omega) hok
  have hlt : S.order.length < fuel := by omega
  refine ⟨s, hrun, ncHashtableGet_spec hrep hk hmap hlt, ncHashtableIterAt_spec hrep hk hmap hlt,
    fun key => ?_, exists_keys hrep hmap, fun reply key value hcall hpair hfew => ?_⟩
  · obtain ⟨status, t', S', hdel, hrep', hout, hlen', -⟩ :=
      ncHashtableDel_spec hrep hk hlt.le key
    refine ⟨t', by rw [hdel, hout.status_eq hmap], fun other hne => ?_⟩
    obtain rfl := hrep.callbacks_eq
    obtain ⟨hlookup, hget⟩ := lookup_congr hrep hrep' hk hlt (hlen'.trans_lt hlt)
      (hout.view_iff hk hne)
    exact ⟨hget, by simp only [ncHashtableIterAt, hlookup]⟩
  · obtain ⟨status, t', m, S', hset, -, hout, -⟩ := ncHashtableSet_spec hrep hk hlt
      (hrep.canGrow_of_few hfew) hcall.1 hcall.2 key value
    refine ⟨t', ?_⟩
    cases hout with
    | replaced _ _ _ _ _ _ _ _ => exact hset
    | refused _ _ null _ _ => simp [null] at hpair
    | inserted _ _ _ _ _ _ _ => exact hset

/-- Two keys in one bucket, an overwrite through an iterator and a deletion. -/
theorem ncHashtable_refines_map_collision :
    ∃ s, run (step 5) ⟨addressTable, []⟩
        [.set ⟨true, some 1⟩ 7 70, .set ⟨true, some 2⟩ 12 120, .iterSet (.pair 1) 71,
          .del 12] = some s ∧
      ∀ key, ncHashtableGet 5 s.table key =
        some ((lastValue addressKeys key s.events).getD null) := by
  have hcall : Along (step 5) Callable ⟨addressTable, []⟩
      [.set ⟨true, some 1⟩ 7 70, .set ⟨true, some 2⟩ 12 120, .iterSet (.pair 1) 71, .del 12] := by
    decide
  obtain ⟨s, hrun, hget, -⟩ := ncHashtable_refines_map addressKeys_lawful addressTable_init
    (by decide) (along_few addressKeys_lawful (init_sound addressTable_init).1 (by decide)
      (by decide) hcall)
  exact ⟨s, hrun, hget⟩

end Libnc.Hashtable
