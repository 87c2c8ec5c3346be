import Libnc.Hashtable.Calls

/-!
# The end of the prime table

Every growth takes the next prime, and nothing takes it back.  The last prime is
`1610612741`; a table that holds as many pairs cannot grow any more, but
`hashtable_do_rehash` does not check for it.
-/

namespace Libnc.Hashtable

open Libnc.Foundation

variable {callbacks : Callbacks} {t t' : NcHashtable} {s : Session} {n fuel : Nat} {S : Layout}

/-! ## Where the table of primes is read -/

/-- The call reads `primes[hashtable->num_buckets]` when the table is as given. -/
inductive PrimesRead (fuel : Nat) (t : NcHashtable) : Op → NcHashtable → Prop where
  | load {reply : SetReply} {key value : Ptr} : PrimesRead fuel t (.set reply key value) t
  | newSize {reply : SetReply} {key value : Ptr} {n : Nat} (size : numBuckets t = some n)
      (full : n ≤ t.size) :
      PrimesRead fuel t (.set reply key value)
        { t with buckets := none, numBuckets := t.numBuckets + 1 }
  | newBuckets {reply : SetReply} {key value : Ptr} {n m : Nat} (size : numBuckets t = some n)
      (full : n ≤ t.size) (next : primes[t.numBuckets + 1]? = some m)
      (granted : reply.buckets = true) :
      PrimesRead fuel t (.set reply key value) (t.rebucketed m)
  | grown {reply : SetReply} {key value : Ptr} {n : Nat} {u : NcHashtable}
      (size : numBuckets t = some n) (full : n ≤ t.size)
      (rehashed : hashtableDoRehash reply.buckets fuel t = some (0, u)) :
      PrimesRead fuel t (.set reply key value) u
  | del {key : Ptr} : PrimesRead fuel t (.del key) t
  | clear {u : NcHashtable} (cleared : hashtableDoClear fuel t = some u) :
      PrimesRead fuel t .clear u

/-- The call takes a hash modulo the given number, and uses it as an index into the buckets. -/
inductive HashReduced (fuel : Nat) (t : NcHashtable) : Op → NcHashtable → Nat → Prop where
  | room {reply : SetReply} {key value : Ptr} {n : Nat} (size : numBuckets t = some n)
      (room : t.size < n) : HashReduced fuel t (.set reply key value) t n
  | moved {reply : SetReply} {key value : Ptr} {n m : Nat} (size : numBuckets t = some n)
      (full : n ≤ t.size) (next : primes[t.numBuckets + 1]? = some m)
      (granted : reply.buckets = true) :
      HashReduced fuel t (.set reply key value) (t.rebucketed m) m
  | grown {reply : SetReply} {key value : Ptr} {n m : Nat} {u : NcHashtable}
      (size : numBuckets t = some n) (full : n ≤ t.size)
      (rehashed : hashtableDoRehash reply.buckets fuel t = some (0, u))
      (newSize : numBuckets u = some m) : HashReduced fuel t (.set reply key value) u m
  | del {key : Ptr} {n : Nat} (size : numBuckets t = some n) : HashReduced fuel t (.del key) t n

/-- The prime that is read exists, and hashes are reduced modulo the number of the buckets. -/
def WithinPrimes (fuel : Nat) (s : Session) (op : Op) : Prop :=
  (∀ u, PrimesRead fuel s.table op u → u.numBuckets < primes.length) ∧
    ∀ u n, HashReduced fuel s.table op u n → 0 < n ∧ u.buckets.map List.length = some n

/-- `nc_hashtable_set` finds fewer pairs than the last prime. -/
def SetsBelow (s : Session) : Op → Prop
  | .set _ _ _ => s.table.size < 1610612741
  | _ => True

theorem Skeleton.length_buckets (h : Skeleton t n S) : t.buckets.map List.length = some n := by
  simp [h.buckets]

theorem lt_length_of_prime {i : Nat} (h : primes[i]? = some n) : i < primes.length :=
  (List.getElem?_eq_some_iff.mp h).1

theorem prime_le_last {i : Nat} (h : primes[i]? = some n) : n ≤ 1610612741 := by
  have hall : ∀ p ∈ primes, p ≤ 1610612741 := by decide
  exact hall n (List.mem_of_getElem? h)

theorem canGrow_of_below (hbelow : t.size < 1610612741) : CanGrow t :=
  fun _ hn hfull => exists_next_prime hn (hfull.trans_lt hbelow)

theorem rehashed_granted {reply : SetReply} {u : NcHashtable}
    (h : hashtableDoRehash reply.buckets fuel t = some (0, u)) : reply.buckets = true := by
  by_contra hrefused
  rw [Bool.not_eq_true] at hrefused
  rw [hrefused, hashtableDoRehash] at h
  obtain ⟨m, -, h⟩ := Option.bind_eq_some_iff.mp h
  simp at h

/-- Growing twice from the last prime is not possible, from the others it is. -/
theorem Skeleton.withinPrimes_set (h : Skeleton s.table n S) (hfuel : S.order.length < fuel)
    {reply : SetReply} {key value : Ptr} (hbelow : s.table.size < 1610612741) :
    WithinPrimes fuel s (.set reply key value) := by
  have hgrown : ∀ {n' : Nat} {u : NcHashtable}, numBuckets s.table = some n' →
      n' ≤ s.table.size → hashtableDoRehash reply.buckets fuel s.table = some (0, u) →
      ∃ m T, Skeleton u m T := fun hsize hfull hrehashed => by
    obtain ⟨m, hm⟩ := canGrow_of_below hbelow _ hsize hfull
    obtain ⟨t', T, hrun, ht', -⟩ := h.rehash hm hfuel
    rw [rehashed_granted hrehashed, hrun] at hrehashed
    obtain rfl := (Prod.mk.inj (Option.some.inj hrehashed)).2
    exact ⟨m, T, ht'⟩
  constructor
  · intro u hread
    cases hread with
    | load => exact lt_length_of_prime h.capacity
    | newSize hsize hfull =>
        obtain ⟨m, hm⟩ := canGrow_of_below hbelow _ hsize hfull
        exact lt_length_of_prime hm
    | newBuckets hsize hfull hnext hgranted => exact lt_length_of_prime hnext
    | grown hsize hfull hrehashed =>
        obtain ⟨m, T, hu⟩ := hgrown hsize hfull hrehashed
        exact lt_length_of_prime hu.capacity
  · intro u m hreduced
    cases hreduced with
    | room hsize hroom =>
        obtain rfl := Option.some.inj (h.numBuckets_eq.symm.trans hsize)
        exact ⟨h.pos, h.length_buckets⟩
    | moved hsize hfull hnext hgranted =>
        exact ⟨primes_pos hnext, by simp [NcHashtable.rebucketed]⟩
    | grown hsize hfull hrehashed hnew =>
        obtain ⟨m', T, hu⟩ := hgrown hsize hfull hrehashed
        obtain rfl := Option.some.inj (hu.numBuckets_eq.symm.trans hnew)
        exact ⟨hu.pos, hu.length_buckets⟩

/-- One call stays inside the table of primes exactly if it does not grow at the last one. -/
theorem Skeleton.withinPrimes_iff (h : Skeleton s.table n S) (hfuel : S.order.length < fuel)
    (op : Op) : WithinPrimes fuel s op ↔ SetsBelow s op := by
  cases op with
  | set reply key value =>
      refine ⟨fun hwithin => ?_, h.withinPrimes_set hfuel⟩
      by_contra hbelow
      have hlast : 1610612741 ≤ s.table.size := Nat.le_of_not_lt hbelow
      have hfull : n ≤ s.table.size := (prime_le_last h.capacity).trans hlast
      have hnext : s.table.numBuckets + 1 < primes.length :=
        hwithin.1 _ (.newSize h.numBuckets_eq hfull)
      have hm := List.getElem?_eq_getElem hnext
      have hlt := primes_lt_succ h.capacity hm
      have hle := prime_le_last hm
      have hsize := h.size_le
      omega
  | del key =>
      refine iff_of_true ⟨fun u hread => ?_, fun u m hreduced => ?_⟩ trivial
      · cases hread
        exact lt_length_of_prime h.capacity
      · cases hreduced with
        | del hsize =>
            obtain rfl := Option.some.inj (h.numBuckets_eq.symm.trans hsize)
            exact ⟨h.pos, h.length_buckets⟩
  | clear =>
      refine iff_of_true ⟨fun u hread => ?_, fun u m hreduced => ?_⟩ trivial
      · cases hread with
        | clear hcleared =>
            rw [h.doClear hfuel] at hcleared
            obtain rfl := Option.some.inj hcleared
            exact lt_length_of_prime h.capacity
      · cases hreduced
  | iterSet iter value =>
      refine iff_of_true ⟨fun u hread => ?_, fun u m hreduced => ?_⟩ trivial
      · cases hread
      · cases hreduced

/-! ## Whole runs -/

theorem init_skeleton (h : ncHashtableInit true callbacks = some t) : Skeleton t 5 [] := by
  obtain ⟨t', hrun, hrep, -⟩ := ncHashtableInit_spec callbacks
  obtain rfl := Option.some.inj (hrun.symm.trans h)
  exact hrep.skeleton

theorem Skeleton.step_below (h : Skeleton s.table n S) (hfuel : S.order.length < fuel) {op : Op}
    (hcall : Callable s op) (hbelow : SetsBelow s op) :
    ∃ s' m S', Libnc.Hashtable.step fuel s op = some s' ∧ Skeleton s'.table m S' ∧
      S'.order.length ≤ S.order.length + 1 := by
  obtain ⟨e, t', m, S', hrun, -, -, -, hresult⟩ := h.step hfuel hcall (by
    rintro reply key value rfl
    exact canGrow_of_below hbelow)
  exact ⟨_, m, S', hrun, hresult⟩

/-- After the calls `past` the table is in order, with no more pairs than calls. -/
def AtMost (past : List Op) (s : Session) : Prop :=
  ∃ n S, Skeleton s.table n S ∧ S.order.length ≤ past.length

theorem AtMost.step {past : List Op} {op : Op} (h : AtMost past s) (hfuel : past.length < fuel)
    (hcall : Callable s op) (hbelow : SetsBelow s op) :
    ∃ s', Libnc.Hashtable.step fuel s op = some s' ∧ AtMost (past ++ [op]) s' := by
  obtain ⟨n, S, hs, hlen⟩ := h
  obtain ⟨s', m, S', hstep, hs', hlen'⟩ := hs.step_below (hlen.trans_lt hfuel) hcall hbelow
  refine ⟨s', hstep, m, S', hs', ?_⟩
  rw [List.length_append, List.length_singleton]
  exact hlen'.trans (Nat.add_le_add_right hlen 1)

theorem AtMost.withinPrimes_iff {past : List Op} (h : AtMost past s) (hfuel : past.length < fuel)
    (op : Op) : WithinPrimes fuel s op ↔ SetsBelow s op := by
  obtain ⟨n, S, hs, hlen⟩ := h
  exact hs.withinPrimes_iff (hlen.trans_lt hfuel) op

/--
In every run from `nc_hashtable_init` with any keys, all reads of the table of primes
are inside of it if and only if no `nc_hashtable_set` finds `1610612741` pairs.
-/
theorem ncHashtable_within_primes_iff {t₀ : NcHashtable}
    (hinit : ncHashtableInit true callbacks = some t₀) {ops : List Op}
    (hfuel : ops.length < fuel) (hok : Along (step fuel) Callable ⟨t₀, []⟩ ops) :
    (Along (step fuel) (WithinPrimes fuel) ⟨t₀, []⟩ ops ∧
        ∃ s, run (step fuel) ⟨t₀, []⟩ ops = some s) ↔
      Along (step fuel) SetsBelow ⟨t₀, []⟩ ops := by
  have hstart : AtMost [] ⟨t₀, []⟩ := ⟨5, [], init_skeleton hinit, Nat.le_refl _⟩
  have hnext : ∀ (past : List Op) (s : Session) (op : Op), past.length < ops.length →
      AtMost past s → Callable s op → SetsBelow s op →
      ∃ s', step fuel s op = some s' ∧ AtMost (past ++ [op]) s' :=
    fun past s op hpast h hcall hbelow => h.step (hpast.trans hfuel) hcall hbelow
  have hsame : Along (step fuel) (WithinPrimes fuel) ⟨t₀, []⟩ ops ↔
      Along (step fuel) SetsBelow ⟨t₀, []⟩ ops :=
    Along.iff_of_invariant_past AtMost ops.length
      (fun past s op hpast h => h.withinPrimes_iff (hpast.trans hfuel) op) hnext [] (by simp)
      hstart hok
  constructor
  · rintro ⟨hwithin, -⟩
    exact hsame.mp hwithin
  · intro hbelow
    obtain ⟨s, hrun, -⟩ := Along.run_total AtMost ops.length
      (fun past s op hpast h hop => hnext past s op hpast h hop.1 hop.2) [] (by simp) hstart
      (hok.and hbelow)
    exact ⟨hsame.mpr hbelow, s, hrun⟩

/-- Six keys in a fresh table, of which the last one makes it grow. -/
theorem ncHashtable_within_primes_iff_growth :
    (Along (step 8) (WithinPrimes 8) ⟨addressTable, []⟩
          [.set ⟨true, some 1⟩ 7 70, .set ⟨true, some 2⟩ 12 120, .set ⟨true, some 3⟩ 1 10,
            .set ⟨true, some 4⟩ 3 30, .set ⟨true, some 5⟩ 4 40, .set ⟨true, some 6⟩ 20 200,
            .clear] ∧
        ∃ s, run (step 8) ⟨addressTable, []⟩
          [.set ⟨true, some 1⟩ 7 70, .set ⟨true, some 2⟩ 12 120, .set ⟨true, some 3⟩ 1 10,
            .set ⟨true, some 4⟩ 3 30, .set ⟨true, some 5⟩ 4 40, .set ⟨true, some 6⟩ 20 200,
            .clear] = some s) ↔
      Along (step 8) SetsBelow ⟨addressTable, []⟩
        [.set ⟨true, some 1⟩ 7 70, .set ⟨true, some 2⟩ 12 120, .set ⟨true, some 3⟩ 1 10,
          .set ⟨true, some 4⟩ 3 30, .set ⟨true, some 5⟩ 4 40, .set ⟨true, some 6⟩ 20 200,
          .clear] :=
  ncHashtable_within_primes_iff addressTable_init (by decide) (by decide)

/-! ## A run that leaves the table of primes -/

/-- `nc_hashtable_set` of `m` different keys. -/
def distinctSets (m : Nat) : List Op :=
  (List.range m).map fun a => .set ⟨true, some a⟩ a 0

theorem distinctSets_succ (m : Nat) :
    distinctSets (m + 1) = distinctSets m ++ [.set ⟨true, some m⟩ m 0] := by
  simp [distinctSets, List.range_succ]

/-- The keys are the addresses of their pairs, and those below `m` are allocated. -/
structure Filled (m : Nat) (t : NcHashtable) : Prop where
  sound : Sound addressKeys m t
  view_eq : ∀ a, t.view a = if a < m then some (a, 0) else none

theorem Filled.size_eq {m : Nat} (h : Filled m t) : t.size = m := by
  obtain ⟨n, S, hrep, -⟩ := h.sound
  have hperm : S.order.Perm (List.range m) := by
    apply (List.perm_ext_iff_of_nodup hrep.order_nodup List.nodup_range).mpr
    intro a
    have hmem := hrep.enumerates.mem_iff a
    rw [hmem, h.view_eq, List.mem_range]
    by_cases ha : a < m <;> simp [ha]
  rw [hrep.size_eq, hperm.length_eq, List.length_range]

theorem Filled.callable {m : Nat} (h : Filled m s.table) :
    Callable s (.set ⟨true, some m⟩ m 0) := by
  refine ⟨by simp [growthRefused], ?_⟩
  rintro a ⟨⟩
  have hview := h.view_eq m
  rw [if_neg (Nat.lt_irrefl m), NcHashtable.view] at hview
  split at hview
  · cases hview
  · rename_i hlive
    exact Bool.eq_false_iff.mpr hlive

theorem Filled.step {m : Nat} (h : Filled m s.table) (hfuel : m < fuel) (hm : m < 1610612741) :
    ∃ s', step fuel s (.set ⟨true, some m⟩ m 0) = some s' ∧ Filled (m + 1) s'.table := by
  obtain ⟨s', hstep, hout, hsound⟩ := step_spec addressKeys_lawful h.sound hfuel h.callable
    fun _ _ _ _ => canGrow_of_below (h.size_eq.trans_lt hm)
  refine ⟨s', hstep, hsound, fun a => ?_⟩
  cases hout with
  | set outcome =>
      cases outcome with
      | replaced b k v _ held equal =>
          -- a stored key is smaller than `m`
          rw [h.sound.callbacks_eq] at equal
          rw [h.view_eq] at held
          split at held
          · rename_i hb
            obtain ⟨rfl, -⟩ := Prod.mk.inj (Option.some.inj held)
            have hbm : b = m := by simpa [addressKeys] using equal
            omega
          · cases held
      | refused _ absent null => cases null
      | inserted b _ absent addr fresh view_eq =>
          obtain rfl := Option.some.inj addr
          rw [view_eq, Function.update_apply, h.view_eq]
          by_cases ha : a = m
          · simp [ha]
          · rw [if_neg ha]
            by_cases hlt : a < m
            · rw [if_pos hlt, if_pos (Nat.lt_succ_of_lt hlt)]
            · rw [if_neg hlt, if_neg (by omega)]

theorem filled_distinctSets {m : Nat} (hfuel : m ≤ fuel) (hm : m ≤ 1610612741) :
    Along (step fuel) Callable ⟨addressTable, []⟩ (distinctSets m) ∧
      ∃ s, run (step fuel) ⟨addressTable, []⟩ (distinctSets m) = some s ∧ Filled m s.table := by
  induction m with
  | zero =>
      obtain ⟨hsound, hview, -⟩ := init_sound addressTable_init
      exact ⟨trivial, _, rfl, hsound, fun a => by simp [hview]⟩
  | succ m ih =>
      obtain ⟨hcall, s, hrun, hfilled⟩ := ih (Nat.le_of_succ_le hfuel) (Nat.le_of_succ_le hm)
      obtain ⟨s', hstep, hfilled'⟩ := hfilled.step hfuel hm
      rw [distinctSets_succ]
      refine ⟨(along_append _ _ _ _).mpr ⟨hcall, fun u hu => ?_⟩, s', ?_, hfilled'⟩
      · obtain rfl := Option.some.inj (hrun.symm.trans hu)
        exact ⟨hfilled.callable, fun _ _ => trivial⟩
      · rw [run_append, hrun]
        simp [run, hstep]

/-- The call after as many keys as the last prime reads behind the table of primes. -/
theorem distinctSets_overrun {m : Nat} (hm : m = 1610612741) (hfuel : m + 1 < fuel) :
    Along (step fuel) Callable ⟨addressTable, []⟩ (distinctSets (m + 1)) ∧
      ¬ Along (step fuel) (WithinPrimes fuel) ⟨addressTable, []⟩ (distinctSets (m + 1)) := by
  obtain ⟨hcall, s, hrun, hfilled⟩ :=
    filled_distinctSets (show m ≤ fuel by omega) (show m ≤ 1610612741 from hm.le)
  rw [distinctSets_succ]
  refine ⟨(along_append _ _ _ _).mpr ⟨hcall, fun u hu => ?_⟩, fun hwithin => ?_⟩
  · obtain rfl := Option.some.inj (hrun.symm.trans hu)
    exact ⟨hfilled.callable, fun _ _ => trivial⟩
  · have hlast := (((along_append _ _ _ _).mp hwithin).2 s hrun).1
    obtain ⟨n, S, hrep, hlen⟩ := hfilled.sound
    have hbelow : s.table.size < 1610612741 :=
      (hrep.skeleton.withinPrimes_iff (show _ < fuel by omega) _).mp hlast
    rw [hfilled.size_eq] at hbelow
    omega

theorem distinctSets_leave_primes :
    Along (step 1610612743) Callable ⟨addressTable, []⟩ (distinctSets 1610612742) ∧
      ¬ Along (step 1610612743) (WithinPrimes 1610612743) ⟨addressTable, []⟩
        (distinctSets 1610612742) :=
  distinctSets_overrun rfl (show 1610612741 + 1 < 1610612743 by omega)

end Libnc.Hashtable
