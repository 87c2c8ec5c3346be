import Libnc.Hashtable.Calls

/-!
# Ownership of keys and values

With both free functions given, everything a successful call hands over is
either stored in a pair or has been freed, and never both.  The ledger of a
session is that conservation law; if no pointer is passed twice, it turns into
"freed exactly once".
-/

namespace Libnc.Hashtable

open Libnc.Foundation

/-- The key and the value that a call passes to the table. -/
def Op.passes : Op → List FreeCall
  | .set _ key value => [.key key, .value value]
  | .iterSet _ value => [.value value]
  | _ => []

/-- What the table has taken over in its successful calls. -/
def accepted : List Event → List FreeCall
  | [] => []
  | .set key value status :: older =>
      (if status = 0 then [.key key, .value value] else []) ++ accepted older
  | .iterSet _ value :: older => .value value :: accepted older
  | _ :: older => accepted older

/-- What it has left to the caller, in calls that returned an error. -/
def refused : List Event → List FreeCall
  | [] => []
  | .set key value status :: older =>
      (if status = 0 then [] else [.key key, .value value]) ++ refused older
  | _ :: older => refused older

/-- Some pair stores this key or this value. -/
def Stored (t : NcHashtable) (item : FreeCall) : Prop :=
  ∃ a k v, t.view a = some (k, v) ∧ (item = .key k ∨ item = .value v)

/-- Keys and values of the pairs at these addresses. -/
def storedItems (t : NcHashtable) (cells : List Nat) : List FreeCall :=
  cells.flatMap fun a => (t.view a).elim [] fun pair => [.value pair.2, .key pair.1]

variable {callbacks : Callbacks} {t t' : NcHashtable} {cells : List Nat} {a : Nat} {k v : Ptr}

/-! ## Enumerations -/

theorem Enumerates.perm {cells' : List Nat} (h : Enumerates cells t)
    (h' : Enumerates cells' t) : cells.Perm cells' :=
  (List.perm_ext_iff_of_nodup h.nodup h'.nodup).mpr fun a => by rw [h.mem_iff, h'.mem_iff]

theorem storedItems_perm {cells' : List Nat} (h : cells.Perm cells') :
    (storedItems t cells).Perm (storedItems t cells') :=
  h.flatMap_right _

theorem storedItems_congr (h : ∀ b ∈ cells, t'.view b = t.view b) :
    storedItems t' cells = storedItems t cells :=
  List.flatMap_congr fun b hb => by rw [h b hb]

theorem Enumerates.split (h : Enumerates cells t) (hv : t.view a = some (k, v)) :
    ∃ rest, a ∉ rest ∧ rest.Nodup ∧ (∀ b, b ∈ rest ↔ b ≠ a ∧ (t.view b).isSome) ∧
      (storedItems t cells).Perm ([.value v, .key k] ++ storedItems t rest) := by
  have ha : a ∈ cells := (h.mem_iff a).mpr (by simp [hv])
  refine ⟨cells.erase a, h.nodup.not_mem_erase, h.nodup.erase a, fun b => ?_, ?_⟩
  · rw [h.nodup.mem_erase_iff, h.mem_iff]
  · apply (storedItems_perm (List.perm_cons_erase ha)).trans
    simp [storedItems, hv]

theorem Enumerates.update {rest : List Nat} (hnot : a ∉ rest) (hnodup : rest.Nodup)
    (hmem : ∀ b, b ∈ rest ↔ b ≠ a ∧ (t.view b).isSome)
    (hview : t'.view = Function.update t.view a (some (k, v))) :
    Enumerates (a :: rest) t' ∧
      storedItems t' (a :: rest) = [.value v, .key k] ++ storedItems t rest := by
  have hother : ∀ b ∈ rest, t'.view b = t.view b := fun b hb => by
    have hba : b ≠ a := ((hmem b).mp hb).1
    rw [hview, Function.update_of_ne hba]
  refine ⟨⟨List.nodup_cons.mpr ⟨hnot, hnodup⟩, fun b => ?_⟩, ?_⟩
  · rw [List.mem_cons, hmem]
    by_cases hb : b = a <;> simp [hview, hb]
  · rw [← storedItems_congr hother]
    simp [storedItems, hview]

theorem releasedBy_perm (hkey : t.callbacks.freeKey = true)
    (hvalue : t.callbacks.freeValue = true) (h : Enumerates cells t) :
    (releasedBy t cells).Perm (storedItems t cells) := by
  refine (List.Perm.flatMap_right _ (List.reverse_perm cells)).trans (.of_eq ?_)
  apply List.flatMap_congr
  intro a ha
  have hview := (h.mem_iff a).mp ha
  unfold NcHashtable.view at hview ⊢
  split
  · simp [freeCalls, hkey, hvalue]
  · rename_i hlive
    simp [hlive] at hview

/-! ## Conservation -/

/-- What the table has freed or stores is `items`, each as often as it occurs there. -/
def Accounts (t : NcHashtable) (items : List FreeCall) : Prop :=
  ∃ cells, Enumerates cells t ∧ (t.freed ++ storedItems t cells).Perm items

variable {items : List FreeCall}

theorem Accounts.rewrite (h : Accounts t items) (hv : t.view a = some (k, v)) {value : Ptr}
    (hview : t'.view = Function.update t.view a (some (k, value))) {extra : List FreeCall}
    (hfreed : t'.freed = .value v :: extra ++ t.freed) :
    Accounts t' (extra ++ .value value :: items) := by
  obtain ⟨cells, hcells, hperm⟩ := h
  obtain ⟨rest, hnot, hnodup, hmem, hsplit⟩ := hcells.split hv
  obtain ⟨henum, hstored⟩ := Enumerates.update hnot hnodup hmem hview
  refine ⟨_, henum, List.perm_iff_count.mpr fun item => ?_⟩
  have hcount := List.perm_iff_count.mp hperm item
  rw [List.count_append, hsplit.count_eq item] at hcount
  simp only [hfreed, hstored, List.count_append, List.count_cons, List.count_nil] at hcount ⊢
  omega

theorem Accounts.add (h : Accounts t items) (hfresh : t.view a = none)
    (hview : t'.view = Function.update t.view a (some (k, v))) (hfreed : t'.freed = t.freed) :
    Accounts t' (.key k :: .value v :: items) := by
  obtain ⟨cells, hcells, hperm⟩ := h
  have hnot : a ∉ cells := by simp [hcells.mem_iff, hfresh]
  have hmem : ∀ b, b ∈ cells ↔ b ≠ a ∧ (t.view b).isSome := fun b => by
    rw [hcells.mem_iff]
    refine ⟨fun hb => ⟨?_, hb⟩, fun hb => hb.2⟩
    rintro rfl
    simp [hfresh] at hb
  obtain ⟨henum, hstored⟩ := Enumerates.update hnot hcells.nodup hmem hview
  refine ⟨_, henum, List.perm_iff_count.mpr fun item => ?_⟩
  have hcount := List.perm_iff_count.mp hperm item
  simp only [hfreed, hstored, List.count_append, List.count_cons, List.count_nil] at hcount ⊢
  omega

theorem Accounts.remove (h : Accounts t items) (hv : t.view a = some (k, v))
    (hview : t'.view = Function.update t.view a none)
    (hfreed : t'.freed = [.value v, .key k] ++ t.freed) : Accounts t' items := by
  obtain ⟨cells, hcells, hperm⟩ := h
  obtain ⟨rest, hnot, hnodup, hmem, hsplit⟩ := hcells.split hv
  have hstored : storedItems t' rest = storedItems t rest := storedItems_congr fun b hb => by
    rw [hview, Function.update_of_ne ((hmem b).mp hb).1]
  refine ⟨rest, ⟨hnodup, fun b => ?_⟩, List.perm_iff_count.mpr fun item => ?_⟩
  · rw [hmem, hview]
    by_cases hb : b = a <;> simp [hb]
  · have hcount := List.perm_iff_count.mp hperm item
    rw [List.count_append, hsplit.count_eq item] at hcount
    simp only [hfreed, hstored, List.count_append] at hcount ⊢
    omega

theorem Accounts.release (h : Accounts t items) (hcells : Enumerates cells t)
    {released : List FreeCall} (hreleased : released.Perm (storedItems t cells))
    (hview : t'.view = fun _ => none) (hfreed : t'.freed = released ++ t.freed) :
    Accounts t' items := by
  obtain ⟨cells', hcells', hperm⟩ := h
  refine ⟨[], ⟨List.nodup_nil, fun b => by simp [hview]⟩, ?_⟩
  rw [hfreed, storedItems, List.flatMap_nil, List.append_nil]
  refine .trans ?_ hperm
  exact List.perm_append_comm.trans
    ((hreleased.trans (storedItems_perm (hcells.perm hcells'))).append_left _)

theorem Accounts.congr (h : Accounts t items) (hview : t'.view = t.view)
    (hfreed : t'.freed = t.freed) : Accounts t' items := by
  obtain ⟨cells, hcells, hperm⟩ := h
  have hstored : storedItems t' cells = storedItems t cells :=
    storedItems_congr fun b _ => by rw [hview]
  refine ⟨cells, ⟨hcells.nodup, fun b => by rw [hview]; exact hcells.mem_iff b⟩, ?_⟩
  rwa [hfreed, hstored]

/-- Every call moves items between the caller, the pairs and the free calls. -/
theorem Accounts.moves {events : List Event} {e : Event} (hkey : t.callbacks.freeKey = true)
    (hvalue : t.callbacks.freeValue = true) (h : Accounts t (accepted events))
    (hmoves : Moves t e t') : Accounts t' (accepted (e :: events)) := by
  have hcalls : ∀ k v, freeCalls t.callbacks k v = [.value v, .key k] := fun k v => by
    simp [freeCalls, hkey, hvalue]
  cases hmoves with
  | replaced held view_eq freed_eq =>
      rw [hcalls] at freed_eq
      exact h.rewrite held view_eq freed_eq
  | refused view_eq freed_eq => exact h.congr view_eq freed_eq
  | inserted fresh view_eq freed_eq => exact h.add fresh view_eq freed_eq
  | removed held view_eq freed_eq =>
      rw [hcalls] at freed_eq
      exact h.remove held view_eq freed_eq
  | missing => exact h
  | cleared cells_eq view_eq freed_eq =>
      exact h.release cells_eq (releasedBy_perm hkey hvalue cells_eq) view_eq freed_eq
  | rewritten held view_eq freed_eq =>
      rw [if_pos hvalue] at freed_eq
      exact h.rewrite held view_eq freed_eq

/-- Everything that a call passes is accepted or refused. -/
theorem Records.passes {op : Op} {e : Event} (h : Records op e) (events : List Event) :
    (accepted (e :: events) ++ refused (e :: events)).Perm
      (accepted events ++ refused events ++ op.passes) := by
  apply List.perm_iff_count.mpr
  intro item
  cases h with
  | @set reply key value status =>
      by_cases hstatus : status = 0 <;>
        simp [accepted, refused, Op.passes, hstatus, List.count_cons] <;> omega
  | del => simp [accepted, refused, Op.passes]
  | clear => simp [accepted, refused, Op.passes]
  | iterSet =>
      simp only [accepted, refused, Op.passes, List.count_append, List.count_cons, List.count_nil]
      omega

theorem Enumerates.mem_storedItems_iff (h : Enumerates cells t) (item : FreeCall) :
    item ∈ storedItems t cells ↔ Stored t item := by
  unfold storedItems
  rw [List.mem_flatMap]
  constructor
  · rintro ⟨a, ha, hitem⟩
    obtain ⟨⟨k, v⟩, hv⟩ := Option.isSome_iff_exists.mp ((h.mem_iff a).mp ha)
    simp only [hv, Option.elim_some, List.mem_cons, List.not_mem_nil, or_false] at hitem
    exact ⟨a, k, v, hv, hitem.symm⟩
  · rintro ⟨a, k, v, hv, hitem⟩
    refine ⟨a, (h.mem_iff a).mpr (by simp [hv]), ?_⟩
    simp only [hv, Option.elim_some, List.mem_cons, List.not_mem_nil, or_false]
    exact hitem.symm

/--
If no pointer is passed twice: nothing stored has been freed, what was accepted
and is no longer stored has been freed once, what was refused is not freed, and
`nc_hashtable_deinit` completes the count for everything accepted.
-/
theorem ncHashtable_frees_once (hkey : callbacks.freeKey = true)
    (hvalue : callbacks.freeValue = true) {t₀ : NcHashtable}
    (hinit : ncHashtableInit true callbacks = some t₀) {ops : List Op} {fuel : Nat}
    (hfuel : ops.length < fuel)
    (hok : Along (step fuel) (fun s op => Callable s op ∧ FewPairs s.table) ⟨t₀, []⟩ ops)
    (honce : (ops.flatMap Op.passes).Nodup) :
    ∃ s, run (step fuel) ⟨t₀, []⟩ ops = some s ∧
      (∀ item, Stored s.table item → item ∉ s.table.freed) ∧
      (∀ item ∈ accepted s.events, ¬ Stored s.table item → s.table.freed.count item = 1) ∧
      (∀ item ∈ refused s.events, item ∉ s.table.freed) ∧
      ∃ t', ncHashtableDeinit fuel s.table = some t' ∧
        (∀ item ∈ accepted s.events, t'.freed.count item = 1) ∧
        ∀ item ∈ refused s.events, item ∉ t'.freed := by
  obtain ⟨⟨n, S, hrep, hempty⟩, hview, hfreed⟩ := init_sound hinit
  obtain ⟨s, m, T, hrun, hskeleton, hlen, rfl, ⟨cells, hcells, hledger⟩, hpasses⟩ :=
    run_skeleton
      (fun past s => Accounts s.table (accepted s.events) ∧
        (accepted s.events ++ refused s.events).Perm (past.flatMap Op.passes))
      (by
        rintro past s op e t' rfl ⟨haccounts, hpasses⟩ hrecords hmoves
        refine ⟨haccounts.moves hkey hvalue hmoves, ?_⟩
        rw [List.flatMap_append, List.flatMap_singleton]
        exact (hrecords.passes s.events).trans (hpasses.append_right _))
      hrep.skeleton (List.length_eq_zero_iff.mp (Nat.le_zero.mp hempty)) hrep.callbacks_eq
      ⟨⟨[], ⟨List.nodup_nil, by simp [hview]⟩, by simp [hfreed, storedItems, accepted]⟩,
        by simp [accepted, refused]⟩ hfuel hok
  obtain ⟨t', hdeinit, hfreed'⟩ := hskeleton.deinit (show T.order.length < fuel by omega)
  have hall := hpasses.nodup_iff.mpr honce
  obtain ⟨hacc, -, hdisj⟩ := List.nodup_append.mp hall
  obtain ⟨hnodup, -, hapart⟩ := List.nodup_append.mp (hledger.nodup_iff.mpr hacc)
  have hfinal : t'.freed.Perm (accepted s.events) := by
    rw [hfreed']
    apply ((releasedBy_perm hkey hvalue hskeleton.enumerates).append_right _).trans
    refine List.perm_append_comm.trans (.trans ?_ hledger)
    exact (storedItems_perm (hskeleton.enumerates.perm hcells)).append_left _
  refine ⟨s, hrun, fun item hstored hmem => ?_, fun item hitem hnot => ?_,
    fun item hitem hmem => ?_, t', hdeinit, fun item hitem => ?_, fun item hitem hmem => ?_⟩
  · exact hapart item hmem item ((hcells.mem_storedItems_iff item).mpr hstored) rfl
  · apply List.count_eq_one_of_mem hnodup
    rcases List.mem_append.mp (hledger.mem_iff.mpr hitem) with hmem | hmem
    · exact hmem
    · exact absurd ((hcells.mem_storedItems_iff item).mp hmem) hnot
  · have := hledger.mem_iff.mp (List.mem_append_left _ hmem)
    exact hdisj item this item hitem rfl
  · rw [hfinal.count_eq, List.count_eq_one_of_mem hacc hitem]
  · exact hdisj item (hfinal.mem_iff.mp hmem) item hitem rfl

/-- A set without memory for its pair, an iterator write, a deletion and a clear. -/
theorem ncHashtable_frees_once_refused :
    ∃ s, run (step 7) ⟨addressTable, []⟩
        [.set ⟨true, some 1⟩ 7 70, .set ⟨true, none⟩ 12 120, .set ⟨true, some 2⟩ 3 30,
          .iterSet (.pair 1) 71, .del 3, .clear] = some s ∧
      (∀ item, Stored s.table item → item ∉ s.table.freed) ∧
      ∀ item ∈ refused s.events, item ∉ s.table.freed := by
  have hcall : Along (step 7) Callable ⟨addressTable, []⟩
      [.set ⟨true, some 1⟩ 7 70, .set ⟨true, none⟩ 12 120, .set ⟨true, some 2⟩ 3 30,
        .iterSet (.pair 1) 71, .del 3, .clear] := by
    decide
  obtain ⟨s, hrun, hstored, -, hrefused, -⟩ := ncHashtable_frees_once rfl rfl addressTable_init
    (by decide) (along_few addressKeys_lawful (init_sound addressTable_init).1 (by decide)
      (by decide) hcall) (by decide)
  exact ⟨s, hrun, hstored, hrefused⟩

end Libnc.Hashtable
