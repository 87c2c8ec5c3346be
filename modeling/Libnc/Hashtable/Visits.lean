import Libnc.Hashtable.Iterators
import Libnc.Hashtable.Refinement

/-!
# Deleting while iterating

A caller walks the table with `nc_hashtable_iter_next` and, whenever it has
obtained the next iterator, deletes keys other than that one's and replaces
values.  The pairs of the list are at any time those visited, without the
deleted ones, followed by those still to be visited.
-/

namespace Libnc.Hashtable

open Libnc.Foundation

/-- The table, the iterator obtained last, the visited pairs and the deletions that returned 0. -/
structure Walker where
  table : NcHashtable
  next : Option ListPtr
  visited : List ListPtr
  deleted : Nat

inductive Move where
  | advance
  | del (key : Ptr)
  | iterSet (iter : ListPtr) (value : Ptr)
  deriving DecidableEq, Repr

/-- `advance` goes to the next pair, and obtains the iterator after it before anything else. -/
def move (fuel : Nat) (w : Walker) : Move → Option Walker
  | .advance => do
      let iter ← w.next
      let next ← ncHashtableIterNext w.table iter
      some { w with next := next, visited := w.visited ++ [iter] }
  | .del key => do
      let (status, t) ← ncHashtableDel fuel w.table key
      some { w with table := t, deleted := if status = 0 then w.deleted + 1 else w.deleted }
  | .iterSet iter value => do
      let t ← ncHashtableIterSet w.table iter value
      some { w with table := t }

/-- The loop goes on until NULL, and its body spares the next pair. -/
def Permitted (w : Walker) : Move → Prop
  | .advance => w.next.isSome
  | .del key => ∀ iter ∈ w.next, ∀ k ∈ ncHashtableIterKey w.table iter,
      w.table.callbacks.cmpKeys key k = false
  | .iterSet iter _ => ∃ a ∈ listToPair iter, w.table.live a = true

instance decidablePermitted (w : Walker) : ∀ m, Decidable (Permitted w m)
  | .advance => inferInstanceAs (Decidable (w.next.isSome = true))
  | .del key => inferInstanceAs (Decidable (∀ iter ∈ w.next, ∀ k ∈ ncHashtableIterKey w.table iter,
      w.table.callbacks.cmpKeys key k = false))
  | .iterSet iter _ => inferInstanceAs (Decidable (∃ a ∈ listToPair iter, w.table.live a = true))

/-- The walk stands between the visited pairs that are left and those to come. -/
structure Walking (callbacks : Callbacks) (cells : List Nat) (n : Nat) (S : Layout)
    (done rest : List Nat) (w : Walker) : Prop where
  rep : Rep callbacks w.table n S
  order : S.order = done ++ rest
  next : w.next = rest.head?.map .pair
  done_visited : ∀ a ∈ done, .pair a ∈ w.visited
  rest_unvisited : ∀ a ∈ rest, .pair a ∉ w.visited
  nodup : w.visited.Nodup
  visited_mem : ∀ l ∈ w.visited, ∃ a ∈ cells, .pair a = l
  order_mem : ∀ a ∈ S.order, a ∈ cells
  size : w.table.size + w.deleted = cells.length

variable {callbacks : Callbacks} {cells done rest : List Nat} {n fuel : Nat} {S : Layout}
variable {w : Walker} {t t' : NcHashtable}

/-! ## One move -/

theorem Walking.advance (fuel : Nat) (h : Walking callbacks cells n S done rest w)
    (hcall : Permitted w .advance) :
    (∃ a, w.next = some (.pair a) ∧ w.table.live a = true) ∧
      ∃ w' done' rest', move fuel w .advance = some w' ∧
        Walking callbacks cells n S done' rest' w' ∧ w'.table = w.table ∧
        w'.visited.length = w.visited.length + 1 := by
  cases rest with
  | nil =>
      rw [Permitted, h.next] at hcall
      simp at hcall
  | cons a rest =>
      have hnext : w.next = some (.pair a) := h.next
      have ha : a ∈ S.order := by simp [h.order]
      have hnew := h.rest_unvisited a (by simp)
      have hnodup := h.rep.order_nodup
      rw [h.order] at hnodup
      have harest := (List.nodup_cons.mp (List.nodup_append.mp hnodup).2.1).1
      refine ⟨⟨a, hnext, h.rep.live a ha⟩,
        { w with next := rest.head?.map .pair, visited := w.visited ++ [.pair a] },
        done ++ [a], rest,
        by rw [move, hnext, Option.bind_eq_bind, Option.bind_some, h.rep.iterNext_eq h.order]; rfl,
        ⟨h.rep, by simp [h.order], rfl, fun b hb => ?_, fun b hb => ?_, ?_, fun l hl => ?_,
          h.order_mem, h.size⟩, rfl, by simp⟩
      · rcases List.mem_append.mp hb with hb | hb
        · exact List.mem_append_left _ (h.done_visited b hb)
        · rw [List.mem_singleton.mp hb]
          exact List.mem_append_right _ List.mem_cons_self
      · have hba : b ≠ a := fun hba => harest (hba ▸ hb)
        simpa [hba] using h.rest_unvisited b (by simp [hb])
      · refine List.nodup_append.mpr ⟨h.nodup, by simp, ?_⟩
        rintro l hl m hm rfl
        exact hnew (List.mem_singleton.mp hm ▸ hl)
      · rcases List.mem_append.mp hl with hl | hl
        · exact h.visited_mem l hl
        · exact ⟨a, h.order_mem a ha, (List.mem_singleton.mp hl).symm⟩

theorem head?_filter {α : Type*} {p : α → Bool} {l : List α} (h : ∀ a ∈ l.head?, p a = true) :
    (l.filter p).head? = l.head? := by
  cases l with
  | nil => rfl
  | cons a l => rw [List.filter_cons_of_pos (h a rfl), List.head?_cons, List.head?_cons]

theorem DelOutcome.length_eq {S' : Layout} {key : Ptr} {status : Int}
    (hout : DelOutcome t key status t') (h : Rep callbacks t n S) (h' : Rep callbacks t' n S') :
    S'.order.length + (if status = 0 then 1 else 0) = S.order.length := by
  have hmem := h.enumerates.mem_iff
  have hmem' := h'.enumerates.mem_iff
  cases hout with
  | missing absent =>
      have hperm : S'.order.Perm S.order :=
        (List.perm_ext_iff_of_nodup h'.order_nodup h.order_nodup).mpr fun b =>
          (hmem' b).trans (hmem b).symm
      simpa using hperm.length_eq
  | removed a k v _ held equal view_eq _ =>
      have hnot : a ∉ S'.order := fun ha => by
        have hsome := (hmem' a).mp ha
        simp [view_eq] at hsome
      have hperm : (a :: S'.order).Perm S.order := by
        refine (List.perm_ext_iff_of_nodup (List.nodup_cons.mpr ⟨hnot, h'.order_nodup⟩)
          h.order_nodup).mpr fun b => ?_
        rw [List.mem_cons, hmem', hmem, view_eq]
        by_cases hba : b = a
        · simp [hba, held]
        · simp [hba]
      simpa using hperm.length_eq

theorem Walking.del (h : Walking callbacks cells n S done rest w) (hk : LawfulKeys callbacks)
    (hfuel : S.order.length ≤ fuel) {key : Ptr} (hcall : Permitted w (.del key)) :
    ∃ w' S' done' rest' status, move fuel w (.del key) = some w' ∧
      Walking callbacks cells n S' done' rest' w' ∧ w'.visited = w.visited ∧
      DelOutcome w.table key status w'.table := by
  obtain rfl := h.rep.callbacks_eq
  obtain ⟨status, t', S', hrun, hrep, hout, -, -, horder⟩ := ncHashtableDel_spec h.rep hk hfuel key
  have hsize := hout.length_eq h.rep hrep
  rw [h.order, List.filter_append] at horder
  have hhead : ∀ a ∈ rest.head?, t'.live a = true := by
    intro a ha
    have hnext : .pair a ∈ w.next := by
      rw [h.next]
      exact Option.mem_map_of_mem _ ha
    have hview := h.rep.view_of_mem (a := a) (by
      rw [h.order]
      exact List.mem_append_right _ (List.mem_of_mem_head? ha))
    have hne := hcall _ hnext _ (h.rep.iterKey_eq hview).1
    have hview' := (hout.view_iff hk hne a _ _ (hk.refl _)).mpr hview
    obtain ⟨hmem, -⟩ := hrep.view_eq_some hview'
    exact hrep.live a hmem
  refine ⟨{ w with table := t', deleted := if status = 0 then w.deleted + 1 else w.deleted }, S',
    done.filter t'.live, rest.filter t'.live, status, by simp only [move, hrun]; rfl,
    ⟨hrep, horder, ?_, fun a ha => ?_, fun a ha => ?_, h.nodup, h.visited_mem, fun a ha => ?_, ?_⟩,
    rfl, hout⟩
  · rw [head?_filter hhead]
    exact h.next
  · exact h.done_visited a (List.mem_filter.mp ha).1
  · exact h.rest_unvisited a (List.mem_filter.mp ha).1
  · rw [horder, ← List.filter_append, ← h.order] at ha
    exact h.order_mem a (List.mem_filter.mp ha).1
  · have hsum := h.size
    rw [h.rep.size_eq] at hsum
    simp only [hrep.size_eq]
    split at hsize <;> rename_i hzero
    · rw [if_pos hzero]
      omega
    · rw [if_neg hzero]
      omega

theorem Walking.iterSet (fuel : Nat) (h : Walking callbacks cells n S done rest w)
    {iter : ListPtr} {value : Ptr} (hcall : Permitted w (.iterSet iter value)) :
    ∃ w' a k v, move fuel w (.iterSet iter value) = some w' ∧
      Walking callbacks cells n S done rest w' ∧ w'.visited = w.visited ∧
      w.table.view a = some (k, v) ∧
      w'.table.view = Function.update w.table.view a (some (k, value)) := by
  obtain ⟨a, hiter, hlive⟩ := hcall
  obtain rfl := eq_pair_of_listToPair hiter
  have hview := h.rep.view_of_mem (h.rep.mem_of_live a hlive)
  obtain ⟨t', hrun, hrep, hview', -, -⟩ := ncHashtableIterSet_spec h.rep hview value
  refine ⟨{ w with table := t' }, a, _, _, by simp only [move, hrun]; rfl, ?_, rfl, hview, hview'⟩
  refine { h with rep := hrep, size := ?_ }
  have hsize := h.size
  rw [h.rep.size_eq] at hsize
  simpa only [hrep.size_eq] using hsize

/-- The walk after the moves `past` over the pairs that `t` had at first. -/
def Walked (callbacks : Callbacks) (t : NcHashtable) (cells : List Nat) (past : List Move)
    (w : Walker) : Prop :=
  ∃ n S done rest, Walking callbacks cells n S done rest w ∧
    w.visited.length = past.count .advance ∧
    ∀ a k v, t.view a = some (k, v) →
      (∀ key, .del key ∈ past → callbacks.cmpKeys key k = false) →
      ∃ v', w.table.view a = some (k, v')

theorem Walked.move {past : List Move} (h : Walked callbacks t cells past w)
    (hk : LawfulKeys callbacks) (hfuel : cells.length ≤ fuel) {m : Move} (hcall : Permitted w m) :
    (m = .advance → ∃ a, w.next = some (.pair a) ∧ w.table.live a = true) ∧
      ∃ w', move fuel w m = some w' ∧ Walked callbacks t cells (past ++ [m]) w' := by
  obtain ⟨n, S, done, rest, h, hcount, hkept⟩ := h
  cases m with
  | advance =>
      obtain ⟨hlive, w', done', rest', hrun, h', htable, hvisited⟩ := h.advance fuel hcall
      refine ⟨fun _ => hlive, w', hrun, n, S, done', rest', h', by simp [hvisited, hcount], ?_⟩
      intro a k v hv hspare
      rw [htable]
      exact hkept a k v hv fun key hdel => hspare key (List.mem_append_left _ hdel)
  | del key =>
      have hle : S.order.length ≤ fuel := by
        have hsize := h.size
        rw [h.rep.size_eq] at hsize
        omega
      obtain ⟨w', S', done', rest', status, hrun, h', hvisited, hout⟩ := h.del hk hle hcall
      refine ⟨by simp, w', hrun, n, S', done', rest', h', by simp [hvisited, hcount], ?_⟩
      intro a k v hv hspare
      obtain ⟨v', hv'⟩ := hkept a k v hv fun key hdel => hspare key (List.mem_append_left _ hdel)
      obtain rfl := h.rep.callbacks_eq
      exact ⟨v', (hout.view_iff hk (hspare key (by simp)) a k v' (hk.refl k)).mpr hv'⟩
  | iterSet iter value =>
      obtain ⟨w', b, j, x, hrun, h', hvisited, hheld, hview⟩ := h.iterSet fuel hcall
      refine ⟨by simp, w', hrun, n, S, done, rest, h', by simp [hvisited, hcount], ?_⟩
      intro a k v hv hspare
      obtain ⟨v', hv'⟩ := hkept a k v hv fun key hdel => hspare key (List.mem_append_left _ hdel)
      rw [hview]
      by_cases hab : a = b
      · subst hab
        rw [hv'] at hheld
        cases hheld
        exact ⟨value, Function.update_self ..⟩
      · exact ⟨v', by rw [Function.update_of_ne hab, hv']⟩

/-! ## Whole walks -/

theorem Walking.length_visited_le (h : Walking callbacks cells n S done rest w) :
    w.visited.length ≤ cells.length := by
  have hsub : w.visited ⊆ cells.map .pair := fun l hl => by
    obtain ⟨a, ha, rfl⟩ := h.visited_mem l hl
    exact List.mem_map_of_mem ha
  simpa using (List.subperm_of_subset h.nodup hsub).length_le

/--
A walk visits only live pairs and none of them twice, so it ends after at most
as many rounds as there were pairs.  At its end every pair whose key was not
deleted has been visited once, and the size has gone down by the number of
deletions that returned 0.
-/
theorem ncHashtable_visits_survivors (hk : LawfulKeys callbacks) {t₀ : NcHashtable}
    (hinit : ncHashtableInit true callbacks = some t₀) {past : List Op}
    (hfuel : past.length < fuel) {s : Session}
    (hok : Along (step fuel) (fun s op => Callable s op ∧ FewPairs s.table) ⟨t₀, []⟩ past)
    (hrun : run (step fuel) ⟨t₀, []⟩ past = some s) {first : Option ListPtr}
    (hiter : ncHashtableIter s.table = some first) {moves : List Move}
    (hmoves : Along (move fuel) Permitted ⟨s.table, first, [], 0⟩ moves) :
    Along (move fuel) (fun w m => m = .advance →
        ∃ a, w.next = some (.pair a) ∧ w.table.live a = true) ⟨s.table, first, [], 0⟩ moves ∧
      ∃ w, run (move fuel) ⟨s.table, first, [], 0⟩ moves = some w ∧ w.visited.Nodup ∧
        moves.count .advance = w.visited.length ∧ w.visited.length ≤ s.table.size ∧
        (∀ l ∈ w.visited, ∃ a, l = .pair a ∧ s.table.live a = true) ∧
        w.table.size + w.deleted = s.table.size ∧
        (w.next = none → ∀ a k v, s.table.view a = some (k, v) →
          (∀ key, .del key ∈ moves → callbacks.cmpKeys key k = false) →
          w.visited.count (.pair a) = 1) := by
  obtain ⟨s₁, hrun₁, ⟨n, S, h, hlen⟩, -⟩ := run_spec hk (fun _ _ => True)
    (fun _ _ _ _ _ _ _ _ _ => trivial) (init_sound hinit).1 trivial (by omega) hok
  obtain rfl : s₁ = s := Option.some.inj (hrun₁.symm.trans hrun)
  rw [ncHashtableIter_spec h, Option.some.injEq] at hiter
  have hstart : Walked callbacks s₁.table S.order [] ⟨s₁.table, first, [], 0⟩ :=
    ⟨n, S, [], S.order, ⟨h, rfl, hiter.symm, by simp, by simp, by simp, by simp,
      fun _ ha => ha, h.size_eq⟩, rfl, fun a k v hv _ => ⟨v, hv⟩⟩
  have hfuel' : S.order.length ≤ fuel := by omega
  obtain ⟨w, hrunw, n', S', done, rest, hw, hcount, hkept⟩ := Along.run_total
    (Walked callbacks s₁.table S.order) moves.length
    (fun past w m _ hw hcall => (hw.move hk hfuel' hcall).2) [] (by simp) hstart hmoves
  refine ⟨Along.of_invariant_past (Walked callbacks s₁.table S.order) moves.length
    (fun past w m _ hw hcall => ?_) [] (by simp) hstart hmoves, w, hrunw, hw.nodup, hcount.symm,
    h.size_eq ▸ hw.length_visited_le, fun l hl => ?_, h.size_eq ▸ hw.size,
    fun hend a k v hv hspare => ?_⟩
  · obtain ⟨hlive, w', hrun', hw'⟩ := hw.move hk hfuel' hcall
    refine ⟨hlive, fun w'' hrun'' => ?_⟩
    rw [hrun'] at hrun''
    cases hrun''
    exact hw'
  · obtain ⟨a, ha, rfl⟩ := hw.visited_mem l hl
    exact ⟨a, rfl, h.live a ha⟩
  · have hrest : rest = [] := by
      have hnext := hw.next
      rw [hend] at hnext
      simpa using hnext.symm
    obtain ⟨v', hv'⟩ := hkept a k v hv hspare
    obtain ⟨ha, -⟩ := hw.rep.view_eq_some hv'
    rw [hw.order, hrest, List.append_nil] at ha
    exact List.count_eq_one_of_mem hw.nodup (hw.done_visited a ha)

/-- Five keys in four buckets; the list holds 12, 7, 1, 3 and 4 in this order. -/
def fiveKeys : Session :=
  (run (step 12) ⟨addressTable, []⟩
    [.set ⟨true, some 1⟩ 7 70, .set ⟨true, some 2⟩ 12 120, .set ⟨true, some 3⟩ 1 10,
      .set ⟨true, some 4⟩ 3 30, .set ⟨true, some 5⟩ 4 40]).get rfl

/-- The current pair, one already passed and one still ahead are deleted. -/
theorem ncHashtable_visits_survivors_threeDeletions :
    ∃ w, run (move 12) ⟨fiveKeys.table, some (.pair 2), [], 0⟩
        [.advance, .advance, .del 7, .del 12, .del 4, .iterSet (.pair 4) 31, .advance,
          .advance] = some w ∧
      w.visited.Nodup ∧ w.table.size + w.deleted = 5 := by
  have hcall : Along (step 12) Callable ⟨addressTable, []⟩
      [.set ⟨true, some 1⟩ 7 70, .set ⟨true, some 2⟩ 12 120, .set ⟨true, some 3⟩ 1 10,
        .set ⟨true, some 4⟩ 3 30, .set ⟨true, some 5⟩ 4 40] := by
    decide +kernel
  have hmoves : Along (move 12) Permitted ⟨fiveKeys.table, some (.pair 2), [], 0⟩
      [.advance, .advance, .del 7, .del 12, .del 4, .iterSet (.pair 4) 31, .advance,
        .advance] := by
    decide +kernel
  have hok := along_few addressKeys_lawful (init_sound addressTable_init).1 (by decide)
    (by decide) hcall
  obtain ⟨-, w, hrun, hnodup, -, -, -, hsize, -⟩ := ncHashtable_visits_survivors
    addressKeys_lawful addressTable_init (by decide) hok (s := fiveKeys) rfl rfl hmoves
  exact ⟨w, hrun, hnodup, hsize⟩

end Libnc.Hashtable
