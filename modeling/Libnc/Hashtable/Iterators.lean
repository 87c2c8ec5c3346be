import Libnc.Hashtable.Session
import Libnc.Hashtable.Traversal

/-!
# Iterators over changing tables

An iterator is the address of a pair's list member.  Growth relinks the pairs
where they are, and an overwrite keeps the pair and its key, so the iterator
refers to its key until that key is deleted.
-/

namespace Libnc.Hashtable

open Libnc.Foundation

/-- An iterator that one of the three functions returns for the table. -/
inductive Obtained (fuel : Nat) (t : NcHashtable) : ListPtr → Prop where
  | iter {it : ListPtr} (h : ncHashtableIter t = some (some it)) : Obtained fuel t it
  | iterNext {a : Nat} {it : ListPtr} (live : t.live a = true)
      (h : ncHashtableIterNext t (.pair a) = some (some it)) : Obtained fuel t it
  | iterAt {key : Ptr} {it : ListPtr} (h : ncHashtableIterAt fuel t key = some (some it)) :
      Obtained fuel t it

/-- The call neither deletes the key `k` nor clears the table. -/
def Spares (callbacks : Callbacks) (k : Ptr) : Op → Prop
  | .del key => callbacks.cmpKeys key k = false
  | .clear => False
  | _ => True

instance decidableSpares (callbacks : Callbacks) (k : Ptr) : ∀ op, Decidable (Spares callbacks k op)
  | .del key => inferInstanceAs (Decidable (callbacks.cmpKeys key k = false))
  | .clear => isFalse id
  | .set _ _ _ => isTrue trivial
  | .iterSet _ _ => isTrue trivial

variable {callbacks : Callbacks} {t : NcHashtable} {n fuel : Nat} {S : Layout} {s s' : Session}

/-! ## Obtaining an iterator -/

theorem Rep.iterNext_live (h : Rep callbacks t n S) {l it : ListPtr} (hl : t.valid l = true)
    (hnext : ncHashtableIterNext t l = some (some it)) : ∃ a, it = .pair a ∧ t.live a = true := by
  have hmem : l ∈ .head :: S.order.map ListPtr.pair := by
    cases l with
    | head => exact List.mem_cons_self
    | pair a => exact List.mem_cons_of_mem _ (List.mem_map_of_mem (h.mem_of_live a hl))
  have hnext' := h.ring.next_mem hmem
  rw [ncHashtableIterNext, getLink_of_valid hl, Option.bind_eq_bind, Option.bind_some] at hnext
  change (if t.next l = .head then some none else some (some (t.next l))) = _ at hnext
  split at hnext
  · simp at hnext
  · rename_i hne
    simp only [Option.some.injEq] at hnext
    rcases List.mem_cons.mp hnext' with hhead | hpair
    · exact absurd hhead hne
    · obtain ⟨a, ha, hpair⟩ := List.mem_map.mp hpair
      exact ⟨a, hnext.symm.trans hpair.symm, h.live a ha⟩

theorem Rep.obtained_live (h : Rep callbacks t n S) (hk : LawfulKeys callbacks)
    (hfuel : S.order.length < fuel) {it : ListPtr} (hit : Obtained fuel t it) :
    ∃ a, it = .pair a ∧ t.live a = true := by
  cases hit with
  | iter hiter => exact h.iterNext_live rfl hiter
  | iterNext hlive hnext => exact h.iterNext_live (l := .pair _) hlive hnext
  | @iterAt key it hat =>
      rcases h.lookup_spec hk hfuel key with ⟨a, k, v, hrun, hv, -⟩ | ⟨hrun, -⟩
      · obtain ⟨ha, -⟩ := h.view_eq_some hv
        rw [ncHashtableIterAt, hrun] at hat
        exact ⟨a, by simpa using hat.symm, h.live a ha⟩
      · rw [ncHashtableIterAt, hrun] at hat
        simp at hat

/-! ## Keeping an iterator -/

theorem StepOutcome.view_key (hk : LawfulKeys s.table.callbacks) {op : Op}
    (h : StepOutcome s op s') {a : Nat} {k : Ptr} (hspare : Spares s.table.callbacks k op)
    (hview : ∃ v, s.table.view a = some (k, v)) : ∃ v, s'.table.view a = some (k, v) := by
  obtain ⟨v, hv⟩ := hview
  -- a write to a pair that keeps its key
  have hupdate : ∀ {b : Nat} {j w value : Ptr} {t : NcHashtable}, s.table.view b = some (j, w) →
      t.view = Function.update s.table.view b (some (j, value)) →
      ∃ v, t.view a = some (k, v) := by
    intro b j w value t hheld ht
    by_cases hab : a = b
    · subst hab
      rw [hv] at hheld
      cases hheld
      exact ⟨value, by rw [ht, Function.update_self]⟩
    · exact ⟨v, by rw [ht, Function.update_of_ne hab, hv]⟩
  cases h with
  | set outcome =>
      cases outcome with
      | replaced b j w t held equal view_eq _ => exact hupdate held view_eq
      | refused t _ _ view_eq _ => exact ⟨v, by rw [view_eq, hv]⟩
      | inserted b t _ _ fresh view_eq _ =>
          have hab : a ≠ b := by
            rintro rfl
            rw [fresh] at hv
            cases hv
          exact ⟨v, by rw [view_eq, Function.update_of_ne hab, hv]⟩
  | del outcome =>
      cases outcome with
      | missing _ => exact ⟨v, hv⟩
      | removed b j w t held equal view_eq _ =>
          have hab : a ≠ b := by
            rintro rfl
            rw [hv] at held
            cases held
            have hdel : s.table.callbacks.cmpKeys _ k = false := hspare
            rw [hk.symm equal] at hdel
            exact Bool.noConfusion hdel
          exact ⟨v, by rw [view_eq, Function.update_of_ne hab, hv]⟩
  | clear => exact hspare.elim
  | iterSet held view_eq _ => exact hupdate held view_eq

/-! ## Using an iterator -/

theorem Rep.iterKey_eq (h : Rep callbacks t n S) {a : Nat} {k v : Ptr}
    (hv : t.view a = some (k, v)) :
    ncHashtableIterKey t (.pair a) = some k ∧ ncHashtableIterValue t (.pair a) = some v := by
  obtain ⟨ha, rfl, rfl⟩ := h.view_eq_some hv
  have hget := getPair_of_live (h.live a ha)
  exact ⟨by simp [ncHashtableIterKey, listToPair, hget],
    by simp [ncHashtableIterValue, listToPair, hget]⟩

theorem Rep.lookup_eq (h : Rep callbacks t n S) (hk : LawfulKeys callbacks)
    (hfuel : S.order.length < fuel) {a : Nat} {k v key : Ptr} (hv : t.view a = some (k, v))
    (hcmp : callbacks.cmpKeys k key = true) : lookup fuel t key = some (some a) := by
  rcases h.lookup_spec hk hfuel key with ⟨b, j, w, hrun, hw, hcmp'⟩ | ⟨-, habs⟩
  · rw [hrun, h.view_unique hk hv hw hcmp hcmp']
  · have hne := habs a k v hv
    rw [h.callbacks_eq, hcmp] at hne
    exact Bool.noConfusion hne

theorem Rep.traverseFrom_live (h : Rep callbacks t n S) {a : Nat} (ha : t.live a = true) :
    ∃ visited, traverseFrom t (t.size + 1) (some (.pair a)) = some visited ∧ visited.Nodup ∧
      visited.length < t.size + 1 ∧ ∀ l ∈ visited, ∃ b, l = .pair b ∧ t.live b = true := by
  obtain ⟨before, after, horder⟩ := List.append_of_mem (h.mem_of_live a ha)
  have hlen : (a :: after).length ≤ t.size := by
    rw [h.size_eq, horder, List.length_append]
    exact Nat.le_add_left _ _
  have hlive : ∀ b ∈ a :: after, t.live b = true := fun b hb =>
    h.live b (by rw [horder]; exact List.mem_append_right _ hb)
  have hchain := h.isChain_suffix horder
  have hnodup := h.order_nodup
  rw [horder] at hnodup
  refine ⟨(a :: after).map .pair, traverseFrom_spec (Nat.lt_succ_of_le hlen) hlive hchain,
    (List.nodup_append.mp hnodup).2.1.map pair_injective, ?_, fun l hl => ?_⟩
  · rw [List.length_map]
    exact Nat.lt_succ_of_le hlen
  · obtain ⟨b, hb, rfl⟩ := List.mem_map.mp hl
    exact ⟨b, rfl, hlive b hb⟩

/-! ## Runs -/

/--
However many calls follow that neither delete its key nor clear the table, an
iterator reads the key that was stored and its present value, is found at the
key, and leads on past distinct pairs to NULL.
-/
theorem ncHashtable_iterator_valid (hk : LawfulKeys callbacks) {t₀ : NcHashtable}
    (hinit : ncHashtableInit true callbacks = some t₀) {past later : List Op}
    (hfuel : past.length + later.length < fuel) {s : Session}
    (hok : Along (step fuel) (fun s op => Callable s op ∧ FewPairs s.table) ⟨t₀, []⟩ past)
    (hrun : run (step fuel) ⟨t₀, []⟩ past = some s) {it : ListPtr}
    (hit : Obtained fuel s.table it)
    (hok' : Along (step fuel) (fun s op => Callable s op ∧ FewPairs s.table) s later) {k : Ptr}
    (hkey : ncHashtableIterKey s.table it = some k)
    (hspare : ∀ op ∈ later, Spares callbacks k op) :
    ∃ s', run (step fuel) s later = some s' ∧ ncHashtableIterKey s'.table it = some k ∧
      (∃ v, ncHashtableIterValue s'.table it = some v ∧
        ∀ key, callbacks.cmpKeys k key = true → ncHashtableGet fuel s'.table key = some v) ∧
      (∀ key, callbacks.cmpKeys k key = true →
        ncHashtableIterAt fuel s'.table key = some (some it)) ∧
      ∃ visited, traverseFrom s'.table (s'.table.size + 1) (some it) = some visited ∧
        visited.Nodup ∧ visited.length < s'.table.size + 1 ∧
        ∀ l ∈ visited, ∃ b, l = .pair b ∧ s'.table.live b = true := by
  obtain ⟨s₁, hrun₁, hsound, -⟩ := run_spec hk (fun _ _ => True)
    (fun _ _ _ _ _ _ _ _ _ => trivial) (init_sound hinit).1 trivial (by omega) hok
  obtain rfl : s₁ = s := Option.some.inj (hrun₁.symm.trans hrun)
  rw [Nat.zero_add] at hsound
  obtain ⟨n, S, h, hlen⟩ := id hsound
  obtain ⟨a, rfl, hlive⟩ := h.obtained_live hk (by omega) hit
  have hview : ∃ v, s₁.table.view a = some (k, v) := by
    have hheld := h.view_of_mem (h.mem_of_live a hlive)
    rw [(h.iterKey_eq hheld).1] at hkey
    exact ⟨_, by rw [hheld, Option.some.inj hkey]⟩
  obtain ⟨s', hrun', hsound', hview'⟩ := run_spec hk
    (fun past s => (∀ op ∈ past, Spares callbacks k op) → ∃ v, s.table.view a = some (k, v))
    (fun past s op s' bound hs _ hinv hout hall => by
      have hcb := hs.callbacks_eq
      refine hout.view_key (hcb ▸ hk) (hcb ▸ hall op (by simp)) (hinv fun op hop => ?_)
      exact hall op (List.mem_append_left _ hop))
    hsound (fun _ => hview) hfuel hok'
  obtain ⟨v, hv⟩ := hview' hspare
  obtain ⟨n', S', h', hlen'⟩ := hsound'
  have hlookup : ∀ key, callbacks.cmpKeys k key = true → lookup fuel s'.table key = some (some a) :=
    fun key hcmp => h'.lookup_eq hk (by omega) hv hcmp
  obtain ⟨ha, -, hval⟩ := h'.view_eq_some hv
  refine ⟨s', hrun', (h'.iterKey_eq hv).1, ⟨v, (h'.iterKey_eq hv).2, fun key hcmp => ?_⟩,
    fun key hcmp => ?_, h'.traverseFrom_live (h'.live a ha)⟩
  · simp [ncHashtableGet, hlookup key hcmp, getPair_of_live (h'.live a ha), hval]
  · simp [ncHashtableIterAt, hlookup key hcmp]

/-- Two keys of one bucket. -/
def twoKeys : Session :=
  (run (step 12) ⟨addressTable, []⟩
    [.set ⟨true, some 1⟩ 7 70, .set ⟨true, some 2⟩ 12 120]).get rfl

/-- An overwrite, a growth and a deletion behind an iterator. -/
theorem ncHashtable_iterator_valid_growth :
    ∃ s', run (step 12) twoKeys
        [.set ⟨true, none⟩ 7 71, .set ⟨true, some 3⟩ 1 10, .set ⟨true, some 4⟩ 3 30,
          .set ⟨true, some 5⟩ 4 40, .set ⟨true, some 6⟩ 20 200, .del 12] = some s' ∧
      ncHashtableIterKey s'.table (.pair 1) = some 7 ∧
      ∀ key, addressKeys.cmpKeys 7 key = true →
        ncHashtableIterAt 12 s'.table key = some (some (.pair 1)) := by
  have hrun : run (step 12) ⟨addressTable, []⟩
      [.set ⟨true, some 1⟩ 7 70, .set ⟨true, some 2⟩ 12 120] = some twoKeys := rfl
  have hcall : Along (step 12) Callable ⟨addressTable, []⟩
      [.set ⟨true, some 1⟩ 7 70, .set ⟨true, some 2⟩ 12 120] := by
    decide
  have hcall' : Along (step 12) Callable twoKeys
      [.set ⟨true, none⟩ 7 71, .set ⟨true, some 3⟩ 1 10, .set ⟨true, some 4⟩ 3 30,
        .set ⟨true, some 5⟩ 4 40, .set ⟨true, some 6⟩ 20 200, .del 12] := by
    decide +kernel
  have hempty := (init_sound addressTable_init).1
  have htwo := sound_of_run addressKeys_lawful hempty (by decide) hcall hrun
  obtain ⟨s', hrun', hkey, -, hat, -⟩ := ncHashtable_iterator_valid addressKeys_lawful
    addressTable_init (by decide)
    (along_few addressKeys_lawful hempty (by decide) (by decide) hcall) hrun
    (@Obtained.iterAt 12 twoKeys.table 7 (.pair 1) rfl)
    (along_few addressKeys_lawful htwo (by decide) (by decide) hcall') rfl (by decide)
  exact ⟨s', hrun', hkey, hat⟩

end Libnc.Hashtable
