import Libnc.Queue.Links

/-!
# The macros

Each macro, called on a queue as its caller must, finds the links that it follows
and writes what an insertion or a removal writes.  The checks hold.
-/

namespace Libnc.Queue

open Libnc.Foundation

variable {η ε : Type}
variable {kind : Kind} {M M' : Memory η ε} {next prev : Place η ε → Place η ε}
  {Q : η → List ε} {h h₁ h₂ : η} {e elm : ε} {before after : List ε} {a p : Place η ε}
  (asserting : Bool)

/-! ## Checks and searches -/

theorem qmdCheck_true : qmdCheck asserting (some true) = some () := by
  cases asserting <;> rfl

namespace Linked

theorem checkTail_spec (hM : Linked kind M next prev Q) (h : η)
    (hs : kind.stored (.head h : Place η ε)) : checkTail M h = some true := by
  have hhead := queued_head Q h
  unfold checkTail
  rw [hM.prev hhead hs]
  simp [hM.next (hM.queued_prev hhead), hM.next_prev hhead]

variable [DecidableEq ε]

theorem checkPrev_spec (hM : Linked kind M next prev Q) (he : Queued Q (.elem elm))
    (hs : kind.stored (.elem elm : Place η ε)) : checkPrev M elm = some true := by
  unfold checkPrev
  rw [hM.prev he hs]
  simp [hM.next (hM.queued_prev he), hM.next_prev he]

/-- The search for the element in front of `elm` ends within `fuel` steps. -/
theorem findPrevious_spec (hM : Linked kind M next prev Q) {front : List ε} {x : ε} {fuel : Nat}
    (hQ : Q h = front ++ x :: (before ++ elm :: after)) (hfuel : before.length < fuel) :
    ∃ y, findPrevious M elm fuel x = some y ∧ y ∈ Q h ∧ next (.elem y) = .elem elm := by
  induction before generalizing front x fuel with
  | nil =>
      obtain ⟨fuel, rfl⟩ := Nat.exists_eq_add_of_lt hfuel
      have hnext : next (.elem x) = .elem elm := Option.some.inj (hM.rings.next_elem hQ)
      have hx : x ∈ Q h := by simp [hQ]
      refine ⟨x, ?_, hx, hnext⟩
      simp [findPrevious, hM.next (queued_elem hx), hnext]
  | cons b before ih =>
      obtain ⟨fuel, rfl⟩ : ∃ k, fuel = k + 1 := ⟨fuel - 1, by omega⟩
      have hnext : next (.elem x) = .elem b := Option.some.inj (hM.rings.next_elem hQ)
      have hx : x ∈ Q h := by simp [hQ]
      have hb : b ≠ elm := by
        have hnodup := hM.rings.nodup h
        rintro rfl
        simp [hQ, List.nodup_append] at hnodup
      have hrest : Q h = (front ++ [x]) ++ b :: (before ++ elm :: after) := by simp [hQ]
      have hfuel' : before.length < fuel := Nat.lt_of_succ_lt_succ hfuel
      obtain ⟨y, hy, hspec⟩ := ih hrest hfuel'
      refine ⟨y, ?_, hspec⟩
      simp [findPrevious, hM.next (queued_elem hx), hnext, hb, hy]

variable [DecidableEq η]

theorem checkNext_spec (hM : Linked kind M next prev Q) (ha : Queued Q a)
    (hs : ∀ e : ε, kind.stored (.elem e : Place η ε)) : checkNext M a = some true := by
  have hprev := hM.prev (hM.queued_next ha)
  have hback := hM.prev_next ha
  unfold checkNext
  rw [hM.next ha]
  cases hnext : next a with
  | head k => rfl
  | elem e =>
      rw [hnext] at hprev hback
      simp [hprev (hs e), hback]

/-! ## Insertions -/

theorem slistInsert_spec (hM : Linked .slist M next prev Q) (hp : Queued Q p)
    (hfresh : ∀ k, elm ∉ Q k) : Inserted .slist M (slistInsert M p elm) p (next p) elm where
  next a := by
    have hne := hp.ne_elem hfresh
    have hnext := hM.next hp
    grind [slistInsert]
  prev a hs := by simp [Kind.stored] at hs

theorem stailqInsert_spec (hM : Linked .stailq M next prev Q) (hp : p ∈ links h (Q h))
    (hfresh : ∀ k, elm ∉ Q k) :
    Inserted .stailq M (stailqInsert M h p elm) p (next p) elm where
  next a := by
    have hne := Queued.ne_elem ⟨h, hp⟩ hfresh
    have hnext := hM.next ⟨h, hp⟩
    grind [stailqInsert]
  prev a hs := by
    have hnext := hM.next ⟨h, hp⟩
    have hend : ∀ k, next p = .head k → k = h := fun _ => hM.next_eq_head hp
    cases a with
    | elem e => simp [Kind.stored] at hs
    | head k =>
        cases hy : next p with
        | head k' => grind [stailqInsert]
        | elem e => grind [stailqInsert]

theorem stailqInsertTail_spec (hM : Linked .stailq M next prev Q)
    (hfresh : ∀ k, elm ∉ Q k) :
    ∃ M', stailqInsertTail M h elm = some M' ∧
      Inserted .stailq M M' (prev (.head h)) (.head h) elm := by
  have hlast := hM.prev (queued_head Q h) rfl
  have hne := (hM.queued_prev (queued_head Q h)).ne_elem hfresh
  unfold stailqInsertTail
  simp only [Memory.prev_setNext, hlast, Option.bind_eq_bind, Option.bind_some]
  refine ⟨_, rfl, ?_, ?_⟩
  · intro a
    grind
  · intro a hs
    cases a with
    | elem e => simp [Kind.stored] at hs
    | head k => grind

theorem listInsert_spec (hM : Linked .list M next prev Q) (hp : Queued Q p)
    (hfresh : ∀ k, elm ∉ Q k) :
    ∃ M', listInsert asserting M p elm = some M' ∧ Inserted .list M M' p (next p) elm := by
  have hne := hp.ne_elem hfresh
  have hne' := (hM.queued_next hp).ne_elem hfresh
  have hnext := hM.next hp
  unfold listInsert
  rw [hM.checkNext_spec hp fun _ => rfl, qmdCheck_true]
  simp only [Option.bind_eq_bind, Option.bind_some, Memory.next_setNext, if_neg hne, hnext]
  refine ⟨_, rfl, ?_, ?_⟩
  · intro a
    cases hy : next p <;> grind
  · intro a hs
    cases a with
    | head k => simp [Kind.stored] at hs
    | elem e => cases hy : next p <;> grind

theorem tailqInsert_spec (hM : Linked .tailq M next prev Q) (hp : p ∈ links h (Q h))
    (hfresh : ∀ k, elm ∉ Q k) :
    ∃ M', tailqInsert asserting M h p elm = some M' ∧ Inserted .tailq M M' p (next p) elm := by
  have hq : Queued Q p := ⟨h, hp⟩
  have hne := hq.ne_elem hfresh
  have hne' := (hM.queued_next hq).ne_elem hfresh
  have hnext := hM.next hq
  have hend : ∀ k, next p = .head k → k = h := fun _ => hM.next_eq_head hp
  unfold tailqInsert
  rw [hM.checkNext_spec hq fun _ => rfl, qmdCheck_true]
  simp only [Option.bind_eq_bind, Option.bind_some, Memory.next_setNext, if_true, hnext]
  refine ⟨_, rfl, ?_, ?_⟩
  · intro a
    cases hy : next p <;> grind
  · intro a _
    cases hy : next p <;> grind

theorem tailqInsertTail_spec (hM : Linked .tailq M next prev Q)
    (hfresh : ∀ k, elm ∉ Q k) :
    ∃ M', tailqInsertTail asserting M h elm = some M' ∧
      Inserted .tailq M M' (prev (.head h)) (.head h) elm := by
  have hlast := hM.prev (queued_head Q h) rfl
  have hne := (hM.queued_prev (queued_head Q h)).ne_elem hfresh
  unfold tailqInsertTail
  rw [hM.checkTail_spec h rfl, qmdCheck_true]
  simp only [Memory.prev_setNext, Memory.prev_setPrev, reduceCtorEq, if_false, hlast,
    Option.bind_eq_bind, Option.bind_some]
  refine ⟨_, rfl, ?_, ?_⟩
  · intro a
    grind
  · intro a _
    grind

/-- Both structures with `prev` in the entries insert before an element in this way. -/
theorem listInsertBefore_spec (hM : Linked kind M next prev Q) (he : Queued Q (.elem e))
    (hfresh : ∀ k, elm ∉ Q k) (hs : ∀ e : ε, kind.stored (.elem e : Place η ε)) :
    ∃ M', listInsertBefore asserting M e elm = some M' ∧
      Inserted kind M M' (prev (.elem e)) (.elem e) elm := by
  have hprev := hM.prev he (hs e)
  have hne := he.ne_elem hfresh
  have hne' := (hM.queued_prev he).ne_elem hfresh
  unfold listInsertBefore
  rw [hM.checkPrev_spec he (hs e), qmdCheck_true]
  simp only [Memory.prev_setNext, Memory.prev_setPrev, if_neg hne, hprev,
    Option.bind_eq_bind, Option.bind_some]
  refine ⟨_, rfl, ?_, ?_⟩
  · intro a
    grind
  · intro a _
    grind

/-! ## Removals -/

theorem slistUnlink_spec (hM : Linked .slist M next prev Q) (hp : Queued Q p)
    (helm : next p = .elem elm) :
    ∃ M', slistUnlink M p = some M' ∧ Removed .slist M M' p (next (.elem elm)) elm := by
  have hnext := hM.next hp
  have hnext' := hM.next (helm ▸ hM.queued_next hp)
  unfold slistUnlink
  rw [hnext, helm, pointer_elem]
  refine ⟨_, rfl, ?_, ?_⟩
  · intro a
    grind
  · intro a hs
    simp [Kind.stored] at hs

theorem stailqUnlink_spec (hM : Linked .stailq M next prev Q) (hp : p ∈ links h (Q h))
    (helm : next p = .elem elm) :
    ∃ M', stailqUnlink M h p = some M' ∧ Removed .stailq M M' p (next (.elem elm)) elm := by
  have hmem := hM.rings.next_mem hp
  rw [helm] at hmem
  have hnext := hM.next ⟨h, hp⟩
  have hnext' := hM.next ⟨h, hmem⟩
  have hend : ∀ k, next (.elem elm) = .head k → k = h := fun _ => hM.next_eq_head hmem
  unfold stailqUnlink
  rw [hnext, helm, pointer_elem]
  refine ⟨_, rfl, ?_, ?_⟩
  · intro a
    grind
  · intro a hs
    cases a with
    | elem e => simp [Kind.stored] at hs
    | head k =>
        cases hy : next (.elem elm) <;>
          grind

theorem listRemove_spec (hM : Linked .list M next prev Q) (he : Queued Q (.elem elm)) :
    ∃ M', listRemove asserting M elm = some M' ∧
      Removed .list M M' (prev (.elem elm)) (next (.elem elm)) elm := by
  have hnext := hM.next he
  have hprev := hM.prev he rfl
  unfold listRemove
  rw [hM.checkNext_spec he fun _ => rfl, qmdCheck_true, hM.checkPrev_spec he rfl, qmdCheck_true]
  simp only [Option.bind_eq_bind, Option.bind_some, hnext, hprev]
  cases hy : next (.elem elm) with
  | head k =>
      simp only [pointer_head, hprev, Option.bind_some]
      refine ⟨_, rfl, ?_, ?_⟩
      · intro a
        grind
      · intro a hs
        cases a with
        | head k => simp [Kind.stored] at hs
        | elem e => grind
  | elem e =>
      simp only [pointer_elem, Memory.prev_setPrev, hprev, ite_self, Option.bind_some]
      refine ⟨_, rfl, ?_, ?_⟩
      · intro a
        grind
      · intro a hs
        grind

theorem tailqRemove_spec (hM : Linked .tailq M next prev Q) (he : elm ∈ Q h) :
    ∃ M', tailqRemove asserting M h elm = some M' ∧
      Removed .tailq M M' (prev (.elem elm)) (next (.elem elm)) elm := by
  have hq : Queued Q (.elem elm) := queued_elem he
  have hnext := hM.next hq
  have hprev := hM.prev hq rfl
  unfold tailqRemove
  rw [hM.checkNext_spec hq fun _ => rfl, qmdCheck_true, hM.checkPrev_spec hq rfl, qmdCheck_true]
  simp only [Option.bind_eq_bind, Option.bind_some, hnext, hprev]
  cases hy : next (.elem elm) with
  | head k =>
      obtain rfl := hM.next_eq_head (elem_mem_links.mpr he) hy
      simp only [pointer_head, Memory.prev_setPrev, hprev, ite_self, Option.bind_some]
      refine ⟨_, rfl, ?_, ?_⟩
      · intro a
        grind
      · intro a _
        grind
  | elem e =>
      simp only [pointer_elem, Memory.prev_setPrev, hprev, ite_self, Option.bind_some]
      refine ⟨_, rfl, ?_, ?_⟩
      · intro a
        grind
      · intro a _
        grind

/-! ## Whole queues -/

theorem stailqConcat_spec (hM : Linked .stailq M next prev Q) (hQ : Q h₂ ≠ []) :
    ∃ M', stailqConcat M h₁ h₂ = some M' ∧
      Joined .stailq M M' h₁ h₂ (prev (.head h₁)) (next (.head h₂)) (prev (.head h₂)) := by
  have hlast := hM.prev (queued_head Q h₁) rfl
  have hlast' := hM.prev (queued_head Q h₂) rfl
  have hnext := hM.next (queued_head Q h₂)
  obtain ⟨hnil, -⟩ | ⟨first, last, -, -, hfirst, -⟩ := hM.rings.head_cases h₂
  · exact absurd hnil hQ
  unfold stailqConcat
  rw [hnext, hfirst, pointer_elem, if_neg (Option.some_ne_none first), hlast]
  refine ⟨_, rfl, ?_, ?_⟩
  · intro a
    grind [stailqInit]
  · intro a hs
    cases a with
    | elem e => simp [Kind.stored] at hs
    | head k => grind [stailqInit]

theorem tailqConcat_spec (hM : Linked .tailq M next prev Q) (hQ : Q h₂ ≠ []) :
    ∃ M', tailqConcat M h₁ h₂ = some M' ∧
      Joined .tailq M M' h₁ h₂ (prev (.head h₁)) (next (.head h₂)) (prev (.head h₂)) := by
  have hlast := hM.prev (queued_head Q h₁) rfl
  have hlast' := hM.prev (queued_head Q h₂) rfl
  have hnext := hM.next (queued_head Q h₂)
  obtain ⟨hnil, -⟩ | ⟨first, last, -, -, hfirst, -⟩ := hM.rings.head_cases h₂
  · exact absurd hnil hQ
  unfold tailqConcat
  rw [hnext, hfirst, pointer_elem, if_neg (Option.some_ne_none first), hlast]
  simp only [Option.bind_eq_bind, Option.bind_some, Memory.next_setNext, hnext, hfirst,
    pointer_elem, ite_self]
  refine ⟨_, rfl, ?_, ?_⟩
  · intro a
    grind [tailqInit]
  · intro a _
    grind [tailqInit]

theorem next_swapHeads : (swapHeads M h₁ h₂).next a = M.next (exchange h₁ h₂ a) := by
  cases a with
  | head k =>
      rw [exchange_head, Equiv.swap_apply_def]
      grind [swapHeads]
  | elem e => grind [swapHeads, exchange_elem]

theorem prev_swapHeads : (swapHeads M h₁ h₂).prev a = M.prev (exchange h₁ h₂ a) := by
  cases a with
  | head k =>
      rw [exchange_head, Equiv.swap_apply_def]
      grind [swapHeads]
  | elem e => grind [swapHeads, exchange_elem]

theorem exchange_prev_elem (hM : Linked kind M next prev Q) (he : Queued Q (.elem e))
    (h₁ h₂ : η) :
    some (exchange h₁ h₂ (prev (.elem e))) =
      if M.next (.head h₁) = some e then some (.head h₂) else
        if M.next (.head h₂) = some e then some (.head h₁) else some (prev (.elem e)) := by
  have hback : ∀ k, M.next (.head k) = some e → prev (.elem e) = .head k := by
    intro k hk
    rw [hM.next (queued_head Q k)] at hk
    have hprev := hM.prev_next (queued_head Q k)
    cases hy : next (.head k) with
    | head k' => simp [hy] at hk
    | elem e' =>
        rw [hy, pointer_elem] at hk
        rw [hy, Option.some.inj hk] at hprev
        exact hprev
  have hnext := hM.next (hM.queued_prev he)
  rw [hM.next_prev he, pointer_elem] at hnext
  cases hp : prev (.elem e) with
  | head k =>
      rw [hp] at hnext
      rw [exchange_head, Equiv.swap_apply_def]
      grind
  | elem x =>
      rw [exchange_elem]
      grind

theorem next_stailqOwn : (stailqOwn M h).next a = M.next a := by
  grind [stailqOwn]

theorem prev_stailqOwn {k : η} : (stailqOwn M h).prev (.head k) =
    if M.next (.head k) = none ∧ k = h then some (.head k) else M.prev (.head k) := by
  grind [stailqOwn]

theorem stailqSwap_spec (hM : Linked .stailq M next prev Q) :
    Swapped .stailq M (stailqSwap M h₁ h₂) h₁ h₂ prev Q where
  kept e hs := by simp [Kind.stored] at hs
  next a := by
    rw [stailqSwap, next_stailqOwn, next_stailqOwn, next_swapHeads, exchange_exchange]
  prev a _ hs := by
    cases a with
    | elem e => simp [Kind.stored] at hs
    | head k =>
        rw [← hM.prev_own hs, stailqSwap, exchange_head, prev_stailqOwn, prev_stailqOwn,
          next_stailqOwn, next_swapHeads, prev_swapHeads, ← exchange_head, exchange_exchange]

theorem next_listOwn : (listOwn M h).next a = M.next a := by
  grind [listOwn]

theorem prev_listOwn : (listOwn M h).prev (.elem e) =
    if M.next (.head h) = some e then some (.head h) else M.prev (.elem e) := by
  grind [listOwn]

theorem listSwap_spec (hM : Linked .list M next prev Q) :
    Swapped .list M (listSwap M h₁ h₂) h₁ h₂ prev Q where
  kept e _ hfirst₁ hfirst₂ := by
    rw [listSwap, prev_listOwn, prev_listOwn, next_listOwn]
    grind
  next a := by
    rw [listSwap, next_listOwn, next_listOwn]
    cases a with
    | head k =>
        rw [exchange_head, Equiv.swap_apply_def]
        grind
    | elem e => simp
  prev a ha hs := by
    cases a with
    | head k => simp [Kind.stored] at hs
    | elem e =>
        rw [hM.exchange_prev_elem ha, exchange_elem, listSwap, prev_listOwn, prev_listOwn,
          next_listOwn, ← hM.prev ha hs]
        grind

theorem next_tailqOwn : (tailqOwn M h).next a = M.next a := by
  grind [tailqOwn]

theorem prev_tailqOwn_elem : (tailqOwn M h).prev (.elem e) =
    if M.next (.head h) = some e then some (.head h) else M.prev (.elem e) := by
  grind [tailqOwn]

theorem prev_tailqOwn_head {k : η} : (tailqOwn M h).prev (.head k) =
    if M.next (.head k) = none ∧ k = h then some (.head k) else M.prev (.head k) := by
  grind [tailqOwn]

theorem tailqSwap_spec (hM : Linked .tailq M next prev Q) :
    Swapped .tailq M (tailqSwap M h₁ h₂) h₁ h₂ prev Q where
  kept e _ hfirst₁ hfirst₂ := by
    rw [tailqSwap, prev_tailqOwn_elem, prev_tailqOwn_elem, next_tailqOwn, next_swapHeads,
      next_swapHeads, prev_swapHeads, exchange_elem, exchange_head, exchange_head,
      Equiv.swap_apply_left, Equiv.swap_apply_right, if_neg hfirst₁, if_neg hfirst₂]
  next a := by
    rw [tailqSwap, next_tailqOwn, next_tailqOwn, next_swapHeads, exchange_exchange]
  prev a ha hs := by
    cases a with
    | elem e =>
        rw [hM.exchange_prev_elem ha, exchange_elem, tailqSwap, prev_tailqOwn_elem,
          prev_tailqOwn_elem, next_tailqOwn, next_swapHeads, next_swapHeads, prev_swapHeads,
          exchange_elem, exchange_head, exchange_head, Equiv.swap_apply_left,
          Equiv.swap_apply_right, hM.prev ha hs]
    | head k =>
        rw [← hM.prev_own hs, tailqSwap, exchange_head, prev_tailqOwn_head, prev_tailqOwn_head,
          next_tailqOwn, next_swapHeads, prev_swapHeads, ← exchange_head, exchange_exchange]

end Linked

end Libnc.Queue
