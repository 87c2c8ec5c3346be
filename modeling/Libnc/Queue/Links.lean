import Libnc.Queue.Model

/-!
# What a macro writes

The elements of every queue form a ring with its head; NULL at the end stands for
the head.  An insertion and a removal write the same links in all four structures,
as far as the structure has them, whichever way the macro finds the place.
-/

namespace Libnc.Queue

open Libnc.Foundation Rings

variable {η ε : Type}

inductive Kind where
  | slist
  | stailq
  | list
  | tailq
  deriving DecidableEq, Repr

/-- `last` of a head and `prev` of an entry, where the structure has the field. -/
def Kind.stored : Kind → Place η ε → Bool
  | .slist, _ => false
  | .stailq, .head _ => true
  | .stailq, .elem _ => false
  | .list, .head _ => false
  | .list, .elem _ => true
  | .tailq, _ => true

/-- The next pointer to a place: after the last element it is NULL. -/
def pointer : Place η ε → Option ε
  | .head _ => none
  | .elem e => some e

@[simp, grind =] theorem pointer_head (h : η) : pointer (.head h : Place η ε) = none := rfl

@[simp, grind =] theorem pointer_elem (e : ε) : pointer (.elem e : Place η ε) = some e := rfl

/-- The place is a head or an element of a queue. -/
def Queued (Q : η → List ε) (a : Place η ε) : Prop := ∃ h, a ∈ links h (Q h)

theorem queued_head (Q : η → List ε) (h : η) : Queued Q (.head h) := ⟨h, List.mem_cons_self⟩

theorem queued_elem {Q : η → List ε} {e : ε} {h : η} (he : e ∈ Q h) : Queued Q (.elem e) :=
  ⟨h, elem_mem_links.mpr he⟩

/-- The memory holds these rings. -/
structure Linked (kind : Kind) (M : Memory η ε) (next prev : Place η ε → Place η ε)
    (Q : η → List ε) : Prop where
  rings : Rings next prev Q
  next : ∀ {a}, Queued Q a → M.next a = pointer (next a)
  prev : ∀ {a}, Queued Q a → kind.stored a → M.prev a = some (prev a)

/-- The queues of the memory are `Q`. -/
def Holds (kind : Kind) (M : Memory η ε) (Q : η → List ε) : Prop :=
  ∃ next prev, Linked kind M next prev Q

/-- `elm` now stands between `p` and `y`. -/
structure Inserted [DecidableEq η] [DecidableEq ε] (kind : Kind) (M M' : Memory η ε)
    (p y : Place η ε) (elm : ε) : Prop where
  next : ∀ a, M'.next a =
    if a = .elem elm then pointer y else if a = p then some elm else M.next a
  prev : ∀ a, kind.stored a → M'.prev a =
    if a = y then some (.elem elm) else if a = .elem elm then some p else M.prev a

/-- `elm` no longer stands between `p` and `y`, and its own links are NULL. -/
structure Removed [DecidableEq η] [DecidableEq ε] (kind : Kind) (M M' : Memory η ε)
    (p y : Place η ε) (elm : ε) : Prop where
  next : ∀ a, M'.next a =
    if a = .elem elm then none else if a = p then pointer y else M.next a
  prev : ∀ a, kind.stored a → M'.prev a =
    if a = .elem elm then none else if a = y then some p else M.prev a

/-- The queue of `h₁` goes on after its end with that of `h₂`, and `h₂` is empty. -/
structure Joined [DecidableEq η] [DecidableEq ε] (kind : Kind) (M M' : Memory η ε) (h₁ h₂ : η)
    (end₁ first₂ end₂ : Place η ε) : Prop where
  next : ∀ a, M'.next a =
    if a = .head h₂ then none else if a = end₁ then pointer first₂ else M.next a
  prev : ∀ a, kind.stored a → M'.prev a =
    if a = .head h₂ then some (.head h₂) else
      if a = first₂ then some end₁ else if a = .head h₁ then some end₂ else M.prev a

/-- The links of two heads are exchanged, and so are the links to them. -/
structure Swapped [DecidableEq η] (kind : Kind) (M M' : Memory η ε) (h₁ h₂ : η)
    (pred : Place η ε → Place η ε) (Q : η → List ε) : Prop where
  next : ∀ a, M'.next (exchange h₁ h₂ a) = M.next a
  prev : ∀ a, Queued Q a → kind.stored a →
    M'.prev (exchange h₁ h₂ a) = some (exchange h₁ h₂ (pred a))
  kept : ∀ e, kind.stored (.elem e : Place η ε) → M.next (.head h₁) ≠ some e →
    M.next (.head h₂) ≠ some e → M'.prev (.elem e) = M.prev (.elem e)

variable {kind : Kind} {M M' : Memory η ε} {next prev : Place η ε → Place η ε}
  {Q : η → List ε} {h h₁ h₂ : η} {elm : ε} {before after : List ε} {a p : Place η ε}
  {asserting : Bool}

theorem Queued.ne_elem (ha : Queued Q a) (hfresh : ∀ k, elm ∉ Q k) : a ≠ .elem elm := by
  rintro rfl
  obtain ⟨k, hk⟩ := ha
  exact hfresh k (elem_mem_links.mp hk)

namespace Linked

theorem queued_next (hM : Linked kind M next prev Q) (ha : Queued Q a) : Queued Q (next a) :=
  ha.imp fun _ ha => hM.rings.next_mem ha

theorem queued_prev (hM : Linked kind M next prev Q) (ha : Queued Q a) : Queued Q (prev a) :=
  ha.imp fun _ ha => hM.rings.prev_mem ha

theorem prev_next (hM : Linked kind M next prev Q) (ha : Queued Q a) : prev (next a) = a := by
  obtain ⟨h, ha⟩ := ha
  exact hM.rings.prev_next ha

theorem next_prev (hM : Linked kind M next prev Q) (ha : Queued Q a) : next (prev a) = a := by
  obtain ⟨h, ha⟩ := ha
  exact hM.rings.next_prev ha

/-- An end of a ring is its own head. -/
theorem next_eq_head (hM : Linked kind M next prev Q) (ha : a ∈ links h (Q h)) {k : η}
    (hk : next a = .head k) : k = h := by
  have hmem := hM.rings.next_mem ha
  rw [hk] at hmem
  exact head_mem_links.mp hmem

variable [DecidableEq η]

/-- The head of an empty queue is exchanged with its own address. -/
theorem exchange_prev_head (hM : Linked kind M next prev Q) (h₁ h₂ k : η) :
    (M.next (.head k) = none → prev (.head k) = .head k) ∧
    (M.next (.head k) ≠ none → exchange h₁ h₂ (prev (.head k)) = prev (.head k)) := by
  rw [hM.next (queued_head Q k)]
  obtain ⟨-, hnext, hprev⟩ | ⟨first, last, -, -, hnext, hprev⟩ := hM.rings.head_cases k
  · simp [hnext, hprev]
  · simp [hnext, hprev]

/-- What both tail queues do with the end pointer of a head that has taken a queue over. -/
theorem prev_own (hM : Linked kind M next prev Q) {k : η}
    (hs : kind.stored (.head k : Place η ε)) :
    (if M.next (.head k) = none ∧ Equiv.swap h₁ h₂ k = h₂ then some (.head (Equiv.swap h₁ h₂ k))
      else if M.next (.head k) = none ∧ Equiv.swap h₁ h₂ k = h₁ then
        some (.head (Equiv.swap h₁ h₂ k)) else M.prev (.head k)) =
      some (exchange h₁ h₂ (prev (.head k))) := by
  have hempty := hM.exchange_prev_head h₁ h₂ k
  rw [hM.prev (queued_head Q k) hs]
  by_cases hnone : M.next (.head k) = none
  · rw [hempty.1 hnone, exchange_head, Equiv.swap_apply_def]
    grind
  · rw [hempty.2 hnone]
    simp [hnone]

theorem swap (hM : Linked kind M next prev Q) (hS : Swapped kind M M' h₁ h₂ prev Q) :
    Holds kind M' fun k => Q (Equiv.swap h₁ h₂ k) := by
  have hpointer : ∀ a : Place η ε, pointer (exchange h₁ h₂ a) = pointer a := by
    intro a
    cases a <;> rfl
  have hstored : ∀ a : Place η ε, kind.stored (exchange h₁ h₂ a) = kind.stored a := by
    intro a
    cases kind <;> cases a <;> rfl
  have hold : ∀ {a}, Queued (fun k => Q (Equiv.swap h₁ h₂ k)) a →
      ∃ b, Queued Q b ∧ a = exchange h₁ h₂ b := by
    rintro a ⟨k, hk⟩
    refine ⟨exchange h₁ h₂ a, ?_, exchange_exchange.symm⟩
    cases a with
    | head k' => exact queued_head Q _
    | elem e => exact queued_elem (elem_mem_links.mp hk)
  have hrings : Rings (fun a => exchange h₁ h₂ (next (exchange h₁ h₂ a)))
      (fun a => exchange h₁ h₂ (prev (exchange h₁ h₂ a))) fun k => Q (Equiv.swap h₁ h₂ k) :=
    hM.rings.swap (fun a => by rw [exchange_exchange])
      (fun a => by rw [exchange_exchange])
  refine ⟨_, _, hrings, ?_, ?_⟩
  · intro a ha
    obtain ⟨b, hb, rfl⟩ := hold ha
    rw [hS.next b, hM.next hb, hpointer, exchange_exchange]
  · intro a ha hs
    obtain ⟨b, hb, rfl⟩ := hold ha
    rw [hS.prev b hb (hstored b ▸ hs), exchange_exchange]

variable [DecidableEq ε]

theorem insert (hM : Linked kind M next prev Q) (hQ : Q h = before ++ after)
    (hp : (links h before).getLast? = some p) (hfresh : ∀ k, elm ∉ Q k)
    (hI : Inserted kind M M' p (next p) elm) :
    Holds kind M' (Function.update Q h (before ++ elm :: after)) := by
  have hold : ∀ {a}, Queued (Function.update Q h (before ++ elm :: after)) a →
      a ≠ .elem elm → Queued Q a := by
    intro a ha hne
    cases a with
    | head k => exact queued_head Q k
    | elem e =>
        obtain ⟨k, hk⟩ := ha
        rw [elem_mem_links] at hk
        by_cases hkh : k = h
        · subst hkh
          have hee : e ≠ elm := fun heq => hne (heq ▸ rfl)
          rw [Function.update_self] at hk
          apply queued_elem (h := k)
          simpa [hQ, hee] using hk
        · rw [Function.update_of_ne hkh] at hk
          exact queued_elem hk
  refine ⟨_, _, hM.rings.insert hQ hp hfresh (fun _ => rfl) (fun _ => rfl), ?_, ?_⟩
  · intro a ha
    rw [hI.next]
    by_cases hae : a = .elem elm
    · rw [if_pos hae, if_pos hae]
    · rw [if_neg hae, if_neg hae]
      split
      · rfl
      · exact hM.next (hold ha hae)
  · intro a ha hs
    rw [hI.prev a hs]
    by_cases hay : a = next p
    · rw [if_pos hay, if_pos hay]
    · rw [if_neg hay, if_neg hay]
      by_cases hae : a = .elem elm
      · rw [if_pos hae, if_pos hae]
      · rw [if_neg hae, if_neg hae]
        exact hM.prev (hold ha hae) hs

theorem remove (hM : Linked kind M next prev Q) (hQ : Q h = before ++ elm :: after)
    (hR : Removed kind M M' (prev (.elem elm)) (next (.elem elm)) elm) :
    Holds kind M' (Function.update Q h (before ++ after)) := by
  have hrings : Rings (fun a => if a = prev (.elem elm) then next (.elem elm) else next a)
      (fun a => if a = next (.elem elm) then prev (.elem elm) else prev a)
      (Function.update Q h (before ++ after)) :=
    hM.rings.remove hQ (fun _ _ => rfl) (fun _ _ => rfl)
  have hnodup := hM.rings.nodup h
  rw [hQ] at hnodup
  have hgone : ∀ k, elm ∉ Function.update Q h (before ++ after) k := by
    intro k hk
    by_cases hkh : k = h
    · subst hkh
      rw [Function.update_self] at hk
      exact (List.nodup_middle.mp hnodup).notMem hk
    · rw [Function.update_of_ne hkh] at hk
      exact hkh (hM.rings.disjoint hk (by simp [hQ]))
  have hold : ∀ {a}, Queued (Function.update Q h (before ++ after)) a → Queued Q a := by
    rintro a ⟨k, hk⟩
    by_cases hkh : k = h
    · subst hkh
      refine ⟨k, ?_⟩
      cases a with
      | head k' => simpa using hk
      | elem e =>
          rw [elem_mem_links] at hk ⊢
          rw [Function.update_self] at hk
          rw [hQ]
          exact (List.sublist_cons_self elm after).append_left before |>.subset hk
    · rw [Function.update_of_ne hkh] at hk
      exact ⟨k, hk⟩
  refine ⟨_, _, hrings, ?_, ?_⟩
  · intro a ha
    rw [hR.next, if_neg (ha.ne_elem hgone)]
    split
    · rfl
    · exact hM.next (hold ha)
  · intro a ha hs
    rw [hR.prev a hs, if_neg (ha.ne_elem hgone)]
    split
    · rfl
    · exact hM.prev (hold ha) hs

theorem concat (hM : Linked kind M next prev Q) (hne : h₁ ≠ h₂) (hQ : Q h₂ ≠ [])
    (hJ : Joined kind M M' h₁ h₂ (prev (.head h₁)) (next (.head h₂)) (prev (.head h₂))) :
    Holds kind M' (Function.update (Function.update Q h₁ (Q h₁ ++ Q h₂)) h₂ []) := by
  have hold : ∀ {a}, Queued (Function.update (Function.update Q h₁ (Q h₁ ++ Q h₂)) h₂ []) a →
      Queued Q a := by
    rintro a ⟨k, hk⟩
    cases a with
    | head k' => exact queued_head Q k'
    | elem e =>
        rw [elem_mem_links] at hk
        by_cases hk₂ : k = h₂
        · simp [hk₂] at hk
        · rw [Function.update_of_ne hk₂] at hk
          by_cases hk₁ : k = h₁
          · subst hk₁
            rw [Function.update_self] at hk
            rcases List.mem_append.mp hk with hk | hk
            · exact queued_elem hk
            · exact queued_elem hk
          · rw [Function.update_of_ne hk₁] at hk
            exact queued_elem hk
  refine ⟨_, _, hM.rings.concat hne hQ (fun _ => rfl) (fun _ => rfl), ?_, ?_⟩
  · intro a ha
    rw [hJ.next]
    by_cases hhead : a = .head h₂
    · rw [if_pos hhead, if_pos hhead, pointer_head]
    · rw [if_neg hhead, if_neg hhead]
      by_cases hlast : a = prev (.head h₁)
      · rw [if_pos hlast, if_pos hlast]
      · rw [if_neg hlast, if_neg hlast, hM.next (hold ha)]
        split
        · next hlast' => rw [hlast', hM.next_prev (queued_head Q h₂), pointer_head, pointer_head]
        · rfl
  · intro a ha hs
    rw [hJ.prev a hs, hM.prev (hold ha) hs]
    split
    · rfl
    · split
      · rfl
      · split <;> rfl

theorem reset (hM : Linked kind M next prev Q)
    (hnext : ∀ a, M'.next a = if a = .head h then none else M.next a)
    (hprev : ∀ a, kind.stored a → M'.prev a =
      if a = .head h then some (.head h) else M.prev a) :
    Holds kind M' (Function.update Q h []) := by
  have hold : ∀ {a}, Queued (Function.update Q h []) a → Queued Q a := by
    rintro a ⟨k, hk⟩
    cases a with
    | head k' => exact queued_head Q k'
    | elem e =>
        rw [elem_mem_links] at hk
        by_cases hkh : k = h
        · simp [hkh] at hk
        · rw [Function.update_of_ne hkh] at hk
          exact queued_elem hk
  have hrings : Rings (Function.update next (.head h) (.head h))
      (Function.update prev (.head h) (.head h)) (Function.update Q h []) := by
    apply hM.rings.reset
    · rw [Function.update_self]
    · rw [Function.update_self]
    · intro a ha
      rw [Function.update_of_ne ha]
    · intro a ha
      rw [Function.update_of_ne ha]
  refine ⟨_, _, hrings, ?_, ?_⟩
  · intro a ha
    rw [hnext, Function.update_apply]
    split
    · rfl
    · exact hM.next (hold ha)
  · intro a ha hs
    rw [hprev a hs, Function.update_apply]
    split
    · rfl
    · exact hM.prev (hold ha) hs

end Linked

end Libnc.Queue
