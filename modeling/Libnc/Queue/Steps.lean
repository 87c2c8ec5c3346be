import Libnc.Queue.Macros
import Libnc.Queue.Operations

/-!
# One macro

A permitted macro succeeds and has the effect that its caller expects.  It writes
nothing but the queues it names, and what it removes has NULL links.
-/

namespace Libnc.Queue

open Libnc.Foundation

variable {η ε : Type}

/-- The structure has the macro. -/
def Kind.has : Kind → Op η ε → Bool
  | _, .init _ => true
  | _, .insertHead _ _ => true
  | kind, .insertTail _ _ => kind = .stailq ∨ kind = .tailq
  | _, .insertAfter _ _ _ => true
  | kind, .insertBefore _ _ _ => kind = .list ∨ kind = .tailq
  | kind, .removeHead _ => kind = .slist ∨ kind = .stailq
  | kind, .removeAfter _ _ => kind = .slist ∨ kind = .stailq
  | _, .remove _ _ => true
  | kind, .concat _ _ => kind = .stailq ∨ kind = .tailq
  | kind, .swap _ _ => kind ≠ .slist

/-- The places that the macro may write: those of the queues and elements it names. -/
def Op.touches (op : Op η ε) (Q : η → List ε) (a : Place η ε) : Prop :=
  (∃ h ∈ op.heads, a ∈ links h (Q h)) ∨ ∃ e ∈ op.elems, a = .elem e

variable {kind : Kind} {M M' : Memory η ε} {next prev : Place η ε → Place η ε}
  {Q : η → List ε} {h h₁ h₂ : η} {e elm : ε} {before after : List ε} {a p : Place η ε}
  {op : Op η ε}

theorem mem_of_getLast? (hQ : Q h = before ++ after) (hp : (links h before).getLast? = some p) :
    p ∈ links h (Q h) := by
  have hmem := List.mem_of_getLast? hp
  rw [hQ]
  unfold links at hmem ⊢
  rw [List.map_append, ← List.cons_append]
  exact List.mem_append_left _ hmem

theorem getLast?_links {l : List ε} : (links h (l ++ [e])).getLast? = some (Link.elem e) := by
  unfold links
  rw [List.map_append, ← List.cons_append]
  exact List.getLast?_concat

theorem touches_links (hh : h ∈ op.heads) (ha : a ∈ links h (Q h)) : op.touches Q a :=
  .inl ⟨h, hh, ha⟩

theorem touches_insert (hh : h ∈ op.heads) (he : e ∈ op.elems)
    (ha : a ∈ links h (Q h) ∨ a = .elem e) : op.touches Q a :=
  ha.imp (fun ha => ⟨h, hh, ha⟩) fun ha => ⟨e, he, ha⟩

theorem not_touches (ha : ¬ op.touches Q a) (hh : h ∈ op.heads) :
    a ∉ links h (Q h) :=
  fun hmem => ha (.inl ⟨h, hh, hmem⟩)

theorem Linked.next_head (hM : Linked kind M next prev Q) {l : List ε} (hQ : Q h = e :: l) :
    next (.head h) = .elem e := by
  obtain ⟨hnil, -⟩ | ⟨first, last, hfirst, -, hnext, -⟩ := hM.rings.head_cases h
  · simp [hQ] at hnil
  · rw [hQ] at hfirst
    rw [hnext, Option.some.inj hfirst]

/-- The singly-linked structures find the element in front first. -/
theorem Linked.previous_spec [DecidableEq ε] {fuel : Nat} (hM : Linked kind M next prev Q)
    (he : elm ∈ Q h) (hfuel : (Q h).length ≤ fuel) :
    next (.head h) = .elem elm ∨
    ∃ x y, next (.head h) = .elem x ∧ x ≠ elm ∧ findPrevious M elm fuel x = some y ∧
      y ∈ Q h ∧ next (.elem y) = .elem elm := by
  obtain ⟨before, after, hQ⟩ := List.append_of_mem he
  cases before with
  | nil => exact .inl (hM.next_head hQ)
  | cons x before =>
      right
      have hne : x ≠ elm := by
        have hnodup := hM.rings.nodup h
        rintro rfl
        simp [hQ] at hnodup
      have hlength : before.length < fuel := by
        rw [hQ] at hfuel
        simp at hfuel
        omega
      have hcut : Q h = [] ++ x :: (before ++ elm :: after) := hQ
      obtain ⟨y, hy, hmem, hnext⟩ := hM.findPrevious_spec hcut hlength
      exact ⟨x, y, hM.next_head hQ, hne, hy, hmem, hnext⟩

variable [DecidableEq η]

theorem exchange_of_not_mem (hout₁ : a ∉ links h₁ (Q h₁)) (hout₂ : a ∉ links h₂ (Q h₂)) :
    exchange h₁ h₂ a = a := by
  cases a with
  | head k =>
      rw [head_mem_links] at hout₁ hout₂
      rw [exchange_head, Equiv.swap_apply_of_ne_of_ne hout₁ hout₂]
  | elem e => rfl

variable [DecidableEq ε]

/-- A macro under its structure; for the others there is no macro. -/
def exec (kind : Kind) (asserting : Bool) (fuel : Nat) (M : Memory η ε) (op : Op η ε) :
    Option (Memory η ε) :=
  match kind, op with
  | .slist, .init h => some (slistInit M h)
  | .slist, .insertHead h elm => some (slistInsertHead M h elm)
  | .slist, .insertAfter _ slistelm elm => some (slistInsertAfter M slistelm elm)
  | .slist, .removeHead h => slistRemoveHead M h
  | .slist, .removeAfter _ elm => slistRemoveAfter M elm
  | .slist, .remove h elm => slistRemove fuel M h elm
  | .stailq, .init h => some (stailqInit M h)
  | .stailq, .insertHead h elm => some (stailqInsertHead M h elm)
  | .stailq, .insertTail h elm => stailqInsertTail M h elm
  | .stailq, .insertAfter h tqelm elm => some (stailqInsertAfter M h tqelm elm)
  | .stailq, .removeHead h => stailqRemoveHead M h
  | .stailq, .removeAfter h elm => stailqRemoveAfter M h elm
  | .stailq, .remove h elm => stailqRemove fuel M h elm
  | .stailq, .concat head1 head2 => stailqConcat M head1 head2
  | .stailq, .swap head1 head2 => some (stailqSwap M head1 head2)
  | .list, .init h => some (listInit M h)
  | .list, .insertHead h elm => listInsertHead asserting M h elm
  | .list, .insertAfter _ listelm elm => listInsertAfter asserting M listelm elm
  | .list, .insertBefore _ listelm elm => listInsertBefore asserting M listelm elm
  | .list, .remove _ elm => listRemove asserting M elm
  | .list, .swap head1 head2 => some (listSwap M head1 head2)
  | .tailq, .init h => some (tailqInit M h)
  | .tailq, .insertHead h elm => tailqInsertHead asserting M h elm
  | .tailq, .insertTail h elm => tailqInsertTail asserting M h elm
  | .tailq, .insertAfter h listelm elm => tailqInsertAfter asserting M h listelm elm
  | .tailq, .insertBefore _ listelm elm => tailqInsertBefore asserting M listelm elm
  | .tailq, .remove h elm => tailqRemove asserting M h elm
  | .tailq, .concat head1 head2 => tailqConcat M head1 head2
  | .tailq, .swap head1 head2 => some (tailqSwap M head1 head2)
  | _, _ => none

structure Step (kind : Kind) (M M' : Memory η ε) (Q : η → List ε) (op : Op η ε) : Prop where
  holds : Holds kind M' (effect Q op)
  next : ∀ a, ¬ op.touches Q a → M'.next a = M.next a
  prev : ∀ a, kind.stored a → ¬ op.touches Q a → M'.prev a = M.prev a
  left : (∀ h, op ≠ .init h) → ∀ k e, e ∈ Q k → (∀ k, e ∉ effect Q op k) →
    M'.next (.elem e) = none ∧ (kind.stored (.elem e : Place η ε) → M'.prev (.elem e) = none)

namespace Linked

theorem insert_step (hM : Linked kind M next prev Q) (hQ : Q h = before ++ after)
    (hp : (links h before).getLast? = some p) (hfresh : ∀ k, elm ∉ Q k)
    (hI : Inserted kind M M' p (next p) elm)
    (heffect : effect Q op = Function.update Q h (before ++ elm :: after))
    (htouch : ∀ a, a ∈ links h (Q h) ∨ a = .elem elm → op.touches Q a) :
    Step kind M M' Q op where
  holds := by
    rw [heffect]
    exact hM.insert hQ hp hfresh hI
  next a ha := by
    have hae : a ≠ .elem elm := fun h => ha (htouch a (.inr h))
    have hap : a ≠ p := by
      rintro rfl
      exact ha (htouch a (.inl (mem_of_getLast? hQ hp)))
    rw [hI.next, if_neg hae, if_neg hap]
  prev a hs ha := by
    have hae : a ≠ .elem elm := fun h => ha (htouch a (.inr h))
    have hay : a ≠ next p := by
      rintro rfl
      exact ha (htouch _ (.inl (hM.rings.next_mem (mem_of_getLast? hQ hp))))
    rw [hI.prev a hs, if_neg hay, if_neg hae]
  left _ k e he hgone := by
    rw [heffect] at hgone
    apply absurd _ (hgone k)
    by_cases hk : k = h
    · subst hk
      rw [hQ, List.mem_append] at he
      rw [Function.update_self]
      simp only [List.mem_append, List.mem_cons]
      tauto
    · rwa [Function.update_of_ne hk]

theorem remove_step (hM : Linked kind M next prev Q) (hQ : Q h = before ++ elm :: after)
    (hR : Removed kind M M' (prev (.elem elm)) (next (.elem elm)) elm)
    (heffect : effect Q op = Function.update Q h (before ++ after))
    (htouch : ∀ a, a ∈ links h (Q h) → op.touches Q a) : Step kind M M' Q op := by
  have hmem : Link.elem elm ∈ links h (Q h) := by simp [hQ]
  constructor
  · rw [heffect]
    exact hM.remove hQ hR
  · intro a ha
    have hae : a ≠ .elem elm := by
      rintro rfl
      exact ha (htouch _ hmem)
    have hap : a ≠ prev (.elem elm) := by
      rintro rfl
      exact ha (htouch _ (hM.rings.prev_mem hmem))
    rw [hR.next, if_neg hae, if_neg hap]
  · intro a hs ha
    have hae : a ≠ .elem elm := by
      rintro rfl
      exact ha (htouch _ hmem)
    have hay : a ≠ next (.elem elm) := by
      rintro rfl
      exact ha (htouch _ (hM.rings.next_mem hmem))
    rw [hR.prev a hs, if_neg hae, if_neg hay]
  · intro _ k e he hgone
    obtain rfl : e = elm := by
      by_contra hne
      rw [heffect] at hgone
      apply hgone k
      by_cases hk : k = h
      · subst hk
        rw [hQ] at he
        rw [Function.update_self]
        simpa [hne] using he
      · rwa [Function.update_of_ne hk]
    constructor
    · rw [hR.next, if_pos rfl]
    · intro hs
      rw [hR.prev _ hs, if_pos rfl]

theorem reset_step (hM : Linked kind M next prev Q)
    (hnext : ∀ a, M'.next a = if a = .head h then none else M.next a)
    (hprev : ∀ a, kind.stored a → M'.prev a = if a = .head h then some (.head h) else M.prev a) :
    Step kind M M' Q (.init h) where
  holds := hM.reset hnext hprev
  next a ha := by
    have hne : a ≠ .head h := by
      rintro rfl
      exact ha (.inl ⟨h, by simp [Op.heads], by simp⟩)
    rw [hnext, if_neg hne]
  prev a hs ha := by
    have hne : a ≠ .head h := by
      rintro rfl
      exact ha (.inl ⟨h, by simp [Op.heads], by simp⟩)
    rw [hprev a hs, if_neg hne]
  left hinit := absurd rfl (hinit h)

theorem concat_step (hM : Linked kind M next prev Q) (hne : h₁ ≠ h₂) (hQ : Q h₂ ≠ [])
    (hJ : Joined kind M M' h₁ h₂ (prev (.head h₁)) (next (.head h₂)) (prev (.head h₂))) :
    Step kind M M' Q (.concat h₁ h₂) where
  holds := hM.concat hne hQ hJ
  next a ha := by
    have hout₁ := not_touches ha (h := h₁) (by simp [Op.heads])
    have hout₂ := not_touches ha (h := h₂) (by simp [Op.heads])
    have hhead : a ≠ .head h₂ := fun heq => hout₂ (by simp [heq])
    have hend : a ≠ prev (.head h₁) := by
      rintro rfl
      exact hout₁ (hM.rings.prev_mem List.mem_cons_self)
    rw [hJ.next, if_neg hhead, if_neg hend]
  prev a hs ha := by
    have hout₁ := not_touches ha (h := h₁) (by simp [Op.heads])
    have hout₂ := not_touches ha (h := h₂) (by simp [Op.heads])
    have hhead₁ : a ≠ .head h₁ := fun heq => hout₁ (by simp [heq])
    have hhead₂ : a ≠ .head h₂ := fun heq => hout₂ (by simp [heq])
    have hfirst : a ≠ next (.head h₂) := by
      rintro rfl
      exact hout₂ (hM.rings.next_mem List.mem_cons_self)
    rw [hJ.prev a hs, if_neg hhead₂, if_neg hfirst, if_neg hhead₁]
  left _ k e he hgone := by
    have hgone₁ := hgone h₁
    have hgonek := hgone k
    simp only [effect] at hgone₁ hgonek
    rw [Function.update_of_ne hne, Function.update_self, List.mem_append, not_or] at hgone₁
    by_cases hk₂ : k = h₂
    · exact absurd (hk₂ ▸ he) hgone₁.2
    · by_cases hk₁ : k = h₁
      · exact absurd (hk₁ ▸ he) hgone₁.1
      · rw [Function.update_of_ne hk₂, Function.update_of_ne hk₁] at hgonek
        exact absurd he hgonek

theorem swap_step (hM : Linked kind M next prev Q) (hS : Swapped kind M M' h₁ h₂ prev Q) :
    Step kind M M' Q (.swap h₁ h₂) where
  holds := hM.swap hS
  next a ha := by
    have hout₁ := not_touches ha (h := h₁) (by simp [Op.heads])
    have hout₂ := not_touches ha (h := h₂) (by simp [Op.heads])
    have hnext := hS.next a
    rwa [exchange_of_not_mem hout₁ hout₂] at hnext
  prev a hs ha := by
    have hout₁ := not_touches ha (h := h₁) (by simp [Op.heads])
    have hout₂ := not_touches ha (h := h₂) (by simp [Op.heads])
    cases a with
    | head k =>
        have hprev := hS.prev (.head k) (queued_head Q k) hs
        have hmem := hM.rings.prev_mem (h := k) (a := .head k) (by simp)
        rw [head_mem_links] at hout₁ hout₂
        rw [exchange_head, Equiv.swap_apply_of_ne_of_ne hout₁ hout₂] at hprev
        rw [hprev, hM.prev (queued_head Q k) hs, exchange_of_not_mem (Q := Q)]
        · exact fun hmem' => hout₁ (hM.rings.links_disjoint hmem hmem')
        · exact fun hmem' => hout₂ (hM.rings.links_disjoint hmem hmem')
    | elem e =>
        have hfirst : ∀ k, .elem e ∉ links k (Q k) → M.next (.head k) ≠ some e := by
          intro k hout heq
          have hmem := hM.rings.next_mem (h := k) (a := .head k) (by simp)
          rw [hM.next (queued_head Q k)] at heq
          cases hy : next (.head k) with
          | head k' => simp [hy] at heq
          | elem x =>
              rw [hy, pointer_elem] at heq
              rw [hy, Option.some.inj heq] at hmem
              exact hout hmem
        exact hS.kept e hs (hfirst h₁ hout₁) (hfirst h₂ hout₂)
  left _ k e he hgone := by
    apply absurd _ (hgone (Equiv.swap h₁ h₂ k))
    simp only [effect]
    rwa [Equiv.swap_apply_self]

/-! ## One macro of each structure -/

variable (asserting : Bool) (fuel : Nat)

theorem init_spec (hM : Linked kind M next prev Q) (h : η) :
    ∃ M', exec kind asserting fuel M (.init h) = some M' ∧ Step kind M M' Q (.init h) := by
  cases kind with
  | slist => exact ⟨_, rfl, hM.reset_step (by simp [slistInit]) (by simp [Kind.stored])⟩
  | stailq =>
      refine ⟨_, rfl, hM.reset_step (by simp [stailqInit]) fun a hs => ?_⟩
      simp [stailqInit]
  | list =>
      refine ⟨_, rfl, hM.reset_step (by simp [listInit]) fun a hs => ?_⟩
      cases a with
      | head k => simp [Kind.stored] at hs
      | elem e => simp [listInit]
  | tailq =>
      refine ⟨_, rfl, hM.reset_step (by simp [tailqInit]) fun a hs => ?_⟩
      simp [tailqInit]

theorem insertHead_spec (hM : Linked kind M next prev Q) (hfresh : ∀ k, elm ∉ Q k) :
    ∃ M', exec kind asserting fuel M (.insertHead h elm) = some M' ∧
      Step kind M M' Q (.insertHead h elm) := by
  have hhead : Link.head h ∈ links h (Q h) := List.mem_cons_self
  have hrun : ∃ M', exec kind asserting fuel M (.insertHead h elm) = some M' ∧
      Inserted kind M M' (.head h) (next (.head h)) elm := by
    cases kind with
    | slist => exact ⟨_, rfl, hM.slistInsert_spec ⟨h, hhead⟩ hfresh⟩
    | stailq => exact ⟨_, rfl, hM.stailqInsert_spec hhead hfresh⟩
    | list => exact hM.listInsert_spec asserting ⟨h, hhead⟩ hfresh
    | tailq => exact hM.tailqInsert_spec asserting hhead hfresh
  obtain ⟨M', hrun, hI⟩ := hrun
  refine ⟨M', hrun, hM.insert_step (List.nil_append _).symm rfl hfresh hI rfl fun a ha => ?_⟩
  exact touches_insert (by simp [Op.heads]) (by simp [Op.elems]) ha

theorem insertTail_spec (hM : Linked kind M next prev Q)
    (hhas : kind.has (.insertTail h elm)) (hfresh : ∀ k, elm ∉ Q k) :
    ∃ M', exec kind asserting fuel M (.insertTail h elm) = some M' ∧
      Step kind M M' Q (.insertTail h elm) := by
  have hnext : next (prev (.head h)) = .head h := hM.next_prev (queued_head Q h)
  have hrun : ∃ M', exec kind asserting fuel M (.insertTail h elm) = some M' ∧
      Inserted kind M M' (prev (.head h)) (next (prev (.head h))) elm := by
    rw [hnext]
    cases kind with
    | slist => simp [Kind.has] at hhas
    | stailq => exact hM.stailqInsertTail_spec hfresh
    | list => simp [Kind.has] at hhas
    | tailq => exact hM.tailqInsertTail_spec asserting hfresh
  obtain ⟨M', hrun, hI⟩ := hrun
  refine ⟨M', hrun, hM.insert_step (List.append_nil _).symm (hM.rings.ring h).prev_head.symm
    hfresh hI rfl fun a ha => ?_⟩
  exact touches_insert (by simp [Op.heads]) (by simp [Op.elems]) ha

theorem insertAfter_spec (hM : Linked kind M next prev Q) (he : e ∈ Q h)
    (hfresh : ∀ k, elm ∉ Q k) :
    ∃ M', exec kind asserting fuel M (.insertAfter h e elm) = some M' ∧
      Step kind M M' Q (.insertAfter h e elm) := by
  have hmem : Link.elem e ∈ links h (Q h) := elem_mem_links.mpr he
  have hrun : ∃ M', exec kind asserting fuel M (.insertAfter h e elm) = some M' ∧
      Inserted kind M M' (.elem e) (next (.elem e)) elm := by
    cases kind with
    | slist => exact ⟨_, rfl, hM.slistInsert_spec ⟨h, hmem⟩ hfresh⟩
    | stailq => exact ⟨_, rfl, hM.stailqInsert_spec hmem hfresh⟩
    | list => exact hM.listInsert_spec asserting ⟨h, hmem⟩ hfresh
    | tailq => exact hM.tailqInsert_spec asserting hmem hfresh
  obtain ⟨M', hrun, hI⟩ := hrun
  obtain ⟨before, after, hQ, hfront⟩ := exists_cut (hM.rings.nodup h) he
  have hcut : Q h = (before ++ [e]) ++ after := by simp [hQ]
  refine ⟨M', hrun, hM.insert_step hcut getLast?_links hfresh hI ?_ fun a ha => ?_⟩
  · simp [effect, hQ, insertBehind_append hfront]
  · exact touches_insert (by simp [Op.heads]) (by simp [Op.elems]) ha

theorem insertBefore_spec (hM : Linked kind M next prev Q) (he : e ∈ Q h)
    (hhas : kind.has (.insertBefore h e elm)) (hfresh : ∀ k, elm ∉ Q k) :
    ∃ M', exec kind asserting fuel M (.insertBefore h e elm) = some M' ∧
      Step kind M M' Q (.insertBefore h e elm) := by
  have hnext : next (prev (.elem e)) = .elem e := hM.next_prev (queued_elem he)
  have hrun : ∃ M', exec kind asserting fuel M (.insertBefore h e elm) = some M' ∧
      Inserted kind M M' (prev (.elem e)) (next (prev (.elem e))) elm := by
    rw [hnext]
    cases kind with
    | slist => simp [Kind.has] at hhas
    | stailq => simp [Kind.has] at hhas
    | list => exact hM.listInsertBefore_spec asserting (queued_elem he) hfresh fun _ => rfl
    | tailq => exact hM.listInsertBefore_spec asserting (queued_elem he) hfresh fun _ => rfl
  obtain ⟨M', hrun, hI⟩ := hrun
  obtain ⟨before, after, hQ, hfront⟩ := exists_cut (hM.rings.nodup h) he
  refine ⟨M', hrun, hM.insert_step hQ (hM.rings.prev_elem hQ).symm hfresh hI ?_ fun a ha => ?_⟩
  · simp [effect, hQ, insertInFront_append hfront]
  · exact touches_insert (by simp [Op.heads]) (by simp [Op.elems]) ha

theorem removeHead_spec (hM : Linked kind M next prev Q)
    (hhas : kind.has (.removeHead h : Op η ε)) (hne : Q h ≠ []) :
    ∃ M', exec kind asserting fuel M (.removeHead h) = some M' ∧
      Step kind M M' Q (.removeHead h) := by
  obtain ⟨elm, rest, hQ⟩ := List.exists_cons_of_ne_nil hne
  have hnext : next (.head h) = .elem elm := hM.next_head hQ
  have hback : prev (.elem elm) = .head h := hnext ▸ hM.prev_next (queued_head Q h)
  have hrun : ∃ M', exec kind asserting fuel M (.removeHead h) = some M' ∧
      Removed kind M M' (prev (.elem elm)) (next (.elem elm)) elm := by
    rw [hback]
    cases kind with
    | slist => exact hM.slistUnlink_spec (queued_head Q h) hnext
    | stailq => exact hM.stailqUnlink_spec List.mem_cons_self hnext
    | list => simp [Kind.has] at hhas
    | tailq => simp [Kind.has] at hhas
  obtain ⟨M', hrun, hR⟩ := hrun
  have hcut : Q h = [] ++ elm :: rest := hQ
  refine ⟨M', hrun, hM.remove_step hcut hR ?_ fun a ha => ?_⟩
  · simp [effect, hQ]
  · exact touches_links (by simp [Op.heads]) ha

theorem removeAfter_spec (hM : Linked kind M next prev Q) (he : e ∈ Q h)
    (hhas : kind.has (.removeAfter h e)) (hlast : (Q h).getLast? ≠ some e) :
    ∃ M', exec kind asserting fuel M (.removeAfter h e) = some M' ∧
      Step kind M M' Q (.removeAfter h e) := by
  obtain ⟨before, after, hQ, hfront⟩ := exists_cut (hM.rings.nodup h) he
  cases after with
  | nil => exact absurd (by rw [hQ]; exact List.getLast?_concat) hlast
  | cons elm after =>
      have hnext : next (.elem e) = .elem elm := Option.some.inj (hM.rings.next_elem hQ)
      have hback : prev (.elem elm) = .elem e := hnext ▸ hM.prev_next (queued_elem he)
      have hrun : ∃ M', exec kind asserting fuel M (.removeAfter h e) = some M' ∧
          Removed kind M M' (prev (.elem elm)) (next (.elem elm)) elm := by
        rw [hback]
        cases kind with
        | slist => exact hM.slistUnlink_spec (queued_elem he) hnext
        | stailq => exact hM.stailqUnlink_spec (elem_mem_links.mpr he) hnext
        | list => simp [Kind.has] at hhas
        | tailq => simp [Kind.has] at hhas
      obtain ⟨M', hrun, hR⟩ := hrun
      have hcut : Q h = (before ++ [e]) ++ elm :: after := by simp [hQ]
      refine ⟨M', hrun, hM.remove_step hcut hR ?_ fun a ha => ?_⟩
      · simp [effect, hQ, eraseBehind_append hfront]
      · exact touches_links (by simp [Op.heads]) ha

theorem removed_spec (hM : Linked kind M next prev Q) (he : elm ∈ Q h)
    (hfuel : (Q h).length ≤ fuel) :
    ∃ M', exec kind asserting fuel M (.remove h elm) = some M' ∧
      Removed kind M M' (prev (.elem elm)) (next (.elem elm)) elm := by
  have hfirst := hM.next (queued_head Q h)
  have hfound := hM.previous_spec he hfuel
  have hprev : ∀ {p}, p ∈ links h (Q h) → next p = .elem elm → prev (.elem elm) = p :=
    fun hp hnext => hnext ▸ hM.rings.prev_next hp
  cases kind with
  | slist =>
      simp only [exec]
      unfold slistRemove
      rcases hfound with hhead | ⟨x, y, hhead, hx, hy, hmem, hnext⟩
      · rw [hfirst, hhead, pointer_elem, if_pos rfl, hprev List.mem_cons_self hhead]
        exact hM.slistUnlink_spec (queued_head Q h) hhead
      · rw [hfirst, hhead, pointer_elem, if_neg (mt Option.some.inj hx), Option.bind_eq_bind,
          Option.bind_some, hy, hprev (elem_mem_links.mpr hmem) hnext]
        exact hM.slistUnlink_spec (queued_elem hmem) hnext
  | stailq =>
      simp only [exec]
      unfold stailqRemove
      rcases hfound with hhead | ⟨x, y, hhead, hx, hy, hmem, hnext⟩
      · rw [hfirst, hhead, pointer_elem, if_pos rfl, hprev List.mem_cons_self hhead]
        exact hM.stailqUnlink_spec List.mem_cons_self hhead
      · rw [hfirst, hhead, pointer_elem, if_neg (mt Option.some.inj hx), Option.bind_eq_bind,
          Option.bind_some, hy, hprev (elem_mem_links.mpr hmem) hnext]
        exact hM.stailqUnlink_spec (elem_mem_links.mpr hmem) hnext
  | list => exact hM.listRemove_spec asserting (queued_elem he)
  | tailq => exact hM.tailqRemove_spec asserting he

theorem remove_spec (hM : Linked kind M next prev Q) (he : elm ∈ Q h)
    (hfuel : (Q h).length ≤ fuel) :
    ∃ M', exec kind asserting fuel M (.remove h elm) = some M' ∧
      Step kind M M' Q (.remove h elm) := by
  obtain ⟨before, after, hQ, hfront⟩ := exists_cut (hM.rings.nodup h) he
  obtain ⟨M', hrun, hR⟩ := hM.removed_spec asserting fuel he hfuel
  refine ⟨M', hrun, hM.remove_step hQ hR ?_ fun a ha => ?_⟩
  · simp [effect, hQ, List.erase_append_right _ hfront]
  · exact touches_links (by simp [Op.heads]) ha

/-- Nothing is to be done if the second queue is empty. -/
theorem concat_nil_step (hM : Linked kind M next prev Q) (h₁ : η) (hQ : Q h₂ = []) :
    M.next (.head h₂) = none ∧ Step kind M M Q (.concat h₁ h₂) := by
  have hsame : effect Q (.concat h₁ h₂) = Q := by
    simp [effect, hQ]
  constructor
  · obtain ⟨-, hnext, -⟩ | ⟨first, last, hfirst, -⟩ := hM.rings.head_cases h₂
    · rw [hM.next (queued_head Q h₂), hnext, pointer_head]
    · simp [hQ] at hfirst
  · constructor
    · rw [hsame]
      exact ⟨next, prev, hM⟩
    · exact fun _ _ => rfl
    · exact fun _ _ _ => rfl
    · intro _ k e he hgone
      rw [hsame] at hgone
      exact absurd he (hgone k)

theorem concat_spec (hM : Linked kind M next prev Q)
    (hhas : kind.has (.concat h₁ h₂ : Op η ε)) (hne : h₁ ≠ h₂) :
    ∃ M', exec kind asserting fuel M (.concat h₁ h₂) = some M' ∧
      Step kind M M' Q (.concat h₁ h₂) := by
  by_cases hQ : Q h₂ = []
  · obtain ⟨hnone, hstep⟩ := hM.concat_nil_step h₁ hQ
    refine ⟨M, ?_, hstep⟩
    cases kind with
    | slist => simp [Kind.has] at hhas
    | stailq => simp [exec, stailqConcat, hnone]
    | list => simp [Kind.has] at hhas
    | tailq => simp [exec, tailqConcat, hnone]
  · cases kind with
    | slist => simp [Kind.has] at hhas
    | stailq =>
        obtain ⟨M', hrun, hJ⟩ := hM.stailqConcat_spec hQ
        exact ⟨M', hrun, hM.concat_step hne hQ hJ⟩
    | list => simp [Kind.has] at hhas
    | tailq =>
        obtain ⟨M', hrun, hJ⟩ := hM.tailqConcat_spec hQ
        exact ⟨M', hrun, hM.concat_step hne hQ hJ⟩

theorem swap_spec (hM : Linked kind M next prev Q) (hhas : kind.has (.swap h₁ h₂ : Op η ε)) :
    ∃ M', exec kind asserting fuel M (.swap h₁ h₂) = some M' ∧
      Step kind M M' Q (.swap h₁ h₂) := by
  cases kind with
  | slist => simp [Kind.has] at hhas
  | stailq => exact ⟨_, rfl, hM.swap_step hM.stailqSwap_spec⟩
  | list => exact ⟨_, rfl, hM.swap_step hM.listSwap_spec⟩
  | tailq => exact ⟨_, rfl, hM.swap_step hM.tailqSwap_spec⟩

end Linked

/-- A permitted macro succeeds; the search of `REMOVE` ends within the length of the queue. -/
theorem exec_spec (asserting : Bool) {fuel : Nat} (hM : Holds kind M Q) (hhas : kind.has op)
    (hop : Allowed Q op) (hfuel : ∀ h elm, op = .remove h elm → (Q h).length ≤ fuel) :
    ∃ M', exec kind asserting fuel M op = some M' ∧ Step kind M M' Q op := by
  obtain ⟨next, prev, hM⟩ := hM
  cases op with
  | init h => exact hM.init_spec asserting fuel h
  | insertHead h elm => exact hM.insertHead_spec asserting fuel hop
  | insertTail h elm => exact hM.insertTail_spec asserting fuel hhas hop
  | insertAfter h listelm elm => exact hM.insertAfter_spec asserting fuel hop.1 hop.2
  | insertBefore h listelm elm => exact hM.insertBefore_spec asserting fuel hop.1 hhas hop.2
  | removeHead h => exact hM.removeHead_spec asserting fuel hhas hop
  | removeAfter h elm => exact hM.removeAfter_spec asserting fuel hop.1 hhas hop.2
  | remove h elm => exact hM.remove_spec asserting fuel hop (hfuel h elm rfl)
  | concat h₁ h₂ => exact hM.concat_spec asserting fuel hhas hop
  | swap h₁ h₂ => exact hM.swap_spec asserting fuel hhas

end Libnc.Queue
