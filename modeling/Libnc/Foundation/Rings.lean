import Mathlib.Logic.Equiv.Basic
import Libnc.Foundation.Ring

/-!
# Families of rings

Several rings share one pair of link functions.  Every ring has a head of its
own, and an element is a cell of at most one ring.  Inserting and deleting an
element, appending one ring to another and exchanging two of them are local
updates of the link functions.
-/

namespace Libnc.Foundation

theorem ne_of_mem_dropLast {α : Type*} {l : List α} {a p : α} (hnodup : l.Nodup)
    (ha : a ∈ l.dropLast) (hp : l.getLast? = some p) : a ≠ p := by
  obtain ⟨init, rfl⟩ := List.getLast?_eq_some_iff.mp hp
  rw [List.dropLast_concat] at ha
  exact (List.nodup_append.mp hnodup).2.2 a ha p List.mem_cons_self

theorem ne_of_mem_tail {α : Type*} {l : List α} {a p : α} (hnodup : l.Nodup)
    (ha : a ∈ l.tail) (hp : l.head? = some p) : a ≠ p := by
  obtain ⟨rest, rfl⟩ := List.head?_eq_some_iff.mp hp
  exact fun hap => (List.nodup_cons.mp hnodup).1 (hap ▸ ha)

namespace Ring

variable {α β : Type*} {next prev next' prev' : α → α} {head head' x : α} {cells cells' : List α}

/-- Renaming the cells renames the links. -/
theorem map (σ : α ≃ β) {f g : β → β} (h : Ring next prev head cells)
    (hf : ∀ a, f (σ a) = σ (next a)) (hg : ∀ a, g (σ a) = σ (prev a)) :
    Ring f g (σ head) (cells.map σ) where
  nodup := by
    rw [← List.map_cons]
    exact h.nodup.map σ.injective
  chain := by
    have hmap : σ head :: (cells.map σ ++ [σ head]) = (head :: (cells ++ [head])).map σ := by
      simp
    rw [hmap, List.isChain_map]
    apply h.chain.imp
    intro a b hab
    constructor
    · rw [hf, hab.1]
    · rw [hg, hab.2]

theorem isChain_head (h : Ring next prev head cells) :
    (head :: cells).IsChain (Adjacent next prev) := by
  have hchain := h.chain
  rw [← List.cons_append] at hchain
  exact hchain.left_of_append

theorem isChain_cells (h : Ring next prev head cells) :
    cells.IsChain (Adjacent next prev) := by
  have hchain := h.chain
  rw [List.isChain_cons] at hchain
  exact hchain.2.left_of_append

/-- The last cell of one ring is joined to the first of the other. -/
theorem concat [DecidableEq α] (h : Ring next prev head cells) (h' : Ring next prev head' cells')
    (hdisj : ∀ a ∈ head :: cells, a ∉ head' :: cells') (hne : cells' ≠ [])
    (hnext : ∀ a, a ≠ head' → next' a =
      if a = prev head then next head' else if a = prev head' then head else next a)
    (hprev : ∀ a, a ≠ head' → prev' a =
      if a = next head' then prev head else if a = head then prev head' else prev a) :
    Ring next' prev' head (cells ++ cells') := by
  obtain ⟨first, rest, rfl⟩ := List.exists_cons_of_ne_nil hne
  have hp := h.prev_head.symm
  have hq : (first :: rest).getLast? = some (prev head') :=
    List.getLast?_cons_cons.symm.trans h'.prev_head.symm
  have hfirst : next head' = first := by simpa using h'.next_head
  have hpmem := h.prev_mem List.mem_cons_self
  have hqmem := h'.prev_mem List.mem_cons_self
  obtain ⟨hhead', hnodup'⟩ := List.nodup_cons.mp h'.nodup
  have hhead : head ∉ cells := (List.nodup_cons.mp h.nodup).1
  have hout : ∀ a ∈ head :: cells, a ≠ head' ∧ a ≠ prev head' ∧ a ≠ first := by
    intro a ha
    have hnot := hdisj a ha
    refine ⟨?_, ?_, ?_⟩ <;> rintro rfl
    · exact hnot List.mem_cons_self
    · exact hnot hqmem
    · simp at hnot
  have hout' : ∀ a ∈ first :: rest, a ≠ head' ∧ a ≠ prev head ∧ a ≠ head := by
    intro a ha
    refine ⟨?_, ?_, ?_⟩ <;> rintro rfl
    · exact hhead' ha
    · exact hdisj _ hpmem (List.mem_cons_of_mem _ ha)
    · exact hdisj _ List.mem_cons_self (List.mem_cons_of_mem _ ha)
  rw [hfirst] at hnext hprev
  constructor
  · have hlist : head :: (cells ++ (first :: rest) ++ [head]) =
        (head :: cells) ++ ((first :: rest) ++ [head]) := by simp
    rw [hlist, List.isChain_append]
    refine ⟨?_, List.isChain_append.mpr ⟨?_, by simp, ?_⟩, ?_⟩
    · refine isChain_adjacent_congr (fun a ha => ?_) (fun b hb => ?_) h.isChain_head
      · obtain ⟨hhd, hql, -⟩ := hout a (List.dropLast_subset _ ha)
        rw [hnext a hhd, if_neg (ne_of_mem_dropLast h.nodup ha hp), if_neg hql]
      · obtain ⟨hhd, -, hfl⟩ := hout b (List.mem_of_mem_tail hb)
        have hbh : b ≠ head := fun hbh => hhead (hbh ▸ hb)
        rw [hprev b hhd, if_neg hfl, if_neg hbh]
    · refine isChain_adjacent_congr (fun a ha => ?_) (fun b hb => ?_) h'.isChain_cells
      · obtain ⟨hhd, hpl, -⟩ := hout' a (List.dropLast_subset _ ha)
        rw [hnext a hhd, if_neg hpl, if_neg (ne_of_mem_dropLast hnodup' ha hq)]
      · obtain ⟨hhd, -, hbh⟩ := hout' b (List.mem_of_mem_tail hb)
        rw [hprev b hhd, if_neg (ne_of_mem_tail hnodup' hb rfl), if_neg hbh]
    · intro a ha b hb
      obtain rfl : a = prev head' := Option.some.inj (ha.symm.trans hq)
      obtain rfl : head = b := by simpa using hb
      obtain ⟨hhd, hpl, -⟩ := hout' (prev head') (List.mem_of_getLast? hq)
      obtain ⟨hhd', -, hfl⟩ := hout head List.mem_cons_self
      constructor
      · rw [hnext _ hhd, if_neg hpl, if_pos rfl]
      · rw [hprev _ hhd', if_neg hfl, if_pos rfl]
    · intro a ha b hb
      obtain rfl : a = prev head := Option.some.inj (ha.symm.trans hp)
      obtain rfl : first = b := by simpa using hb
      constructor
      · rw [hnext _ (hout _ hpmem).1, if_pos rfl]
      · rw [hprev _ (hout' _ List.mem_cons_self).1, if_pos rfl]
  · rw [← List.cons_append]
    refine List.nodup_append.mpr ⟨h.nodup, hnodup', ?_⟩
    rintro a ha b hb rfl
    exact hdisj a ha (List.mem_cons_of_mem _ hb)

end Ring

/-- A place that has links: the head of a ring or an element. -/
inductive Link (η ε : Type*) where
  | head (h : η)
  | elem (e : ε)
  deriving DecidableEq

variable {η ε : Type*} {next prev next' prev' : Link η ε → Link η ε} {Q : η → List ε}
  {h h' h₁ h₂ : η} {e : ε} {before after : List ε} {a p : Link η ε}

def links (h : η) (l : List ε) : List (Link η ε) := .head h :: l.map .elem

@[simp] theorem head_mem_links {l : List ε} : Link.head h ∈ links h' l ↔ h = h' := by
  simp [links]

@[simp] theorem elem_mem_links {l : List ε} : Link.elem e ∈ links h l ↔ e ∈ l := by
  simp [links]

/-- Two heads change places. -/
def exchange [DecidableEq η] (h₁ h₂ : η) : Link η ε ≃ Link η ε where
  toFun
    | .head k => .head (Equiv.swap h₁ h₂ k)
    | .elem e => .elem e
  invFun
    | .head k => .head (Equiv.swap h₁ h₂ k)
    | .elem e => .elem e
  left_inv a := by cases a <;> simp
  right_inv a := by cases a <;> simp

@[simp] theorem exchange_head [DecidableEq η] {k : η} :
    (exchange h₁ h₂ (.head k) : Link η ε) = .head (Equiv.swap h₁ h₂ k) := rfl

@[simp] theorem exchange_elem [DecidableEq η] :
    (exchange h₁ h₂ (.elem e) : Link η ε) = .elem e := rfl

@[simp] theorem exchange_exchange [DecidableEq η] :
    exchange h₁ h₂ (exchange h₁ h₂ a) = a :=
  (exchange h₁ h₂).left_inv a

structure Rings (next prev : Link η ε → Link η ε) (Q : η → List ε) : Prop where
  ring : ∀ h, Ring next prev (.head h) ((Q h).map .elem)
  disjoint : ∀ {h h' e}, e ∈ Q h → e ∈ Q h' → h = h'

namespace Rings

theorem links_disjoint (hR : Rings next prev Q) (ha : a ∈ links h (Q h))
    (ha' : a ∈ links h' (Q h')) : h = h' := by
  cases a with
  | head k =>
      rw [head_mem_links] at ha ha'
      exact ha.symm.trans ha'
  | elem e =>
      rw [elem_mem_links] at ha ha'
      exact hR.disjoint ha ha'

theorem next_mem (hR : Rings next prev Q) (ha : a ∈ links h (Q h)) : next a ∈ links h (Q h) :=
  (hR.ring h).next_mem ha

theorem prev_mem (hR : Rings next prev Q) (ha : a ∈ links h (Q h)) : prev a ∈ links h (Q h) :=
  (hR.ring h).prev_mem ha

theorem prev_next (hR : Rings next prev Q) (ha : a ∈ links h (Q h)) : prev (next a) = a :=
  (hR.ring h).prev_next ha

theorem next_prev (hR : Rings next prev Q) (ha : a ∈ links h (Q h)) : next (prev a) = a :=
  (hR.ring h).next_prev ha

theorem nodup (hR : Rings next prev Q) (h : η) : (Q h).Nodup :=
  (List.nodup_cons.mp (hR.ring h).nodup).2.of_map

theorem next_elem (hR : Rings next prev Q) (hQ : Q h = before ++ e :: after) :
    some (next (.elem e)) = (after.map Link.elem ++ [Link.head h]).head? := by
  have hring := hR.ring h
  rw [hQ, List.map_append, List.map_cons] at hring
  exact hring.next_cell

theorem prev_elem (hR : Rings next prev Q) (hQ : Q h = before ++ e :: after) :
    some (prev (.elem e)) = (links h before).getLast? := by
  have hring := hR.ring h
  rw [hQ, List.map_append, List.map_cons] at hring
  exact hring.prev_cell

/-- The head of an empty ring is its own neighbour; otherwise elements are next to it. -/
theorem head_cases (hR : Rings next prev Q) (h : η) :
    (Q h = [] ∧ next (.head h) = .head h ∧ prev (.head h) = .head h) ∨
    ∃ first last, (Q h).head? = some first ∧ (Q h).getLast? = some last ∧
      next (.head h) = .elem first ∧ prev (.head h) = .elem last := by
  have hnext := (hR.ring h).next_head
  have hprev := (hR.ring h).prev_head
  cases hQ : Q h with
  | nil =>
      rw [hQ] at hnext hprev
      exact .inl ⟨rfl, Option.some.inj hnext, Option.some.inj hprev⟩
  | cons first rest =>
      rw [hQ] at hnext hprev
      rw [List.map_cons, List.getLast?_cons_cons, ← List.map_cons, List.getLast?_map] at hprev
      obtain ⟨last, hlast, heq⟩ := Option.map_eq_some_iff.mp hprev.symm
      exact .inr ⟨first, last, rfl, hlast, Option.some.inj hnext, heq.symm⟩

theorem empty (hnext : ∀ h, next (.head h) = .head h) (hprev : ∀ h, prev (.head h) = .head h) :
    Rings next prev fun _ => ([] : List ε) where
  ring h := Ring.empty _ (hnext h) (hprev h)
  disjoint he _ := absurd he List.not_mem_nil

/-! ## Local updates -/

section Updates

variable [DecidableEq η]

/-- The heads other than `h` keep their rings. -/
theorem update {l : List ε} (hR : Rings next prev Q)
    (hring : Ring next' prev' (.head h) (l.map .elem))
    (hfresh : ∀ e ∈ l, ∀ k ≠ h, e ∉ Q k)
    (hnext : ∀ k ≠ h, ∀ a ∈ links k (Q k), next' a = next a)
    (hprev : ∀ k ≠ h, ∀ a ∈ links k (Q k), prev' a = prev a) :
    Rings next' prev' (Function.update Q h l) where
  ring k := by
    by_cases hk : k = h
    · subst hk
      simpa using hring
    · rw [Function.update_of_ne hk]
      exact (hR.ring k).congr (hnext k hk) (hprev k hk)
  disjoint {k k' e} he he' := by
    by_cases hk : k = h
    · by_cases hk' : k' = h
      · exact hk.trans hk'.symm
      · subst hk
        rw [Function.update_self] at he
        rw [Function.update_of_ne hk'] at he'
        exact absurd he' (hfresh e he k' hk')
    · by_cases hk' : k' = h
      · subst hk'
        rw [Function.update_self] at he'
        rw [Function.update_of_ne hk] at he
        exact absurd he (hfresh e he' k hk)
      · rw [Function.update_of_ne hk] at he
        rw [Function.update_of_ne hk'] at he'
        exact hR.disjoint he he'

theorem reset (hR : Rings next prev Q) (hnext : next' (.head h) = .head h)
    (hprev : prev' (.head h) = .head h) (hnext' : ∀ a, a ≠ .head h → next' a = next a)
    (hprev' : ∀ a, a ≠ .head h → prev' a = prev a) :
    Rings next' prev' (Function.update Q h []) := by
  have hout : ∀ k ≠ h, ∀ a ∈ links k (Q k), a ≠ .head h := by
    rintro k hk a ha rfl
    exact hk (head_mem_links.mp ha).symm
  apply hR.update (Ring.empty _ hnext hprev)
  · intro e he
    exact absurd he List.not_mem_nil
  · intro k hk a ha
    exact hnext' a (hout k hk a ha)
  · intro k hk a ha
    exact hprev' a (hout k hk a ha)

variable [DecidableEq ε]

/-- A new element is linked in behind `p`. -/
theorem insert (hR : Rings next prev Q) (hQ : Q h = before ++ after)
    (hp : (links h before).getLast? = some p) (he : ∀ k, e ∉ Q k)
    (hnext : ∀ a, next' a = if a = .elem e then next p else if a = p then .elem e else next a)
    (hprev : ∀ a, prev' a = if a = next p then .elem e else if a = .elem e then p else prev a) :
    Rings next' prev' (Function.update Q h (before ++ e :: after)) := by
  have hring := hR.ring h
  rw [hQ, List.map_append] at hring
  have hpmem : p ∈ links h (Q h) := by
    have hmem := List.mem_of_getLast? hp
    rw [hQ]
    unfold links at hmem ⊢
    rw [List.map_append, ← List.cons_append]
    exact List.mem_append_left _ hmem
  have hout : ∀ k ≠ h, ∀ a ∈ links k (Q k), a ≠ .elem e ∧ a ≠ p ∧ a ≠ next p := by
    intro k hk a ha
    refine ⟨?_, ?_, ?_⟩ <;> rintro rfl
    · exact he k (elem_mem_links.mp ha)
    · exact hk (hR.links_disjoint ha hpmem)
    · exact hk (hR.links_disjoint ha (hR.next_mem hpmem))
  apply hR.update
  · rw [List.map_append, List.map_cons]
    obtain ⟨init, hinit⟩ := List.getLast?_eq_some_iff.mp hp
    obtain ⟨y, rest, hrest⟩ := exists_cons_of_concat (after.map Link.elem) (Link.head h)
    have hadj := (hring.adjacent_cut hinit hrest).2.1
    have hprevy : prev (next p) = p := hR.prev_next hpmem
    apply hring.insert
    · rw [hrest, List.head?_cons, ← hadj.1]
    · have hfresh := he h
      rw [hQ] at hfresh
      simpa using hfresh
    · intro a
      rw [hnext, hprevy]
    · intro a
      rw [hprev, hprevy]
  · intro x hx k hk hmem
    rcases List.mem_append.mp hx with hx | hx
    · exact hk (hR.disjoint hmem (by simp [hQ, hx]))
    · rcases List.mem_cons.mp hx with rfl | hx
      · exact he k hmem
      · exact hk (hR.disjoint hmem (by simp [hQ, hx]))
  · intro k hk a ha
    obtain ⟨hae, hap, -⟩ := hout k hk a ha
    rw [hnext, if_neg hae, if_neg hap]
  · intro k hk a ha
    obtain ⟨hae, -, hay⟩ := hout k hk a ha
    rw [hprev, if_neg hay, if_neg hae]

/-- An element is unlinked; its own links do not matter. -/
theorem remove (hR : Rings next prev Q) (hQ : Q h = before ++ e :: after)
    (hnext : ∀ a, a ≠ .elem e →
      next' a = if a = prev (.elem e) then next (.elem e) else next a)
    (hprev : ∀ a, a ≠ .elem e →
      prev' a = if a = next (.elem e) then prev (.elem e) else prev a) :
    Rings next' prev' (Function.update Q h (before ++ after)) := by
  have hring := hR.ring h
  rw [hQ, List.map_append, List.map_cons] at hring
  have hmem : Link.elem e ∈ links h (Q h) := by simp [hQ]
  have hout : ∀ k ≠ h, ∀ a ∈ links k (Q k),
      a ≠ .elem e ∧ a ≠ prev (.elem e) ∧ a ≠ next (.elem e) := by
    intro k hk a ha
    refine ⟨?_, ?_, ?_⟩ <;> rintro rfl
    · exact hk (hR.links_disjoint ha hmem)
    · exact hk (hR.links_disjoint ha (hR.prev_mem hmem))
    · exact hk (hR.links_disjoint ha (hR.next_mem hmem))
  apply hR.update
  · rw [List.map_append]
    exact hring.remove hnext hprev
  · intro x hx k hk hx'
    rcases List.mem_append.mp hx with hx | hx
    · exact hk (hR.disjoint hx' (by simp [hQ, hx]))
    · exact hk (hR.disjoint hx' (by simp [hQ, hx]))
  · intro k hk a ha
    obtain ⟨hae, hap, -⟩ := hout k hk a ha
    rw [hnext a hae, if_neg hap]
  · intro k hk a ha
    obtain ⟨hae, -, han⟩ := hout k hk a ha
    rw [hprev a hae, if_neg han]

omit [DecidableEq ε] in
/-- Who has an element after those of `h₂` have gone to `h₁`. -/
theorem mem_moved {k : η}
    (he : e ∈ Function.update (Function.update Q h₁ (Q h₁ ++ Q h₂)) h₂ [] k) :
    k ≠ h₂ ∧ (e ∈ Q k ∨ k = h₁ ∧ e ∈ Q h₂) := by
  by_cases hk₂ : k = h₂
  · simp [hk₂] at he
  · rw [Function.update_of_ne hk₂] at he
    by_cases hk₁ : k = h₁
    · subst hk₁
      rw [Function.update_self] at he
      exact ⟨hk₂, (List.mem_append.mp he).imp_right fun he => ⟨rfl, he⟩⟩
    · rw [Function.update_of_ne hk₁] at he
      exact ⟨hk₂, .inl he⟩

omit [DecidableEq ε] in
theorem disjoint_moved (hR : Rings next prev Q) {k k' : η}
    (he : e ∈ Function.update (Function.update Q h₁ (Q h₁ ++ Q h₂)) h₂ [] k)
    (he' : e ∈ Function.update (Function.update Q h₁ (Q h₁ ++ Q h₂)) h₂ [] k') : k = k' := by
  obtain ⟨hk, howns | ⟨rfl, howns⟩⟩ := mem_moved he
  · obtain ⟨hk', howns' | ⟨rfl, howns'⟩⟩ := mem_moved he'
    · exact hR.disjoint howns howns'
    · exact absurd (hR.disjoint howns howns') hk
  · obtain ⟨hk', howns' | ⟨rfl, -⟩⟩ := mem_moved he'
    · exact absurd (hR.disjoint howns' howns) hk'
    · rfl

/-- The elements of `h₂` go behind those of `h₁`. -/
theorem concat (hR : Rings next prev Q) (hne : h₁ ≠ h₂) (hQ : Q h₂ ≠ [])
    (hnext : ∀ a, next' a = if a = .head h₂ then .head h₂ else
      if a = prev (.head h₁) then next (.head h₂) else
        if a = prev (.head h₂) then .head h₁ else next a)
    (hprev : ∀ a, prev' a = if a = .head h₂ then .head h₂ else
      if a = next (.head h₂) then prev (.head h₁) else
        if a = .head h₁ then prev (.head h₂) else prev a) :
    Rings next' prev' (Function.update (Function.update Q h₁ (Q h₁ ++ Q h₂)) h₂ []) := by
  have hne₂ : ∀ k ≠ h₂, ∀ a ∈ links k (Q k), a ≠ .head h₂ := by
    rintro k hk a ha rfl
    exact hk (head_mem_links.mp ha).symm
  have hmem₁ : Link.head h₁ ∈ links h₁ (Q h₁) := List.mem_cons_self
  have hmem₂ : Link.head h₂ ∈ links h₂ (Q h₂) := List.mem_cons_self
  constructor
  · intro k
    by_cases hk₂ : k = h₂
    · subst hk₂
      rw [Function.update_self]
      apply Ring.empty
      · rw [hnext, if_pos rfl]
      · rw [hprev, if_pos rfl]
    · rw [Function.update_of_ne hk₂]
      by_cases hk₁ : k = h₁
      · subst hk₁
        rw [Function.update_self, List.map_append]
        apply (hR.ring k).concat (hR.ring h₂)
        · intro a ha ha'
          exact hne (hR.links_disjoint ha ha')
        · simpa using hQ
        · intro a ha
          rw [hnext, if_neg ha]
        · intro a ha
          rw [hprev, if_neg ha]
      · rw [Function.update_of_ne hk₁]
        apply (hR.ring k).congr
        · intro a ha
          have hlast : a ≠ prev (.head h₁) := by
            rintro rfl
            exact hk₁ (hR.links_disjoint ha (hR.prev_mem hmem₁))
          have hlast' : a ≠ prev (.head h₂) := by
            rintro rfl
            exact hk₂ (hR.links_disjoint ha (hR.prev_mem hmem₂))
          rw [hnext, if_neg (hne₂ k hk₂ a ha), if_neg hlast, if_neg hlast']
        · intro a ha
          have hfirst : a ≠ next (.head h₂) := by
            rintro rfl
            exact hk₂ (hR.links_disjoint ha (hR.next_mem hmem₂))
          have hhead : a ≠ .head h₁ := by
            rintro rfl
            exact hk₁ (head_mem_links.mp ha).symm
          rw [hprev, if_neg (hne₂ k hk₂ a ha), if_neg hfirst, if_neg hhead]
  · exact hR.disjoint_moved

omit [DecidableEq ε] in
theorem swap (hR : Rings next prev Q) (hnext : ∀ a, next' (exchange h₁ h₂ a) =
      exchange h₁ h₂ (next a))
    (hprev : ∀ a, prev' (exchange h₁ h₂ a) = exchange h₁ h₂ (prev a)) :
    Rings next' prev' fun k => Q (Equiv.swap h₁ h₂ k) where
  ring k := by
    have hring := (hR.ring (Equiv.swap h₁ h₂ k)).map (exchange h₁ h₂) hnext hprev
    rw [exchange_head, Equiv.swap_apply_self, List.map_map] at hring
    exact hring
  disjoint he he' := (Equiv.swap h₁ h₂).injective (hR.disjoint he he')

end Updates

end Rings

end Libnc.Foundation
