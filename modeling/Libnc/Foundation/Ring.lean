import Mathlib.Data.List.Chain
import Mathlib.Data.List.Nodup
import Mathlib.Logic.Function.Basic

/-!
# Circular doubly linked lists

A ring is given by two link functions and a distinguished head.  The cells
after the head, in the order of `next`, form a list without repetitions that
does not contain the head.  Inserting a cell in front of another one and
unlinking a cell are local updates of the link functions; the lemmas describe
them as an insertion into and a deletion from that list.
-/

namespace Libnc.Foundation

variable {α : Type*}

/-- `b` follows `a`, in both directions. -/
def Adjacent (next prev : α → α) (a b : α) : Prop := next a = b ∧ prev b = a

/-- The cells of the ring are `cells`, in this order, between `head` and `head`. -/
structure Ring (next prev : α → α) (head : α) (cells : List α) : Prop where
  chain : (head :: (cells ++ [head])).IsChain (Adjacent next prev)
  nodup : (head :: cells).Nodup

theorem isChain_imp_of_mem {R S : α → α → Prop} {cells : List α}
    (himp : ∀ a ∈ cells.dropLast, ∀ b ∈ cells.tail, R a b → S a b) (h : cells.IsChain R) :
    cells.IsChain S := by
  induction cells with
  | nil => simp
  | cons a cells ih =>
      cases cells with
      | nil => simp
      | cons b cells =>
          rw [List.isChain_cons_cons] at h ⊢
          refine ⟨himp a (by simp) b (by simp) h.1, ih (fun c hc d hd => ?_) h.2⟩
          exact himp c (by simp [hc]) d (List.mem_of_mem_tail hd)

theorem isChain_adjacent_congr {next prev next' prev' : α → α} {cells : List α}
    (hnext : ∀ a ∈ cells.dropLast, next' a = next a)
    (hprev : ∀ b ∈ cells.tail, prev' b = prev b)
    (h : cells.IsChain (Adjacent next prev)) :
    cells.IsChain (Adjacent next' prev') :=
  isChain_imp_of_mem
    (fun a ha b hb hab => ⟨(hnext a ha).trans hab.1, (hprev b hb).trans hab.2⟩) h

theorem isChain_left_congr {next prev next' prev' : α → α} {init : List α} {p : α}
    (h : (init ++ [p]).IsChain (Adjacent next prev)) (hnodup : (init ++ [p]).Nodup)
    (hnext : ∀ a ∈ init ++ [p], a ≠ p → next' a = next a)
    (hprev : ∀ b ∈ (init ++ [p]).tail, prev' b = prev b) :
    (init ++ [p]).IsChain (Adjacent next' prev') := by
  refine isChain_adjacent_congr (fun a ha => ?_) hprev h
  rw [List.dropLast_concat] at ha
  apply hnext a (by simp [ha])
  rintro rfl
  exact (List.nodup_append.mp hnodup).2.2 a ha a (by simp) rfl

theorem isChain_right_congr {next prev next' prev' : α → α} {y : α} {rest : List α}
    (h : (y :: rest).IsChain (Adjacent next prev)) (hnodup : (y :: rest).Nodup)
    (hnext : ∀ a ∈ (y :: rest).dropLast, next' a = next a)
    (hprev : ∀ b ∈ y :: rest, b ≠ y → prev' b = prev b) :
    (y :: rest).IsChain (Adjacent next' prev') := by
  refine isChain_adjacent_congr hnext (fun b hb => ?_) h
  apply hprev b (List.mem_of_mem_tail hb)
  rintro rfl
  exact (List.nodup_cons.mp hnodup).1 hb

theorem exists_concat_of_cons (a : α) (cells : List α) :
    ∃ init last, a :: cells = init ++ [last] :=
  ⟨_, _, (List.dropLast_concat_getLast (List.cons_ne_nil a cells)).symm⟩

theorem exists_cons_of_concat (cells : List α) (a : α) :
    ∃ first rest, cells ++ [a] = first :: rest := by
  cases cells with
  | nil => exact ⟨a, [], rfl⟩
  | cons b cells => exact ⟨b, cells ++ [a], rfl⟩

namespace Ring

variable {next prev next' prev' : α → α} {head x y p : α}
variable {before after cells init rest : List α}

/-! ## Reading links -/

/-- The two cells on either side of a cut point to each other. -/
theorem adjacent_cut (h : Ring next prev head (before ++ after))
    (hinit : head :: before = init ++ [p]) (hrest : after ++ [head] = y :: rest) :
    (init ++ [p]).IsChain (Adjacent next prev) ∧ Adjacent next prev p y ∧
      (y :: rest).IsChain (Adjacent next prev) := by
  have hchain := h.chain
  rw [List.append_assoc, hrest, ← List.cons_append, hinit, List.append_assoc,
    List.singleton_append, List.isChain_append_cons_cons] at hchain
  exact hchain

theorem nodup_cut (h : Ring next prev head (before ++ after)) :
    (head :: before).Nodup ∧ (after ++ [head]).Nodup ∧
      ∀ a ∈ before, a ∉ head :: after := by
  have hnodup := h.nodup
  simp only [List.nodup_cons, List.nodup_append, List.mem_append, not_or] at hnodup
  obtain ⟨⟨hb, ha⟩, hbefore, hafter, hdisj⟩ := hnodup
  refine ⟨List.nodup_cons.mpr ⟨hb, hbefore⟩, ?_, ?_⟩
  · refine List.nodup_append.mpr ⟨hafter, by simp, ?_⟩
    rintro a hmem b hb' rfl
    exact ha (by simpa [List.mem_singleton.mp hb'] using hmem)
  · intro a hmem hmem'
    rcases List.mem_cons.mp hmem' with rfl | hmem'
    · exact hb hmem
    · exact hdisj a hmem a hmem' rfl

theorem next_head (h : Ring next prev head cells) :
    some (next head) = (cells ++ [head]).head? := by
  obtain ⟨y, rest, hrest⟩ := exists_cons_of_concat cells head
  have h' : Ring next prev head ([] ++ cells) := h
  have hinit : [head] = [] ++ [head] := rfl
  have hadj := (h'.adjacent_cut hinit hrest).2.1
  rw [hrest, hadj.1, List.head?_cons]

theorem next_cell (h : Ring next prev head (before ++ x :: after)) :
    some (next x) = (after ++ [head]).head? := by
  obtain ⟨y, rest, hrest⟩ := exists_cons_of_concat after head
  have h' : Ring next prev head ((before ++ [x]) ++ after) := by simpa using h
  have hadj := (h'.adjacent_cut (List.cons_append ..).symm hrest).2.1
  rw [hrest, hadj.1, List.head?_cons]

theorem prev_cell (h : Ring next prev head (before ++ x :: after)) :
    some (prev x) = (head :: before).getLast? := by
  obtain ⟨init, p, hinit⟩ := exists_concat_of_cons head before
  have hadj := (h.adjacent_cut hinit rfl).2.1
  rw [hinit, hadj.2, List.getLast?_concat]

theorem prev_head (h : Ring next prev head cells) :
    some (prev head) = (head :: cells).getLast? := by
  obtain ⟨init, p, hinit⟩ := exists_concat_of_cons head cells
  have h' : Ring next prev head (cells ++ []) := by simpa using h
  have hrest : [] ++ [head] = [head] := rfl
  have hadj := (h'.adjacent_cut hinit hrest).2.1
  rw [hinit, hadj.2, List.getLast?_concat]

theorem prev_next (h : Ring next prev head cells) (hx : x ∈ head :: cells) :
    prev (next x) = x := by
  obtain ⟨before, after, hsplit⟩ := List.append_of_mem hx
  obtain ⟨y, rest, hrest⟩ := exists_cons_of_concat after head
  have hchain := h.chain
  rw [← List.cons_append, hsplit, List.append_assoc, List.cons_append, hrest,
    List.isChain_append_cons_cons] at hchain
  rw [hchain.2.1.1, hchain.2.1.2]

theorem next_prev (h : Ring next prev head cells) (hx : x ∈ head :: cells) :
    next (prev x) = x := by
  have hx' : x ∈ cells ++ [head] := by simpa [or_comm] using hx
  obtain ⟨before, after, hsplit⟩ := List.append_of_mem hx'
  obtain ⟨init, p, hinit⟩ := exists_concat_of_cons head before
  have hchain := h.chain
  rw [hsplit, ← List.cons_append, hinit, List.append_assoc, List.singleton_append,
    List.isChain_append_cons_cons] at hchain
  rw [hchain.2.1.2, hchain.2.1.1]

theorem next_mem (h : Ring next prev head cells) (hx : x ∈ head :: cells) :
    next x ∈ head :: cells := by
  have hmem : ∀ {l : List α}, some (next x) = (l ++ [head]).head? → next x ∈ l ++ [head] :=
    fun hl => List.mem_of_mem_head? (by rw [← hl]; rfl)
  rcases List.mem_cons.mp hx with rfl | hx
  · simpa [or_comm] using hmem h.next_head
  · obtain ⟨before, after, rfl⟩ := List.append_of_mem hx
    have := hmem h.next_cell
    simp at this ⊢
    tauto

theorem prev_mem (h : Ring next prev head cells) (hx : x ∈ head :: cells) :
    prev x ∈ head :: cells := by
  have hmem : ∀ {l : List α}, some (prev x) = l.getLast? → prev x ∈ l :=
    fun hl => List.mem_of_getLast? hl.symm
  rcases List.mem_cons.mp hx with rfl | hx
  · exact hmem h.prev_head
  · obtain ⟨before, after, rfl⟩ := List.append_of_mem hx
    have := hmem h.prev_cell
    simp at this ⊢
    tauto

theorem prev_ne (h : Ring next prev head cells) (hx : x ∈ cells) : prev x ≠ x := by
  obtain ⟨before, after, rfl⟩ := List.append_of_mem hx
  have hprev : prev x ∈ head :: before := List.mem_of_getLast? h.prev_cell.symm
  obtain ⟨-, -, hdisj⟩ := h.nodup_cut
  have hnodup := h.nodup
  intro heq
  rw [heq] at hprev
  rcases List.mem_cons.mp hprev with rfl | hprev
  · simp at hnodup
  · exact hdisj x hprev (by simp)

/-! ## Local updates -/

theorem empty (head : α) (hnext : next head = head) (hprev : prev head = head) :
    Ring next prev head [] :=
  ⟨by simp [Adjacent, hnext, hprev], by simp⟩

theorem congr (h : Ring next prev head cells)
    (hnext : ∀ a ∈ head :: cells, next' a = next a)
    (hprev : ∀ a ∈ head :: cells, prev' a = prev a) :
    Ring next' prev' head cells where
  nodup := h.nodup
  chain := by
    refine isChain_adjacent_congr ?_ ?_ h.chain
    · intro a ha
      rw [← List.cons_append, List.dropLast_concat] at ha
      exact hnext a ha
    · intro b hb
      exact hprev b (by simpa [or_comm] using hb)

/--
Linking a fresh cell `x` in front of `y`, the first cell after the cut or the
head, inserts it at the cut.
-/
theorem insert [DecidableEq α] (h : Ring next prev head (before ++ after))
    (hy : (after ++ [head]).head? = some y) (hx : x ∉ head :: (before ++ after))
    (hnext : ∀ a, next' a = if a = x then y else if a = prev y then x else next a)
    (hprev : ∀ a, prev' a = if a = y then x else if a = x then prev y else prev a) :
    Ring next' prev' head (before ++ x :: after) := by
  obtain ⟨init, p, hinit⟩ := exists_concat_of_cons head before
  obtain ⟨first, rest, hrest⟩ := exists_cons_of_concat after head
  obtain rfl : first = y := by simpa [hrest] using hy
  obtain ⟨hleft, hadj, hright⟩ := h.adjacent_cut hinit hrest
  obtain ⟨hnodupLeft, hnodupRight, hdisj⟩ := h.nodup_cut
  have hfirst : first ∈ head :: after := by
    have : first ∈ after ++ [head] := by simp [hrest]
    simpa [or_comm] using this
  have hp : p ∈ head :: before := by simp [hinit]
  have hne : ∀ a ∈ head :: (before ++ after), a ≠ x := fun a ha hax => hx (hax ▸ ha)
  rw [hadj.2] at hnext hprev
  constructor
  · have hlist : head :: (before ++ x :: after ++ [head]) =
        init ++ p :: x :: first :: rest := by
      rw [List.append_assoc, ← List.cons_append, hinit, List.cons_append, hrest,
        List.append_assoc]
      rfl
    rw [hlist, List.isChain_append_cons_cons, List.isChain_cons_cons]
    refine ⟨?_, ⟨?_, ?_⟩, ⟨?_, ?_⟩, ?_⟩
    · refine isChain_left_congr hleft (hinit ▸ hnodupLeft) ?_ ?_
      · intro a ha hap
        have hax := hne a (by rw [← hinit] at ha; simp at ha ⊢; tauto)
        rw [hnext, if_neg hax, if_neg hap]
      · intro b hb
        rw [← hinit, List.tail_cons] at hb
        have hbf : b ≠ first := fun hbf => hdisj b hb (hbf ▸ hfirst)
        rw [hprev, if_neg hbf, if_neg (hne b (by simp [hb]))]
    · rw [hnext, if_neg (hne p (by simp at hp ⊢; tauto)), if_pos rfl]
    · rw [hprev, if_neg (Ne.symm (hne first (by simp at hfirst ⊢; tauto))), if_pos rfl]
    · rw [hnext, if_pos rfl]
    · rw [hprev, if_pos rfl]
    · refine isChain_right_congr hright (hrest ▸ hnodupRight) ?_ ?_
      · intro a ha
        rw [← hrest, List.dropLast_concat] at ha
        have hap : a ≠ p := by
          rintro rfl
          rcases List.mem_cons.mp hp with rfl | hp
          · exact (List.nodup_append.mp hnodupRight).2.2 a ha a (by simp) rfl
          · exact hdisj a hp (by simp [ha])
        rw [hnext, if_neg (hne a (by simp [ha])), if_neg hap]
      · intro b hb hbf
        have hmem : b ∈ after ++ [head] := hrest ▸ hb
        rw [hprev, if_neg hbf, if_neg (hne b (by simp at hmem ⊢; tauto))]
  · have hperm : (head :: (before ++ x :: after)).Perm (x :: head :: (before ++ after)) :=
      (List.perm_middle.cons head).trans (List.Perm.swap _ _ _)
    exact hperm.nodup_iff.mpr (List.nodup_cons.mpr ⟨hx, h.nodup⟩)

/-- Unlinking a cell deletes it from the list; its own links do not matter. -/
theorem remove [DecidableEq α] (h : Ring next prev head (before ++ x :: after))
    (hnext : ∀ a, a ≠ x → next' a = if a = prev x then next x else next a)
    (hprev : ∀ a, a ≠ x → prev' a = if a = next x then prev x else prev a) :
    Ring next' prev' head (before ++ after) := by
  obtain ⟨init, p, hinit⟩ := exists_concat_of_cons head before
  obtain ⟨first, rest, hrest⟩ := exists_cons_of_concat after head
  have h' : Ring next prev head ((before ++ [x]) ++ after) := by simpa using h
  have hpx := (h.adjacent_cut hinit rfl).2.1
  have hleft := (h.adjacent_cut hinit rfl).1
  obtain ⟨-, hxf, hright⟩ := h'.adjacent_cut (List.cons_append ..).symm hrest
  obtain ⟨hnodupLeft, -, hdisjLeft⟩ := h.nodup_cut
  obtain ⟨-, hnodupRight, hdisjRight⟩ := h'.nodup_cut
  have hxr := hdisjRight x (by simp)
  have hxl : x ∉ head :: before := by
    intro hmem
    rcases List.mem_cons.mp hmem with rfl | hmem
    · simp at hxr
    · exact hdisjLeft x hmem (by simp)
  have hfirst : first ∈ head :: after := by
    have : first ∈ after ++ [head] := by simp [hrest]
    simpa [or_comm] using this
  have hp : p ∈ head :: before := by simp [hinit]
  rw [hpx.2, hxf.1] at hnext hprev
  constructor
  · have hlist : head :: (before ++ after ++ [head]) = init ++ p :: first :: rest := by
      rw [List.append_assoc, ← List.cons_append, hinit, hrest, List.append_assoc]
      rfl
    rw [hlist, List.isChain_append_cons_cons]
    refine ⟨?_, ⟨?_, ?_⟩, ?_⟩
    · refine isChain_left_congr hleft (hinit ▸ hnodupLeft) ?_ ?_
      · intro a ha hap
        rw [← hinit] at ha
        rw [hnext a (fun hax => hxl (hax ▸ ha)), if_neg hap]
      · intro b hb
        rw [← hinit, List.tail_cons] at hb
        have hbf : b ≠ first := by
          rintro rfl
          exact hdisjRight b (by simp [hb]) hfirst
        rw [hprev b (fun hbx => hxl (by simp [← hbx, hb])), if_neg hbf]
    · rw [hnext p (fun hpx => hxl (hpx ▸ hp)), if_pos rfl]
    · rw [hprev first (fun hfx => hxr (hfx ▸ hfirst)), if_pos rfl]
    · refine isChain_right_congr hright (hrest ▸ hnodupRight) ?_ ?_
      · intro a ha
        rw [← hrest, List.dropLast_concat] at ha
        have hap : a ≠ p := by
          rintro rfl
          rcases List.mem_cons.mp hp with rfl | hp
          · exact (List.nodup_append.mp hnodupRight).2.2 a ha a (by simp) rfl
          · exact hdisjRight a (by simp [hp]) (by simp [ha])
        rw [hnext a (fun hax => hxr (by simp [← hax, ha])), if_neg hap]
      · intro b hb hbf
        have hmem : b ∈ head :: after := by
          have : b ∈ after ++ [head] := hrest ▸ hb
          simpa [or_comm] using this
        rw [hprev b (fun hbx => hxr (hbx ▸ hmem)), if_neg hbf]
  · have hsub : (before ++ after).Sublist (before ++ x :: after) :=
      (List.sublist_cons_self x after).append_left before
    exact h.nodup.sublist (hsub.cons_cons head)

theorem isChain_next (h : Ring next prev head (before ++ cells ++ after)) :
    cells.IsChain fun a b => next a = b := by
  have hchain := h.chain
  rw [show head :: (before ++ cells ++ after ++ [head]) =
    head :: before ++ (cells ++ (after ++ [head])) by simp] at hchain
  exact hchain.right_of_append.left_of_append.imp fun _ _ hab => hab.1

end Ring

end Libnc.Foundation
