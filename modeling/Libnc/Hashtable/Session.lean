import Libnc.Foundation.Run
import Libnc.Hashtable.Operations

/-!
# Runs of the hash table

A session is a table together with the record of the calls made on it, newest
call first.  The record keeps what the caller passed and, for
`nc_hashtable_set`, the status that came back; a call of
`nc_hashtable_iter_set` is recorded with the key under its iterator.
-/

namespace Libnc.Hashtable

open Libnc.Foundation

inductive Op where
  | set (reply : SetReply) (key value : Ptr)
  | del (key : Ptr)
  | clear
  | iterSet (iter : ListPtr) (value : Ptr)
  deriving DecidableEq, Repr

inductive Event where
  | set (key value : Ptr) (status : Int)
  | del (key : Ptr)
  | clear
  | iterSet (key value : Ptr)
  deriving DecidableEq, Repr

structure Session where
  table : NcHashtable
  events : List Event

/-- A fresh table whose keys are compared by address. -/
def addressTable : NcHashtable := (ncHashtableInit true addressKeys).get rfl

theorem addressTable_init : ncHashtableInit true addressKeys = some addressTable := rfl

def step (fuel : Nat) (s : Session) : Op → Option Session
  | .set reply key value => do
      let (status, t) ← ncHashtableSet reply fuel s.table key value
      some ⟨t, .set key value status :: s.events⟩
  | .del key => do
      let (_, t) ← ncHashtableDel fuel s.table key
      some ⟨t, .del key :: s.events⟩
  | .clear => do
      let t ← ncHashtableClear fuel s.table
      some ⟨t, .clear :: s.events⟩
  | .iterSet iter value => do
      let key ← ncHashtableIterKey s.table iter
      let t ← ncHashtableIterSet s.table iter value
      some ⟨t, .iterSet key value :: s.events⟩

/--
What a call may rely on: a new pair lies where no pair is allocated, a needed
bucket array is granted, and an iterator refers to a live pair.
-/
def Callable (s : Session) : Op → Prop
  | .set reply _ _ =>
      growthRefused s.table reply = false ∧ ∀ a ∈ reply.pair, s.table.live a = false
  | .iterSet iter _ => ∃ a ∈ listToPair iter, s.table.live a = true
  | _ => True

instance decidableCallable (s : Session) : ∀ op, Decidable (Callable s op)
  | .set reply _ _ => inferInstanceAs (Decidable
      (growthRefused s.table reply = false ∧ ∀ a ∈ reply.pair, s.table.live a = false))
  | .iterSet iter _ => inferInstanceAs (Decidable
      (∃ a ∈ listToPair iter, s.table.live a = true))
  | .del _ => isTrue trivial
  | .clear => isTrue trivial

/-- No `1610612741` pairs are allocated. -/
def FewPairs (t : NcHashtable) : Prop :=
  ∀ cells : List Nat, cells.Nodup → (∀ a ∈ cells, t.live a = true) → cells.length < 1610612741

/-- Distinct addresses of all live pairs. -/
structure Enumerates (cells : List Nat) (t : NcHashtable) : Prop where
  nodup : cells.Nodup
  mem_iff : ∀ a, a ∈ cells ↔ (t.view a).isSome

/-- What one step can do to the pairs, the free calls and the record. -/
inductive StepOutcome (s : Session) : Op → Session → Prop where
  | set {reply : SetReply} {key value : Ptr} {status : Int} {t : NcHashtable}
      (outcome : SetOutcome s.table reply.pair key value status t) :
      StepOutcome s (.set reply key value) ⟨t, .set key value status :: s.events⟩
  | del {key : Ptr} {status : Int} {t : NcHashtable} (outcome : DelOutcome s.table key status t) :
      StepOutcome s (.del key) ⟨t, .del key :: s.events⟩
  | clear {t : NcHashtable} {cells : List Nat} (cells_eq : Enumerates cells s.table)
      (view_eq : t.view = fun _ => none)
      (freed_eq : t.freed = releasedBy s.table cells ++ s.table.freed) :
      StepOutcome s .clear ⟨t, .clear :: s.events⟩
  | iterSet {a : Nat} {k v value : Ptr} {t : NcHashtable}
      (held : s.table.view a = some (k, v))
      (view_eq : t.view = Function.update s.table.view a (some (k, value)))
      (freed_eq : t.freed =
        (if s.table.callbacks.freeValue then [.value v] else []) ++ s.table.freed) :
      StepOutcome s (.iterSet (.pair a) value) ⟨t, .iterSet k value :: s.events⟩

/-- The invariant holds with at most `bound` pairs. -/
def Sound (callbacks : Callbacks) (bound : Nat) (t : NcHashtable) : Prop :=
  ∃ n S, Rep callbacks t n S ∧ S.order.length ≤ bound

variable {callbacks : Callbacks} {s : Session} {fuel bound : Nat}

theorem eq_pair_of_listToPair {l : ListPtr} {a : Nat} (h : a ∈ listToPair l) : l = .pair a := by
  cases l with
  | head => simp [listToPair] at h
  | pair b => simpa [listToPair] using h

theorem Sound.callbacks_eq {t : NcHashtable} (h : Sound callbacks bound t) :
    t.callbacks = callbacks := by
  obtain ⟨n, S, h, -⟩ := h
  exact h.callbacks_eq

theorem Skeleton.enumerates {t : NcHashtable} {n : Nat} {S : Layout} (h : Skeleton t n S) :
    Enumerates S.order t where
  nodup := h.order_nodup
  mem_iff a := by
    have hlive : t.live a = true ↔ a ∈ S.order := ⟨h.mem_of_live a, h.live a⟩
    rw [← hlive, NcHashtable.view]
    split <;> simp_all

theorem Rep.enumerates {t : NcHashtable} {n : Nat} {S : Layout} (h : Rep callbacks t n S) :
    Enumerates S.order t := h.skeleton.enumerates

theorem Skeleton.canGrow_of_few {t : NcHashtable} {n : Nat} {S : Layout} (h : Skeleton t n S)
    (hfew : FewPairs t) : CanGrow t := by
  intro n' hn' hfull
  refine exists_next_prime hn' (hfull.trans_lt ?_)
  rw [h.size_eq]
  exact hfew S.order h.order_nodup h.live

theorem Rep.canGrow_of_few {t : NcHashtable} {n : Nat} {S : Layout} (h : Rep callbacks t n S)
    (hfew : FewPairs t) : CanGrow t := h.skeleton.canGrow_of_few hfew

theorem step_spec (hk : LawfulKeys callbacks) (hsound : Sound callbacks bound s.table)
    (hfuel : bound < fuel) {op : Op} (hcall : Callable s op)
    (hcan : ∀ reply key value, op = .set reply key value → CanGrow s.table) :
    ∃ s', step fuel s op = some s' ∧ StepOutcome s op s' ∧
      Sound callbacks (bound + 1) s'.table := by
  obtain ⟨n, S, h, hbound⟩ := hsound
  have hlt := hbound.trans_lt hfuel
  cases op with
  | set reply key value =>
      obtain ⟨status, t', m, S', hrun, hrep, hout, hlen⟩ :=
        ncHashtableSet_spec h hk hlt (hcan reply key value rfl) hcall.1 hcall.2 key value
      exact ⟨_, by simp only [step, hrun]; rfl, .set hout, m, S', hrep, by omega⟩
  | del key =>
      obtain ⟨status, t', S', hrun, hrep, hout, hlen, -⟩ := ncHashtableDel_spec h hk hlt.le key
      exact ⟨_, by simp only [step, hrun]; rfl, .del hout, n, S', hrep, by omega⟩
  | clear =>
      obtain ⟨t', hrun, hrep, hview, hfreed, -⟩ := ncHashtableClear_spec h hlt
      exact ⟨_, by simp only [step, hrun]; rfl, .clear h.enumerates hview hfreed, n, [], hrep,
        by simp⟩
  | iterSet iter value =>
      obtain ⟨a, hiter, hlive⟩ := hcall
      obtain rfl := eq_pair_of_listToPair hiter
      obtain ⟨t', hrun, hrep, hview, hfreed, -⟩ :=
        ncHashtableIterSet_spec h (h.view_of_mem (h.mem_of_live a hlive)) value
      have hkey : ncHashtableIterKey s.table (.pair a) = some (s.table.pair a).key := by
        simp [ncHashtableIterKey, listToPair, getPair_of_live hlive]
      refine ⟨_, by simp only [step, hkey, hrun]; rfl,
        .iterSet (h.view_of_mem (h.mem_of_live a hlive)) hview ?_, n, S, hrep, by omega⟩
      rw [h.callbacks_eq]
      exact hfreed

/-! ## Whole runs -/

/-- A run from a sound table whose pairs stay few returns, and keeps what every step keeps. -/
theorem run_spec (hk : LawfulKeys callbacks) (Inv : List Op → Session → Prop)
    (hstep : ∀ past s op s' bound, Sound callbacks bound s.table →
      Sound callbacks (bound + 1) s'.table → Inv past s → StepOutcome s op s' →
      Inv (past ++ [op]) s')
    {s₀ : Session} (hsound : Sound callbacks bound s₀.table) (hinv : Inv [] s₀)
    {ops : List Op} (hfuel : bound + ops.length < fuel)
    (hok : Along (step fuel) (fun s op => Callable s op ∧ FewPairs s.table) s₀ ops) :
    ∃ s, run (step fuel) s₀ ops = some s ∧ Sound callbacks (bound + ops.length) s.table ∧
      Inv ops s := by
  refine Along.run_total
    (fun past s => Sound callbacks (bound + past.length) s.table ∧ Inv past s) ops.length ?_ []
    (by simp) ⟨hsound, hinv⟩ hok
  rintro past s op hlen ⟨hs, hi⟩ ⟨hcall, hfew⟩
  have hcan : CanGrow s.table := by
    obtain ⟨n, S, h, -⟩ := hs
    exact h.canGrow_of_few hfew
  obtain ⟨s', hrun, hout, hs'⟩ := step_spec hk hs
    (show bound + past.length < fuel by omega) hcall fun _ _ _ _ => hcan
  exact ⟨s', hrun, by simpa [Nat.add_assoc] using hs', hstep past s op s' _ hs hs' hi hout⟩

theorem along_few (hk : LawfulKeys callbacks) {ops : List Op}
    (hsound : Sound callbacks bound s.table) (hfuel : bound + ops.length < fuel)
    (hlen : bound + ops.length < 1610612741) (hok : Along (step fuel) Callable s ops) :
    Along (step fuel) (fun s op => Callable s op ∧ FewPairs s.table) s ops := by
  induction ops generalizing s bound with
  | nil => trivial
  | cons op ops ih =>
      simp only [List.length_cons] at hfuel hlen
      have hfew : FewPairs s.table := by
        obtain ⟨n, S, h, hbound⟩ := hsound
        intro cells hnodup hcells
        have := (List.subperm_of_subset hnodup fun a ha =>
          h.mem_of_live a (hcells a ha)).length_le
        omega
      have hcan : CanGrow s.table := by
        obtain ⟨n, S, h, -⟩ := hsound
        exact h.canGrow_of_few hfew
      refine ⟨⟨hok.1, hfew⟩, fun s' hs' => ?_⟩
      obtain ⟨s₁, hs₁, -, hsound'⟩ :=
        step_spec hk hsound (show bound < fuel by omega) hok.1 fun _ _ _ _ => hcan
      obtain rfl : s₁ = s' := Option.some.inj (hs₁.symm.trans hs')
      exact ih hsound' (by omega) (by omega) (hok.2 s₁ hs')

/-- Without a bound on the pairs: a run that returned kept the invariant. -/
theorem sound_of_run (hk : LawfulKeys callbacks) {ops : List Op} {s' : Session}
    (hsound : Sound callbacks bound s.table) (hfuel : bound + ops.length < fuel)
    (hok : Along (step fuel) Callable s ops) (hrun : run (step fuel) s ops = some s') :
    Sound callbacks (bound + ops.length) s'.table := by
  induction ops generalizing s bound with
  | nil =>
      simp only [run_nil, Option.some.injEq] at hrun
      exact hrun ▸ hsound
  | cons op ops ih =>
      simp only [List.length_cons] at hfuel ⊢
      obtain ⟨s₁, hs₁, hrest⟩ := Option.bind_eq_some_iff.mp hrun
      have hcan : ∀ reply key value, op = .set reply key value → CanGrow s.table := by
        rintro reply key value rfl
        obtain ⟨result, hset, -⟩ := Option.bind_eq_some_iff.mp hs₁
        exact canGrow_of_ncHashtableSet hset
      obtain ⟨s₂, hs₂, -, hsound'⟩ := step_spec hk hsound (show bound < fuel by omega) hok.1 hcan
      obtain rfl : s₂ = s₁ := Option.some.inj (hs₂.symm.trans hs₁)
      rw [show bound + (ops.length + 1) = bound + 1 + ops.length by omega]
      exact ih hsound' (by omega) (hok.2 s₂ hs₁) hrest

theorem init_sound {t : NcHashtable} (h : ncHashtableInit true callbacks = some t) :
    Sound callbacks 0 t ∧ t.view = (fun _ => none) ∧ t.freed = [] := by
  obtain ⟨t', hrun, hrep, hview, hfreed⟩ := ncHashtableInit_spec callbacks
  obtain rfl : t' = t := Option.some.inj (hrun.symm.trans h)
  exact ⟨⟨5, [], hrep, by simp⟩, hview, hfreed⟩

end Libnc.Hashtable
