import Mathlib.Data.List.Basic

/-!
# Records of one size in memory

A memory gives the value at every offset.  Records of equal size lie in it one
after the other from offset zero.
-/

namespace Libnc.Foundation

variable {α : Type*} {mem mem' : Nat → α} {size n offset i : Nat} {bytes bytes' : List α}

/-- The memory after `bytes` have been written at `offset`. -/
def overwrite (mem : Nat → α) (offset : Nat) (bytes : List α) : Nat → α :=
  fun i => if offset ≤ i then bytes[i - offset]?.getD (mem i) else mem i

def record (mem : Nat → α) (size i : Nat) : List α :=
  (List.range size).map fun j => mem (i * size + j)

def records (mem : Nat → α) (size n : Nat) : List (List α) :=
  (List.range n).map (record mem size)

/-! ## Writes -/

theorem overwrite_of_lt (h : i < offset) : overwrite mem offset bytes i = mem i :=
  if_neg (Nat.not_le.mpr h)

theorem overwrite_add : overwrite mem offset bytes (offset + i) =
    bytes[i]?.getD (mem (offset + i)) := by
  unfold overwrite
  rw [if_pos (Nat.le_add_right _ _), Nat.add_sub_cancel_left]

theorem overwrite_nil : overwrite mem offset [] = mem := by
  funext i
  simp [overwrite]

theorem overwrite_append : overwrite mem offset (bytes ++ bytes') =
    overwrite (overwrite mem offset bytes) (offset + bytes.length) bytes' := by
  funext i
  by_cases hlow : i < offset
  · rw [overwrite_of_lt hlow, overwrite_of_lt (by omega), overwrite_of_lt hlow]
  obtain ⟨i, rfl⟩ := Nat.exists_eq_add_of_le (Nat.not_lt.mp hlow)
  rw [overwrite_add]
  by_cases hmid : i < bytes.length
  · rw [overwrite_of_lt (by omega), overwrite_add, List.getElem?_append_left hmid,
      List.getElem?_eq_getElem hmid, Option.getD_some]
  · obtain ⟨i, rfl⟩ := Nat.exists_eq_add_of_le (Nat.not_lt.mp hmid)
    rw [← Nat.add_assoc, overwrite_add, List.getElem?_append_right (by omega),
      Nat.add_sub_cancel_left, Nat.add_assoc, overwrite_add,
      List.getElem?_eq_none (l := bytes) (by omega)]
    rfl

/-! ## Records -/

theorem record_congr (h : ∀ k, k < (i + 1) * size → mem' k = mem k) :
    record mem' size i = record mem size i := by
  refine List.map_congr_left fun j hj => h _ ?_
  rw [List.mem_range] at hj
  rw [Nat.add_mul, Nat.one_mul]
  omega

theorem records_congr (h : ∀ k, k < n * size → mem' k = mem k) :
    records mem' size n = records mem size n := by
  refine List.map_congr_left fun i hi => record_congr fun k hk => h k ?_
  exact Nat.lt_of_lt_of_le hk (Nat.mul_le_mul_right size (List.mem_range.mp hi))

theorem records_succ : records mem size (n + 1) = records mem size n ++ [record mem size n] := by
  simp [records, List.range_succ]

theorem record_overwrite (h : bytes.length = size) :
    record (overwrite mem (i * size) bytes) size i = bytes := by
  apply List.ext_getElem (by simp [record, h])
  intro j hj hj'
  simp only [record, List.getElem_map, List.getElem_range, overwrite_add]
  rw [List.getElem?_eq_getElem hj', Option.getD_some]

theorem records_overwrite {values : List (List α)} (h : ∀ v ∈ values, v.length = size) :
    records (overwrite mem (n * size) values.flatten) size (n + values.length) =
      records mem size n ++ values := by
  induction values generalizing mem n with
  | nil => simp [overwrite_nil]
  | cons v values ih =>
      have hv : v.length = size := h v (by simp)
      have hkeep : records (overwrite mem (n * size) v) size n = records mem size n :=
        records_congr fun k hk => overwrite_of_lt hk
      have hnext : records (overwrite (overwrite mem (n * size) v) ((n + 1) * size)
          values.flatten) size (n + 1 + values.length) =
          records (overwrite mem (n * size) v) size (n + 1) ++ values :=
        ih fun w hw => h w (List.mem_cons_of_mem _ hw)
      rw [records_succ, record_overwrite hv, hkeep, List.append_assoc] at hnext
      rw [List.flatten_cons, overwrite_append, hv, List.length_cons]
      rw [Nat.add_mul, Nat.one_mul, Nat.add_right_comm] at hnext
      exact hnext

end Libnc.Foundation
