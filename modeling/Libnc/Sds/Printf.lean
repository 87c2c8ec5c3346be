import Mathlib.Algebra.Group.Nat.Defs
import Mathlib.Data.List.TakeWhile
import Libnc.Sds.Operations

/-!
# Formatted appending

`sdscatvprintf` formats into a buffer of its own and doubles the buffer until
the last byte but one has stayed zero.  The output of the format is a parameter,
of which `vsnprintf` stores as much as fits.
-/

namespace Libnc.Sds

open Libnc.Foundation Blocks

def writeChars (h : Heap) (p offset : Nat) (data : List UInt8) : Option Heap :=
  match h.block p with
  | some (.chars bytes) => (write bytes offset data).map fun bytes => h.store p (.chars bytes)
  | _ => none

def charAt (h : Heap) (p offset : Nat) : Option UInt8 :=
  match h.block p with
  | some (.chars bytes) => bytes[offset]?
  | _ => none

/-- At most `n - 1` characters of the output and the terminator. -/
def vsnprintf (h : Heap) (buf n : Nat) (output : List UInt8) : Option Heap :=
  writeChars h buf 0 (output.take (n - 1) ++ [0])

/-- The loop that looks for a sufficient buffer. -/
def formatBuffer (malloc : Allocator) (output : List UInt8) :
    Nat → Heap → Nat → Option (Heap × Option Nat)
  | 0, _, _ => none
  | fuel + 1, h, buflen =>
      match h.alloc malloc fun g => Block.chars (garbage g buflen) with
      | (h, none) => some (h, none)
      | (h, some buf) => do
          let h ← writeChars h buf (buflen - 2) [0]
          let h ← vsnprintf h buf buflen output
          let last ← charAt h buf (buflen - 2)
          if last ≠ 0 then do
            let h ← h.free buf
            formatBuffer malloc output fuel h (buflen * 2 % sizeModulus)
          else some (h, some buf)

def sdscatvprintf (malloc : Allocator) (h : Heap) (s : Nat) (output : List UInt8) :
    Option (Heap × Option Nat) := do
  match ← formatBuffer malloc output (output.length + 1) h 16 with
  | (h, none) => some (h, none)
  | (h, some buf) => do
      let (h, t) ← sdscat malloc h s (.inside buf 0)
      let h ← h.free buf
      some (h, t)

/-! ## The C string of the output -/

/-- The bytes before the first zero. -/
def cstr (l : List UInt8) : List UInt8 := l.takeWhile (· ≠ 0)

theorem take_idxOf_zero (l : List UInt8) : l.take (l.idxOf 0) = cstr l := by
  induction l with
  | nil => rfl
  | cons c l ih =>
      unfold cstr
      rw [List.idxOf_cons]
      by_cases hc : c = 0
      · simp [hc]
      · simpa [hc, beq_false_of_ne hc, cstr] using ih

theorem cstr_append_zero (a b : List UInt8) : cstr (a ++ 0 :: b) = cstr a := by
  unfold cstr
  rw [List.takeWhile_append]
  split
  · rename_i hfull
    simpa using ((List.takeWhile_prefix _).eq_of_length hfull).symm
  · rfl

theorem cstr_take {l : List UInt8} {k : Nat} (h : l.length ≤ k ∨ 0 ∈ l.take k) :
    cstr (l.take k) = cstr l := by
  rcases h with hlen | hzero
  · rw [List.take_of_length_le hlen]
  · unfold cstr
    conv_rhs => rw [← List.take_append_drop k l, List.takeWhile_append]
    rw [if_neg]
    intro hfull
    have := List.takeWhile_eq_self_iff.mp ((List.takeWhile_prefix _).eq_of_length hfull)
    simpa using this 0 hzero

variable {malloc : Allocator} {h h' : Heap} {F : Nat → Option Block} {s n : Nat}
  {text room output : List UInt8}

theorem writeChars_of_cell {bytes bytes' data : List UInt8} {p offset : Nat}
    (hc : Cell h F p (.chars bytes)) (hw : write bytes offset data = some bytes') :
    writeChars h p offset data = some (h.store p (.chars bytes')) := by
  simp [writeChars, hc.get, hw]

/-- One pass of the loop: the output cut to the buffer, and the byte that is then tested. -/
theorem format_pass (output : List UInt8) (h : Heap) (g : Nat → UInt8) (hn : 2 ≤ n) :
    ∃ h₁ h₂ rest c,
      writeChars (h.push (.chars (garbage g n))) h.calls (n - 2) [0] = some h₁ ∧
      vsnprintf h₁ h.calls n output = some h₂ ∧ charAt h₂ h.calls (n - 2) = some c ∧
      Cell h₂ h.block h.calls (.chars (output.take (n - 1) ++ 0 :: rest)) ∧
      h₂.calls = h.calls + 1 ∧
      (output.length ≤ n - 2 → c = 0) ∧ (n - 2 < output.length → output[n - 2]? = some c) := by
  have hpush : Cell (h.push (.chars (garbage g n))) h.block h.calls (.chars (garbage g n)) :=
    cell_push
  have hzero : write (garbage g n) (n - 2) [0] = some _ := write_zero (by simp; omega)
  generalize hbuf : (garbage g n).take (n - 2) ++ 0 :: (garbage g n).drop (n - 2 + 1) = buf at hzero
  have hlen : buf.length = n := by
    rw [← hbuf]
    simp
    omega
  have hmark : buf[n - 2]? = some 0 := by
    rw [← hbuf]
    simp
  have hformat : write buf 0 (output.take (n - 1) ++ [0]) =
      some (output.take (n - 1) ++ 0 :: buf.drop ((output.take (n - 1)).length + 1)) := by
    unfold write
    rw [if_pos (by simp; omega)]
    simp
  have hmarked : Cell ((h.push (.chars (garbage g n))).store h.calls (.chars buf)) h.block
    h.calls (.chars buf) := hpush.store
  generalize hrest : buf.drop ((output.take (n - 1)).length + 1) = rest at hformat
  have hget : ∃ c, (output.take (n - 1) ++ 0 :: rest)[n - 2]? = some c ∧
      (output.length ≤ n - 2 → c = 0) ∧ (n - 2 < output.length → output[n - 2]? = some c) := by
    by_cases hshort : output.length ≤ n - 2
    · refine ⟨0, ?_, fun _ => rfl, by omega⟩
      rw [List.take_of_length_le (by omega), List.getElem?_append_right hshort]
      cases hk : n - 2 - output.length with
      | zero => rfl
      | succ k =>
          rw [List.getElem?_cons_succ, ← hrest, List.getElem?_drop, List.length_take,
            Nat.min_eq_right (by omega), ← hmark]
          congr 1
          omega
    · refine ⟨output[n - 2], ?_, by omega, fun _ => List.getElem?_eq_getElem (by omega)⟩
      rw [List.getElem?_append_left (by simp; omega), List.getElem?_take_of_lt (by omega),
        List.getElem?_eq_getElem (by omega)]
  obtain ⟨c, hc, hshort, hlong⟩ := hget
  refine ⟨_, _, rest, c, writeChars_of_cell hpush hzero, writeChars_of_cell hmarked hformat, ?_,
    hmarked.store, rfl, hshort, hlong⟩
  simp [charAt, hmarked.store.get, hc]

/-- The heap after `formatBuffer`: as before with NULL, or with a buffer for the output. -/
inductive Formatted (malloc : Allocator) (h : Heap) (output : List UInt8) :
    Heap × Option Nat → Prop where
  | null (h' : Heap) : Refused malloc h h' → h'.block = h.block →
      Formatted malloc h output (h', none)
  | done (h' : Heap) (buf : Nat) (bytes rest : List UInt8) : h.calls ≤ h'.calls →
      Cell h' h.block buf (.chars (bytes ++ 0 :: rest)) → cstr bytes = cstr output →
      Formatted malloc h output (h', some buf)

theorem Formatted.congr {h₁ h₂ : Heap} {r : Heap × Option Nat} (hblock : h₁.block = h₂.block)
    (hle : h₂.calls ≤ h₁.calls) (hr : Formatted malloc h₁ output r) :
    Formatted malloc h₂ output r := by
  cases hr with
  | null h' hrefused hsame => exact .null h' (hrefused.of_le hle) (hsame.trans hblock)
  | done h' buf bytes rest hle' hc htext =>
      exact .done h' buf bytes rest (Nat.le_trans hle hle') (hblock ▸ hc) htext

/-- A pass ends the loop, or finds the output longer than the buffer and releases it. -/
theorem formatBuffer_pass (malloc : Allocator) (output : List UInt8) (h : Heap) (hn : 2 ≤ n) :
    (∃ r, Formatted malloc h output r ∧
      ∀ fuel, formatBuffer malloc output (fuel + 1) h n = some r) ∨
    (n - 2 < output.length ∧ ∃ h', h'.block = h.block ∧ h.calls ≤ h'.calls ∧ ∀ fuel,
      formatBuffer malloc output (fuel + 1) h n =
        formatBuffer malloc output fuel h' (n * 2 % sizeModulus)) := by
  cases ha : malloc h.calls with
  | none =>
      refine .inl ⟨_, .null h.refused (refused_of_none ha) rfl, fun fuel => ?_⟩
      simp [formatBuffer, alloc_of_none ha]
  | some g =>
      obtain ⟨h₁, h₂, rest, c, hmark, hformat, hlast, hcell, hcalls, hshort, hlong⟩ :=
        format_pass output h g hn
      by_cases hc : c = 0
      · refine .inl ⟨_, .done h₂ h.calls _ rest (by omega) hcell (cstr_take ?_), fun fuel => ?_⟩
        · by_cases hlen : output.length ≤ n - 2
          · left
            omega
          · right
            rw [List.mem_take_iff_getElem]
            obtain ⟨hlt, hzero⟩ := List.getElem?_eq_some_iff.mp (hlong (by omega))
            exact ⟨n - 2, by omega, by rw [hzero, hc]⟩
        · simp [formatBuffer, alloc_of_some ha, hmark, hformat, hlast, hc]
      · right
        constructor
        · by_contra hlen
          exact hc (hshort (by omega))
        · refine ⟨_, hcell.release, Nat.le_of_lt (Nat.lt_of_succ_le (Nat.le_of_eq hcalls.symm)),
            fun fuel => ?_⟩
          simp [formatBuffer, alloc_of_some ha, hmark, hformat, hlast, hc, hcell.free]

theorem formatBuffer_spec (malloc : Allocator) (output : List UInt8) (fuel : Nat) (h : Heap)
    (hn : 2 ≤ n) (hfuel : output.length + 2 ≤ n * 2 ^ fuel)
    (hlen : output.length ≤ 2147483647) :
    ∃ r, formatBuffer malloc output (fuel + 1) h n = some r ∧ Formatted malloc h output r := by
  induction fuel generalizing h n with
  | zero =>
      rcases formatBuffer_pass malloc output h hn with ⟨r, hr, hstep⟩ | ⟨hlong, -⟩
      · exact ⟨r, hstep 0, hr⟩
      · omega
  | succ fuel ih =>
      rcases formatBuffer_pass malloc output h hn with
        ⟨r, hr, hstep⟩ | ⟨hlong, h', hsame, hle, hstep⟩
      · exact ⟨r, hstep _, hr⟩
      · have hmod : n * 2 % sizeModulus = n * 2 := Nat.mod_eq_of_lt (by
          unfold sizeModulus
          omega)
        rw [hstep, hmod]
        rw [Nat.pow_succ', ← Nat.mul_assoc] at hfuel
        obtain ⟨r, hrun, hr⟩ := ih h' (by omega) hfuel
        exact ⟨r, hrun, hr.congr hsame hle⟩

/-- The text that is appended ends at the first zero of the output, whatever its length. -/
theorem sdscatvprintf_spec (malloc : Allocator) (output : List UInt8)
    (hs : Holds h F s text room) (hlen : output.length ≤ 2147483647)
    (hb : room.length < (cstr output).length → text.length + (cstr output).length ≤ maxText) :
    ∃ r, sdscatvprintf malloc h s output = some r ∧
      Outcome malloc h F (text ++ cstr output) r := by
  have hfuel : output.length + 2 ≤ 16 * 2 ^ output.length := by
    have := Nat.lt_two_pow_self (n := output.length)
    omega
  obtain ⟨r, hrun, hr⟩ := formatBuffer_spec malloc output output.length h (by omega) hfuel hlen
  unfold sdscatvprintf
  rw [hrun]
  cases hr with
  | null h' hrefused hsame => exact ⟨(h', none), rfl, .null h' hrefused hsame⟩
  | done h' buf bytes rest hle hc htext =>
      have hbuf : F buf = none := hs.cell.frame_none hc.absent
      have hs' : Holds h' _ s text room := ⟨hs.cell.beside hc, hs.fits⟩
      have hread : readable (Function.update F buf (some (.chars (bytes ++ 0 :: rest))))
          (.inside buf 0) = some (bytes ++ 0 :: rest) := by
        simp [readable]
      have hcstr : (bytes ++ 0 :: rest).take ((bytes ++ 0 :: rest).idxOf 0) = cstr output := by
        rw [take_idxOf_zero, cstr_append_zero, htext]
      have hidx : (bytes ++ 0 :: rest).idxOf 0 = (cstr output).length := by
        rw [← hcstr, List.length_take, Nat.min_eq_left List.idxOf_le_length]
      obtain ⟨⟨h'', t⟩, hcat, hout⟩ : ∃ r, sdscat malloc h' s (.inside buf 0) = some r ∧
          Outcome malloc h' _ (text ++ cstr output) r := by
        rw [← hcstr]
        exact sdscat_spec malloc hs' hread (by simp) (by rw [hidx]; exact hb)
      cases hout with
      | null _ hrefused hsame =>
          have hfree : h''.free buf = some (h''.release buf) := by
            simp [Blocks.free, hsame, hc.get]
          refine ⟨(h''.release buf, none), by simp [hcat, hfree],
            .null _ (hrefused.of_le hle) ?_⟩
          rw [release_block, hsame, hc.block, Function.update_idem, ← hc.absent,
            Function.update_eq_self]
      | done _ s' room' hs'' =>
          refine ⟨(h''.release buf, some s'), by simp [hcat, hs''.cell.free_frame],
            .done _ s' room' ⟨hs''.cell.release_frame hbuf, hs''.fits⟩⟩

end Libnc.Sds
