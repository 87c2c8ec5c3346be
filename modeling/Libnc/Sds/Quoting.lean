import Libnc.Sds.Arguments
import Libnc.Sds.Printf

/-!
# Quoting

`sdscatrepr` appends the quoted form of its argument, and `sdssplitargs` reads a
line of quoted forms back.
-/

namespace Libnc.Sds

open Libnc.Foundation Blocks

/-- One round of the loop; a NULL from the round before is dereferenced. -/
def reprByte (malloc : Allocator) (h : Heap) (s : Option Nat) (c : UInt8) :
    Option (Heap × Option Nat) := do
  let s ← s
  if c = 92 ∨ c = 34 then sdscatvprintf malloc h s [92, c]
  else if c = 10 then sdscatlen malloc h s (.bytes [92, 110]) 2
  else if c = 13 then sdscatlen malloc h s (.bytes [92, 114]) 2
  else if c = 9 then sdscatlen malloc h s (.bytes [92, 116]) 2
  else if c = 7 then sdscatlen malloc h s (.bytes [92, 97]) 2
  else if c = 8 then sdscatlen malloc h s (.bytes [92, 98]) 2
  else if isprint c then sdscatvprintf malloc h s [c]
  else sdscatvprintf malloc h s [92, 120, hexDigit (c.toNat / 16), hexDigit (c.toNat % 16)]

def reprLoop (malloc : Allocator) : Nat → Heap → Option Nat → Source →
    Option (Heap × Option Nat)
  | 0, h, s, _ => some (h, s)
  | len + 1, h, s, p => do
      let c ← read h p 1
      let (h, s) ← reprByte malloc h s (c.getD 0 0)
      reprLoop malloc len h s (p.plus 1)

def sdscatrepr (malloc : Allocator) (h : Heap) (s : Nat) (p : Source) (len : Nat) :
    Option (Heap × Option Nat) := do
  let (h, s) ← sdscatlen malloc h s (.bytes [34]) 1
  let (h, s) ← reprLoop malloc len h s p
  let s ← s
  sdscatlen malloc h s (.bytes [34]) 1

variable {malloc : Allocator} {h : Heap} {F : Nat → Option Block} {s n : Nat}
  {text room l : List UInt8} {t : Source} {c : UInt8}

theorem cstr_of_not_mem (hl : 0 ∉ l) : cstr l = l := by
  unfold cstr
  rw [List.takeWhile_eq_self_iff]
  intro c hc
  have hne : c ≠ 0 := fun heq => hl (heq ▸ hc)
  simpa using hne

theorem hexDigit_ne_zero : ∀ n < 16, hexDigit n ≠ 0 := by decide

theorem printf_spec (hm : Reliable malloc) (hs : Holds h F s text room) (hl : 0 ∉ l)
    (hb : text.length + l.length ≤ maxText) :
    ∃ h' s' room', sdscatvprintf malloc h s l = some (h', some s') ∧
      Holds h' F s' (text ++ l) room' := by
  have hmax : maxText ≤ 2147483647 := by decide
  obtain ⟨r, hrun, hout⟩ := sdscatvprintf_spec malloc l hs
    (by omega) (fun _ => by rw [cstr_of_not_mem hl]; exact hb)
  obtain ⟨h', s', room', rfl, hs'⟩ := hout.of_reliable hm
  rw [cstr_of_not_mem hl] at hs'
  exact ⟨h', s', room', hrun, hs'⟩

theorem catlen_spec (hm : Reliable malloc) (hs : Holds h F s text room)
    (hb : text.length + l.length ≤ maxText) :
    ∃ h' s' room', sdscatlen malloc h s (.bytes l) l.length = some (h', some s') ∧
      Holds h' F s' (text ++ l) room' := by
  obtain ⟨r, hrun, hout⟩ := sdscatlen_spec malloc (t := .bytes l) (n := l.length) hs
    rfl (Nat.le_refl _) (fun _ => hb)
  obtain ⟨h', s', room', rfl, hs'⟩ := hout.of_reliable hm
  exact ⟨h', s', room', hrun, by simpa using hs'⟩

theorem reprByte_spec (hm : Reliable malloc) (hs : Holds h F s text room) (c : UInt8)
    (hb : text.length + (escape c).length ≤ maxText) :
    ∃ h' s' room', reprByte malloc h (some s) c = some (h', some s') ∧
      Holds h' F s' (text ++ escape c) room' := by
  unfold escape at hb ⊢
  simp only [reprByte, Option.bind_eq_bind, Option.bind_some]
  split_ifs at hb ⊢ with hself hn hr ht ha hb' hp
  · apply printf_spec hm hs _ hb
    rcases hself with rfl | rfl <;> decide
  · exact catlen_spec (l := [92, 110]) hm hs hb
  · exact catlen_spec (l := [92, 114]) hm hs hb
  · exact catlen_spec (l := [92, 116]) hm hs hb
  · exact catlen_spec (l := [92, 97]) hm hs hb
  · exact catlen_spec (l := [92, 98]) hm hs hb
  · apply printf_spec hm hs _ hb
    rw [List.mem_singleton]
    rintro rfl
    exact absurd hp (by decide)
  · have hlt := c.toNat_lt
    have hhigh := hexDigit_ne_zero (c.toNat / 16) (by omega)
    have hlow := hexDigit_ne_zero (c.toNat % 16) (by omega)
    apply printf_spec hm hs _ hb
    simp [hhigh.symm, hlow.symm]

theorem reprLoop_spec (hm : Reliable malloc) (hs : Holds h F s text room)
    (ht : readable F t = some l) (hn : n ≤ l.length)
    (hb : text.length + ((l.take n).flatMap escape).length ≤ maxText) :
    ∃ h' s' room', reprLoop malloc n h (some s) t = some (h', some s') ∧
      Holds h' F s' (text ++ (l.take n).flatMap escape) room' := by
  induction n generalizing h s text room t l with
  | zero => exact ⟨h, s, room, rfl, by simpa using hs⟩
  | succ n ih =>
      cases l with
      | nil => simp at hn
      | cons c l =>
          simp only [List.take_succ_cons, List.flatMap_cons, List.length_append,
            List.length_cons] at hb hn ⊢
          obtain ⟨h₁, s₁, room₁, hbyte, hs₁⟩ := reprByte_spec hm hs c (by omega)
          have hnext : readable F (t.plus 1) = some l := readable_plus ht (by simp)
          obtain ⟨h₂, s₂, room₂, hloop, hs₂⟩ := ih hs₁ hnext (by omega)
            (by rw [List.length_append]; omega)
          refine ⟨h₂, s₂, room₂, ?_, by simpa using hs₂⟩
          have hread : read h t 1 = some [c] := read_of_frame hs.cell ht (by simp)
          simp [reprLoop, hread, hbyte, hloop]

theorem sdscatrepr_spec (hm : Reliable malloc) (hs : Holds h F s text room)
    (ht : readable F t = some l) (hn : n ≤ l.length)
    (hb : text.length + (quoted (l.take n)).length ≤ maxText) :
    ∃ h' s' room', sdscatrepr malloc h s t n = some (h', some s') ∧
      Holds h' F s' (text ++ quoted (l.take n)) room' := by
  simp only [quoted, List.length_append, List.length_singleton] at hb
  obtain ⟨h₁, s₁, room₁, hopen, hs₁⟩ := catlen_spec (l := [34]) hm hs (by simp; omega)
  obtain ⟨h₂, s₂, room₂, hloop, hs₂⟩ := reprLoop_spec hm hs₁ ht hn
    (by rw [List.length_append, List.length_singleton]; omega)
  obtain ⟨h₃, s₃, room₃, hclose, hs₃⟩ := catlen_spec (l := [34]) hm hs₂
    (by simp only [List.length_append, List.length_singleton]; omega)
  refine ⟨h₃, s₃, room₃, ?_, by simpa [quoted] using hs₃⟩
  rw [List.length_singleton] at hopen hclose
  simp [sdscatrepr, hopen, hloop, hclose]

/-! ## A line of quoted arguments -/

/-- The quoted forms of the arguments, with a space between two of them, appended to `s`. -/
def catArgs (malloc : Allocator) (h : Heap) (s : Option Nat) :
    List (List UInt8) → Option (Heap × Option Nat)
  | [] => some (h, s)
  | [arg] => do sdscatrepr malloc h (← s) (.bytes arg) arg.length
  | arg :: args => do
      let (h, s) ← sdscatrepr malloc h (← s) (.bytes arg) arg.length
      let (h, s) ← sdscatlen malloc h (← s) (.bytes [32]) 1
      catArgs malloc h s args

theorem catArgs_spec (hm : Reliable malloc) (args : List (List UInt8))
    (hs : Holds h F s text room) (hb : text.length + (quotedLine args).length ≤ maxText) :
    ∃ h' s' room', catArgs malloc h (some s) args = some (h', some s') ∧
      Holds h' F s' (text ++ quotedLine args) room' := by
  induction args generalizing h s text room with
  | nil => exact ⟨h, s, room, rfl, by simpa [quotedLine] using hs⟩
  | cons arg args ih =>
      have hrepr : ∀ {n : Nat}, text.length + (quoted arg).length + n ≤ maxText →
          ∃ h' s' room', sdscatrepr malloc h s (.bytes arg) arg.length = some (h', some s') ∧
            Holds h' F s' (text ++ quoted arg) room' := by
        intro n hn
        have := sdscatrepr_spec (t := .bytes arg) (n := arg.length) hm hs rfl (Nat.le_refl _)
          (by rw [List.take_length]; omega)
        simpa using this
      cases args with
      | nil => exact hrepr (n := 0) hb
      | cons next args =>
          simp only [quotedLine, List.length_append, List.length_cons] at hb
          obtain ⟨h₁, s₁, room₁, hrun₁, hs₁⟩ := hrepr (n := 0) (by omega)
          obtain ⟨h₂, s₂, room₂, hrun₂, hs₂⟩ := catlen_spec (l := [32]) hm hs₁
            (by simp only [List.length_append, List.length_singleton]; omega)
          obtain ⟨h₃, s₃, room₃, hrun₃, hs₃⟩ := ih hs₂ (by
            simp only [List.length_append, List.length_singleton]
            omega)
          refine ⟨h₃, s₃, room₃, ?_, by simpa [quotedLine] using hs₃⟩
          rw [List.length_singleton] at hrun₂
          simp [catArgs, hrun₁, hrun₂, hrun₃]

theorem zero_not_mem_escape (c : UInt8) : 0 ∉ escape c := by
  have hlt := c.toNat_lt
  have hhigh := hexDigit_ne_zero (c.toNat / 16) (by omega)
  have hlow := hexDigit_ne_zero (c.toNat % 16) (by omega)
  unfold escape
  split_ifs with hself _ _ _ _ _ hp
  · rcases hself with rfl | rfl <;> decide
  all_goals first
    | decide
    | simp [hhigh.symm, hlow.symm]
  rintro rfl
  exact absurd hp (by decide)

theorem zero_not_mem_quotedLine (args : List (List UInt8)) : 0 ∉ quotedLine args := by
  have hquoted : ∀ arg : List UInt8, 0 ∉ quoted arg := by
    intro arg
    simp [quoted, zero_not_mem_escape]
  induction args with
  | nil => simp [quotedLine]
  | cons arg args ih =>
      cases args with
      | nil => exact hquoted arg
      | cons next args =>
          simp only [quotedLine, List.mem_append, List.mem_cons, not_or]
          exact ⟨hquoted arg, by decide, ih⟩

/-- Quote the arguments into a new string and split the C string in it. -/
def splitQuoted (malloc : Allocator) (h : Heap) (args : List (List UInt8)) :
    Option (Heap × Option Nat × Nat) := do
  let (h, s) ← sdsempty malloc h
  let (h, s) ← catArgs malloc h s args
  let line ← readable h.block (.inside (← s) 0)
  sdssplitargs malloc h (cstr line)

/--
The arguments come back byte for byte, whatever the bytes are, and besides them
the heap has gained the line only.
-/
theorem splitQuoted_spec (hm : Reliable malloc) (h : Heap) (args : List (List UInt8))
    (hb : (quotedLine args).length ≤ maxText) :
    ∃ h' v s room, splitQuoted malloc h args = some (h', some v, args.length) ∧
      h.block s = none ∧ Tokens h'
        (Function.update h.block s (some (.string (pack (quotedLine args) room)))) v args := by
  obtain ⟨r, hempty, hout⟩ := sdsempty_spec malloc h
  obtain ⟨h₀, s₀, room₀, rfl, hs₀⟩ := hout.of_reliable hm
  obtain ⟨h₁, s₁, room₁, hcat, hs₁⟩ := catArgs_spec hm args hs₀ (by simpa using hb)
  rw [List.nil_append] at hs₁
  have hzero := zero_not_mem_quotedLine args
  have hline : cstr (quotedLine args ++ 0 :: room₁) = quotedLine args := by
    rw [cstr_append_zero, cstr_of_not_mem hzero]
  obtain ⟨r, hsplit, hr⟩ := sdssplitargs_spec hm h₁ hzero hb
  have hcount := length_le_quotedLine args
  rw [scanLine_quotedLine args _ (by omega)] at hr
  cases hr with
  | @args h₂ v _ htokens =>
      refine ⟨h₂, v, s₁, room₁, ?_, hs₁.cell.absent, hs₁.cell.block ▸ htokens⟩
      simp [splitQuoted, hempty, hcat, readable_of_holds hs₁, hline, hsplit]

theorem splitQuoted_spec_zero :
    ∃ h' v s room, splitQuoted zeros Blocks.empty [[34, 92], [], [0, 10]] =
        some (h', some v, 3) ∧
      (Blocks.empty : Heap).block s = none ∧ Tokens h' (Function.update Blocks.empty.block s
        (some (.string (pack (quotedLine [[34, 92], [], [0, 10]]) room)))) v
          [[34, 92], [], [0, 10]] :=
  splitQuoted_spec zeros_reliable Blocks.empty _ (by decide)

end Libnc.Sds
