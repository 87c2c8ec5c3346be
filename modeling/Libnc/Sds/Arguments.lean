import Libnc.Sds.Syntax
import Libnc.Sds.Tokens

/-!
# Splitting a line

`sdssplitargs` on the heap.  The scanner keeps the suffix of the line at its
pointer; the terminator stands behind the last byte, and nothing behind the
terminator can be read.
-/

namespace Libnc.Sds

open Libnc.Foundation Blocks

/-! ## The inner loop -/

/-- `*(p + k)`, which must not lie behind the terminator. -/
def peek (p : List UInt8) (k : Nat) : Option UInt8 :=
  if k < p.length then p[k]? else if k = p.length then some 0 else none

/-- The condition for an escape `\xHH`, evaluated from left to right. -/
def atHexEscape (p : List UInt8) : Option Bool := do
  if (← peek p 0) ≠ 92 then some false
  else if (← peek p 1) ≠ 120 then some false
  else if !isHexDigit (← peek p 2) then some false
  else some (isHexDigit (← peek p 3))

/-- A backslash at `p` whose next character satisfies `test`. -/
def atBackslash (test : UInt8 → Bool) (p : List UInt8) : Option Bool := do
  if (← peek p 0) ≠ 92 then some false
  else some (test (← peek p 1))

/-- Whether a quote at `p` is followed by a space or by nothing. -/
def atClosing (p : List UInt8) : Option Bool := do
  let c ← peek p 1
  some (c = 0 || isspace c)

inductive Mode where
  | plain
  | inq
  | insq
  deriving DecidableEq, Repr

/-- How a round of the inner loop ends: on with the loop, `done`, or `goto err`. -/
inductive Round where
  | next (mode : Mode) (p : List UInt8)
  | done (p : List UInt8)
  | err
  deriving DecidableEq, Repr

/-- Append a character to `current`, which may be NULL after a refusal. -/
def push (malloc : Allocator) (h : Heap) (current : Option Nat) (c : UInt8) :
    Option (Heap × Option Nat) := do
  sdscatlen malloc h (← current) (.bytes [c]) 1

/-- A round that appends `c` and goes on at `p`. -/
def pushNext (malloc : Allocator) (h : Heap) (current : Option Nat) (c : UInt8) (mode : Mode)
    (p : List UInt8) : Option (Heap × Option Nat × Round) := do
  let (h, current) ← push malloc h current c
  some (h, current, .next mode p)

def roundInq (malloc : Allocator) (h : Heap) (current : Option Nat) (p : List UInt8) :
    Option (Heap × Option Nat × Round) := do
  let c ← peek p 0
  if ← atHexEscape p then
    pushNext malloc h current (hexByte (← peek p 2) (← peek p 3)) .inq (p.drop 4)
  else if ← atBackslash (· ≠ 0) p then
    pushNext malloc h current (unescape (← peek p 1)) .inq (p.drop 2)
  else if c = 34 then
    some (h, current, if ← atClosing p then .done (p.drop 1) else .err)
  else if c = 0 then some (h, current, .err)
  else pushNext malloc h current c .inq (p.drop 1)

def roundInsq (malloc : Allocator) (h : Heap) (current : Option Nat) (p : List UInt8) :
    Option (Heap × Option Nat × Round) := do
  let c ← peek p 0
  if ← atBackslash (· = 39) p then pushNext malloc h current 39 .insq (p.drop 2)
  else if c = 39 then
    some (h, current, if ← atClosing p then .done (p.drop 1) else .err)
  else if c = 0 then some (h, current, .err)
  else pushNext malloc h current c .insq (p.drop 1)

def roundPlain (malloc : Allocator) (h : Heap) (current : Option Nat) (p : List UInt8) :
    Option (Heap × Option Nat × Round) := do
  let c ← peek p 0
  if c = 0 then some (h, current, .done p)
  else if endsPlain c then some (h, current, .done (p.drop 1))
  else if c = 34 then some (h, current, .next .inq (p.drop 1))
  else if c = 39 then some (h, current, .next .insq (p.drop 1))
  else pushNext malloc h current c .plain (p.drop 1)

def round (malloc : Allocator) (h : Heap) (current : Option Nat) :
    Mode → List UInt8 → Option (Heap × Option Nat × Round)
  | .plain, p => roundPlain malloc h current p
  | .inq, p => roundInq malloc h current p
  | .insq, p => roundInsq malloc h current p

/-- The inner loop; the result is the pointer behind the argument, or none at `err`. -/
def argument (malloc : Allocator) : Nat → Heap → Option Nat → Mode → List UInt8 →
    Option (Heap × Option Nat × Option (List UInt8))
  | 0, _, _, _, _ => none
  | fuel + 1, h, current, mode, p => do
      match ← round malloc h current mode p with
      | (h, current, .next mode p) => argument malloc fuel h current mode p
      | (h, current, .done p) => some (h, current, some p)
      | (h, current, .err) => some (h, current, none)

/-! ## The outer loop -/

/-- The label `err`. -/
def splitargsErr (h : Heap) (vector : Option Nat) (argc : Nat) (current : Option Nat) :
    Option Heap := do
  let h ← match vector with
    | none => if argc = 0 then some h else none
    | some v => freeSlots h v argc
  let h ← freeVector h vector
  sdsfree h current

/-- The outer loop; the result is the array with the number of arguments. -/
def splitargsLoop (malloc : Allocator) : Nat → Heap → List UInt8 → Option Nat → Nat →
    Option (Heap × Option Nat × Nat)
  | 0, _, _, _, _ => none
  | fuel + 1, h, p, vector, argc => do
      let p := p.dropWhile isspace
      if (← peek p 0) ≠ 0 then do
        let (h, current) ← sdsempty malloc h
        match ← argument malloc (p.length + 1) h current .plain p with
        | (h, current, none) => do
            let h ← splitargsErr h vector argc current
            some (h, none, 0)
        | (h, current, some p) => do
            let (h, vector) ← reallocVector malloc h vector (argc + 1)
            let v ← vector
            let h ← setSlot h v argc current
            let _ ← cint (argc + 1)
            splitargsLoop malloc fuel h p vector (argc + 1)
      else
        match vector with
        | none => do
            let (h, vector) ← reallocVector malloc h none 1
            some (h, vector, argc)
        | some v => some (h, some v, argc)

def sdssplitargs (malloc : Allocator) (h : Heap) (line : List UInt8) :
    Option (Heap × Option Nat × Nat) :=
  splitargsLoop malloc (line.length + 1) h line none 0

/-! ## One round of the inner loop -/

variable {malloc : Allocator} {h h' : Heap} {F : Nat → Option Block} {s fuel : Nat}
  {text room p rest : List UInt8} {c : UInt8} {mode : Mode}

@[simp] theorem peek_nil : peek [] 0 = some 0 := rfl

@[simp] theorem peek_cons_zero : peek (c :: p) 0 = some c := by
  simp [peek]

@[simp] theorem peek_cons_succ (k : Nat) : peek (c :: p) (k + 1) = peek p k := by
  simp [peek]

def scan : Mode → List UInt8 → Option (List UInt8 × List UInt8)
  | .plain => scanPlain
  | .inq => scanDouble
  | .insq => scanSingle

/-- What a round does to the argument read so far, against the function that reads the rest. -/
inductive RoundSpec (F : Nat → Option Block) (text : List UInt8) (mode : Mode)
    (p : List UInt8) : Heap × Option Nat × Round → Prop where
  | push {h' : Heap} {s : Nat} {room p' : List UInt8} {c : UInt8} {mode' : Mode} :
      p' <:+ p → p'.length < p.length → scan mode p = (scan mode' p').map (ahead c) →
      Holds h' F s (text ++ [c]) room → RoundSpec F text mode p (h', some s, .next mode' p')
  | turn {h' : Heap} {s : Nat} {room p' : List UInt8} {mode' : Mode} :
      p' <:+ p → p'.length < p.length → scan mode p = scan mode' p' →
      Holds h' F s text room → RoundSpec F text mode p (h', some s, .next mode' p')
  | done {h' : Heap} {s : Nat} {room rest : List UInt8} : rest <:+ p →
      (p = [] ∨ rest.length < p.length) → scan mode p = some ([], rest) →
      Holds h' F s text room → RoundSpec F text mode p (h', some s, .done rest)
  | err {h' : Heap} {s : Nat} {room : List UInt8} : scan mode p = none →
      Holds h' F s text room → RoundSpec F text mode p (h', some s, .err)

theorem pushNext_spec (mode' : Mode) (c : UInt8) {p' : List UInt8} (hm : Reliable malloc)
    (hs : Holds h F s text room) (hb : text.length + p.length ≤ maxText) (hsuffix : p' <:+ p)
    (hlt : p'.length < p.length) (hscan : scan mode p = (scan mode' p').map (ahead c)) :
    ∃ r, pushNext malloc h (some s) c mode' p' = some r ∧ RoundSpec F text mode p r := by
  obtain ⟨r, hrun, hout⟩ := sdscatlen_spec malloc (t := .bytes [c]) (n := 1) hs rfl
    (by simp) (fun _ => by omega)
  obtain ⟨h', s', room', rfl, hs'⟩ := hout.of_reliable hm
  refine ⟨(h', some s', .next mode' p'), ?_, .push hsuffix hlt hscan (by simpa using hs')⟩
  simp [pushNext, Sds.push, hrun]

theorem roundPlain_spec (hm : Reliable malloc) (hs : Holds h F s text room)
    (hb : text.length + p.length ≤ maxText) (hp : 0 ∉ p) :
    ∃ r, roundPlain malloc h (some s) p = some r ∧ RoundSpec F text .plain p r := by
  cases p with
  | nil =>
      refine ⟨(h, some s, .done []), by simp [roundPlain], .done ?_ (.inl rfl) rfl hs⟩
      exact List.suffix_rfl
  | cons c rest =>
      have hc : c ≠ 0 := fun heq => hp (by simp [heq])
      have hsuffix := List.suffix_cons c rest
      have hlt : rest.length < (c :: rest).length := by simp
      unfold roundPlain
      simp only [peek_cons_zero, Option.bind_eq_bind, Option.bind_some, hc, if_false]
      by_cases hend : endsPlain c
      · refine ⟨(h, some s, .done rest), by simp [hend],
          .done hsuffix (.inr hlt) ?_ hs⟩
        show scanPlain (c :: rest) = _
        rw [scanPlain.eq_4, if_pos hend]
        · rintro rfl
          exact absurd hend (by decide)
        · rintro rfl
          exact absurd hend (by decide)
      simp only [hend, Bool.false_eq_true, if_false]
      by_cases hdouble : c = 34
      · subst hdouble
        exact ⟨(h, some s, .next .inq rest), by simp, .turn hsuffix hlt rfl hs⟩
      by_cases hsingle : c = 39
      · subst hsingle
        exact ⟨(h, some s, .next .insq rest), by simp, .turn hsuffix hlt rfl hs⟩
      simp only [hdouble, hsingle, if_false, List.drop_succ_cons, List.drop_zero]
      refine pushNext_spec .plain c hm hs hb hsuffix hlt ?_
      show scanPlain (c :: rest) = _
      rw [scanPlain.eq_4 _ _ hdouble hsingle, if_neg hend]
      rfl

theorem atClosing_eq (hp : 0 ∉ c :: rest) : atClosing (c :: rest) = some (closes rest) := by
  cases rest with
  | nil => rfl
  | cons d rest =>
      have hd : d ≠ 0 := fun heq => hp (by simp [heq])
      simp [atClosing, closes, hd]

theorem atBackslash_of_ne (test : UInt8 → Bool) (hc : c ≠ 92) :
    atBackslash test (c :: rest) = some false := by
  simp [atBackslash, hc]

theorem atBackslash_last (test : UInt8 → Bool) : atBackslash test [92] = some (test 0) := rfl

theorem atBackslash_cons (test : UInt8 → Bool) (d : UInt8) :
    atBackslash test (92 :: d :: rest) = some (test d) := by
  simp [atBackslash]

theorem atHexEscape_of_ne (hc : c ≠ 92) : atHexEscape (c :: rest) = some false := by
  simp [atHexEscape, hc]

theorem atHexEscape_letter {d : UInt8} (hd : d ≠ 120) :
    atHexEscape (92 :: d :: rest) = some false := by
  simp [atHexEscape, hd]

theorem atHexEscape_hex (a b : UInt8) (rest : List UInt8) :
    atHexEscape (92 :: 120 :: a :: b :: rest) = some (isHexDigit a && isHexDigit b) := by
  cases ha : isHexDigit a <;> simp [atHexEscape, ha]

theorem roundInq_backslash (hm : Reliable malloc) (hs : Holds h F s text room)
    (hb : text.length + (92 :: rest).length ≤ maxText) (hp : 0 ∉ (92 : UInt8) :: rest) :
    ∃ r, roundInq malloc h (some s) (92 :: rest) = some r ∧
      RoundSpec F text .inq (92 :: rest) r := by
  unfold roundInq
  cases rest with
  | nil =>
      -- a backslash before the terminator is appended before the error is seen
      have hhex : atHexEscape [92] = some false := rfl
      have hscan : scan .inq [92] = (scan .inq []).map (ahead 92) := rfl
      have hpush := pushNext_spec .inq 92 hm hs hb (List.nil_suffix) (by simp) hscan
      simpa [hhex, atBackslash_last] using hpush
  | cons d rest =>
      have hd : d ≠ 0 := fun heq => hp (by simp [heq])
      have hletter : atHexEscape (92 :: d :: rest) = some false →
          scanDouble (92 :: d :: rest) = (scanDouble rest).map (ahead (unescape d)) →
          ∃ r, roundInq malloc h (some s) (92 :: d :: rest) = some r ∧
            RoundSpec F text .inq (92 :: d :: rest) r := by
        intro hhex hscan
        have hscan : scan .inq (92 :: d :: rest) = (scan .inq rest).map (ahead (unescape d)) :=
          hscan
        have hpush := pushNext_spec .inq (unescape d) hm hs hb
          ((List.suffix_cons d rest).trans (List.suffix_cons 92 _))
          (Nat.lt_succ_of_le (Nat.le_succ _)) hscan
        simpa [roundInq, hhex, atBackslash_cons, hd] using hpush
      by_cases hx : d = 120
      · subst hx
        match rest with
        | [] => exact hletter rfl rfl
        | [a] =>
            refine hletter ?_ (scanDouble.eq_5 _ _ (by simp))
            cases ha : isHexDigit a <;> simp [atHexEscape, ha]
            rfl
        | a :: b :: rest =>
            have hhex := atHexEscape_hex a b rest
            by_cases hab : isHexDigit a ∧ isHexDigit b
            · have hscan : scan .inq (92 :: 120 :: a :: b :: rest) =
                  (scan .inq rest).map (ahead (hexByte a b)) :=
                (scanDouble.eq_4 a b rest).trans (if_pos hab)
              have hpush := pushNext_spec .inq (hexByte a b) hm hs hb ⟨[92, 120, a, b], rfl⟩
                (by simp; omega) hscan
              simpa [hhex, hab] using hpush
            · refine hletter ?_ ?_
              · rw [hhex]
                simpa using hab
              · rw [scanDouble.eq_4, if_neg hab]
                rfl
      · exact hletter (atHexEscape_letter hx) (scanDouble_letter hx)

theorem roundInq_spec (hm : Reliable malloc) (hs : Holds h F s text room)
    (hb : text.length + p.length ≤ maxText) (hp : 0 ∉ p) :
    ∃ r, roundInq malloc h (some s) p = some r ∧ RoundSpec F text .inq p r := by
  cases p with
  | nil =>
      refine ⟨(h, some s, .err), ?_, .err rfl hs⟩
      rfl
  | cons c rest =>
      by_cases hback : c = 92
      · subst hback
        exact roundInq_backslash hm hs hb hp
      have hc : c ≠ 0 := fun heq => hp (by simp [heq])
      have hsuffix := List.suffix_cons c rest
      have hlt : rest.length < (c :: rest).length := by simp
      unfold roundInq
      simp only [peek_cons_zero, atHexEscape_of_ne hback, atBackslash_of_ne _ hback,
        Option.bind_eq_bind, Option.bind_some, Bool.false_eq_true, if_false]
      by_cases hquote : c = 34
      · subst hquote
        simp only [atClosing_eq hp, if_true, Option.bind_some, List.drop_succ_cons,
          List.drop_zero]
        have hscan : scan .inq (34 :: rest) = if closes rest then some ([], rest) else none :=
          scanDouble.eq_2 rest
        cases hclose : closes rest with
        | true => exact ⟨_, rfl, .done hsuffix (.inr hlt) (by rw [hscan, hclose]; rfl) hs⟩
        | false => exact ⟨_, rfl, .err (by rw [hscan, hclose]; rfl) hs⟩
      simp only [hquote, hc, if_false, List.drop_succ_cons, List.drop_zero]
      exact pushNext_spec .inq c hm hs hb hsuffix hlt
        (scanDouble_plain hquote hback)

theorem scanSingle_plain (hquote : c ≠ 39) (hback : c ≠ 92) :
    scanSingle (c :: rest) = (scanSingle rest).map (ahead c) := by
  rw [scanSingle.eq_4] <;> simp_all

theorem roundInsq_spec (hm : Reliable malloc) (hs : Holds h F s text room)
    (hb : text.length + p.length ≤ maxText) (hp : 0 ∉ p) :
    ∃ r, roundInsq malloc h (some s) p = some r ∧ RoundSpec F text .insq p r := by
  cases p with
  | nil =>
      refine ⟨(h, some s, .err), ?_, .err rfl hs⟩
      rfl
  | cons c rest =>
      have hsuffix := List.suffix_cons c rest
      have hlt : rest.length < (c :: rest).length := by simp
      have hc : c ≠ 0 := fun heq => hp (by simp [heq])
      unfold roundInsq
      by_cases hback : c = 92
      · subst hback
        cases rest with
        | nil =>
            have hscan : scan .insq [92] = (scan .insq []).map (ahead 92) := rfl
            have hpush := pushNext_spec .insq 92 hm hs hb hsuffix hlt hscan
            simpa [atBackslash_last] using hpush
        | cons d rest =>
            by_cases hd : d = 39
            · subst hd
              have hscan : scan .insq (92 :: 39 :: rest) = (scan .insq rest).map (ahead 39) :=
                scanSingle.eq_3 rest
              have hpush := pushNext_spec .insq 39 hm hs hb
                ((List.suffix_cons 39 rest).trans hsuffix)
                (Nat.lt_succ_of_le (Nat.le_succ _)) hscan
              simpa [atBackslash_cons] using hpush
            · have hscan : scan .insq (92 :: d :: rest) =
                  (scan .insq (d :: rest)).map (ahead 92) := by
                show scanSingle _ = _
                rw [scanSingle.eq_4] <;> simp_all [scan]
              have hpush := pushNext_spec .insq 92 hm hs hb hsuffix hlt hscan
              simpa [atBackslash_cons, hd] using hpush
      simp only [peek_cons_zero, atBackslash_of_ne _ hback, Option.bind_eq_bind,
        Option.bind_some, Bool.false_eq_true, if_false]
      by_cases hquote : c = 39
      · subst hquote
        simp only [atClosing_eq hp, if_true, Option.bind_some, List.drop_succ_cons,
          List.drop_zero]
        have hscan : scan .insq (39 :: rest) = if closes rest then some ([], rest) else none :=
          scanSingle.eq_2 rest
        cases hclose : closes rest with
        | true => exact ⟨_, rfl, .done hsuffix (.inr hlt) (by rw [hscan, hclose]; rfl) hs⟩
        | false => exact ⟨_, rfl, .err (by rw [hscan, hclose]; rfl) hs⟩
      simp only [hquote, hc, if_false, List.drop_succ_cons, List.drop_zero]
      exact pushNext_spec .insq c hm hs hb hsuffix hlt (scanSingle_plain hquote hback)

theorem round_spec (hm : Reliable malloc) (hs : Holds h F s text room) (mode : Mode)
    (hb : text.length + p.length ≤ maxText) (hp : 0 ∉ p) :
    ∃ r, round malloc h (some s) mode p = some r ∧ RoundSpec F text mode p r := by
  cases mode with
  | plain => exact roundPlain_spec hm hs hb hp
  | inq => exact roundInq_spec hm hs hb hp
  | insq => exact roundInsq_spec hm hs hb hp

/-! ## One argument -/

/-- How the inner loop ends. -/
inductive ArgumentSpec (F : Nat → Option Block) (text : List UInt8) (mode : Mode)
    (p : List UInt8) : Heap × Option Nat × Option (List UInt8) → Prop where
  | done {h' : Heap} {s : Nat} {room v rest : List UInt8} : rest <:+ p →
      (p = [] ∨ rest.length < p.length) → scan mode p = some (v, rest) →
      Holds h' F s (text ++ v) room → ArgumentSpec F text mode p (h', some s, some rest)
  | err {h' : Heap} {s : Nat} {text' room : List UInt8} : scan mode p = none →
      Holds h' F s text' room → ArgumentSpec F text mode p (h', some s, none)

/-- A round without effect on the text, followed by the rest of the loop. -/
theorem ArgumentSpec.turn {p' : List UInt8} {mode' : Mode}
    {r : Heap × Option Nat × Option (List UInt8)} (hsuffix : p' <:+ p)
    (hlt : p'.length < p.length) (hscan : scan mode p = scan mode' p')
    (hr : ArgumentSpec F text mode' p' r) : ArgumentSpec F text mode p r := by
  cases hr with
  | done hrest _ hscan' hs =>
      have := hrest.length_le
      exact .done (hrest.trans hsuffix) (.inr (by omega)) (hscan.trans hscan') hs
  | err hscan' hs => exact .err (hscan.trans hscan') hs

/-- A round that appends `c`, followed by the rest of the loop. -/
theorem ArgumentSpec.push {p' : List UInt8} {mode' : Mode}
    {r : Heap × Option Nat × Option (List UInt8)} (hsuffix : p' <:+ p)
    (hlt : p'.length < p.length) (hscan : scan mode p = (scan mode' p').map (ahead c))
    (hr : ArgumentSpec F (text ++ [c]) mode' p' r) : ArgumentSpec F text mode p r := by
  cases hr with
  | done hrest _ hscan' hs =>
      have := hrest.length_le
      rw [hscan'] at hscan
      exact .done (hrest.trans hsuffix) (.inr (by omega)) hscan (by simpa [ahead] using hs)
  | err hscan' hs =>
      rw [hscan'] at hscan
      exact .err hscan hs

theorem argument_spec (hm : Reliable malloc) (hs : Holds h F s text room) (mode : Mode)
    (hb : text.length + p.length ≤ maxText) (hp : 0 ∉ p) (hfuel : p.length < fuel) :
    ∃ r, argument malloc fuel h (some s) mode p = some r ∧ ArgumentSpec F text mode p r := by
  induction fuel generalizing h s text room mode p with
  | zero => omega
  | succ fuel ih =>
      obtain ⟨r, hround, hr⟩ := round_spec hm hs mode hb hp
      unfold argument
      rw [hround]
      cases hr with
      | push hsuffix hlt hscan hs' =>
          obtain ⟨r, hrun, hr⟩ := ih hs' _ (by simp; omega) (fun h0 => hp (hsuffix.subset h0))
            (by omega)
          exact ⟨r, hrun, hr.push hsuffix hlt hscan⟩
      | turn hsuffix hlt hscan hs' =>
          obtain ⟨r, hrun, hr⟩ := ih hs' _ (by omega) (fun h0 => hp (hsuffix.subset h0))
            (by omega)
          exact ⟨r, hrun, hr.turn hsuffix hlt hscan⟩
      | done hsuffix hlt hscan hs' =>
          exact ⟨_, rfl, .done hsuffix hlt hscan (by simpa using hs')⟩
      | err hscan hs' => exact ⟨_, rfl, .err hscan hs'⟩

/-! ## The whole line -/

/-- The arguments read so far: none and no array, or an array of them. -/
def Collected (h : Heap) (F : Nat → Option Block) (vector : Option Nat)
    (ts : List (List UInt8)) : Prop :=
  (vector = none ∧ ts = [] ∧ h.block = F) ∨
    ∃ v m ps, vector = some v ∧ Strings F m ps ts ∧ Cell h m v (.vector (slotsOf ps))

/-- At `err` all strings and the array are released. -/
theorem splitargsErr_spec {vector : Option Nat} {ts : List (List UInt8)}
    (hc : Collected h F vector ts) (hs : Holds h' h.block s text room) :
    ∃ h'', splitargsErr h' vector ts.length (some s) = some h'' ∧ h''.block = F := by
  rcases hc with ⟨rfl, rfl, rfl⟩ | ⟨v, m, ps, rfl, hstrings, hcell⟩
  · obtain ⟨h'', hfree, hblock⟩ := sdsfree_spec hs
    exact ⟨h'', by simp [splitargsErr, freeVector, hfree], hblock⟩
  · have habsent := hcell.frame_none hs.cell.absent
    have hbeside := hcell.beside hs.cell
    have hstrings' := hstrings.update (b := some (.string (pack text room))) habsent
    rw [← List.append_nil (slotsOf ps)] at hbeside
    obtain ⟨h₁, hrun, hcell₁⟩ := freeSlots_spec hstrings' hbeside
    have hlast : (h₁.release v).block = _ := hcell₁.release
    have hs₁ : Cell (h₁.release v) F s (.string (pack text room)) := by
      refine ⟨hlast, ?_⟩
      by_contra hF
      exact hF (hstrings.of_frame hF ▸ habsent)
    refine ⟨(h₁.release v).release s, ?_, hs₁.release⟩
    simp [splitargsErr, freeVector, ← hstrings.length_eq, hrun, hcell₁.free, sdsfree, hs₁.free]

/-- A finished argument goes to the end of the array. -/
theorem Collected.append (hm : Reliable malloc) {vector : Option Nat} {ts : List (List UInt8)}
    (hc : Collected h F vector ts) (hs : Holds h' h.block s text room) :
    ∃ h₁ h₂ v, reallocVector malloc h' vector (ts.length + 1) = some (h₁, some v) ∧
      setSlot h₁ v ts.length (some s) = some h₂ ∧ Collected h₂ F (some v) (ts ++ [text]) := by
  rcases hc with ⟨rfl, rfl, rfl⟩ | ⟨v, m, ps, rfl, hstrings, hcell⟩
  · have hempty : (none : Option Nat) = none ∧ ([] : List Nat) = [] ∧ h'.block = h'.block :=
      ⟨rfl, rfl, rfl⟩
    obtain ⟨h₁, h₂, v, hrealloc, hset, hcell⟩ := append_slot (p := s) hm (.inl hempty)
    refine ⟨h₁, h₂, v, hrealloc, hset, .inr ⟨v, h'.block, [s], rfl, ?_, hcell⟩⟩
    rw [hs.cell.block]
    exact .snoc .nil hs.cell.absent hs.fits
  · obtain ⟨h₁, h₂, v', hrealloc, hset, hcell'⟩ := append_slot (p := s) hm
      (.inr ⟨v, rfl, hcell.beside hs.cell⟩)
    rw [hstrings.length_eq] at hrealloc hset
    exact ⟨h₁, h₂, v', hrealloc, hset, .inr ⟨v', _, ps ++ [s], rfl,
      .snoc hstrings (hcell.frame_none hs.cell.absent) hs.fits, hcell'⟩⟩

/-- The array and the number of arguments of an accepted line, or nothing new in the heap. -/
inductive SplitSpec (F : Nat → Option Block) :
    Option (List (List UInt8)) → Heap × Option Nat × Nat → Prop where
  | args {h' : Heap} {v : Nat} {ts : List (List UInt8)} : Tokens h' F v ts →
      SplitSpec F (some ts) (h', some v, ts.length)
  | null {h' : Heap} : h'.block = F → SplitSpec F none (h', none, 0)

theorem splitargsLoop_spec (hm : Reliable malloc) {vector : Option Nat}
    {ts : List (List UInt8)} (hc : Collected h F vector ts)
    (hb : ts.length + p.length ≤ maxText) (hp : 0 ∉ p) (hfuel : p.length < fuel) :
    ∃ r, splitargsLoop malloc fuel h p vector ts.length = some r ∧
      SplitSpec F ((scanLine fuel p).map (ts ++ ·)) r := by
  induction fuel generalizing h p vector ts with
  | zero => omega
  | succ fuel ih =>
      have hsuffix := List.dropWhile_suffix (l := p) isspace
      unfold splitargsLoop scanLine
      generalize p.dropWhile isspace = p' at hsuffix ⊢
      have hle := hsuffix.length_le
      cases p' with
      | nil =>
          rcases hc with ⟨rfl, rfl, rfl⟩ | ⟨v, m, ps, rfl, hstrings, hcell⟩
          · obtain ⟨g, ha⟩ := Option.isSome_iff_exists.mp (hm h.calls)
            refine ⟨(h.push (.vector [none]), some h.calls, 0), ?_,
              .args ⟨h.block, [], [none], .nil, cell_push⟩⟩
            simp [reallocVector, alloc_of_some ha]
          · refine ⟨(h, some v, ts.length), rfl, ?_⟩
            have htokens : Tokens h F v ts := ⟨m, ps, [], hstrings, by simpa using hcell⟩
            simpa using SplitSpec.args htokens
      | cons c rest =>
          have hp' : 0 ∉ c :: rest := fun h0 => hp (hsuffix.subset h0)
          have hne : c ≠ 0 := fun heq => hp' (by simp [heq])
          obtain ⟨r, hempty, hout⟩ := sdsempty_spec malloc h
          obtain ⟨h₁, s₁, room₁, rfl, hs₁⟩ := hout.of_reliable hm
          obtain ⟨r, hargument, hr⟩ := argument_spec hm hs₁
            .plain (by simp at hle ⊢; omega) hp' (Nat.lt_add_one (c :: rest).length)
          simp only [peek_cons_zero, Option.bind_eq_bind, Option.bind_some, hne, ne_eq,
            not_false_eq_true, if_true, hempty, hargument]
          cases hr with
          | err hscan hs₂ =>
              obtain ⟨h₃, herr, hblock⟩ := splitargsErr_spec hc hs₂
              refine ⟨(h₃, none, 0), by simp [herr], ?_⟩
              have hscan : scanPlain (c :: rest) = none := hscan
              rw [hscan]
              exact .null hblock
          | done hrest hlt hscan hs₂ =>
              rename_i h₂ s₂ room₂ text rest'
              have hlt := hlt.resolve_left (by simp)
              obtain ⟨h₃, h₄, v, hrealloc, hset, hc'⟩ := hc.append hm hs₂
              have hcount : cint ((ts.length : Int) + 1) = some ((ts.length : Int) + 1) := by
                unfold maxText at hb
                exact cint_of_range (by omega) (by omega)
              rw [List.nil_append] at hc'
              obtain ⟨r, hrun, hr⟩ := ih hc' (p := rest') (by simp; omega)
                (fun h0 => hp' (hrest.subset h0)) (by omega)
              rw [List.length_append, List.length_singleton] at hrun
              refine ⟨r, by simp [hrealloc, hset, hcount, hrun], ?_⟩
              have hscan : scanPlain (c :: rest) = some (text, rest') := hscan
              rw [hscan]
              simp only [Option.bind_some]
              cases hargs : scanLine fuel rest' with
              | none => simpa [hargs] using hr
              | some args => simpa [hargs] using hr

theorem sdssplitargs_spec (hm : Reliable malloc) (h : Heap) {line : List UInt8}
    (hline : 0 ∉ line) (hlen : line.length ≤ maxText) :
    ∃ r, sdssplitargs malloc h line = some r ∧
      SplitSpec h.block (scanLine (line.length + 1) line) r := by
  have hstart : Collected h h.block none [] := .inl ⟨rfl, rfl, rfl⟩
  obtain ⟨r, hrun, hr⟩ := splitargsLoop_spec (p := line) hm hstart (by simpa using hlen) hline
    (Nat.lt_succ_self _)
  refine ⟨r, hrun, ?_⟩
  cases hscan : scanLine (line.length + 1) line <;> simpa [hscan] using hr

end Libnc.Sds
