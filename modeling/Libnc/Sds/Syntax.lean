import Mathlib.Data.List.Basic

/-!
# Lines of arguments

The language of `sdssplitargs` and the quoted form of `sdscatrepr`, as functions
on bytes.  A line is a list of arguments separated by blanks; an argument is
plain characters, then perhaps one quoted part, which ends it.  The characters
are those of ASCII, in the classification of the C locale.
-/

namespace Libnc.Sds

def isspace (c : UInt8) : Bool := c = 32 ∨ (9 ≤ c ∧ c ≤ 13)

def isprint (c : UInt8) : Bool := 32 ≤ c ∧ c ≤ 126

def isHexDigit (c : UInt8) : Bool :=
  (48 ≤ c ∧ c ≤ 57) ∨ (97 ≤ c ∧ c ≤ 102) ∨ (65 ≤ c ∧ c ≤ 70)

def hexDigitToInt (c : UInt8) : Nat :=
  if 48 ≤ c ∧ c ≤ 57 then c.toNat - 48
  else if 97 ≤ c ∧ c ≤ 102 then c.toNat - 97 + 10
  else if 65 ≤ c ∧ c ≤ 70 then c.toNat - 65 + 10
  else 0

/-- The byte of an escape `\xHH`. -/
def hexByte (a b : UInt8) : UInt8 := UInt8.ofNat (hexDigitToInt a * 16 + hexDigitToInt b)

/-- The character of an escape of one letter: `n`, `r`, `t`, `b`, `a` or the letter itself. -/
def unescape (c : UInt8) : UInt8 :=
  if c = 110 then 10
  else if c = 114 then 13
  else if c = 116 then 9
  else if c = 98 then 8
  else if c = 97 then 7
  else c

/-- A closing quote must be followed by a blank or by nothing at all. -/
def closes : List UInt8 → Bool
  | [] => true
  | c :: _ => isspace c

def ahead (c : UInt8) (r : List UInt8 × List UInt8) : List UInt8 × List UInt8 := (c :: r.1, r.2)

/-- The rest of an argument after `"`: its bytes, and what follows the closing quote. -/
def scanDouble : List UInt8 → Option (List UInt8 × List UInt8)
  | [] => none
  | 34 :: rest => if closes rest then some ([], rest) else none
  | [92] => none
  | 92 :: 120 :: a :: b :: rest =>
      if isHexDigit a ∧ isHexDigit b then (scanDouble rest).map (ahead (hexByte a b))
      else (scanDouble (a :: b :: rest)).map (ahead 120)
  | 92 :: c :: rest => (scanDouble rest).map (ahead (unescape c))
  | c :: rest => (scanDouble rest).map (ahead c)

/-- The rest of an argument after `'`. -/
def scanSingle : List UInt8 → Option (List UInt8 × List UInt8)
  | [] => none
  | 39 :: rest => if closes rest then some ([], rest) else none
  | 92 :: 39 :: rest => (scanSingle rest).map (ahead 39)
  | c :: rest => (scanSingle rest).map (ahead c)

/-- An argument outside of quotes ends at four of the six blanks. -/
def endsPlain (c : UInt8) : Bool := c = 32 ∨ c = 10 ∨ c = 13 ∨ c = 9

def scanPlain : List UInt8 → Option (List UInt8 × List UInt8)
  | [] => some ([], [])
  | 34 :: rest => scanDouble rest
  | 39 :: rest => scanSingle rest
  | c :: rest => if endsPlain c then some ([], rest) else (scanPlain rest).map (ahead c)

/-- The arguments of a line; `fuel` counts them. -/
def scanLine : Nat → List UInt8 → Option (List (List UInt8))
  | 0, _ => none
  | fuel + 1, line =>
      match line.dropWhile isspace with
      | [] => some []
      | c :: rest => do
          let (arg, rest) ← scanPlain (c :: rest)
          let args ← scanLine fuel rest
          some (arg :: args)

/-! ## The quoted form -/

def hexDigit (n : Nat) : UInt8 := if n < 10 then UInt8.ofNat (48 + n) else UInt8.ofNat (87 + n)

/-- What `sdscatrepr` appends for one byte. -/
def escape (c : UInt8) : List UInt8 :=
  if c = 92 ∨ c = 34 then [92, c]
  else if c = 10 then [92, 110]
  else if c = 13 then [92, 114]
  else if c = 9 then [92, 116]
  else if c = 7 then [92, 97]
  else if c = 8 then [92, 98]
  else if isprint c then [c]
  else [92, 120, hexDigit (c.toNat / 16), hexDigit (c.toNat % 16)]

def quoted (l : List UInt8) : List UInt8 := [34] ++ l.flatMap escape ++ [34]

example : scanLine 9 (quoted [7, 10, 0, 102, 111, 111, 13] ++ 32 :: quoted [34]) =
    some [[7, 10, 0, 102, 111, 111, 13], [34]] := by
  decide

variable {c : UInt8} {rest line : List UInt8}

/-! ## Reading back the quoted form -/

theorem scanDouble_plain (hquote : c ≠ 34) (hback : c ≠ 92) :
    scanDouble (c :: rest) = (scanDouble rest).map (ahead c) := by
  rw [scanDouble.eq_6] <;> simp_all

theorem scanDouble_letter (hx : c ≠ 120) :
    scanDouble (92 :: c :: rest) = (scanDouble rest).map (ahead (unescape c)) := by
  rw [scanDouble.eq_5]
  simp_all

theorem isHexDigit_hexDigit : ∀ n < 16, isHexDigit (hexDigit n) := by decide

theorem hexByte_hexDigit : ∀ n < 256,
    hexByte (hexDigit (n / 16)) (hexDigit (n % 16)) = UInt8.ofNat n := by
  decide +kernel

theorem scanDouble_escape (c : UInt8) (rest : List UInt8) :
    scanDouble (escape c ++ rest) = (scanDouble rest).map (ahead c) := by
  unfold escape
  split
  · rename_i hc
    -- the backslash and the quote stand for themselves
    rcases hc with rfl | rfl <;> exact scanDouble_letter (by decide)
  · rename_i hself
    rw [not_or] at hself
    split_ifs with hn hr ht ha hb hp
    · subst hn
      exact scanDouble_letter (by decide)
    · subst hr
      exact scanDouble_letter (by decide)
    · subst ht
      exact scanDouble_letter (by decide)
    · subst ha
      exact scanDouble_letter (by decide)
    · subst hb
      exact scanDouble_letter (by decide)
    · exact scanDouble_plain hself.2 hself.1
    · have hlt := c.toNat_lt
      have hhigh := isHexDigit_hexDigit (c.toNat / 16) (by omega)
      have hlow := isHexDigit_hexDigit (c.toNat % 16) (by omega)
      simp only [List.cons_append, List.nil_append, scanDouble.eq_4, hhigh, hlow, and_self,
        if_true, hexByte_hexDigit c.toNat (by omega), UInt8.ofNat_toNat]

theorem scanDouble_flatMap (l rest : List UInt8) :
    scanDouble (l.flatMap escape ++ 34 :: rest) =
      if closes rest then some (l, rest) else none := by
  induction l with
  | nil => exact scanDouble.eq_2 rest
  | cons c l ih =>
      rw [List.flatMap_cons, List.append_assoc, scanDouble_escape, ih]
      split <;> rfl

theorem scanPlain_quoted (l : List UInt8) (hrest : closes rest) :
    scanPlain (quoted l ++ rest) = some (l, rest) := by
  have hshape : quoted l ++ rest = 34 :: (l.flatMap escape ++ 34 :: rest) := by
    simp [quoted]
  rw [hshape, scanPlain.eq_2, scanDouble_flatMap, if_pos hrest]

/-- The quoted forms of the arguments, separated by single spaces. -/
def quotedLine : List (List UInt8) → List UInt8
  | [] => []
  | [arg] => quoted arg
  | arg :: args => quoted arg ++ 32 :: quotedLine args

theorem length_le_quotedLine (args : List (List UInt8)) :
    args.length ≤ (quotedLine args).length := by
  induction args with
  | nil => exact Nat.zero_le _
  | cons arg args ih =>
      cases args with
      | nil => simp [quotedLine, quoted]
      | cons next args =>
          simp only [quotedLine, List.length_append, List.length_cons] at ih ⊢
          omega

/-- What follows the first argument of a line. -/
def separated : List (List UInt8) → List UInt8
  | [] => []
  | args => 32 :: quotedLine args

theorem closes_separated (args : List (List UInt8)) : closes (separated args) := by
  cases args <;> rfl

theorem scanLine_skip (fuel : Nat) (line : List UInt8) {l : List UInt8} (hl : ∀ c ∈ l, isspace c) :
    scanLine fuel (l ++ line) = scanLine fuel line := by
  cases fuel with
  | zero => rfl
  | succ fuel =>
      simp only [scanLine, List.dropWhile_append_of_pos hl]

/-- A line of quoted forms is read back as the arguments. -/
theorem scanLine_quotedLine (args : List (List UInt8)) (fuel : Nat)
    (hfuel : args.length < fuel) : scanLine fuel (quotedLine args) = some args := by
  induction args generalizing fuel with
  | nil =>
      obtain ⟨fuel, rfl⟩ := Nat.exists_eq_add_of_lt hfuel
      rfl
  | cons arg args ih =>
      obtain ⟨fuel, rfl⟩ : ∃ k, fuel = k + 1 := ⟨fuel - 1, by omega⟩
      have hshape : quotedLine (arg :: args) = quoted arg ++ separated args := by
        cases args <;> simp [quotedLine, separated]
      have hstart : (quoted arg ++ separated args).dropWhile isspace =
          quoted arg ++ separated args := rfl
      have hrest : scanLine fuel (separated args) = some args := by
        cases args with
        | nil => exact ih fuel (by simpa using hfuel)
        | cons next args =>
            have hblank : ∀ c ∈ [32], isspace c := by
              intro c hc
              rw [List.mem_singleton.mp hc]
              rfl
            have hskip := scanLine_skip fuel (quotedLine (next :: args)) hblank
            exact hskip.trans (ih fuel (by simpa using hfuel))
      rw [hshape]
      have hscan := scanPlain_quoted arg (closes_separated args)
      rw [quoted] at hstart hscan ⊢
      simp only [List.cons_append, List.nil_append] at hstart hscan ⊢
      simp only [scanLine, hstart, hscan, Option.bind_eq_bind, Option.bind_some, hrest]

end Libnc.Sds
