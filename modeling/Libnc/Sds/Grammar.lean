import Libnc.Sds.Arguments

/-!
# The language of argument lines

The lines that `sdssplitargs` accepts, as an inductive grammar: what may stand
between the quotes and for which bytes it stands, what is an argument, and how
arguments follow each other.
-/

namespace Libnc.Sds

open Libnc.Foundation

/-- An escape `\xHH` after its backslash. -/
def HexEscape (p : List UInt8) : Prop :=
  ∃ a b rest, p = 120 :: a :: b :: rest ∧ isHexDigit a ∧ isHexDigit b

/-- What stands between double quotes, and the bytes it stands for. -/
inductive DoubleQuoted : List UInt8 → List UInt8 → Prop where
  | nil : DoubleQuoted [] []
  | hex {a b : UInt8} {s v : List UInt8} : isHexDigit a → isHexDigit b → DoubleQuoted s v →
      DoubleQuoted (92 :: 120 :: a :: b :: s) (hexByte a b :: v)
  | letter {c : UInt8} {s v : List UInt8} : ¬ HexEscape (c :: s) → DoubleQuoted s v →
      DoubleQuoted (92 :: c :: s) (unescape c :: v)
  | plain {c : UInt8} {s v : List UInt8} : c ≠ 34 → c ≠ 92 → DoubleQuoted s v →
      DoubleQuoted (c :: s) (c :: v)

/-- What stands between single quotes; only the single quote can be escaped. -/
inductive SingleQuoted : List UInt8 → List UInt8 → Prop where
  | nil : SingleQuoted [] []
  | quote {s v : List UInt8} : SingleQuoted s v → SingleQuoted (92 :: 39 :: s) (39 :: v)
  | backslash {c : UInt8} {s v : List UInt8} : c ≠ 39 → SingleQuoted (c :: s) v →
      SingleQuoted (92 :: c :: s) (92 :: v)
  | plain {c : UInt8} {s v : List UInt8} : c ≠ 39 → c ≠ 92 → SingleQuoted s v →
      SingleQuoted (c :: s) (c :: v)

/-- A character that stands for itself outside of quotes. -/
def IsPlain (c : UInt8) : Prop := endsPlain c = false ∧ c ≠ 34 ∧ c ≠ 39

/-- An argument and the bytes it stands for; the flag says that it ends with a quoted part. -/
inductive Argument : List UInt8 → List UInt8 → Bool → Prop where
  | bare {p : List UInt8} : (∀ c ∈ p, IsPlain c) → Argument p p false
  | double {p s v : List UInt8} : (∀ c ∈ p, IsPlain c) → DoubleQuoted s v →
      Argument (p ++ 34 :: s ++ [34]) (p ++ v) true
  | single {p s v : List UInt8} : (∀ c ∈ p, IsPlain c) → SingleQuoted s v →
      Argument (p ++ 39 :: s ++ [39]) (p ++ v) true

/-- The blanks that end an argument: any of the six after a quote, else four of them. -/
def ends (isQuoted : Bool) (c : UInt8) : Bool := if isQuoted then isspace c else endsPlain c

inductive Line : List UInt8 → List (List UInt8) → Prop where
  | blank {b : List UInt8} : (∀ c ∈ b, isspace c) → Line b []
  | last {b a v : List UInt8} {q : Bool} : (∀ c ∈ b, isspace c) → ¬ closes a →
      Argument a v q → Line (b ++ a) [v]
  | more {b a v rest : List UInt8} {vs : List (List UInt8)} {q : Bool} {c : UInt8} :
      (∀ c ∈ b, isspace c) → ¬ closes a → Argument a v q → ends q c → Line (c :: rest) vs →
      Line (b ++ a ++ c :: rest) (v :: vs)

variable {c : UInt8} {p s v rest a b line : List UInt8} {vs : List (List UInt8)} {q : Bool}

/-! ## Quoted parts -/

theorem scanDouble_escaped (hc : ¬ HexEscape (c :: rest)) :
    scanDouble (92 :: c :: rest) = (scanDouble rest).map (ahead (unescape c)) := by
  by_cases hx : c = 120
  · subst hx
    match rest with
    | [] => rfl
    | [a] => exact scanDouble.eq_5 _ _ (by simp)
    | a :: b :: rest =>
        rw [scanDouble.eq_4, if_neg]
        · rfl
        · rintro ⟨ha, hb⟩
          exact hc ⟨a, b, rest, rfl, ha, hb⟩
  · exact scanDouble_letter hx

theorem DoubleQuoted.scan (hs : DoubleQuoted s v) :
    scanDouble (s ++ 34 :: rest) = if closes rest then some (v, rest) else none := by
  induction hs with
  | nil => exact scanDouble.eq_2 rest
  | hex ha hb _ ih =>
      simp only [List.cons_append, scanDouble.eq_4, ha, hb, and_self, if_true, ih]
      split <;> rfl
  | @letter c s v hc _ ih =>
      have hc' : ¬ HexEscape (c :: (s ++ 34 :: rest)) := by
        rintro ⟨a, b, r, heq, ha, hb⟩
        cases s with
        | nil =>
            simp only [List.nil_append, List.cons.injEq] at heq
            obtain ⟨-, rfl, -⟩ := heq
            exact absurd ha (by decide)
        | cons d s =>
            cases s with
            | nil =>
                simp only [List.cons_append, List.nil_append, List.cons.injEq] at heq
                obtain ⟨-, -, rfl, -⟩ := heq
                exact absurd hb (by decide)
            | cons e s =>
                simp only [List.cons_append, List.cons.injEq] at heq
                obtain ⟨rfl, rfl, rfl, -⟩ := heq
                exact hc ⟨_, _, s, rfl, ha, hb⟩
      rw [List.cons_append, List.cons_append, scanDouble_escaped hc', ih]
      split <;> rfl
  | plain hquote hback _ ih =>
      rw [List.cons_append, scanDouble_plain hquote hback, ih]
      split <;> rfl

theorem eq_of_map_ahead {o : Option (List UInt8 × List UInt8)} {d : UInt8}
    (h : o.map (ahead d) = some (v, rest)) : ∃ w, v = d :: w ∧ o = some (w, rest) := by
  obtain ⟨⟨w, r⟩, ho, heq⟩ := Option.map_eq_some_iff.mp h
  simp only [ahead, Prod.mk.injEq] at heq
  obtain ⟨rfl, rfl⟩ := heq
  exact ⟨w, rfl, ho⟩

theorem scanDouble_sound (hscan : scanDouble p = some (v, rest)) :
    ∃ s, p = s ++ 34 :: rest ∧ DoubleQuoted s v ∧ closes rest := by
  induction p using scanDouble.induct generalizing v with
  | case1 => cases hscan
  | case2 p hclose =>
      rw [scanDouble.eq_2, if_pos hclose] at hscan
      cases hscan
      exact ⟨[], rfl, .nil, hclose⟩
  | case3 p hclose =>
      rw [scanDouble.eq_2, if_neg hclose] at hscan
      cases hscan
  | case4 => cases hscan
  | case5 a b p hab ih =>
      rw [scanDouble.eq_4, if_pos hab] at hscan
      obtain ⟨w, rfl, hrest⟩ := eq_of_map_ahead hscan
      obtain ⟨s, rfl, hs, hclose⟩ := ih hrest
      exact ⟨92 :: 120 :: a :: b :: s, rfl, .hex hab.1 hab.2 hs, hclose⟩
  | case6 a b p hab ih =>
      rw [scanDouble.eq_4, if_neg hab] at hscan
      obtain ⟨w, rfl, hrest⟩ := eq_of_map_ahead hscan
      obtain ⟨s, hp, hs, hclose⟩ := ih hrest
      refine ⟨92 :: 120 :: s, by rw [hp]; rfl, .letter ?_ hs, hclose⟩
      rintro ⟨a', b', r, heq, ha, hb⟩
      obtain ⟨-, rfl⟩ := List.cons.inj heq
      simp only [List.cons_append, List.cons.injEq] at hp
      obtain ⟨rfl, rfl, -⟩ := hp
      exact hab ⟨ha, hb⟩
  | case7 c p hshort ih =>
      rw [scanDouble.eq_5 _ _ hshort] at hscan
      obtain ⟨w, rfl, hrest⟩ := eq_of_map_ahead hscan
      obtain ⟨s, rfl, hs, hclose⟩ := ih hrest
      refine ⟨92 :: c :: s, rfl, .letter ?_ hs, hclose⟩
      rintro ⟨a, b, r, heq, -, -⟩
      obtain ⟨rfl, rfl⟩ := List.cons.inj heq
      exact hshort a b _ rfl rfl
  | case8 c p hquote hlast hhex hletter ih =>
      rw [scanDouble.eq_6 _ _ hquote hlast hhex hletter] at hscan
      obtain ⟨w, rfl, hrest⟩ := eq_of_map_ahead hscan
      obtain ⟨s, rfl, hs, hclose⟩ := ih hrest
      refine ⟨c :: s, rfl, .plain hquote ?_ hs, hclose⟩
      rintro rfl
      cases s with
      | nil => exact hletter _ _ rfl rfl
      | cons d s => exact hletter _ _ rfl rfl

theorem SingleQuoted.scan (hs : SingleQuoted s v) :
    scanSingle (s ++ 39 :: rest) = if closes rest then some (v, rest) else none := by
  induction hs with
  | nil => exact scanSingle.eq_2 rest
  | quote _ ih =>
      rw [List.cons_append, List.cons_append, scanSingle.eq_3, ih]
      split <;> rfl
  | @backslash c s v hc _ ih =>
      rw [List.cons_append, scanSingle.eq_4, ih]
      · split <;> rfl
      · intro h
        cases h
      · rintro r - heq
        exact hc (List.cons.inj heq).1
  | plain hquote hback _ ih =>
      rw [List.cons_append, scanSingle_plain hquote hback, ih]
      split <;> rfl

theorem scanSingle_sound (hscan : scanSingle p = some (v, rest)) :
    ∃ s, p = s ++ 39 :: rest ∧ SingleQuoted s v ∧ closes rest := by
  induction p using scanSingle.induct generalizing v with
  | case1 => cases hscan
  | case2 p hclose =>
      rw [scanSingle.eq_2, if_pos hclose] at hscan
      cases hscan
      exact ⟨[], rfl, .nil, hclose⟩
  | case3 p hclose =>
      rw [scanSingle.eq_2, if_neg hclose] at hscan
      cases hscan
  | case4 p ih =>
      rw [scanSingle.eq_3] at hscan
      obtain ⟨w, rfl, hrest⟩ := eq_of_map_ahead hscan
      obtain ⟨s, rfl, hs, hclose⟩ := ih hrest
      exact ⟨92 :: 39 :: s, rfl, .quote hs, hclose⟩
  | case5 c p hquote hescape ih =>
      rw [scanSingle.eq_4 _ _ hquote hescape] at hscan
      obtain ⟨w, rfl, hrest⟩ := eq_of_map_ahead hscan
      obtain ⟨s, rfl, hs, hclose⟩ := ih hrest
      refine ⟨c :: s, rfl, ?_, hclose⟩
      by_cases hback : c = 92
      · subst hback
        cases s with
        | nil => exact absurd rfl (hescape rest rfl)
        | cons d s =>
            refine .backslash ?_ hs
            rintro rfl
            exact hescape _ rfl rfl
      · exact .plain hquote hback hs

/-! ## Arguments -/

theorem scanPlain_append (hp : ∀ c ∈ p, IsPlain c) (rest : List UInt8) :
    scanPlain (p ++ rest) = (scanPlain rest).map fun r => (p ++ r.1, r.2) := by
  induction p with
  | nil =>
      simp
  | cons c p ih =>
      obtain ⟨hend, hdouble, hsingle⟩ := hp c (by simp)
      rw [List.cons_append, scanPlain.eq_4 _ _ hdouble hsingle, hend,
        ih fun d hd => hp d (by simp [hd])]
      cases scanPlain rest <;> rfl

theorem scanPlain_end (hc : endsPlain c) : scanPlain (c :: rest) = some ([], rest) := by
  rw [scanPlain.eq_4, if_pos hc]
  · rintro rfl
    exact absurd hc (by decide)
  · rintro rfl
    exact absurd hc (by decide)

/-- An argument is read up to its end. -/
theorem Argument.scan (ha : Argument a v q) (c : UInt8) (rest : List UInt8) :
    (q = true → closes rest → scanPlain (a ++ rest) = some (v, rest)) ∧
      (q = false → scanPlain a = some (v, [])) ∧
      (q = false → endsPlain c → scanPlain (a ++ c :: rest) = some (v, rest)) := by
  cases ha with
  | bare hp =>
      refine ⟨by simp, fun _ => ?_, fun _ hc => ?_⟩
      · have := scanPlain_append hp []
        simpa [scanPlain] using this
      · rw [scanPlain_append hp, scanPlain_end hc]
        simp
  | @double p s v hp hs =>
      refine ⟨fun _ hclose => ?_, by simp, by simp⟩
      have hshape : p ++ 34 :: s ++ [34] ++ rest = p ++ 34 :: (s ++ 34 :: rest) := by simp
      rw [hshape, scanPlain_append hp, scanPlain.eq_2, hs.scan, if_pos hclose]
      rfl
  | @single p s v hp hs =>
      refine ⟨fun _ hclose => ?_, by simp, by simp⟩
      have hshape : p ++ 39 :: s ++ [39] ++ rest = p ++ 39 :: (s ++ 39 :: rest) := by simp
      rw [hshape, scanPlain_append hp, scanPlain.eq_3, hs.scan, if_pos hclose]
      rfl

theorem Argument.cons (hc : IsPlain c) (ha : Argument a v q) : Argument (c :: a) (c :: v) q := by
  have hcons : ∀ {p : List UInt8}, (∀ d ∈ p, IsPlain d) → ∀ d ∈ c :: p, IsPlain d := by
    intro p hp d hd
    rcases List.mem_cons.mp hd with rfl | hd
    · exact hc
    · exact hp d hd
  cases ha with
  | bare hp => exact .bare (hcons hp)
  | double hp hs => exact .double (hcons hp) hs
  | single hp hs => exact .single (hcons hp) hs

theorem scanPlain_sound (hscan : scanPlain p = some (v, rest)) :
    (Argument p v false ∧ rest = []) ∨
      (∃ a c, p = a ++ c :: rest ∧ Argument a v false ∧ endsPlain c) ∨
      ∃ a, p = a ++ rest ∧ Argument a v true ∧ closes rest := by
  induction p using scanPlain.induct generalizing v with
  | case1 =>
      cases hscan
      exact .inl ⟨.bare (by simp), rfl⟩
  | case2 p =>
      obtain ⟨s, rfl, hs, hclose⟩ := scanDouble_sound hscan
      exact .inr (.inr ⟨34 :: s ++ [34], by simp, .double (p := []) (by simp) hs, hclose⟩)
  | case3 p =>
      obtain ⟨s, rfl, hs, hclose⟩ := scanSingle_sound hscan
      exact .inr (.inr ⟨39 :: s ++ [39], by simp, .single (p := []) (by simp) hs, hclose⟩)
  | case4 c p hdouble hsingle hend =>
      rw [scanPlain_end hend] at hscan
      cases hscan
      exact .inr (.inl ⟨[], c, rfl, .bare (by simp), hend⟩)
  | case5 c p hdouble hsingle hend ih =>
      rw [scanPlain.eq_4 _ _ hdouble hsingle, if_neg hend] at hscan
      obtain ⟨w, rfl, hrest⟩ := eq_of_map_ahead hscan
      have hc : IsPlain c := ⟨by simpa using hend, hdouble, hsingle⟩
      rcases ih hrest with ⟨ha, rfl⟩ | ⟨a, d, rfl, ha, hd⟩ | ⟨a, rfl, ha, hclose⟩
      · exact .inl ⟨ha.cons hc, rfl⟩
      · exact .inr (.inl ⟨c :: a, d, rfl, ha.cons hc, hd⟩)
      · exact .inr (.inr ⟨c :: a, rfl, ha.cons hc, hclose⟩)

/-! ## Lines -/

theorem isspace_of_ends (hc : ends q c) : isspace c := by
  cases q with
  | true => exact hc
  | false =>
      simp only [ends, Bool.false_eq_true, if_false, endsPlain, decide_eq_true_eq] at hc
      rcases hc with rfl | rfl | rfl | rfl <;> rfl

theorem Line.cons_blank (hc : isspace c) (hl : Line line vs) : Line (c :: line) vs := by
  have hcons : ∀ {b : List UInt8}, (∀ d ∈ b, isspace d) → ∀ d ∈ c :: b, isspace d := by
    intro b hb d hd
    rcases List.mem_cons.mp hd with rfl | hd
    · exact hc
    · exact hb d hd
  cases hl with
  | blank hb => exact .blank (hcons hb)
  | last hb hstart ha => exact .last (b := c :: _) (hcons hb) hstart ha
  | more hb hstart ha hend hrest => exact .more (b := c :: _) (hcons hb) hstart ha hend hrest

theorem dropWhile_start (hb : ∀ c ∈ b, isspace c) (ha : ¬ closes a) (rest : List UInt8) :
    (b ++ a ++ rest).dropWhile isspace = a ++ rest ∧ ∃ c r, a = c :: r := by
  cases a with
  | nil => exact absurd rfl ha
  | cons c a =>
      have hc : isspace c = false := by simpa [closes] using ha
      rw [List.append_assoc, List.dropWhile_append_of_pos hb]
      exact ⟨by simp [hc], c, a, rfl⟩

theorem scanLine_start (fuel : Nat) (hb : ∀ c ∈ b, isspace c) (ha : ¬ closes a)
    (rest : List UInt8) :
    scanLine (fuel + 1) (b ++ a ++ rest) = (scanPlain (a ++ rest)).bind fun r =>
      (scanLine fuel r.2).bind fun vs => some (r.1 :: vs) := by
  obtain ⟨hdrop, c, r, rfl⟩ := dropWhile_start hb ha rest
  rw [scanLine, hdrop]
  rfl

theorem Line.scan {fuel : Nat} (hl : Line line vs) (hfuel : line.length < fuel) :
    scanLine fuel line = some vs := by
  induction hl generalizing fuel with
  | blank hb =>
      obtain ⟨fuel, rfl⟩ : ∃ k, fuel = k + 1 := ⟨fuel - 1, by omega⟩
      have hskip := scanLine_skip (fuel + 1) [] hb
      rw [List.append_nil] at hskip
      exact hskip
  | @last b a v q hb hstart ha =>
      obtain ⟨fuel, rfl⟩ : ∃ k, fuel = k + 2 := by
        cases a with
        | nil => exact absurd rfl hstart
        | cons c a =>
            simp only [List.length_append, List.length_cons] at hfuel
            exact ⟨fuel - 2, by omega⟩
      have hscan : scanPlain a = some (v, []) := by
        cases q with
        | true => simpa using ha.scan 0 [] |>.1 rfl rfl
        | false => exact (ha.scan 0 []).2.1 rfl
      have hline := scanLine_start (fuel + 1) hb hstart []
      rw [List.append_nil, List.append_nil, hscan] at hline
      exact hline
  | @more b a v rest vs q c hb hstart ha hend _ ih =>
      obtain ⟨fuel, rfl⟩ : ∃ k, fuel = k + 1 := ⟨fuel - 1, by omega⟩
      have hlt : (c :: rest).length < fuel := by
        cases a with
        | nil => exact absurd rfl hstart
        | cons d a =>
            simp only [List.length_append, List.length_cons] at hfuel ⊢
            omega
      rw [scanLine_start fuel hb hstart]
      cases q with
      | true =>
          have hclose : closes (c :: rest) := hend
          rw [ha.scan 0 (c :: rest) |>.1 rfl hclose, Option.bind_some, ih hlt]
          rfl
      | false =>
          have hskip := scanLine_skip fuel rest (l := [c])
            (by simpa using isspace_of_ends hend)
          rw [ha.scan c rest |>.2.2 rfl hend, Option.bind_some, ← hskip]
          show (scanLine fuel (c :: rest)).bind _ = _
          rw [ih hlt]
          rfl

theorem Line.eq_nil (hl : Line [] vs) : vs = [] := by
  have hscan : scanLine 1 [] = some vs := hl.scan (by decide)
  simpa [scanLine] using hscan.symm

theorem Line.of_scan (hb : ∀ c ∈ b, isspace c) (hstart : ¬ closes p)
    (hscan : scanPlain p = some (v, rest)) (hl : Line rest vs) : Line (b ++ p) (v :: vs) := by
  rcases scanPlain_sound hscan with ⟨ha, rfl⟩ | ⟨a, c, rfl, ha, hc⟩ | ⟨a, rfl, ha, hclose⟩
  · obtain rfl := hl.eq_nil
    exact .last hb hstart ha
  · have hends : ends false c := hc
    have hopen : ¬ closes a := by
      cases a with
      | nil => exact absurd (isspace_of_ends hends) hstart
      | cons d a => exact hstart
    rw [← List.append_assoc]
    exact .more hb hopen ha hends (hl.cons_blank (isspace_of_ends hends))
  · have hopen : ¬ closes a := by
      cases a with
      | nil => exact absurd hclose hstart
      | cons d a => exact hstart
    rw [← List.append_assoc]
    cases rest with
    | nil =>
        obtain rfl := hl.eq_nil
        rw [List.append_nil]
        exact .last hb hopen ha
    | cons c rest => exact .more hb hopen ha hclose hl

theorem scanLine_sound {fuel : Nat} (hscan : scanLine fuel line = some vs) : Line line vs := by
  induction fuel generalizing line vs with
  | zero => cases hscan
  | succ fuel ih =>
      have hsplit := List.takeWhile_append_dropWhile (p := isspace) (l := line)
      have hb : ∀ c ∈ line.takeWhile isspace, isspace c := List.all_eq_true.mp List.all_takeWhile
      cases hrest : line.dropWhile isspace with
      | nil =>
          rw [hrest, List.append_nil] at hsplit
          simp only [scanLine, hrest, Option.some.injEq] at hscan
          rw [← hscan, ← hsplit]
          exact .blank hb
      | cons c r =>
          have hstart : isspace c = false := by
            have := List.head_dropWhile_not isspace (l := line) (by simp [hrest])
            simpa [hrest] using this
          simp only [scanLine, hrest, Option.bind_eq_bind, Option.bind_eq_some_iff] at hscan
          obtain ⟨⟨v, r'⟩, hplain, ws, hws, heq⟩ := hscan
          obtain rfl := Option.some.inj heq
          rw [← hsplit, hrest]
          exact Line.of_scan hb (by simp [closes, hstart]) hplain (ih hws)

/-- The lines of the grammar are the lines the scanner reads, with the same arguments. -/
theorem line_iff_scanLine : Line line vs ↔ scanLine (line.length + 1) line = some vs := by
  constructor
  · intro hl
    exact hl.scan (Nat.lt_succ_self _)
  · exact scanLine_sound

/--
On a line of the grammar `sdssplitargs` returns the array of its arguments; on
any other line it returns `NULL` and the heap has the blocks it had before.
-/
theorem sdssplitargs_grammar (hm : Reliable malloc) (h : Heap) (hline : 0 ∉ line)
    (hlen : line.length ≤ maxText) :
    (∃ h' v vs, sdssplitargs malloc h line = some (h', some v, vs.length) ∧
      Tokens h' h.block v vs ∧ ∀ ws, Line line ws ↔ ws = vs) ∨
    ∃ h', sdssplitargs malloc h line = some (h', none, 0) ∧
      h'.block = h.block ∧ ∀ ws, ¬ Line line ws := by
  obtain ⟨r, hrun, hr⟩ := sdssplitargs_spec hm h hline hlen
  cases hscan : scanLine (line.length + 1) line with
  | none =>
      rw [hscan] at hr
      cases hr with
      | @null h' hblock =>
          right
          exact ⟨h', hrun, hblock, by simp [line_iff_scanLine, hscan]⟩
  | some vs =>
      rw [hscan] at hr
      cases hr with
      | @args h' v _ htokens =>
          left
          refine ⟨h', v, vs, hrun, htokens, fun ws => ?_⟩
          rw [line_iff_scanLine, hscan, Option.some.injEq, eq_comm]

/-- The line is `a "b" c'`, whose last quotation is not closed. -/
theorem sdssplitargs_grammar_unclosed :
    (∃ h' v vs, sdssplitargs zeros Blocks.empty [97, 32, 34, 98, 34, 32, 99, 39] =
        some (h', some v, vs.length) ∧ Tokens h' Blocks.empty.block v vs ∧
        ∀ ws, Line [97, 32, 34, 98, 34, 32, 99, 39] ws ↔ ws = vs) ∨
    ∃ h', sdssplitargs zeros Blocks.empty [97, 32, 34, 98, 34, 32, 99, 39] =
        some (h', none, 0) ∧ h'.block = Blocks.empty.block ∧
        ∀ ws, ¬ Line [97, 32, 34, 98, 34, 32, 99, 39] ws :=
  sdssplitargs_grammar zeros_reliable Blocks.empty (by decide) (by decide)

end Libnc.Sds
