import Libnc.Foundation.Run
import Libnc.Sds.Printf
import Libnc.Sds.Text

/-!
# Runs of the string library

A session is a heap with the record of the calls made on it and of the pointers
that came back, newest call first.  What the caller expects of a string is its
text; the record alone determines the texts of all strings.
-/

namespace Libnc.Sds

open Libnc.Foundation Blocks

/-- The calls that leave a string where it is. -/
inductive Edit where
  | updatelen
  | clear
  | incrLen (incr : Int)
  | trim (cset : List UInt8)
  | range (start stop : Int)
  | tolower
  | toupper
  | mapchars (fromSet toSet : List UInt8)
  | poke (i : Nat) (c : UInt8)
  deriving DecidableEq, Repr

/-- The calls that may move a string. -/
inductive Grow where
  | makeRoom (n : Nat)
  | removeFreeSpace
  | receive (data : List UInt8)
  | growzero (n : Nat)
  | catlen (t : Source) (n : Nat)
  | cat (t : Source)
  | catsds (t : Nat)
  | cpylen (t : Source) (n : Nat)
  | cpy (t : Source)
  | catvprintf (output : List UInt8)
  deriving DecidableEq, Repr

inductive Op where
  | newlen (init : Option Source) (n : Nat)
  | dup (s : Nat)
  | free (s : Nat)
  | edit (s : Nat) (e : Edit)
  | grow (s : Nat) (g : Grow)
  deriving DecidableEq, Repr

structure Session where
  heap : Heap
  log : List (Op × Option Nat)

def Session.start : Session := ⟨Blocks.empty, []⟩

/-! ## The calls -/

/-- The caller overwrites bytes of the block itself. -/
def poke (h : Heap) (s offset : Nat) (data : List UInt8) : Option Heap :=
  modify h s fun sh => (write sh.buf offset data).map fun buf => { sh with buf }

def Edit.exec (h : Heap) (s : Nat) : Edit → Option Heap
  | updatelen => sdsupdatelen h s
  | clear => sdsclear h s
  | incrLen incr => sdsIncrLen h s incr
  | trim cset => sdstrim h s cset
  | range start stop => sdsrange h s start stop
  | tolower => sdstolower h s
  | toupper => sdstoupper h s
  | mapchars fromSet toSet => sdsmapchars h s fromSet toSet fromSet.length
  | poke i c => Sds.poke h s i [c]

/-- The schema in the comment of `sdsIncrLen`: room, bytes from elsewhere, the new length. -/
def receive (malloc : Allocator) (h : Heap) (s : Nat) (data : List UInt8) :
    Option (Heap × Option Nat) := do
  let oldlen ← sdslen h s
  match ← sdsMakeRoomFor malloc h s data.length with
  | (h, none) => some (h, none)
  | (h, some s) => do
      let h ← poke h s oldlen data
      let h ← sdsIncrLen h s data.length
      some (h, some s)

def Grow.exec (malloc : Allocator) (h : Heap) (s : Nat) : Grow → Option (Heap × Option Nat)
  | makeRoom n => sdsMakeRoomFor malloc h s n
  | removeFreeSpace => (sdsRemoveFreeSpace malloc h s).map fun (h, s) => (h, some s)
  | receive data => Sds.receive malloc h s data
  | growzero n => sdsgrowzero malloc h s n
  | catlen t n => sdscatlen malloc h s t n
  | cat t => sdscat malloc h s t
  | catsds t => sdscatsds malloc h s t
  | cpylen t n => sdscpylen malloc h s t n
  | cpy t => sdscpy malloc h s t
  | catvprintf output => sdscatvprintf malloc h s output

def Op.exec (malloc : Allocator) (h : Heap) : Op → Option (Heap × Option Nat)
  | newlen init n => sdsnewlen malloc h init n
  | dup s => sdsdup malloc h s
  | free s => (sdsfree h (some s)).map fun h => (h, none)
  | edit s e => (e.exec h s).map fun h => (h, some s)
  | grow s g => g.exec malloc h s

def step (malloc : Allocator) (S : Session) (op : Op) : Option Session := do
  let (h, r) ← op.exec malloc S.heap
  some ⟨h, (op, r) :: S.log⟩

/-! ## The texts that the caller expects -/

abbrev Texts := Nat → Option (List UInt8)

/-- The first `n` bytes at a pointer that does not point into `s`. -/
def Texts.read (A : Texts) (s : Option Nat) (t : Source) (n : Nat) : Option (List UInt8) :=
  match t with
  | .bytes l => if n ≤ l.length then some (l.take n) else none
  | .inside p offset => do
      let text ← A p
      if some p ≠ s ∧ offset + n ≤ text.length then some ((text.drop offset).take n) else none

/-- The C string at a pointer that does not point into `s`. -/
def Texts.cstring (A : Texts) (s : Nat) (t : Source) : Option (List UInt8) :=
  match t with
  | .bytes l => if 0 ∈ l then some (cstr l) else none
  | .inside p offset => do
      let text ← A p
      if p ≠ s ∧ offset ≤ text.length then some (cstr (text.drop offset)) else none

def IsInt (i : Int) : Prop := -2147483648 ≤ i ∧ i ≤ 2147483647

instance (i : Int) : Decidable (IsInt i) := inferInstanceAs (Decidable (_ ∧ _))

instance (text : List UInt8) (start stop : Int) : Decidable (Overlong text start stop) :=
  inferInstanceAs (Decidable (_ ∧ _ ∧ _))

/-- The text after an edit; none when the call is not allowed. -/
def Edit.text (text : List UInt8) : Edit → Option (List UInt8)
  | updatelen => some (cstr text)
  | clear => some []
  | incrLen incr =>
      if incr ≤ 0 ∧ 0 ≤ text.length + incr then some (text.take (text.length + incr).toNat)
      else none
  | trim cset => some (trimmed cset text)
  | range start stop =>
      if IsInt start ∧ IsInt stop ∧ ¬ Overlong text start stop then some (slice text start stop)
      else none
  | tolower => some (text.map Sds.tolower)
  | toupper => some (text.map Sds.toupper)
  | mapchars fromSet toSet =>
      if fromSet.length = toSet.length then some (text.map (mapped fromSet toSet)) else none
  | poke i c => if i < text.length then some (text.set i c) else none

def Grow.text (A : Texts) (s : Nat) (text : List UInt8) : Grow → Option (List UInt8)
  | makeRoom n => if text.length + n ≤ maxText then some text else none
  | removeFreeSpace => some text
  | receive data => some (text ++ data)
  | growzero n => if n ≤ maxText then some (text ++ List.replicate (n - text.length) 0) else none
  | catlen t n => (A.read s t n).map (text ++ ·)
  | cat t => (A.cstring s t).map (text ++ ·)
  | catsds t => if t ≠ s then (A t).map (text ++ ·) else none
  | cpylen t n => A.read s t n
  | cpy t => A.cstring s t
  | catvprintf output =>
      if output.length ≤ 2147483647 then some (text ++ cstr output) else none

/-- The text that a call makes, in the place of the text of `target`. -/
def Op.text (A : Texts) : Op → Option (List UInt8)
  | newlen none n => if n ≤ maxText then some (List.replicate n 0) else none
  | newlen (some t) n => A.read none t n
  | dup s => A s
  | free s => A s
  | edit s e => (A s).bind e.text
  | grow s g => (A s).bind (g.text A s)

def Op.target : Op → Option Nat
  | newlen _ _ => none
  | dup _ => none
  | free s => some s
  | edit s _ => some s
  | grow s _ => some s

/-- The texts after a call that returned `r`. -/
def Texts.after (A : Texts) (op : Op) (r : Option Nat) : Texts :=
  match op, r with
  | .free s, _ => Function.update A s none
  | _, none => A
  | op, some s' => Function.update
      (match op.target with
        | none => A
        | some s => Function.update A s none) s' (op.text A)

/-- The texts that a record leads to. -/
def replay : List (Op × Option Nat) → Texts
  | [] => fun _ => none
  | (op, r) :: log => (replay log).after op r

def Op.shrinks : Op → Bool
  | grow _ .removeFreeSpace => true
  | _ => false

/--
What the caller must see to: the pointers are those of living strings, no text
grows beyond `maxText`, and the block is not shrunk against a refusal.
-/
def Callable (malloc : Allocator) (S : Session) (op : Op) : Prop :=
  (∃ text ∈ op.text (replay S.log), text.length ≤ maxText) ∧
    (op.shrinks → (malloc S.heap.calls).isSome)

instance (malloc : Allocator) (S : Session) (op : Op) : Decidable (Callable malloc S op) :=
  inferInstanceAs (Decidable (_ ∧ _))

/-! ## Well-formed heaps -/

/-- Every block is a string whose header counts its text and its room. -/
def WellFormed (m : Nat → Option Block) : Prop :=
  ∀ p b, m p = some b → ∃ text room, b = .string (pack text room) ∧
    text.length + room.length ≤ 2147483647

def textOf : Option Block → Option (List UInt8)
  | some (.string sh) => some (sh.buf.take sh.len.toNat)
  | _ => none

/-- The texts that lie in the blocks. -/
def textsOf (m : Nat → Option Block) : Texts := fun p => textOf (m p)

variable {malloc : Allocator} {h h' : Heap} {m F : Nat → Option Block} {s n : Nat}
  {text text' room l : List UInt8} {t : Source} {r : Option Nat} {e : Edit} {g : Grow}

@[simp] theorem textOf_pack : textOf (some (.string (pack text room))) = some text := by
  simp [textOf]

theorem textsOf_update (m : Nat → Option Block) (s : Nat) (b : Option Block) :
    textsOf (Function.update m s b) = Function.update (textsOf m) s (textOf b) := by
  funext p
  rcases eq_or_ne p s with rfl | hne
  · simp [textsOf]
  · simp [textsOf, hne]

theorem WellFormed.erase (hw : WellFormed m) (s : Nat) :
    WellFormed (Function.update m s none) := by
  intro p b hb
  rcases eq_or_ne p s with rfl | hne
  · simp at hb
  · rw [Function.update_of_ne hne] at hb
    exact hw p b hb

theorem WellFormed.insert (hw : WellFormed m) (s : Nat)
    (hfits : text.length + room.length ≤ 2147483647) :
    WellFormed (Function.update m s (some (.string (pack text room)))) := by
  intro p b hb
  rcases eq_or_ne p s with rfl | hne
  · rw [Function.update_self, Option.some.injEq] at hb
    exact ⟨text, room, hb.symm, hfits⟩
  · rw [Function.update_of_ne hne] at hb
    exact hw p b hb

theorem WellFormed.get (hw : WellFormed m) (ht : textsOf m s = some text) :
    ∃ room, m s = some (.string (pack text room)) ∧
      text.length + room.length ≤ 2147483647 := by
  cases hb : m s with
  | none => simp [textsOf, hb, textOf] at ht
  | some b =>
      obtain ⟨text', room, rfl, hfits⟩ := hw s b hb
      simp only [textsOf, hb, textOf_pack, Option.some.injEq] at ht
      subst ht
      exact ⟨room, rfl, hfits⟩

theorem WellFormed.holds (hw : WellFormed h.block) (ht : textsOf h.block s = some text) :
    ∃ room, Holds h (Function.update h.block s none) s text room := by
  obtain ⟨room, hb, hfits⟩ := hw.get ht
  exact ⟨room, cell_of_get hb, hfits⟩

theorem Holds.sound (hs : Holds h' F s text room) (hw : WellFormed F) :
    WellFormed h'.block ∧
      textsOf h'.block = Function.update (textsOf F) s (some text) := by
  rw [hs.cell.block, textsOf_update, textOf_pack]
  exact ⟨hw.insert s hs.fits, rfl⟩

/-! ## Sources -/

theorem WellFormed.readable_of_get {p offset : Nat} (hw : WellFormed m)
    (ht : textsOf m p = some text) (hoffset : offset ≤ text.length) :
    ∃ room, readable m (.inside p offset) = some (text.drop offset ++ 0 :: room) := by
  obtain ⟨room, hb, -⟩ := hw.get ht
  refine ⟨room, ?_⟩
  rw [← List.drop_append_of_le_length hoffset]
  simp [readable, hb]
  omega

/-- What the caller expects at a pointer is what a call reads there. -/
theorem readable_of_read (hw : WellFormed m) {target : Option Nat}
    (hl : (textsOf m).read target t n = some l)
    (hF : F = match target with | none => m | some s => Function.update m s none) :
    ∃ bytes, readable F t = some bytes ∧ n ≤ bytes.length ∧ bytes.take n = l := by
  cases t with
  | bytes bytes =>
      obtain ⟨hn, hl⟩ := Option.ite_none_right_eq_some.mp hl
      exact ⟨bytes, rfl, hn, Option.some.inj hl⟩
  | inside p offset =>
      obtain ⟨text, ht, hl⟩ := Option.bind_eq_some_iff.mp hl
      obtain ⟨⟨hp, hn⟩, hl⟩ := Option.ite_none_right_eq_some.mp hl
      obtain ⟨room, hread⟩ := hw.readable_of_get ht (by omega : offset ≤ text.length)
      refine ⟨text.drop offset ++ 0 :: room, ?_, by simp; omega, ?_⟩
      · rw [← hread, hF]
        cases target with
        | none => rfl
        | some s =>
            have hne : p ≠ s := fun heq => hp (congrArg some heq)
            simp [readable, hne]
      · rw [List.take_append_of_le_length (by simp; omega)]
        exact Option.some.inj hl

theorem readable_of_cstring (hw : WellFormed m) (hl : (textsOf m).cstring s t = some l) :
    ∃ bytes, readable (Function.update m s none) t = some bytes ∧ 0 ∈ bytes ∧
      bytes.take (bytes.idxOf 0) = l := by
  cases t with
  | bytes bytes =>
      obtain ⟨hzero, hl⟩ := Option.ite_none_right_eq_some.mp hl
      exact ⟨bytes, rfl, hzero, (take_idxOf_zero _).trans (Option.some.inj hl)⟩
  | inside p offset =>
      obtain ⟨text, ht, hl⟩ := Option.bind_eq_some_iff.mp hl
      obtain ⟨⟨hp, hn⟩, hl⟩ := Option.ite_none_right_eq_some.mp hl
      obtain ⟨room, hread⟩ := hw.readable_of_get ht hn
      refine ⟨text.drop offset ++ 0 :: room, ?_, by simp, ?_⟩
      · rw [← hread]
        simp [readable, hp]
      · rw [take_idxOf_zero, cstr_append_zero]
        exact Option.some.inj hl

/-! ## One call -/

theorem poke_spec {i : Nat} {c : UInt8} (hs : Holds h F s text room) (hi : i < text.length) :
    ∃ h', poke h s i [c] = some h' ∧ Holds h' F s (text.set i c) room := by
  have hfits := hs.fits
  have hwrite : write (text ++ 0 :: room) i [c] = some (text.set i c ++ 0 :: room) := by
    unfold write
    rw [if_pos (by simp; omega), List.set_eq_take_append_cons_drop, if_pos hi,
      List.take_append_of_le_length (by omega), List.length_singleton,
      List.drop_append_of_le_length (by omega)]
    simp
  exact hs.modify (by simp [pack, hwrite]) (by simpa using hfits)

theorem receive_spec (malloc : Allocator) (data : List UInt8) (hs : Holds h F s text room)
    (hb : room.length < data.length → text.length + data.length ≤ maxText) :
    ∃ r, receive malloc h s data = some r ∧ Outcome malloc h F (text ++ data) r := by
  obtain ⟨⟨h', r⟩, hmake, hr⟩ := sdsMakeRoomFor_spec malloc hs hb
  unfold receive
  rw [sdslen_of_holds hs, hmake]
  cases r with
  | none => exact ⟨(h', none), rfl, hr.null_outcome⟩
  | some s' =>
      obtain ⟨room', hroom', hs'⟩ := hr.holds hs
      have hfits := hs'.fits
      -- until `sdsIncrLen` the string has its old length and no terminator
      generalize hbuf : text ++ data ++ (0 :: room').drop data.length = buf
      have hlen : buf.length = text.length + room'.length + 1 := by
        rw [← hbuf]
        simp
        omega
      have hwrite : write (text ++ 0 :: room') text.length data = some buf := by
        have hsplit : text ++ 0 :: room' = text ++ (0 :: room').take data.length ++
            (0 :: room').drop data.length := by
          rw [List.append_assoc, List.take_append_drop]
        rw [hsplit, write_append _ _ _ _ (by simp; omega), hbuf]
      have hpoke : poke h' s' text.length data = some (h'.store s'
          (.string ⟨text.length, room'.length, buf⟩)) :=
        modify_of_cell _ hs'.cell (by simp [hwrite, pack])
      have hincr := incrLen_pack data.length text.length room'.length hlen hfits (by omega)
        (by omega)
      have hnew : ((text.length : Int) + data.length).toNat = (text ++ data).length := by
        simp
        omega
      rw [hnew, ← hbuf, List.take_left, hbuf] at hincr
      have hcell : Cell (h'.store s' (.string ⟨text.length, room'.length, buf⟩)) F s'
        (.string ⟨text.length, room'.length, buf⟩) := hs'.cell.store
      have hmod := modify_of_cell _ hcell (f := fun sh => sh.incrLen data.length) hincr
      refine ⟨(_, some s'), ?_, .done _ s' (buf.drop ((text ++ data).length + 1))
        ⟨hcell.store, ?_⟩⟩
      · simp [hpoke, sdsIncrLen, hmod]
      · simp [hlen]
        omega

theorem Edit.exec_spec (hs : Holds h F s text room) (ht : e.text text = some text') :
    ∃ h' room', e.exec h s = some h' ∧ Holds h' F s text' room' := by
  have hfits := hs.fits
  cases e with
  | updatelen =>
      obtain ⟨h', room', hrun, hs'⟩ := sdsupdatelen_spec hs
      refine ⟨h', room', hrun, ?_⟩
      have hcut : text.take ((text ++ 0 :: room).idxOf 0) = text' := by
        rw [← Option.some.inj ht, ← cstr_append_zero text room, ← take_idxOf_zero,
          List.take_append_of_le_length (idxOf_zero_le text room)]
      rwa [hcut] at hs'
  | clear =>
      obtain rfl := Option.some.inj ht
      exact sdsclear_spec hs
  | incrLen incr =>
      obtain ⟨⟨hincr, hlow⟩, ht⟩ := Option.ite_none_right_eq_some.mp ht
      have hpack := incrLen_pack incr text.length room.length
        (show (text ++ 0 :: room).length = _ by simp; omega) hfits hlow (by omega)
      rw [List.take_append_of_le_length (by omega)] at hpack
      obtain ⟨h', hmod, hs'⟩ := hs.modify (f := fun sh => sh.incrLen incr) hpack (by simp; omega)
      exact ⟨h', _, hmod, Option.some.inj ht ▸ hs'⟩
  | trim cset =>
      obtain rfl := Option.some.inj ht
      exact sdstrim_spec cset hs
  | range start stop =>
      obtain ⟨⟨hstart, hstop, hshort⟩, ht⟩ := Option.ite_none_right_eq_some.mp ht
      obtain rfl := Option.some.inj ht
      exact sdsrange_spec hs hstart hstop hshort
  | tolower =>
      obtain rfl := Option.some.inj ht
      obtain ⟨h', hrun, hs'⟩ := sdstolower_spec hs
      exact ⟨h', room, hrun, hs'⟩
  | toupper =>
      obtain rfl := Option.some.inj ht
      obtain ⟨h', hrun, hs'⟩ := sdstoupper_spec hs
      exact ⟨h', room, hrun, hs'⟩
  | mapchars fromSet toSet =>
      obtain ⟨hlen, ht⟩ := Option.ite_none_right_eq_some.mp ht
      obtain rfl := Option.some.inj ht
      obtain ⟨h', hrun, hs'⟩ := sdsmapchars_spec hs hlen
      exact ⟨h', room, hrun, hs'⟩
  | poke i c =>
      obtain ⟨hi, ht⟩ := Option.ite_none_right_eq_some.mp ht
      obtain rfl := Option.some.inj ht
      obtain ⟨h', hrun, hs'⟩ := poke_spec hs hi
      exact ⟨h', room, hrun, hs'⟩

theorem Grow.exec_spec (malloc : Allocator) (hw : WellFormed h.block)
    (hs : Holds h (Function.update h.block s none) s text room)
    (ht : g.text (textsOf h.block) s text = some text') (hlen : text'.length ≤ maxText)
    (hshrink : g = .removeFreeSpace → (malloc h.calls).isSome) :
    ∃ r, g.exec malloc h s = some r ∧
      Outcome malloc h (Function.update h.block s none) text' r := by
  cases g with
  | makeRoom n =>
      obtain ⟨hn, ht⟩ := Option.ite_none_right_eq_some.mp ht
      obtain rfl := Option.some.inj ht
      obtain ⟨⟨h', r⟩, hmake, hr⟩ := sdsMakeRoomFor_spec malloc hs (fun _ => hn)
      refine ⟨(h', r), hmake, ?_⟩
      cases r with
      | none => exact hr.null_outcome
      | some s' =>
          obtain ⟨room', -, hs'⟩ := hr.holds hs
          exact .done h' s' room' hs'
  | removeFreeSpace =>
      obtain rfl := Option.some.inj ht
      obtain ⟨h', hrun, hs'⟩ := sdsRemoveFreeSpace_spec hs (hshrink rfl)
      exact ⟨(h', some h.calls), by simp [Grow.exec, hrun], .done _ _ [] hs'⟩
  | receive data =>
      obtain rfl := Option.some.inj ht
      exact receive_spec malloc data hs (fun _ => by simpa using hlen)
  | growzero n =>
      obtain ⟨hn, ht⟩ := Option.ite_none_right_eq_some.mp ht
      obtain rfl := Option.some.inj ht
      exact sdsgrowzero_spec malloc hs (fun _ => hn)
  | catlen t n =>
      obtain ⟨l, hl, rfl⟩ := Option.map_eq_some_iff.mp ht
      obtain ⟨bytes, hread, hn, rfl⟩ := readable_of_read hw hl rfl
      refine sdscatlen_spec malloc hs hread hn (fun _ => ?_)
      simpa [hn] using hlen
  | cat t =>
      obtain ⟨l, hl, rfl⟩ := Option.map_eq_some_iff.mp ht
      obtain ⟨bytes, hread, hzero, rfl⟩ := readable_of_cstring hw hl
      refine sdscat_spec malloc hs hread hzero (fun _ => ?_)
      simpa [Nat.min_eq_left List.idxOf_le_length] using hlen
  | catsds u =>
      obtain ⟨hne, ht⟩ := Option.ite_none_right_eq_some.mp ht
      obtain ⟨l, hl, rfl⟩ := Option.map_eq_some_iff.mp ht
      obtain ⟨roomU, hU⟩ := hw.holds hl
      have hu : Function.update h.block s none u = some (.string (pack l roomU)) := by
        rw [Function.update_of_ne hne, hU.cell.get]
      have hfits := hU.fits
      exact sdscatsds_spec malloc hs hu (by omega) (fun _ => by simpa using hlen)
  | cpylen t n =>
      obtain ⟨bytes, hread, hn, rfl⟩ := readable_of_read hw ht rfl
      refine sdscpylen_spec malloc hs hread hn (fun _ => ?_)
      simpa [hn] using hlen
  | cpy t =>
      obtain ⟨bytes, hread, hzero, rfl⟩ := readable_of_cstring hw ht
      refine sdscpy_spec malloc hs hread hzero (fun _ => ?_)
      simpa [Nat.min_eq_left List.idxOf_le_length] using hlen
  | catvprintf output =>
      obtain ⟨hout, ht⟩ := Option.ite_none_right_eq_some.mp ht
      obtain rfl := Option.some.inj ht
      exact sdscatvprintf_spec malloc output hs hout (fun _ => by simpa using hlen)

/-- A call that returns NULL has been refused memory, or has released a string. -/
def Excused (malloc : Allocator) (h : Heap) (op : Op) (r : Option Nat) (h' : Heap) : Prop :=
  r = none → (∃ s, op = .free s) ∨ Refused malloc h h'

/-- An outcome in the heap is the change that the caller expects. -/
theorem Outcome.sound (op : Op) (hw : WellFormed h.block) (hfree : ∀ s, op ≠ .free s)
    (htext : op.text (textsOf h.block) = some text)
    (hout : Outcome malloc h (match op.target with
      | none => h.block
      | some s => Function.update h.block s none) text (h', r)) :
    WellFormed h'.block ∧ textsOf h'.block = (textsOf h.block).after op r ∧
      Excused malloc h op r h' := by
  cases hout with
  | null _ hrefused hsame =>
      rw [hsame]
      refine ⟨hw, ?_, fun _ => .inr hrefused⟩
      cases op <;> first | rfl | exact absurd rfl (hfree _)
  | done _ s' room hs' =>
      cases htarget : op.target with
      | none =>
          rw [htarget] at hs'
          obtain ⟨hw', htexts⟩ := hs'.sound hw
          refine ⟨hw', ?_, by simp [Excused]⟩
          rw [htexts, ← htext]
          cases op <;> first | rfl | cases htarget
      | some s =>
          rw [htarget] at hs'
          obtain ⟨hw', htexts⟩ := hs'.sound (hw.erase s)
          refine ⟨hw', ?_, by simp [Excused]⟩
          rw [htexts, textsOf_update, ← htext]
          cases op with
          | newlen _ _ => cases htarget
          | dup _ => cases htarget
          | free s => exact absurd rfl (hfree s)
          | edit _ _ =>
              cases htarget
              rfl
          | grow _ _ =>
              cases htarget
              rfl

theorem Op.exec_spec {op : Op} (hw : WellFormed h.block)
    (htext : op.text (textsOf h.block) = some text) (hlen : text.length ≤ maxText)
    (hshrink : op.shrinks → (malloc h.calls).isSome) :
    ∃ h' r, op.exec malloc h = some (h', r) ∧ WellFormed h'.block ∧
      textsOf h'.block = (textsOf h.block).after op r ∧ Excused malloc h op r h' := by
  have hmax : text.length ≤ 2147483647 := by
    unfold maxText at hlen
    omega
  cases op with
  | newlen init n =>
      have hinitial : initial h.block init n = some text ∧ n ≤ 2147483647 := by
        cases init with
        | none =>
            obtain ⟨-, ht⟩ := Option.ite_none_right_eq_some.mp htext
            obtain rfl := Option.some.inj ht
            exact ⟨rfl, by simpa using hmax⟩
        | some t =>
            obtain ⟨bytes, hread, hn, rfl⟩ := readable_of_read hw htext rfl
            exact ⟨by simp [initial, hread, hn], by simpa [hn] using hmax⟩
      obtain ⟨⟨h', r⟩, hrun, hout⟩ := sdsnewlen_spec malloc hinitial.1 hinitial.2
      exact ⟨h', r, hrun, hout.sound (.newlen init n) hw (by simp) htext⟩
  | dup s =>
      obtain ⟨room, hs⟩ := hw.holds htext
      obtain ⟨⟨h', r⟩, hrun, hout⟩ := sdsdup_spec malloc hs
      exact ⟨h', r, hrun, hout.sound (.dup s) hw (by simp) htext⟩
  | free s =>
      obtain ⟨room, hs⟩ := hw.holds htext
      obtain ⟨h', hrun, hblock⟩ := sdsfree_spec hs
      refine ⟨h', none, by simp [Op.exec, hrun], ?_, ?_, fun _ => .inl ⟨s, rfl⟩⟩
      · rw [hblock]
        exact hw.erase s
      · rw [hblock, textsOf_update]
        rfl
  | edit s e =>
      obtain ⟨old, hold, htext'⟩ := Option.bind_eq_some_iff.mp htext
      obtain ⟨room, hs⟩ := hw.holds hold
      obtain ⟨h', room', hrun, hs'⟩ := Edit.exec_spec hs htext'
      refine ⟨h', some s, by simp [Op.exec, hrun], ?_⟩
      have hout : Outcome malloc h (Function.update h.block s none) text (h', some s) :=
        .done h' s room' hs'
      exact hout.sound (.edit s e) hw (by simp) htext
  | grow s g =>
      obtain ⟨old, hold, htext'⟩ := Option.bind_eq_some_iff.mp htext
      obtain ⟨room, hs⟩ := hw.holds hold
      obtain ⟨⟨h', r⟩, hrun, hout⟩ := Grow.exec_spec malloc hw hs htext' hlen
        (fun hg => hshrink (by rw [hg]; rfl))
      exact ⟨h', r, hrun, hout.sound (.grow s g) hw (by simp) htext⟩

/-! ## Runs -/

/-- What holds in every state of a session. -/
structure Sound (S : Session) : Prop where
  wellFormed : WellFormed S.heap.block
  texts : textsOf S.heap.block = replay S.log

end Libnc.Sds
