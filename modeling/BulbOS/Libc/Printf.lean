import BulbOS.Lib.Stop
import BulbOS.Libc.Itoa

/-!
# Formatted output (`libc-src/stdio/printf.c`)

* `vprintf`: the scanner with its cases; `putchar` returns the character, so `print` does not fail;
* `Piece`: what a format string is built from, with the argument of a conversion, and the text it stands for;
* `Piece.emitted`: what the code emits for it; `vprintfRound_conversion`, `vprintfRound_literal`: one round of the loop;
* `vprintf_emits`: a format string without `%%`; `vprintf_percent`: with one;
* **`vprintf_iff`**: when the output is the text.
-/

namespace BulbOS.Libc

open KLib

/-- `INT_MAX`. -/
def intMax : ℕ := 2 ^ 31 - 1

/-- An argument; a `char*` is the string that it points to. -/
inductive Arg
  | int (value : UInt32)
  | str (s : List UInt8)

/-- Why a call gives no number of characters: it returns `-1`, an argument is missing or of another type, or it does
not return. -/
inductive Exit
  | failed
  | undefined
  | diverges
  deriving DecidableEq

/-- The rest of the format, the arguments that are not taken yet, the characters emitted, `written`, and how often
`no_format_case` has read behind the variable `format`. -/
structure Printf where
  format : List UInt8
  args : List Arg
  out : List UInt8
  written : ℕ
  strays : ℕ

/-- `print`, and `*written += len`. -/
def Printf.print (p : Printf) (s : List UInt8) : Printf := { p with out := p.out ++ s, written := p.written + s.length }

/-- `format++` moves the parameter and not `*format`: behind the variable `format` lies some other word, and
`behind n` are the bytes that the call number `n` finds where it points to, up to a NUL or a percent sign. The
variable itself stays. -/
def noFormatCase (behind : ℕ → UInt8 × List UInt8) (p : Printf) (maxrem : ℕ) : Except Exit Printf :=
  if p.format.head? = some 37 then
    let amount := 1 + (behind p.strays).2.length
    if maxrem < amount then .error .failed
    else .ok { p.print ((behind p.strays).1 :: (behind p.strays).2) with strays := p.strays + 1 }
  else
    let amount := 1 + (p.format.tail.takeWhile (· ≠ 37)).length
    if maxrem < amount then .error .failed
    else .ok { p.print (p.format.take amount) with format := p.format.drop amount }

def cFormatCase (p : Printf) (c : UInt8) (maxrem : ℕ) : Except Exit Printf :=
  if maxrem = 0 then .error .failed else .ok { p.print [c] with format := p.format.tail }

def sFormatCase (p : Printf) (s : List UInt8) (maxrem : ℕ) : Except Exit Printf :=
  if maxrem < s.length then .error .failed else .ok { p.print s with format := p.format.tail }

/-- `stack` is what is in `buffer` before. -/
def numFormatCase (stack : Mem) (p : Printf) (value : UInt32) (maxrem : ℕ) (base : UInt32) (flags : UInt8) :
    Except Exit Printf :=
  let (buffer, initIndex) :=
    if base = 16 ∧ flags >>> 0 &&& 1 ≠ 0 then (Function.update (Function.update stack 0 48) 1 120, 2)
    else (stack, 0)
  match uitoa buffer initIndex value base with
  | none => .error .diverges
  | some (buffer, len) =>
    if maxrem < len then .error .failed
    else .ok { p.print (bytesFrom buffer 0 len) with format := p.format.tail }

/-- The flags, and the format behind them. -/
def scanFlags : List UInt8 → UInt8 → UInt8 × List UInt8
  | [], flags => (flags, [])
  | c :: format, flags =>
    if c = 48 then scanFlags format (flags ||| (1 : UInt8) <<< 1)
    else if c = 35 then scanFlags format (flags ||| (1 : UInt8) <<< 0)
    else (flags, c :: format)

/-- One round of the loop of `vprintf`; `va_arg` takes the first argument. -/
def vprintfRound (behind : ℕ → UInt8 × List UInt8) (stack : Mem) (p : Printf) : Except Exit Printf :=
  let maxrem := intMax - p.written
  if p.format.head? ≠ some 37 ∨ p.format.tail.head? = some 37 then noFormatCase behind p maxrem
  else
    let (flags, format) := scanFlags p.format.tail 0
    let q := { p with format := format, args := p.args.tail }
    if format.head? = some 99 then
      match p.args.head? with
      | some (.int value) => cFormatCase q value.toUInt8 maxrem
      | _ => .error .undefined
    else if format.head? = some 115 then
      match p.args.head? with
      | some (.str s) => sFormatCase q s maxrem
      | _ => .error .undefined
    else if format.head? = some 100 then
      match p.args.head? with
      | some (.int value) => numFormatCase stack q value maxrem 10 flags
      | _ => .error .undefined
    else if format.head? = some 120 then
      match p.args.head? with
      | some (.int value) => numFormatCase stack q value maxrem 16 flags
      | _ => .error .undefined
    else if maxrem < p.format.length then .error .failed
    else .ok { p.print p.format with format := [] }

def vprintfLoop (behind : ℕ → UInt8 × List UInt8) (stack : Mem) : ℕ → Printf → Except Exit Printf
  | 0, _ => .error .diverges
  | fuel + 1, p =>
    if p.format = [] then .ok p else vprintfRound behind stack p >>= vprintfLoop behind stack fuel

/-- The number returned and the characters emitted. -/
def vprintf (behind : ℕ → UInt8 × List UInt8) (stack : Mem) (fuel : ℕ) (format : List UInt8) (args : List Arg) :
    Except Exit (ℕ × List UInt8) := do
  let p ← vprintfLoop behind stack fuel ⟨format, args, [], 0, 0⟩
  return (p.written, p.out)

/-! ## Format strings -/

/-- A character of the literal text, an escape, or a conversion with its argument. -/
inductive Piece
  | literal (c : { c : UInt8 // c ≠ 0 ∧ c ≠ 37 })
  | percent
  | char (value : UInt32)
  | str (s : List UInt8)
  | dec (value : UInt32)
  | hex (value : UInt32)
  | altHex (value : UInt32)

/-- `c`, `%%`, `%c`, `%s`, `%d`, `%x` and `%#x`. -/
def Piece.format : Piece → List UInt8
  | .literal c => [c]
  | .percent => [37, 37]
  | .char _ => [37, 99]
  | .str _ => [37, 115]
  | .dec _ => [37, 100]
  | .hex _ => [37, 120]
  | .altHex _ => [37, 35, 120]

def Piece.args : Piece → List Arg
  | .literal _ | .percent => []
  | .char value | .dec value | .hex value | .altHex value => [.int value]
  | .str s => [.str s]

/-- What it stands for. -/
def Piece.text : Piece → List UInt8
  | .literal c => [c]
  | .percent => [37]
  | .char value => [value.toUInt8]
  | .str s => s
  | .dec value => numeral 10 value.toNat
  | .hex value => numeral 16 value.toNat
  | .altHex value => 48 :: 120 :: numeral 16 value.toNat

/-- What the code emits for it: `len` does not count the prefix of `%#x`. -/
def Piece.emitted : Piece → List UInt8
  | .altHex value => (48 :: 120 :: numeral 16 value.toNat).take (numeral 16 value.toNat).length
  | p => p.text

/-- Neither `%%` nor `%#x`. -/
def Piece.Works : Piece → Prop
  | .percent | .altHex _ => False
  | _ => True

variable {behind : ℕ → UInt8 × List UInt8} {stack : Mem} {p : Printf} {rest s : List UInt8} {as : List Arg}
  {q : Piece} {ps qs : List Piece} {fuel : ℕ}

/-! ## One round -/

theorem vprintfRound_literal {c : UInt8} {cs : List UInt8} (hf : p.format = c :: cs ++ rest) (hc : c ≠ 37)
    (hcs : ∀ x ∈ cs, x ≠ 37) (hrest : rest = [] ∨ rest.head? = some 37)
    (hroom : p.written + (c :: cs).length ≤ intMax) :
    vprintfRound behind stack p = .ok { p.print (c :: cs) with format := rest } := by
  have hhead : p.format.head? ≠ some 37 := by
    rw [hf]
    exact fun e => hc (Option.some.inj e)
  have htake : (cs ++ rest).takeWhile (· ≠ 37) = cs := by
    rw [List.takeWhile_append_of_pos fun x hx => decide_eq_true (hcs x hx)]
    rcases hrest with rfl | h
    · rw [List.takeWhile_nil, List.append_nil]
    · obtain ⟨tail, rfl⟩ : ∃ tail, rest = 37 :: tail := by
        cases rest with
        | nil => cases h
        | cons x tail => exact ⟨tail, by rw [Option.some.inj h]⟩
      rw [List.takeWhile_cons_of_neg (by decide), List.append_nil]
  have hamount : 1 + (p.format.tail.takeWhile (· ≠ 37)).length = (c :: cs).length := by
    rw [hf, List.cons_append, List.tail_cons, htake, List.length_cons, Nat.add_comm]
  rw [vprintfRound, if_pos (.inl hhead), noFormatCase, if_neg hhead]
  dsimp only
  rw [hamount, if_neg (by omega), hf, List.take_left, List.drop_left]

theorem numFormatCase_eq {value base : UInt32} {flags : UInt8} {maxrem : ℕ} (hbase : base = 10 ∨ base = 16)
    (hflags : ¬ (base = 16 ∧ flags >>> 0 &&& 1 ≠ 0)) (hroom : (numeral base.toNat value.toNat).length ≤ maxrem) :
    numFormatCase stack p value maxrem base flags =
      .ok { p.print (numeral base.toNat value.toNat) with format := p.format.tail } := by
  have h2 : 2 ≤ base.toNat := by rcases hbase with rfl | rfl <;> decide
  have h36 : base.toNat ≤ 36 := by rcases hbase with rfl | rfl <;> decide
  have hu := uitoa_eq stack 0 value h2 h36
  have hbytes := bytesFrom_storeBytes (m := stack) (a := 0) (s := numeral base.toNat value.toNat ++ [0])
    (n := (numeral base.toNat value.toNat).length) (by rw [List.length_append]; omega)
  rw [List.take_left] at hbytes
  rw [numFormatCase, if_neg hflags]
  dsimp only
  rw [hu]
  dsimp only
  rw [if_neg (by omega), hbytes]

theorem numFormatCase_alt {value : UInt32} {flags : UInt8} {maxrem : ℕ} (hflags : flags >>> 0 &&& 1 ≠ 0)
    (hroom : (numeral 16 value.toNat).length ≤ maxrem) : numFormatCase stack p value maxrem 16 flags =
      .ok { p.print (Piece.altHex value).emitted with format := p.format.tail } := by
  have hu : uitoa (Function.update (Function.update stack 0 48) 1 120) 2 value 16 = _ :=
    uitoa_eq _ 2 value (by decide) (by decide)
  change _ = some (_, (numeral 16 value.toNat).length) at hu
  have hbytes := bytesFrom_storeBytes (m := stack) (a := 0) (s := 48 :: 120 :: numeral 16 value.toNat ++ [0])
    (n := (numeral 16 value.toNat).length) (by simp only [List.length_append, List.length_cons]; omega)
  rw [List.take_append_of_le_length (by simp only [List.length_cons]; omega)] at hbytes
  rw [numFormatCase, if_pos ⟨rfl, hflags⟩]
  dsimp only
  rw [hu]
  dsimp only
  rw [if_neg (by omega), storeBytes_cons, storeBytes_cons]
  exact congrArg (fun b => Except.ok { p.print b with format := p.format.tail }) hbytes

/-- **A conversion** takes its argument. -/
theorem vprintfRound_conversion (hp : q ≠ .percent) (hl : ∀ c, q ≠ .literal c) (hf : p.format = q.format ++ rest)
    (ha : p.args = q.args ++ as) (hroom : p.written + q.emitted.length ≤ intMax) :
    vprintfRound behind stack p = .ok { p.print q.emitted with format := rest, args := as } := by
  obtain ⟨format, args, out, written, strays⟩ := p
  dsimp only at hf ha hroom
  subst hf ha
  cases q with
  | literal c => exact absurd rfl (hl c)
  | percent => exact absurd rfl hp
  | char value =>
    have hroom' : intMax - written ≠ 0 := by
      change written + 1 ≤ intMax at hroom
      omega
    exact if_neg hroom'
  | str s =>
    have hroom' : ¬ intMax - written < s.length := by
      change written + s.length ≤ intMax at hroom
      omega
    exact if_neg hroom'
  | dec value =>
    have hroom' : (numeral 10 value.toNat).length ≤ intMax - written := by
      change written + (numeral 10 value.toNat).length ≤ intMax at hroom
      omega
    change numFormatCase stack ⟨100 :: rest, as, out, written, strays⟩ value (intMax - written) 10 0 = _
    rw [numFormatCase_eq (.inl rfl) (by decide) hroom']
    rfl
  | hex value =>
    have hroom' : (numeral 16 value.toNat).length ≤ intMax - written := by
      change written + (numeral 16 value.toNat).length ≤ intMax at hroom
      omega
    change numFormatCase stack ⟨120 :: rest, as, out, written, strays⟩ value (intMax - written) 16 0 = _
    rw [numFormatCase_eq (.inr rfl) (by decide) hroom']
    rfl
  | altHex value =>
    have hroom' : (numeral 16 value.toNat).length ≤ intMax - written := by
      rw [Piece.emitted, List.length_take_of_le (by simp only [List.length_cons]; omega)] at hroom
      omega
    change numFormatCase stack ⟨120 :: rest, as, out, written, strays⟩ value (intMax - written) 16 1 = _
    rw [numFormatCase_alt (by decide) hroom']
    rfl

/-- **An escape** does not move the format: the loop does not come to its end. -/
theorem vprintf_stuck (hf : p.format = 37 :: 37 :: rest) (r : Printf) : vprintfLoop behind stack fuel p ≠ .ok r := by
  induction fuel generalizing p with
  | zero => exact fun h => (by cases h)
  | succ fuel ih =>
    intro h
    rw [vprintfLoop, if_neg (by rw [hf]; exact List.cons_ne_nil _ _)] at h
    obtain ⟨p', hround, h⟩ := eq_ok_of_bind h
    rw [vprintfRound, if_pos (.inr (by rw [hf]; rfl)), noFormatCase, if_pos (by rw [hf]; rfl)] at hround
    dsimp only at hround
    split_ifs at hround
    cases hround
    exact ih (p := { p.print _ with strays := p.strays + 1 }) hf h

/-! ## The loop -/

/-- The rest of the format and of the arguments is that of `ps`, and `s` is what will have been emitted. -/
structure Emits (p : Printf) (ps : List Piece) (s : List UInt8) : Prop where
  format : p.format = ps.flatMap Piece.format
  args : p.args = ps.flatMap Piece.args
  out : p.out ++ ps.flatMap Piece.emitted = s
  written : p.written = p.out.length

/-- A list of pieces begins with the literal text `cs`, and `qs` follows. -/
structure Span (ps : List Piece) (cs : List UInt8) (qs : List Piece) : Prop where
  plain : ∀ c ∈ cs, c ≠ 37
  format : ps.flatMap Piece.format = cs ++ qs.flatMap Piece.format
  args : ps.flatMap Piece.args = qs.flatMap Piece.args
  emitted : ps.flatMap Piece.emitted = cs ++ qs.flatMap Piece.emitted
  length_le : qs.length ≤ ps.length
  percent : .percent ∈ ps → .percent ∈ qs
  subset : qs ⊆ ps
  stop : qs.flatMap Piece.format = [] ∨ (qs.flatMap Piece.format).head? = some 37

theorem exists_span (ps : List Piece) : ∃ cs qs, Span ps cs qs := by
  induction ps with
  | nil => exact ⟨[], [], ⟨by simp, rfl, rfl, rfl, le_rfl, id, List.Subset.refl _, .inl rfl⟩⟩
  | cons q ps ih =>
    by_cases hl : ∃ c, q = .literal c
    · obtain ⟨c, rfl⟩ := hl
      obtain ⟨cs, qs, h⟩ := ih
      refine ⟨c :: cs, qs, ⟨?_, ?_, h.args, ?_, h.length_le.trans (Nat.le_succ _), ?_,
        List.subset_cons_of_subset _ h.subset, h.stop⟩⟩
      · exact List.forall_mem_cons.mpr ⟨c.2.2, h.plain⟩
      · exact congrArg (c.1 :: ·) h.format
      · exact congrArg (c.1 :: ·) h.emitted
      · exact fun hmem => h.percent ((List.mem_cons.mp hmem).resolve_left (by simp))
    · refine ⟨[], q :: ps, ⟨by simp, rfl, rfl, rfl, le_rfl, id, List.Subset.refl _, .inr ?_⟩⟩
      cases q with
      | literal c => exact absurd ⟨c, rfl⟩ hl
      | _ => rfl

variable (behind stack) in
/-- **One round** that does not begin with an escape. -/
theorem Emits.round (h : Emits p (q :: ps) s) (hs : s.length ≤ intMax) (hp : q ≠ .percent) :
    ∃ p' qs, vprintfRound behind stack p = .ok p' ∧ Emits p' qs s ∧ qs.length ≤ ps.length ∧
      (.percent ∈ ps → .percent ∈ qs) ∧ qs ⊆ ps := by
  have hlen := congrArg List.length h.out
  rw [List.flatMap_cons, List.length_append, List.length_append] at hlen
  have hw := h.written
  have hf := h.format
  have ha := h.args
  have ho := h.out
  rw [List.flatMap_cons] at hf ha ho
  by_cases hl : ∃ c, q = .literal c
  · obtain ⟨c, rfl⟩ := hl
    obtain ⟨cs, qs, hspan⟩ := exists_span ps
    rw [hspan.format] at hf
    rw [hspan.args] at ha
    rw [hspan.emitted] at ho hlen
    change p.format = c.1 :: cs ++ _ at hf
    change p.out ++ (c.1 :: cs ++ _) = s at ho
    have hroom : p.written + (c.1 :: cs).length ≤ intMax := by
      change p.out.length + (1 + _) = _ at hlen
      rw [List.length_append] at hlen
      rw [List.length_cons]
      omega
    refine ⟨_, qs, vprintfRound_literal hf c.2.2 hspan.plain hspan.stop hroom, ⟨rfl, ha, ?_, ?_⟩, hspan.length_le,
      hspan.percent, hspan.subset⟩
    · rw [← ho]
      exact List.append_assoc ..
    · change p.written + (c.1 :: cs).length = (p.out ++ c.1 :: cs).length
      rw [List.length_append, hw]
  · refine ⟨_, ps, vprintfRound_conversion hp (fun c e => hl ⟨c, e⟩) hf ha (by omega), ⟨rfl, rfl, ?_, ?_⟩, le_rfl,
      id, List.Subset.refl _⟩
    · rw [← ho]
      exact List.append_assoc ..
    · change p.written + q.emitted.length = (p.out ++ q.emitted).length
      rw [List.length_append, hw]

theorem format_ne_nil (q : Piece) (ps : List Piece) : (q :: ps).flatMap Piece.format ≠ [] := by
  cases q <;> exact List.cons_ne_nil _ _

theorem vprintfLoop_succ {p' : Printf} (hne : p.format ≠ []) (hround : vprintfRound behind stack p = .ok p') :
    vprintfLoop behind stack (fuel + 1) p = vprintfLoop behind stack fuel p' := by
  rw [vprintfLoop, if_neg hne, hround, ok_bind]

variable (behind stack) in
/-- **A format string without an escape** is emitted to its end. -/
theorem vprintf_emits (h : Emits p ps s) (hs : s.length ≤ intMax) (hp : .percent ∉ ps) (hfuel : ps.length < fuel) :
    ∃ r, vprintfLoop behind stack fuel p = .ok r ∧ r.out = s ∧ r.written = s.length := by
  -- on the fuel; a round leaves fewer pieces
  induction fuel generalizing p ps with
  | zero => omega
  | succ fuel ih =>
    cases ps with
    | nil =>
      have hout : p.out = s := by simpa using h.out
      exact ⟨p, if_pos h.format, hout, by rw [h.written, hout]⟩
    | cons q ps =>
      have hq : q ≠ .percent := fun e => hp (e ▸ List.mem_cons_self)
      obtain ⟨p', qs, hround, hqs, hle, -, hsub⟩ := h.round behind stack hs hq
      have hne : p.format ≠ [] := h.format ▸ format_ne_nil q ps
      rw [List.length_cons] at hfuel
      rw [vprintfLoop_succ hne hround]
      exact ih hqs (fun hmem => hp (List.mem_cons_of_mem _ (hsub hmem))) (by omega)

/-- **With an escape** the loop comes to it, and not behind it. -/
theorem vprintf_percent (h : Emits p ps s) (hs : s.length ≤ intMax) (hp : .percent ∈ ps) (r : Printf) :
    vprintfLoop behind stack fuel p ≠ .ok r := by
  induction fuel generalizing p ps with
  | zero => exact fun h => (by cases h)
  | succ fuel ih =>
    cases ps with
    | nil => cases hp
    | cons q ps =>
      by_cases hq : q = .percent
      · subst hq
        have hf : p.format = 37 :: 37 :: ps.flatMap Piece.format := h.format
        exact vprintf_stuck hf r
      · obtain ⟨p', qs, hround, hqs, -, hmem, -⟩ := h.round behind stack hs hq
        rw [vprintfLoop_succ (h.format ▸ format_ne_nil q ps) hround]
        exact ih hqs (hmem ((List.mem_cons.mp hp).resolve_left (Ne.symm hq)))

theorem vprintfLoop_mono {r : Printf} {fuel' : ℕ} (h : vprintfLoop behind stack fuel p = .ok r) (hle : fuel ≤ fuel') :
    vprintfLoop behind stack fuel' p = .ok r := by
  induction fuel generalizing p fuel' with
  | zero => cases h
  | succ fuel ih =>
    obtain ⟨fuel', rfl⟩ : ∃ n, fuel' = n + 1 := ⟨fuel' - 1, by omega⟩
    by_cases hnil : p.format = []
    · rw [vprintfLoop, if_pos hnil] at h ⊢
      exact h
    · rw [vprintfLoop, if_neg hnil] at h ⊢
      obtain ⟨p', hround, h⟩ := eq_ok_of_bind h
      rw [hround, ok_bind]
      exact ih h (by omega)

/-! ## What is emitted, and what the format string stands for -/

theorem emitted_of_works (h : q.Works) : q.emitted = q.text := by
  cases q with
  | altHex value => cases h
  | _ => rfl

/-- `%#x` loses two digits, or one and a character of its prefix. -/
theorem length_emitted_altHex (value : UInt32) :
    (Piece.altHex value).emitted.length + 2 = (Piece.altHex value).text.length := by
  rw [Piece.emitted, List.length_take_of_le (by simp only [List.length_cons]; omega)]
  rfl

theorem length_emitted_le (q : Piece) : q.emitted.length ≤ q.text.length := by
  cases q with
  | altHex value => exact (length_emitted_altHex value ▸ Nat.le_add_right _ 2)
  | _ => exact le_rfl

theorem length_flatMap_emitted_le (ps : List Piece) :
    (ps.flatMap Piece.emitted).length ≤ (ps.flatMap Piece.text).length := by
  induction ps with
  | nil => exact le_rfl
  | cons q ps ih =>
    rw [List.flatMap_cons, List.flatMap_cons, List.length_append, List.length_append]
    exact Nat.add_le_add (length_emitted_le q) ih

theorem length_flatMap_emitted_lt {value : UInt32} (h : .altHex value ∈ ps) :
    (ps.flatMap Piece.emitted).length < (ps.flatMap Piece.text).length := by
  obtain ⟨l, r, rfl⟩ := List.append_of_mem h
  have hl := length_flatMap_emitted_le l
  have hr := length_flatMap_emitted_le r
  have hq := length_emitted_altHex value
  rw [List.flatMap_append, List.flatMap_append, List.flatMap_cons, List.flatMap_cons, List.length_append,
    List.length_append, List.length_append, List.length_append]
  omega

theorem works_iff : q.Works ↔ q ≠ .percent ∧ ∀ value, q ≠ .altHex value := by
  cases q <;> simp [Piece.Works]

variable (behind stack ps) in
/-- **The output is the text**, and its length is returned, when the format string has neither `%%` nor `%#x`. -/
theorem vprintf_iff (hlen : (ps.flatMap Piece.text).length < intMax) :
    (∃ fuel, vprintf behind stack fuel (ps.flatMap Piece.format) (ps.flatMap Piece.args) =
      .ok ((ps.flatMap Piece.text).length, ps.flatMap Piece.text)) ↔ ∀ q ∈ ps, q.Works := by
  have hs : (ps.flatMap Piece.emitted).length ≤ intMax := (length_flatMap_emitted_le ps).trans hlen.le
  have h₀ : Emits ⟨ps.flatMap Piece.format, ps.flatMap Piece.args, [], 0, 0⟩ ps (ps.flatMap Piece.emitted) :=
    ⟨rfl, rfl, rfl, rfl⟩
  constructor
  · rintro ⟨fuel, h⟩ q hq
    obtain ⟨r, hr, h⟩ := eq_ok_of_bind h
    have hpercent : .percent ∉ ps := fun hmem => vprintf_percent h₀ hs hmem r hr
    -- at a fuel that is enough for both
    obtain ⟨r', hr', -, hwritten⟩ := vprintf_emits behind stack h₀ hs hpercent
      (show ps.length < max fuel (ps.length + 1) by omega)
    cases hr'.symm.trans (vprintfLoop_mono hr (le_max_left _ _))
    refine works_iff.mpr ⟨fun e => hpercent (e ▸ hq), fun value e => ?_⟩
    have hcount : r.written = (ps.flatMap Piece.text).length := congrArg Prod.fst (Except.ok.inj h)
    have hlt := length_flatMap_emitted_lt (e ▸ hq : .altHex value ∈ ps)
    omega
  · intro hworks
    have hemitted : ps.flatMap Piece.emitted = ps.flatMap Piece.text :=
      List.flatMap_congr fun q hq => emitted_of_works (hworks q hq)
    obtain ⟨r, hr, hout, hwritten⟩ := vprintf_emits behind stack h₀ hs
      (fun hmem => hworks _ hmem) (Nat.lt_succ_self _)
    refine ⟨ps.length + 1, ?_⟩
    rw [vprintf, hr, ok_bind, hwritten, hout, hemitted]
    rfl

/-- `a%c` with the character `b`. -/
theorem vprintf_iff_char :
    (∃ fuel, vprintf (fun _ => (8, [])) (fun _ => 0) fuel [97, 37, 99] [.int 98] = .ok (2, [97, 98])) ↔
      ∀ q ∈ [Piece.literal ⟨97, by decide⟩, .char 98], q.Works :=
  vprintf_iff (fun _ => (8, [])) (fun _ => 0) [.literal ⟨97, by decide⟩, .char 98] (by decide)

/-- `%%` alone: no number of rounds gives one percent sign. -/
theorem vprintf_percent_garbled : ¬ ∃ fuel, vprintf (fun _ => (8, [])) (fun _ => 0) fuel
    ([Piece.percent].flatMap Piece.format) ([Piece.percent].flatMap Piece.args) =
      .ok (([Piece.percent].flatMap Piece.text).length, [Piece.percent].flatMap Piece.text) := by
  rintro ⟨fuel, h⟩
  obtain ⟨r, hr, -⟩ := eq_ok_of_bind h
  exact vprintf_stuck (show _ = 37 :: 37 :: [] from rfl) r hr

end BulbOS.Libc
