import BulbOS.Dentry.Paths
import Mathlib.Data.List.Induction

/-!
# The rounds of a lookup

A path is what stands between its slashes, `.` and `..` and empty components among them. The second loop of
`dir_iter_get` takes one component a round, and looks at its last two bytes only; the loops are written once more with
the list of their calls of `parse_dir`.

* `descendLog`, `dirGetLog`: the lookup and its calls; `dirGetLog_result`: it is the lookup;
* `EndsDot`, `EndsDots`: what the loop takes for `.` and `..`; **`descendLog_round`**: one round;
* `Starts`: the longest path that is in the table; **`dirGetLog_cases`**: where the second loop starts.
-/

namespace BulbOS.Dentry

open KLib BulbOS.Table BulbOS.Inode

variable {s s' : Dentries} {disk : Disk} {m : List UInt8 → Option ℕ} {l l' comps : List (List UInt8)}
  {name : List UInt8} {d r : ℕ}

/-! ## The calls of `parse_dir` -/

/-- The calls of `parse_dir`, each with the state before it, and what the lookup returns. -/
abbrev Logged := List (Dentries × ℕ) × Except Stop (ℕ × Dentries)

/-- `descend` with its calls. -/
def descendLog (disk : Disk) (origLen : ℕ) : ℕ → Dentries → ℕ → List UInt8 → ℕ → Logged
  | 0, _, _, _, _ => ([], .error .diverges)
  | fuel + 1, s, dentry, path, len =>
    if len = origLen then ([], .ok (dentry, s))
    else
      let rest : Logged := match ext2ParseDir s disk dentry with
        | .error e => ([], .error e)
        | .ok s =>
          let path := path.set len 47
          let len := nextNul path origLen (origLen - len) len
          if 1 < len ∧ path.getD (len - 1) 0 = 46 then
            if 2 < len ∧ path.getD (len - 2) 0 = 46 then
              descendLog disk origLen fuel s (s.dentries dentry).parent path len
            else descendLog disk origLen fuel s dentry path len
          else
            let path := if 1 < origLen ∧ path.getD (origLen - 1) 0 = 47 then path.set (origLen - 1) 0 else path
            match htGet s.table (cstr path) with
            | none => ([], .error .diverges)
            | some none => ([], .ok (0, s))
            | some (some dentry) => descendLog disk origLen fuel s dentry path len
      ((s, dentry) :: rest.1, rest.2)

theorem descendLog_result {origLen fuel len : ℕ} {buf : List UInt8} :
    (descendLog disk origLen fuel s d buf len).2 = descend disk origLen fuel s d buf len := by
  induction fuel generalizing s d buf len with
  | zero => rfl
  | succ fuel ih =>
    rw [descendLog, descend]
    split_ifs with hlen
    · rfl
    · dsimp only
      cases ext2ParseDir s disk d with
      | error e => rfl
      | ok s₁ =>
        rw [ok_bind]
        dsimp only
        generalize buf.set len 47 = path
        generalize nextNul path origLen (origLen - len) len = len'
        by_cases hdot : 1 < len' ∧ path.getD (len' - 1) 0 = 46
        · rw [if_pos hdot, if_pos hdot]
          by_cases hdots : 2 < len' ∧ path.getD (len' - 2) 0 = 46
          · rw [if_pos hdots, if_pos hdots]
            exact ih
          · rw [if_neg hdots, if_neg hdots]
            exact ih
        · rw [if_neg hdot, if_neg hdot]
          generalize (if 1 < origLen ∧ path.getD (origLen - 1) 0 = 47 then path.set (origLen - 1) 0 else path) = path
          rcases htGet s₁.table (cstr path) with _ | _ | e
          · rfl
          · rfl
          · exact ih

/-- `dir_iter_get` with its calls. -/
def dirIterGetLog (s : Dentries) (disk : Disk) (path : List UInt8) (len : ℕ) : Logged :=
  match prefixLoop s (len + 1) path len with
  | .error e => ([], .error e)
  | .ok (dentry, path, start) =>
    if dentry = 0 then ([], .ok (0, s)) else descendLog disk len (len + 1) s dentry path start

/-- The path that `dir_get` looks up, before it cuts a slash at its end. -/
def absPath (s : Dentries) (path : List UInt8) : List UInt8 :=
  if path.head? = some 47 then path else sumPath (s.str s.currentDir) path

/-- `dir_get` with its calls. -/
def dirGetLog (s : Dentries) (disk : Disk) (path : List UInt8) : Logged :=
  let path := absPath s path
  let len := path.length
  let path := if 1 < len ∧ path.getD (len - 1) 0 = 47 then path.take (len - 1) else path
  match htGet s.table path with
  | none => ([], .error .diverges)
  | some (some dentry) => ([], dirGetHit s dentry)
  | some none => dirIterGetLog s disk (path ++ List.replicate (len + 1 - path.length) 0) len

theorem dirIterGetLog_result {len : ℕ} {buf : List UInt8} :
    (dirIterGetLog s disk buf len).2 = dirIterGet s disk buf len := by
  unfold dirIterGetLog dirIterGet
  cases prefixLoop s (len + 1) buf len with
  | error e => rfl
  | ok x =>
    rw [ok_bind]
    dsimp only
    split_ifs
    · rfl
    · exact descendLog_result

/-- **The calls are those of the lookup.** -/
theorem dirGetLog_result (s : Dentries) (disk : Disk) (path : List UInt8) :
    (dirGetLog s disk path).2 = dirGet s disk path := by
  rw [show dirGet s disk path = dirGetAbs s disk (absPath s path) from rfl, dirGetAbs, dirGetLog]
  generalize absPath s path = p
  generalize (if 1 < p.length ∧ p.getD (p.length - 1) 0 = 47 then p.take (p.length - 1) else p) = q
  rcases htGet s.table q with _ | _ | e
  · rfl
  · exact dirIterGetLog_result
  · rfl

/-! ## Dots -/

/-- The component ends in a dot: the loop takes it for `.` or `..`. -/
def EndsDot (name : List UInt8) : Prop := [46] <:+ name

/-- The component ends in two dots: the loop takes it for `..`. -/
def EndsDots (name : List UInt8) : Prop := [46, 46] <:+ name

instance (name : List UInt8) : Decidable (EndsDot name) := inferInstanceAs (Decidable ([46] <:+ name))

instance (name : List UInt8) : Decidable (EndsDots name) := inferInstanceAs (Decidable ([46, 46] <:+ name))

theorem EndsDots.endsDot (h : EndsDots name) : EndsDot name := (show [46] <:+ ([46, 46] : List UInt8) by decide).trans h

theorem endsDot_concat (x : List UInt8) (c : UInt8) : EndsDot (x ++ [c]) ↔ c = 46 := by
  constructor
  · rintro ⟨t, ht⟩
    exact (List.singleton_inj.mp (List.append_inj' ht rfl).2).symm
  · rintro rfl
    exact ⟨x, rfl⟩

theorem endsDots_concat (x : List UInt8) (c : UInt8) : EndsDots (x ++ [c, 46]) ↔ c = 46 := by
  constructor
  · rintro ⟨t, ht⟩
    exact (List.cons.inj (List.append_inj' ht rfl).2).1.symm
  · rintro rfl
    exact ⟨x, rfl⟩

/-- Before a position that was reached the buffer is the path. -/
theorem getD_cut_left (l l' : List (List UInt8)) {i : ℕ} (hi : i < (stem l).length) :
    (cut l l').getD i 0 = (stem l).getD i 0 := by
  rw [cut, List.getD_append _ _ _ _ hi]

theorem getD_last (l l' : List (List UInt8)) {a : List UInt8} {c : UInt8} (h : stem l = a ++ [c]) :
    (cut l l').getD ((stem l).length - 1) 0 = c := by
  have hlen : (stem l).length = a.length + 1 := by rw [h, List.length_append, List.length_singleton]
  rw [getD_cut_left _ _ (by omega), hlen, Nat.add_sub_cancel, h]
  exact getD_append_length a [c] 0

theorem getD_second (l l' : List (List UInt8)) {a : List UInt8} {c c' : UInt8} (h : stem l = a ++ [c, c']) :
    (cut l l').getD ((stem l).length - 2) 0 = c := by
  have hlen : (stem l).length = a.length + 2 := by rw [h, List.length_append]; rfl
  rw [getD_cut_left _ _ (by omega), hlen, Nat.add_sub_cancel, h]
  exact getD_append_length a [c, c'] 0

theorem dot_iff (l l' : List (List UInt8)) (name : List UInt8) : (1 < (stem (l ++ [name])).length ∧
    (cut (l ++ [name]) l').getD ((stem (l ++ [name])).length - 1) 0 = 46) ↔ EndsDot name := by
  rcases List.eq_nil_or_concat name with rfl | ⟨x, c, rfl⟩
  · refine iff_of_false (fun hdot => ?_) (by decide)
    have hlast := getD_last (l ++ [[]]) l' (stem_snoc l [])
    exact absurd (hlast.symm.trans hdot.2) (by decide)
  · have hstem : stem (l ++ [x.concat c]) = (stem l ++ 47 :: x) ++ [c] := by
      rw [stem_snoc, List.concat_eq_append, List.append_assoc, List.cons_append]
    have hlen : 1 < (stem (l ++ [x.concat c])).length := by
      rw [hstem, List.length_append, List.length_append, List.length_cons, List.length_singleton]
      omega
    rw [getD_last _ _ hstem, and_iff_right hlen, List.concat_eq_append, endsDot_concat]

theorem dots_iff (l l' : List (List UInt8)) (h : EndsDot name) : (2 < (stem (l ++ [name])).length ∧
    (cut (l ++ [name]) l').getD ((stem (l ++ [name])).length - 2) 0 = 46) ↔ EndsDots name := by
  obtain ⟨x, rfl⟩ := h
  rcases List.eq_nil_or_concat x with rfl | ⟨y, c, rfl⟩
  · refine iff_of_false (fun hdots => ?_) (by decide)
    have hsecond := getD_second (l ++ [[46]]) l' (stem_snoc l [46])
    exact absurd (hsecond.symm.trans hdots.2) (by decide)
  · have hstem : stem (l ++ [y.concat c ++ [46]]) = (stem l ++ 47 :: y) ++ [c, 46] := by
      rw [stem_snoc, List.concat_eq_append]
      simp
    have hlen : 2 < (stem (l ++ [y.concat c ++ [46]])).length := by
      rw [hstem, List.length_append, List.length_append, List.length_cons, List.length_cons, List.length_singleton]
      omega
    rw [getD_second _ _ hstem, and_iff_right hlen, List.concat_eq_append, List.append_assoc]
    exact (endsDots_concat y c).symm

/-! ## The first loop -/

theorem slashBefore_cut (hname : 47 ∉ name) (l l' : List (List UInt8)) :
    slashBefore (cut (l ++ [name]) l') (stem (l ++ [name])).length = (stem l).length := by
  have hlen : (stem (l ++ [name])).length = (stem l).length + (name.length + 1) := by
    rw [stem_snoc, List.length_append, List.length_cons]
  rw [hlen, cut_snoc]
  refine slashBefore_append fun j hj => ?_
  by_cases hj' : j < name.length
  · rw [List.getD_append _ _ _ _ hj', List.getD_eq_getElem _ _ hj']
    exact fun e => hname (e ▸ List.getElem_mem hj')
  · obtain rfl : j = name.length + 0 := by omega
    rw [getD_append_length]
    cases l' with
    | nil => decide
    | cons x l' => exact fun e => by cases e

/-- **The first loop of `dir_iter_get`** goes from name to name and finds the longest path that is in the table. -/
theorem prefixLoop_cut (hget : ∀ k, htGet s.table k = some (m k)) (hl : ∀ name ∈ l, IsComp name)
    (l' : List (List UInt8)) {fuel : ℕ} (hfuel : l.length < fuel) :
    (∃ b len, prefixLoop s fuel (cut l l') (stem l).length = .ok (0, b, len) ∧
        ∀ k < l.length, m (stem (l.take k)) = none) ∨
      ∃ l₁ name l₂ d, l = l₁ ++ name :: l₂ ∧ m (stem l₁) = some d ∧
        prefixLoop s fuel (cut l l') (stem l).length = .ok (d, cut l₁ (name :: l₂ ++ l'), (stem l₁).length) ∧
        ∀ k < l.length, l₁.length < k → m (stem (l.take k)) = none := by
  induction l using List.reverseRecOn generalizing l' fuel with
  | nil =>
    obtain ⟨fuel, rfl⟩ : ∃ f, fuel = f + 1 := ⟨fuel - 1, by omega⟩
    exact .inl ⟨_, _, rfl, fun k hk => absurd hk (Nat.not_lt_zero k)⟩
  | append_singleton l name ih =>
    obtain ⟨fuel, rfl⟩ : ∃ f, fuel = f + 1 := ⟨fuel - 1, by omega⟩
    have hl' : ∀ name ∈ l, IsComp name := fun x hx => hl x (List.mem_append_left _ hx)
    have hlen : (stem (l ++ [name])).length ≠ 0 := by
      rw [stem_snoc, List.length_append, List.length_cons]
      omega
    rw [List.length_append, List.length_singleton] at hfuel ⊢
    have hstep : prefixLoop s (fuel + 1) (cut (l ++ [name]) l') (stem (l ++ [name])).length =
        (m (stem l)).elim (prefixLoop s fuel (cut l (name :: l')) (stem l).length)
          fun d => .ok (d, cut l (name :: l'), (stem l).length) := by
      rw [prefixLoop, if_neg hlen, slashBefore_cut (hl name (by simp)).noSlash]
      dsimp only
      rw [cut_set, cstr_cut hl', hget]
      cases m (stem l) <;> rfl
    rw [hstep]
    cases hm : m (stem l) with
    | some d => exact .inr ⟨l, name, [], d, rfl, hm, rfl, fun k hk hlk => by omega⟩
    | none =>
      -- the path without its last name is not in the table either
      have hlast : ∀ k < l.length + 1, (k < l.length → m (stem (l.take k)) = none) →
          m (stem ((l ++ [name]).take k)) = none := by
        intro k hk hbefore
        rw [List.take_append_of_le_length (Nat.le_of_lt_succ hk)]
        rcases Nat.lt_or_ge k l.length with hlt | hge
        · exact hbefore hlt
        · rw [List.take_of_length_le hge]
          exact hm
      rcases ih hl' (name :: l') (by omega : l.length < fuel) with
        ⟨b, len, hok, hnone⟩ | ⟨l₁, x, l₂, d, hsplit, hd, hok, hnone⟩
      · exact .inl ⟨b, len, hok, fun k hk => hlast k hk (hnone k)⟩
      · refine .inr ⟨l₁, x, l₂ ++ [name], d, by simp [hsplit], hd, ?_,
          fun k hk hlk => hlast k hk fun hlt => hnone k hlt hlk⟩
        rw [hok]
        simp

/-! ## The second loop -/

theorem nextNul_cut (hname : IsComp name) (l l' : List (List UInt8)) :
    nextNul (cut (l ++ [name]) l') (stem (l ++ name :: l')).length
        ((stem (l ++ name :: l')).length - (stem l).length) (stem l).length = (stem (l ++ [name])).length := by
  have hlen : (stem (l ++ [name])).length = (stem l).length + (47 :: name).length := by
    rw [stem_snoc, List.length_append]
  have horig : (stem (l ++ name :: l')).length = (stem l).length + (47 :: name).length + (stem l').length := by
    rw [List.append_cons, stem_append, List.length_append, hlen]
  rw [cut_snoc, hlen, ← List.cons_append]
  refine nextNul_append ?_ (by omega) (.inr ?_) (by omega)
  · rw [List.mem_cons, not_or]
    exact ⟨by decide, hname.noNul⟩
  · cases l' with
    | nil => rfl
    | cons x l' => rfl

theorem getD_ne {y : List UInt8} (h : 47 ∉ y) (i : ℕ) : y.getD i 0 ≠ 47 := by
  by_cases hi : i < y.length
  · rw [List.getD_eq_getElem _ _ hi]
    exact fun e => h (e ▸ List.getElem_mem hi)
  · rw [List.getD_eq_default _ _ (not_lt.mp hi)]
    decide

theorem length_flatMap (l : List (List UInt8)) : (l.flatMap (0 :: ·)).length = (stem l).length := by
  simp [stem, List.length_flatMap]

/-- The path ends with a slash again when its last component, an empty one, is reached. -/
theorem slash_iff (hcomps : ∀ x ∈ l ++ name :: l', IsComp x) (hl : l ≠ []) :
    (1 < (stem (l ++ name :: l')).length ∧
      (cut (l ++ [name]) l').getD ((stem (l ++ name :: l')).length - 1) 0 = 47) ↔ name = [] ∧ l' = [] := by
  have hlen := length_le_stem l
  have hpos := List.length_pos_of_ne_nil hl
  rcases List.eq_nil_or_concat l' with rfl | ⟨l', x, rfl⟩
  · rcases List.eq_nil_or_concat name with rfl | ⟨x, c, rfl⟩
    · refine iff_of_true ⟨?_, getD_last _ _ (stem_snoc l [])⟩ ⟨rfl, rfl⟩
      rw [stem_snoc, List.length_append, List.length_singleton]
      omega
    · refine iff_of_false (fun hend => ?_) (by simp)
      have hstem : stem (l ++ [x.concat c]) = (stem l ++ 47 :: x) ++ [c] := by
        rw [stem_snoc, List.concat_eq_append, List.append_assoc, List.cons_append]
      have hc := (getD_last (l ++ [x.concat c]) [] hstem).symm.trans hend.2
      refine (hcomps (x.concat c) (by simp)).noSlash ?_
      rw [hc, List.concat_eq_append]
      exact List.mem_append_right _ List.mem_cons_self
  · refine iff_of_false (fun hend => ?_) (by simp)
    have hx := hcomps x (by simp)
    have hcut : cut (l ++ [name]) (l'.concat x) =
        (stem (l ++ [name]) ++ l'.flatMap (0 :: ·)) ++ (0 :: (x ++ [0])) := by
      rw [cut, List.concat_eq_append, List.flatMap_append]
      simp
    have hlen : (stem (l ++ name :: l'.concat x)).length - 1 =
        (stem (l ++ [name]) ++ l'.flatMap (0 :: ·)).length + x.length := by
      rw [List.append_cons, List.concat_eq_append, ← List.append_assoc, stem_snoc, stem_append, List.length_append,
        List.length_append, List.length_append, List.length_cons, length_flatMap]
      omega
    rw [hcut, hlen, getD_append_length] at hend
    refine getD_ne (fun hmem => ?_) _ hend.2
    rcases List.mem_cons.mp hmem with hmem | hmem
    · exact absurd hmem (by decide)
    · rcases List.mem_append.mp hmem with hmem | hmem
      · exact hx.noSlash hmem
      · exact absurd (List.mem_singleton.mp hmem) (by decide)

/-- The path that a round looks up: a slash at the end is cut once more. -/
def roundKey (l : List (List UInt8)) (name : List UInt8) (l' : List (List UInt8)) : List UInt8 :=
  if name = [] ∧ l' = [] then stem l else stem (l ++ [name])

theorem descendLog_end (disk : Disk) (fuel : ℕ) (s : Dentries) (d len : ℕ) (buf buf' : List UInt8) :
    descendLog disk len fuel s d buf len = descendLog disk len fuel s d buf' len := by
  cases fuel with
  | zero => rfl
  | succ fuel => rw [descendLog, if_pos rfl, descendLog, if_pos rfl]

/-- **A round of the second loop**. -/
theorem descendLog_round (s : Dentries) (d fuel : ℕ) (hcomps : ∀ x ∈ l ++ name :: l', IsComp x) (hl : l ≠ []) :
    descendLog disk (stem (l ++ name :: l')).length (fuel + 1) s d (cut l (name :: l')) (stem l).length =
      let rest : Logged := match ext2ParseDir s disk d with
        | .error e => ([], .error e)
        | .ok s₁ =>
          if EndsDot name then
            descendLog disk (stem (l ++ [name] ++ l')).length fuel s₁
              (if EndsDots name then (s₁.dentries d).parent else d)
              (cut (l ++ [name]) l') (stem (l ++ [name])).length
          else
            match htGet s₁.table (roundKey l name l') with
            | none => ([], .error .diverges)
            | some none => ([], .ok (0, s₁))
            | some (some d') => descendLog disk (stem (l ++ [name] ++ l')).length fuel s₁ d' (cut (l ++ [name]) l')
                (stem (l ++ [name])).length
      ((s, d) :: rest.1, rest.2) := by
  have hname := hcomps name (by simp)
  have hlen : (stem l).length ≠ (stem (l ++ name :: l')).length := by
    rw [stem_append, stem_cons, List.length_append, List.length_cons]
    omega
  have hsnoc : l ++ name :: l' = l ++ [name] ++ l' := List.append_cons ..
  have hleft : ∀ x ∈ l ++ [name], IsComp x := fun x hx => hcomps x (hsnoc ▸ List.mem_append_left _ hx)
  rw [descendLog, if_neg hlen]
  dsimp only
  cases ext2ParseDir s disk d with
  | error e => rfl
  | ok s₁ =>
    dsimp only
    rw [set_cut, nextNul_cut hname]
    by_cases hdot : EndsDot name
    · rw [if_pos ((dot_iff l l' name).mpr hdot), if_pos hdot, ← hsnoc]
      by_cases hdots : EndsDots name
      · rw [if_pos ((dots_iff l l' hdot).mpr hdots), if_pos hdots]
      · rw [if_neg (mt (dots_iff l l' hdot).mp hdots), if_neg hdots]
    · rw [if_neg (mt (dot_iff l l' name).mp hdot), if_neg hdot, ← hsnoc]
      by_cases hend : name = [] ∧ l' = []
      · obtain ⟨rfl, rfl⟩ := hend
        rw [if_pos ((slash_iff hcomps hl).mpr ⟨rfl, rfl⟩), roundKey, if_pos ⟨rfl, rfl⟩]
        have hset : (cut (l ++ [[]]) []).set ((stem (l ++ [[]])).length - 1) 0 = cut l [[]] := by
          rw [← cut_set, stem_snoc, List.length_append, List.length_singleton, Nat.add_sub_cancel]
        rw [hset, cstr_cut fun x hx => hleft x (List.mem_append_left _ hx)]
        rcases htGet s₁.table (stem l) with _ | _ | d'
        · rfl
        · rfl
        · dsimp only
          rw [descendLog_end disk fuel s₁ d' _ (cut l [[]]) (cut (l ++ [[]]) [])]
      · rw [if_neg (mt (slash_iff hcomps hl).mp hend), roundKey, if_neg hend, cstr_cut hleft]

theorem descend_round (s : Dentries) (d fuel : ℕ) (hcomps : ∀ x ∈ l ++ name :: l', IsComp x) (hl : l ≠ []) :
    descend disk (stem (l ++ name :: l')).length (fuel + 1) s d (cut l (name :: l')) (stem l).length =
      ext2ParseDir s disk d >>= fun s₁ =>
        if EndsDot name then
          descend disk (stem (l ++ [name] ++ l')).length fuel s₁ (if EndsDots name then (s₁.dentries d).parent else d)
            (cut (l ++ [name]) l') (stem (l ++ [name])).length
        else
          match htGet s₁.table (roundKey l name l') with
          | none => .error .diverges
          | some none => .ok (0, s₁)
          | some (some d') => descend disk (stem (l ++ [name] ++ l')).length fuel s₁ d' (cut (l ++ [name]) l')
              (stem (l ++ [name])).length := by
  rw [← descendLog_result, descendLog_round s d fuel hcomps hl]
  cases ext2ParseDir s disk d with
  | error e => rfl
  | ok s₁ =>
    rw [ok_bind]
    dsimp only
    by_cases hdot : EndsDot name
    · rw [if_pos hdot, if_pos hdot]
      exact descendLog_result
    · rw [if_neg hdot, if_neg hdot]
      rcases htGet s₁.table (roundKey l name l') with _ | _ | d'
      · rfl
      · rfl
      · exact descendLog_result

/-! ## Where the second loop starts -/

/-- The path without a slash at its end. -/
def trimmed (comps : List (List UInt8)) : List (List UInt8) :=
  if comps.getLast? = some [] ∧ comps.length ≠ 1 then comps.dropLast else comps

/-- **The longest path that the table has**: `l`, with the dentry `d`; the second loop starts there. -/
structure Starts (s : Dentries) (comps l rest : List (List UInt8)) (d : ℕ) : Prop where
  split : comps = l ++ rest
  proper : rest ≠ [] ∧ rest ≠ [[]]
  cached : htGet s.table (stem l) = some (some d)
  ahead : ∀ l₁ name l₂, rest = l₁ ++ name :: l₂ → ¬ (name = [] ∧ l₂ = []) →
    htGet s.table (stem (l ++ l₁ ++ [name])) = some none

theorem Starts.unique {l' rest rest' : List (List UInt8)} {d d' : ℕ} (h : Starts s comps l rest d)
    (h' : Starts s comps l' rest' d') : l = l' ∧ rest = rest' ∧ d = d' := by
  -- the shorter one has the other one ahead of it
  have hshort : ∀ {l l' rest rest' : List (List UInt8)} {d d' : ℕ}, Starts s comps l rest d →
      Starts s comps l' rest' d' → ∀ x, l' = l ++ x → rest = x ++ rest' → x = [] := by
    intro l l' rest rest' d d' h h' x hl hrest
    rcases List.eq_nil_or_concat x with hx | ⟨y, name, rfl⟩
    · exact hx
    · rw [List.concat_eq_append] at hl hrest
      have hnone := h.ahead y name rest' (by rw [hrest, List.append_assoc]; rfl) fun hend => h'.proper.1 hend.2
      rw [List.append_assoc, ← hl, h'.cached] at hnone
      cases hnone
  have hsplit : l ++ rest = l' ++ rest' := h.split.symm.trans h'.split
  rcases List.append_eq_append_iff.mp hsplit with ⟨x, hl, hrest⟩ | ⟨x, hl, hrest⟩
  · obtain rfl := hshort h h' x hl hrest
    rw [List.append_nil] at hl
    subst hl
    exact ⟨rfl, List.append_cancel_left hsplit, Option.some.inj (Option.some.inj (h.cached.symm.trans h'.cached))⟩
  · obtain rfl := hshort h' h x hl hrest
    rw [List.append_nil] at hl
    subst hl
    exact ⟨rfl, List.append_cancel_left hsplit, Option.some.inj (Option.some.inj (h.cached.symm.trans h'.cached))⟩

theorem trimmed_concat (hl : l ≠ []) : trimmed (l ++ [[]]) = l := by
  rw [trimmed, if_pos, List.dropLast_concat]
  refine ⟨List.getLast?_concat .., fun hlen => ?_⟩
  rw [List.length_append, List.length_singleton, Nat.add_eq_right] at hlen
  exact hl (List.length_eq_zero_iff.mp hlen)

theorem trimmed_of_ne (h : comps.getLast? ≠ some []) : trimmed comps = comps := if_neg fun hend => h hend.1

/-- **The path is not in the table** if the second loop starts. -/
theorem Starts.missed {rest : List (List UInt8)} (h : Starts s comps l rest d) (hl : l ≠ []) :
    htGet s.table (stem (trimmed comps)) = some none := by
  obtain ⟨rfl, ⟨hne, hend⟩, -, hahead⟩ := h
  rcases List.eq_nil_or_concat rest with hnil | ⟨x, name, rfl⟩
  · exact absurd hnil hne
  · rw [List.concat_eq_append] at hend hahead ⊢
    rw [← List.append_assoc]
    by_cases hname : name = []
    · subst hname
      rw [trimmed_concat (by simp [hl])]
      rcases List.eq_nil_or_concat x with hx | ⟨y, name, rfl⟩
      · subst hx
        exact absurd rfl hend
      · rw [List.concat_eq_append, ← List.append_assoc]
        exact hahead y name [[]] (by simp) fun hend => List.cons_ne_nil _ _ hend.2
    · rw [trimmed_of_ne (by simpa using hname)]
      exact hahead x name [] rfl fun hend => hname hend.1

/-- The first loop of `dir_iter_get` passes over a slash that `dir_get` cut. -/
theorem prefixLoop_slash (s : Dentries) (fuel : ℕ) (hl : l ≠ []) :
    prefixLoop s (fuel + 1) (cut l [[]]) ((stem l).length + 1) =
      prefixLoop s (fuel + 1) (cut l [[]]) (stem l).length := by
  have hpos : (stem l).length ≠ 0 := fun h₀ => hl (stem_eq_nil (List.length_eq_zero_iff.mp h₀))
  have hback : slashBefore (cut l [[]]) ((stem l).length + 1) = slashBefore (cut l [[]]) (stem l).length := by
    rw [slashBefore, if_neg]
    rw [cut, getD_append_length]
    decide
  rw [prefixLoop, prefixLoop, if_neg (Nat.succ_ne_zero _), if_neg hpos, hback]

/-- The two cases of the first loop; `tail` is the slash that `dir_get` cut. -/
theorem starts_cases (hget : ∀ k, htGet s.table k = some (m k)) (hempty : m [] = none)
    {target tail : List (List UInt8)} (hcomps : ∀ name ∈ target, IsComp name)
    (htail : tail = [] ∧ (target.getLast? = some [] → target.length = 1) ∨ tail = [[]])
    (hmiss : m (stem target) = none) {fuel : ℕ} (hfuel : target.length < fuel) :
    (∃ b len, prefixLoop s fuel (cut target tail) (stem target).length = .ok (0, b, len) ∧
        (∀ l l', target = l ++ l' → m (stem l) = none) ∧ ∀ l rest d, ¬ Starts s (target ++ tail) l rest d) ∨
      ∃ l rest d, l ≠ [] ∧ Starts s (target ++ tail) l rest d ∧
        prefixLoop s fuel (cut target tail) (stem target).length = .ok (d, cut l rest, (stem l).length) := by
  have hlen : (target ++ tail).length = target.length + tail.length := List.length_append
  rcases prefixLoop_cut hget hcomps tail hfuel with ⟨b, len, hok, hnone⟩ | ⟨l, name, rest, d, rfl, hd, hok, hnone⟩
  · have hall : ∀ l l', target = l ++ l' → m (stem l) = none := by
      intro l l' hsplit
      have hl : l = target.take l.length := by rw [hsplit, List.take_left]
      rcases Nat.lt_or_ge l.length target.length with hlt | hge
      · rw [hl, hnone _ hlt]
      · rw [hl, List.take_of_length_le hge, hmiss]
    refine .inl ⟨b, len, hok, hall, fun l rest d h => ?_⟩
    have hl : l = (target ++ tail).take l.length := by rw [h.split, List.take_left]
    have hlt : l.length ≤ target.length := by
      have hrest := List.length_pos_of_ne_nil h.proper.1
      rw [h.split, List.length_append] at hlen
      rcases htail with ⟨rfl, -⟩ | rfl <;> simp only [List.length_nil, List.length_singleton] at hlen <;> omega
    rw [List.take_append_of_le_length hlt] at hl
    have hcached := (hget _).symm.trans h.cached
    have hdrop : target = l ++ target.drop l.length :=
      (List.take_append_drop l.length target).symm.trans (congrArg (· ++ target.drop l.length) hl.symm)
    rw [hall l _ hdrop] at hcached
    cases hcached
  · have hne : l ≠ [] := by
      rintro rfl
      cases hd.symm.trans hempty
    refine .inr ⟨l, name :: rest ++ tail, d, hne, ⟨List.append_assoc .., ⟨by simp, fun hend => ?_⟩, ?_, ?_⟩, hok⟩
    · rcases htail with ⟨rfl, hone⟩ | rfl
      · rw [List.append_nil] at hend
        rw [hend, List.getLast?_concat, List.length_append, List.length_singleton] at hone
        exact hne (List.length_eq_zero_iff.mp (Nat.succ.inj (hone rfl)))
      · simp at hend
    · rw [hget, hd]
    · intro l₁ x l₂ hx hend
      have htake : l ++ l₁ ++ [x] = (l ++ name :: rest ++ tail).take (l ++ l₁ ++ [x]).length := by
        have hall : l ++ name :: rest ++ tail = l ++ l₁ ++ [x] ++ l₂ := by
          rw [List.append_assoc, hx]
          simp
        rw [hall, List.take_left]
      have hlt : (l ++ l₁ ++ [x]).length ≤ (l ++ name :: rest).length := by
        by_contra hge
        refine hend ?_
        rcases htail with ⟨rfl, -⟩ | rfl
        · have hle := congrArg List.length hx
          simp only [List.length_append, List.length_cons, List.length_nil] at hle hge
          omega
        · have hle := congrArg List.length hx
          simp only [List.length_append, List.length_cons, List.length_nil] at hle hge
          obtain rfl : l₂ = [] := List.length_eq_zero_iff.mp (by omega)
          exact ⟨(List.singleton_inj.mp (List.append_inj' hx rfl).2).symm, rfl⟩
      rw [hget, htake, List.take_append_of_le_length hlt]
      rcases Nat.lt_or_ge (l ++ l₁ ++ [x]).length (l ++ name :: rest).length with hlt' | hge
      · rw [hnone _ hlt' (by simp)]
      · rw [List.take_of_length_le hge, hmiss]

theorem dirGetLog_trimmed (disk : Disk) (hpath : absPath s name = stem comps) (hcomps : ∀ x ∈ comps, IsComp x)
    (hne : comps ≠ []) :
    ∃ tail, comps = trimmed comps ++ tail ∧
      (tail = [] ∧ ((trimmed comps).getLast? = some [] → (trimmed comps).length = 1) ∨ tail = [[]]) ∧
      dirGetLog s disk name = match htGet s.table (stem (trimmed comps)) with
        | none => ([], .error .diverges)
        | some (some dentry) => ([], dirGetHit s dentry)
        | some none => dirIterGetLog s disk (cut (trimmed comps) tail) (stem comps).length := by
  rw [dirGetLog, hpath]
  rcases List.eq_nil_or_concat comps with hnil | ⟨l, x, rfl⟩
  · exact absurd hnil hne
  rw [List.concat_eq_append] at hcomps ⊢
  by_cases hx : x = [] ∧ l ≠ []
  · obtain ⟨rfl, hl⟩ := hx
    have hstem : stem (l ++ [[]]) = stem l ++ [47] := stem_snoc l []
    have hlen : (stem (l ++ [[]])).length = (stem l).length + 1 := by
      rw [hstem, List.length_append, List.length_singleton]
    have hpos : 0 < (stem l).length := Nat.pos_of_ne_zero fun h₀ => hl (stem_eq_nil (List.length_eq_zero_iff.mp h₀))
    have hslash : 1 < (stem (l ++ [[]])).length ∧ (stem (l ++ [[]])).getD ((stem (l ++ [[]])).length - 1) 0 = 47 := by
      refine ⟨by omega, ?_⟩
      rw [hlen, Nat.add_sub_cancel, hstem]
      exact getD_append_length (stem l) [47] 0
    refine ⟨[[]], by rw [trimmed_concat hl], .inr rfl, ?_⟩
    rw [trimmed_concat hl, if_pos hslash, hlen, Nat.add_sub_cancel, hstem, List.take_left]
    have hcount : (stem l).length + 1 + 1 - (stem l).length = 2 := by omega
    rw [hcount]
    rfl
  · have htrim : trimmed (l ++ [x]) = l ++ [x] := if_neg fun hend => hx ?_
    · have hslash : ¬ (1 < (stem (l ++ [x])).length ∧
          (stem (l ++ [x])).getD ((stem (l ++ [x])).length - 1) 0 = 47) := by
        rintro ⟨hlen, hlast⟩
        rcases List.eq_nil_or_concat x with rfl | ⟨y, c, rfl⟩
        · obtain rfl : l = [] := not_not.mp fun hl => hx ⟨rfl, hl⟩
          exact absurd hlen (by decide)
        · have hstem : stem (l ++ [y.concat c]) = (stem l ++ 47 :: y) ++ [c] := by
            rw [stem_snoc, List.concat_eq_append, List.append_assoc, List.cons_append]
          have hc := getD_last (l ++ [y.concat c]) [] hstem
          rw [getD_cut_left _ _ (by omega), hlast] at hc
          refine (hcomps (y.concat c) (by simp)).noSlash ?_
          rw [hc, List.concat_eq_append]
          exact List.mem_append_right _ List.mem_cons_self
      refine ⟨[], by rw [htrim, List.append_nil], .inl ⟨rfl, fun hend => ?_⟩, ?_⟩
      · rw [htrim] at hend ⊢
        rw [List.getLast?_concat, Option.some.injEq] at hend
        obtain rfl : l = [] := not_not.mp fun hl => hx ⟨hend, hl⟩
        rfl
      · rw [htrim, if_neg hslash, Nat.add_sub_cancel_left]
        rfl
    · rw [List.getLast?_concat, Option.some.injEq] at hend
      refine ⟨hend.1, ?_⟩
      rintro rfl
      exact hend.2 rfl

/-- **The three cases of `dir_get`**: the path is in the table; nothing on it is; or the second loop starts. -/
theorem dirGetLog_cases (hget : ∀ k, htGet s.table k = some (m k)) (hempty : m [] = none) (hpos : ∀ k, m k ≠ some 0)
    (hpath : absPath s name = stem comps) (hcomps : ∀ x ∈ comps, IsComp x) (hne : comps ≠ []) :
    (∃ d, m (stem (trimmed comps)) = some d ∧ dirGetLog s disk name = ([], dirGetHit s d)) ∨
      m (stem (trimmed comps)) = none ∧ ((∀ l l', trimmed comps = l ++ l' → m (stem l) = none) ∧
          (∀ l rest d, ¬ Starts s comps l rest d) ∧ dirGetLog s disk name = ([], .ok (0, s)) ∨
        ∃ l rest d, l ≠ [] ∧ Starts s comps l rest d ∧ dirGetLog s disk name =
          descendLog disk (stem comps).length ((stem comps).length + 1) s d (cut l rest) (stem l).length) := by
  obtain ⟨tail, hsplit, htail, hlog⟩ := dirGetLog_trimmed disk hpath hcomps hne
  rw [hget] at hlog
  cases hm : m (stem (trimmed comps)) with
  | some d =>
    rw [hm] at hlog
    exact .inl ⟨d, rfl, hlog⟩
  | none =>
    rw [hm] at hlog
    refine .inr ⟨rfl, ?_⟩
    have htarget : ∀ x ∈ trimmed comps, IsComp x := fun x hx => hcomps x (hsplit ▸ List.mem_append_left _ hx)
    have hfuel : (trimmed comps).length < (stem comps).length + 1 := by
      have hle := length_le_stem comps
      have hlen := congrArg List.length hsplit
      rw [List.length_append] at hlen
      omega
    have hloop : prefixLoop s ((stem comps).length + 1) (cut (trimmed comps) tail) (stem comps).length =
        prefixLoop s ((stem comps).length + 1) (cut (trimmed comps) tail) (stem (trimmed comps)).length := by
      rcases htail with ⟨rfl, -⟩ | rfl
      · rw [List.append_nil] at hsplit
        rw [← hsplit]
      · have hlen : (stem comps).length = (stem (trimmed comps)).length + 1 := by
          rw [congrArg stem hsplit, stem_snoc, List.length_append, List.length_singleton]
        rw [hlen]
        refine prefixLoop_slash s _ fun hnil => ?_
        rw [hnil] at hsplit
        subst hsplit
        exact absurd hnil (by decide)
    dsimp only at hlog
    rw [hlog, dirIterGetLog, hloop]
    rcases starts_cases hget hempty htarget htail hm hfuel
      with ⟨b, len, hok, hall, hnone⟩ | ⟨l, rest, d, hl, hstart, hok⟩
    · rw [hok]
      rw [← hsplit] at hnone
      exact .inl ⟨hall, hnone, rfl⟩
    · rw [hok]
      rw [← hsplit] at hstart
      refine .inr ⟨l, rest, d, hl, hstart, if_neg ?_⟩
      rintro rfl
      exact hpos _ (Option.some.inj ((hget _).symm.trans hstart.cached))

end BulbOS.Dentry
