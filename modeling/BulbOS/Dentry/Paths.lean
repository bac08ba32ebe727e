import BulbOS.Dentry.Tree
import Mathlib.Data.List.TakeWhile

/-!
# The names of a path

A path without repeated or trailing slashes is given by its names. `Disk.lookup` follows them on the disk, from the root
on, and knows nothing of dentries.

* `stem`, `pathOf`: from names to paths; `stem_split`: where the slashes of a path are;
* `Disk.lookup`: the inode that the names lead to; **`Leads.lookup_eq`**: the only one that their path leads to;
* `cut`: the buffer of `dir_iter_get`; `slashBefore_append`, `nextNul_append`: its loops go from slash to slash.
-/

namespace BulbOS.Dentry

open KLib BulbOS.Table BulbOS.Inode

variable {disk : Disk} {names l l' : List (List UInt8)} {name p : List UInt8} {n : ℕ}

/-! ## Names -/

/-- The name of an entry. -/
structure IsName (name : List UInt8) : Prop where
  nonempty : name ≠ []
  noSlash : 47 ∉ name
  noNul : 0 ∉ name

/-- What can stand between two slashes. -/
structure IsComp (name : List UInt8) : Prop where
  noSlash : 47 ∉ name
  noNul : 0 ∉ name

theorem IsName.comp (h : IsName name) : IsComp name := ⟨h.noSlash, h.noNul⟩

/-- A slash before every name. -/
def stem (names : List (List UInt8)) : List UInt8 := names.flatMap (47 :: ·)

def pathOf (names : List (List UInt8)) : List UInt8 := if names = [] then [47] else stem names

theorem stem_cons (name : List UInt8) (l : List (List UInt8)) : stem (name :: l) = 47 :: (name ++ stem l) :=
  List.flatMap_cons ..

theorem stem_append (l l' : List (List UInt8)) : stem (l ++ l') = stem l ++ stem l' := List.flatMap_append ..

theorem stem_snoc (l : List (List UInt8)) (name : List UInt8) : stem (l ++ [name]) = stem l ++ 47 :: name := by
  rw [stem_append, stem_cons]
  exact congrArg (fun y => stem l ++ 47 :: y) (List.append_nil name)

theorem stem_eq_nil (h : stem l = []) : l = [] := by
  cases l with
  | nil => rfl
  | cons name l => cases stem_cons name l ▸ h

theorem length_le_stem (l : List (List UInt8)) : l.length ≤ (stem l).length := by
  induction l with
  | nil => exact le_rfl
  | cons name l ih =>
    rw [stem_cons, List.length_cons, List.length_cons, List.length_append]
    omega

theorem pathOf_of_ne (h : l ≠ []) : pathOf l = stem l := if_neg h

theorem zero_notMem_stem (hl : ∀ name ∈ l, IsComp name) : 0 ∉ stem l := by
  intro h
  obtain ⟨name, hname, h⟩ := List.mem_flatMap.mp h
  rcases List.mem_cons.mp h with h | h
  · cases h
  · exact (hl name hname).noNul h

theorem getLast_stem (hl : ∀ name ∈ l, IsName name) : (stem l).getLast? ≠ some 47 := by
  rcases List.eq_nil_or_concat l with rfl | ⟨l, name, rfl⟩
  · exact fun h => by cases h
  · have hname := hl name (by simp)
    rw [List.concat_eq_append, stem_snoc, List.append_cons, List.getLast?_append_of_ne_nil _ hname.nonempty]
    exact fun h => hname.noSlash (List.mem_of_getLast? h)

/-- **The slashes of a path** are before its names. -/
theorem stem_split {a y : List UInt8} (hl : ∀ name ∈ l, IsName name) (h : stem l = a ++ 47 :: y) :
    ∃ l₁ name l₂, l = l₁ ++ name :: l₂ ∧ a = stem l₁ ∧ y = name ++ stem l₂ := by
  induction l generalizing a with
  | nil => simp [stem] at h
  | cons name l ih =>
    rw [stem_cons] at h
    cases a with
    | nil =>
      rw [List.nil_append, List.cons.injEq] at h
      exact ⟨[], name, l, rfl, rfl, h.2.symm⟩
    | cons c a =>
      rw [List.cons_append, List.cons.injEq] at h
      obtain ⟨rfl, h⟩ := h
      -- no slash is inside the first name
      rcases List.append_eq_append_iff.mp h with ⟨a', rfl, h'⟩ | ⟨a', hname, h⟩
      · obtain ⟨l₁, name', l₂, rfl, rfl, hy⟩ := ih (fun name hn => hl name (List.mem_cons_of_mem _ hn)) h'
        exact ⟨name :: l₁, name', l₂, rfl, by rw [stem_cons], hy⟩
      · cases a' with
        | nil =>
          rw [List.append_nil] at hname
          rw [List.nil_append] at h
          obtain ⟨l₁, name', l₂, rfl, ha, hy⟩ := ih (a := [])
            (fun name hn => hl name (List.mem_cons_of_mem _ hn)) h.symm
          exact ⟨name :: l₁, name', l₂, rfl, by rw [stem_cons, ← ha, hname, List.append_nil], hy⟩
        | cons c a' =>
          rw [List.cons_append, List.cons.injEq] at h
          refine absurd ?_ (hl name List.mem_cons_self).noSlash
          rw [hname, h.1]
          simp

theorem takeWhile_noNul {a : List UInt8} (h : 0 ∉ a) : a.takeWhile (· ≠ 0) = a :=
  List.takeWhile_eq_self_iff.mpr fun _ hc => decide_eq_true fun e => h (e ▸ hc)

theorem entryPath_pathOf (hl : ∀ name ∈ l, IsName name) (hname : IsName name) :
    entryPath (pathOf l) name = pathOf (l ++ [name]) := by
  have hstem : 0 ∉ stem l ++ 47 :: name := by
    rw [← stem_snoc]
    exact zero_notMem_stem fun x hx => (List.forall_mem_append.mpr ⟨hl, List.forall_mem_singleton.mpr hname⟩ x hx).comp
  rw [pathOf_of_ne (l := l ++ [name]) (by simp), stem_snoc, ← takeWhile_noNul hstem]
  unfold entryPath sumPath pathOf
  by_cases hnil : l = []
  · subst hnil
    rfl
  · rw [if_neg hnil, if_neg (getLast_stem hl), List.append_assoc]
    rfl

/-! ## The tree -/

/-- The inode of an entry. -/
def Disk.child (disk : Disk) (n : ℕ) (name : List UInt8) : Option ℕ :=
  ((disk.entries 0 n).bind (·.find? (·.name = name))).map (·.inode)

/-- **The inode that the names lead to**. -/
def Disk.lookup (disk : Disk) (names : List (List UInt8)) : Option ℕ := names.foldlM disk.child ext2RootInode

/-- The inode reads as a directory: its entries have names, and a name is of one inode. -/
structure Directory (disk : Disk) (n : ℕ) : Prop where
  isName : ∀ es, disk.entries 0 n = some es → ∀ e ∈ es, IsName e.name
  unique : ∀ es, disk.entries 0 n = some es → ∀ e ∈ es, ∀ e' ∈ es, e.name = e'.name → e.inode = e'.inode

/-- The names lead through directories. -/
def Through (disk : Disk) (names : List (List UInt8)) : Prop :=
  ∀ l name l', names = l ++ name :: l' → ∀ n, disk.lookup l = some n → Directory disk n

theorem lookup_snoc (l : List (List UInt8)) (name : List UInt8) :
    disk.lookup (l ++ [name]) = (disk.lookup l).bind (disk.child · name) := by
  unfold Disk.lookup
  rw [List.foldlM_append]
  refine congrArg _ (funext fun n => ?_)
  rw [List.foldlM_cons]
  exact bind_pure _

theorem child_mem {k : ℕ} (h : disk.child n name = some k) :
    ∃ es e, disk.entries 0 n = some es ∧ e ∈ es ∧ e.name = name ∧ e.inode = k := by
  obtain ⟨e, he, rfl⟩ := Option.map_eq_some_iff.mp h
  obtain ⟨es, hes, he⟩ := Option.bind_eq_some_iff.mp he
  have hname := List.find?_some he
  exact ⟨es, e, hes, List.mem_of_find?_eq_some he, of_decide_eq_true hname, rfl⟩

theorem Directory.child {es : List Entry} {e : Entry} (h : Directory disk n) (hes : disk.entries 0 n = some es)
    (he : e ∈ es) : disk.child n e.name = some e.inode := by
  unfold Disk.child
  rw [hes, Option.bind_some]
  obtain ⟨e', he'⟩ : ∃ e', es.find? (·.name = e.name) = some e' := by
    rw [← Option.isSome_iff_exists, List.find?_isSome]
    exact ⟨e, he, decide_eq_true rfl⟩
  have hname := List.find?_some he'
  rw [he', Option.map_some, h.unique es hes e' (List.mem_of_find?_eq_some he') e he (of_decide_eq_true hname)]

/-- The path of an entry: a slash is added, unless the path ends with one. -/
theorem entryPath_split (hp : 0 ∉ p) (name : List UInt8) :
    ∃ a, entryPath p name = a ++ 47 :: name.takeWhile (· ≠ 0) ∧ (p = a ∨ p = a ++ [47]) := by
  have hcut : ∀ a : List UInt8, 0 ∉ a → (a ++ 47 :: name).takeWhile (· ≠ 0) = a ++ 47 :: name.takeWhile (· ≠ 0) := by
    intro a ha
    have hpos : ∀ c ∈ a, decide (c ≠ 0) = true := fun c hc => decide_eq_true fun e => ha (e ▸ hc)
    rw [List.takeWhile_append_of_pos hpos]
    rfl
  unfold entryPath sumPath
  by_cases hlast : p.getLast? = some 47
  · obtain ⟨a, rfl⟩ := List.getLast?_eq_some_iff.mp hlast
    refine ⟨a, ?_, .inr rfl⟩
    rw [if_pos hlast, List.append_assoc]
    exact hcut a fun h => hp (List.mem_append_left _ h)
  · refine ⟨p, ?_, .inl rfl⟩
    rw [if_neg hlast, List.append_assoc]
    exact hcut p hp

theorem Leads.wellFormed (h : Leads disk p n) : p ≠ [] ∧ 0 ∉ p := by
  induction h with
  | root => decide
  | @entry p n es e h hes he hdot ih =>
    refine ⟨fun hnil => ?_, fun h₀ => ?_⟩
    · obtain ⟨a, ha, -⟩ := entryPath_split ih.2 e.name
      rw [show entryPath p e.name = [] from hnil] at ha
      simp at ha
    · have hne := List.mem_takeWhile_imp h₀
      exact of_decide_eq_true hne rfl

theorem Through.left (h : Through disk (l ++ l')) : Through disk l :=
  fun l₁ name l₂ hl n hn => h l₁ name (l₂ ++ l') (by rw [hl, List.append_assoc, List.cons_append]) n hn

/-- What is known of the inode of a path: it is the one of the names, and no path ends with one slash more. -/
def Known (disk : Disk) (p : List UInt8) (n : ℕ) (l : List (List UInt8)) : Prop :=
  (p = pathOf l → disk.lookup l = some n) ∧
    (l ≠ [] → (∀ k, disk.lookup l = some k → Directory disk k) → p ≠ stem l ++ [47])

theorem Known.lookup_eq (h : Known disk p n l) (hp : p ≠ []) (hcase : p = stem l ∨ p = stem l ++ [47])
    (hdir : ∀ k, disk.lookup l = some k → Directory disk k) : disk.lookup l = some n := by
  refine h.1 ?_
  by_cases hl : l = []
  · subst hl
    exact hcase.resolve_left hp
  · rw [pathOf_of_ne hl]
    exact hcase.resolve_right (h.2 hl hdir)

/-- **The inode of a path** is the one that its names lead to. -/
theorem Leads.known (h : Leads disk p n) (hroot : Directory disk ext2RootInode) (hl : ∀ name ∈ l, IsName name)
    (hthrough : Through disk l) : Known disk p n l := by
  induction h generalizing l with
  | root =>
    refine ⟨fun hp => ?_, fun hne _ hp => ?_⟩
    · cases l with
      | nil => rfl
      | cons name l =>
        rw [pathOf_of_ne (List.cons_ne_nil _ _), stem_cons, List.cons.injEq] at hp
        exact absurd (List.append_eq_nil_iff.mp hp.2.symm).1 (hl name List.mem_cons_self).nonempty
    · have hp' : [] ++ [47] = stem l ++ [47] := hp
      exact hne (stem_eq_nil (List.append_cancel_right hp').symm)
  | @entry p n es e h hes he hdot ih =>
    obtain ⟨hne, hnul⟩ := h.wellFormed
    obtain ⟨a, ha, hcase⟩ := entryPath_split hnul e.name
    -- if the directory is at `l₁`, then it is what these names lead to, and the name of the entry is one
    have hdir : ∀ l₁, (∀ name ∈ l₁, IsName name) → Through disk l₁ → a = stem l₁ →
        (∀ k, disk.lookup l₁ = some k → Directory disk k) →
        disk.lookup l₁ = some n ∧ Directory disk n ∧ IsName e.name ∧ e.name.takeWhile (· ≠ 0) = e.name := by
      intro l₁ hl₁ ht₁ hstem hself
      have hlookup := (ih hl₁ ht₁).lookup_eq hne (hstem ▸ hcase) hself
      have hname := (hself n hlookup).isName es hes e he
      exact ⟨hlookup, hself n hlookup, hname, takeWhile_noNul hname.noNul⟩
    change Known disk (entryPath p e.name) e.inode l
    rw [ha]
    have hsplit : ∀ y, stem l = a ++ 47 :: y → ∃ l₁ name l₂, l = l₁ ++ name :: l₂ ∧ y = name ++ stem l₂ ∧
        disk.lookup l₁ = some n ∧ Directory disk n ∧ IsName e.name ∧ e.name.takeWhile (· ≠ 0) = e.name := by
      intro y hy
      obtain ⟨l₁, name, l₂, rfl, hstem, hy⟩ := stem_split hl hy
      refine ⟨l₁, name, l₂, rfl, hy, hdir l₁ (fun x hx => hl x (List.mem_append_left _ hx)) hthrough.left hstem ?_⟩
      exact hthrough l₁ name l₂ rfl
    refine ⟨fun hp => ?_, fun hnil hself hp => ?_⟩
    · by_cases hnil : l = []
      · subst hnil
        obtain ⟨ha', htake⟩ : a = [] ∧ e.name.takeWhile (· ≠ 0) = [] := by
          cases a with
          | nil => exact ⟨rfl, (List.cons.inj hp).2⟩
          | cons c a => simp [pathOf] at hp
        obtain ⟨-, -, hname, hname'⟩ := hdir [] (by simp) hthrough ha' fun k hk => by
          cases hk
          exact hroot
        exact absurd (hname'.symm.trans htake) hname.nonempty
      · rw [pathOf_of_ne hnil] at hp
        obtain ⟨l₁, name, l₂, rfl, hy, hlookup, hdirectory, hname, hname'⟩ := hsplit _ hp.symm
        rw [hname'] at hy
        obtain rfl : l₂ = [] := by
          cases l₂ with
          | nil => rfl
          | cons x l₂ =>
            rw [stem_cons] at hy
            exact absurd (hy ▸ by simp) hname.noSlash
        obtain rfl : e.name = name := hy.trans (List.append_nil name)
        rw [lookup_snoc, hlookup]
        exact hdirectory.child hes he
    · rcases List.eq_nil_or_concat (e.name.takeWhile (· ≠ 0)) with htake | ⟨y, c, htake⟩
      · rw [htake] at hp
        obtain ⟨-, -, hname, hname'⟩ := hdir l hl hthrough (List.append_cancel_right hp) hself
        exact absurd (hname'.symm.trans htake) hname.nonempty
      · rw [htake, List.concat_eq_append, ← List.cons_append, ← List.append_assoc] at hp
        obtain ⟨hstem, hc⟩ := List.append_inj' hp rfl
        obtain ⟨-, -, -, -, -, -, -, hname, hname'⟩ := hsplit y hstem.symm
        rw [hname', List.concat_eq_append] at htake
        refine hname.noSlash ?_
        rw [htake, hc]
        simp

/-! ## The buffer -/

/-- The buffer of `dir_iter_get`: the slashes before `l'` are cut. -/
def cut (l l' : List (List UInt8)) : List UInt8 := stem l ++ (l'.flatMap (0 :: ·) ++ [0])

theorem cut_snoc (l l' : List (List UInt8)) (name : List UInt8) :
    cut (l ++ [name]) l' = stem l ++ 47 :: (name ++ (l'.flatMap (0 :: ·) ++ [0])) := by
  rw [cut, stem_snoc, List.append_assoc]
  rfl

theorem cut_cons (l l' : List (List UInt8)) (name : List UInt8) :
    cut l (name :: l') = stem l ++ 0 :: (name ++ (l'.flatMap (0 :: ·) ++ [0])) := by
  rw [cut, List.flatMap_cons, List.append_assoc]
  rfl

theorem set_append (a y : List UInt8) (c c' : UInt8) : (a ++ c :: y).set a.length c' = a ++ c' :: y := by
  rw [List.set_append_right _ _ le_rfl, Nat.sub_self, List.set_cons_zero]

theorem cut_set (l l' : List (List UInt8)) (name : List UInt8) :
    (cut (l ++ [name]) l').set (stem l).length 0 = cut l (name :: l') := by
  rw [cut_snoc, cut_cons, set_append]

theorem set_cut (l l' : List (List UInt8)) (name : List UInt8) :
    (cut l (name :: l')).set (stem l).length 47 = cut (l ++ [name]) l' := by
  rw [cut_snoc, cut_cons, set_append]

theorem cstr_cut (hl : ∀ name ∈ l, IsComp name) (l' : List (List UInt8)) : cstr (cut l l') = stem l := by
  have hpos : ∀ c ∈ stem l, decide (c ≠ 0) = true := fun c hc => decide_eq_true fun e => zero_notMem_stem hl (e ▸ hc)
  have hstop : (l'.flatMap (0 :: ·) ++ [0]).takeWhile (fun c : UInt8 => decide (c ≠ 0)) = [] := by
    cases l' with
    | nil => rfl
    | cons name l' => rfl
  rw [cstr, cut, List.takeWhile_append_of_pos hpos, hstop, List.append_nil]

theorem getD_append_length (a y : List UInt8) (i : ℕ) : (a ++ y).getD (a.length + i) 0 = y.getD i 0 := by
  rw [List.getD_append_right _ _ _ _ (Nat.le_add_right ..), Nat.add_sub_cancel_left]

/-- **`slashBefore`** goes back to the slash before a name. -/
theorem slashBefore_append {a y : List UInt8} {i : ℕ} (h : ∀ j < i, y.getD j 0 ≠ 47) :
    slashBefore (a ++ 47 :: y) (a.length + i) = a.length := by
  induction i with
  | zero =>
    cases a with
    | nil => rfl
    | cons c a =>
      rw [Nat.add_zero, List.length_cons, slashBefore, if_pos]
      exact getD_append_length (c :: a) (47 :: y) 0
  | succ i ih =>
    rw [← Nat.add_assoc, slashBefore, Nat.add_assoc, getD_append_length, if_neg]
    · exact ih fun j hj => h j (Nat.lt_succ_of_lt hj)
    · exact h i (Nat.lt_succ_self i)

/-- **`nextNul`** goes on to the end of a name. -/
theorem nextNul_append {a y z : List UInt8} {origLen fuel : ℕ} (hy : 0 ∉ y) (hlen : a.length + y.length ≤ origLen)
    (hz : a.length + y.length = origLen ∨ z.getD 0 0 = 0) (hfuel : y.length ≤ fuel) :
    nextNul (a ++ (y ++ z)) origLen fuel a.length = a.length + y.length := by
  induction y generalizing a fuel with
  | nil =>
    cases fuel with
    | zero => rfl
    | succ fuel =>
      rw [nextNul, if_neg]
      · rfl
      · rintro ⟨hne, hc⟩
        rcases hz with hz | hz
        · exact hne hz
        · exact hc ((getD_append_length a z 0).trans hz)
  | cons c y ih =>
    rw [List.mem_cons, not_or] at hy
    obtain ⟨hc, hy⟩ := hy
    rw [List.length_cons] at hlen hz hfuel ⊢
    obtain ⟨fuel, rfl⟩ : ∃ f, fuel = f + 1 := ⟨fuel - 1, by omega⟩
    have hlen' : (a ++ [c]).length = a.length + 1 := List.length_append ..
    have hnext : nextNul (a ++ [c] ++ (y ++ z)) origLen fuel (a ++ [c]).length = (a ++ [c]).length + y.length :=
      ih hy (by omega) (hz.imp (fun h => by omega) id) (by omega)
    rw [nextNul, if_pos]
    · rw [hlen', List.append_assoc] at hnext
      rw [show a.length + (y.length + 1) = a.length + 1 + y.length by omega]
      exact hnext
    · exact ⟨by omega, fun e => hc ((getD_append_length a (c :: y ++ z) 0).symm.trans e).symm⟩

end BulbOS.Dentry
