import BulbOS.Dentry.Rounds

/-!
# Lookups and the cache

Two caches over the same disk, and the same path looked up in both. The first loop of `dir_iter_get` cuts the path at
its first slash too, and then looks up the empty string and not the root: an entry of the root that was evicted is not
found any more, unless the lookup can start at a directory that is further down.

* `answer`: what `dir_get` finds; `Reached`: the cache has the path, or a directory on it other than the root;
* `TreeInv.get_cases`, `descend_answer`: the two loops; **`dirGet_answer`**: the answer is the one of the disk, or
  `NULL`;
* **`lookup_agrees_iff`**: when the answers of two caches agree; `top_level_evicted`: when they do not.
-/

namespace BulbOS.Dentry

open KLib BulbOS.Table BulbOS.Inode

variable {s s' : Dentries} {disk : Disk} {m : List UInt8 → Option ℕ} {names l l' : List (List UInt8)}
  {name : List UInt8} {d r : ℕ}

/-- The number of the inode that was found, or nothing for `NULL`. -/
def answer (s : Dentries) (r : ℕ) : Option ℕ := if r = 0 then none else some (s.inodeAt r).2

/-- The table has the path, or that of a directory on it other than the root. -/
def Reached (s : Dentries) (names : List (List UInt8)) : Prop :=
  htGet s.table (pathOf names) ≠ some none ∨
    ∃ l l', names = l ++ l' ∧ l ≠ [] ∧ htGet s.table (stem l) ≠ some none

/-! ## The second loop -/

theorem isDot_of_last (h : name.getLast? ≠ some 46) : isDot name = false := by
  by_contra hdot
  rw [Bool.not_eq_false, isDot, Bool.or_eq_true, decide_eq_true_eq, decide_eq_true_eq] at hdot
  rcases hdot with rfl | rfl
  · exact h rfl
  · exact h rfl

theorem lookup_append_none (h : disk.lookup l = none) (l' : List (List UInt8)) : disk.lookup (l ++ l') = none := by
  unfold Disk.lookup at h ⊢
  rw [List.foldlM_append, h]
  rfl

/-- A dentry of the table has the inode that its names lead to. -/
theorem TreeInv.lookup_eq (h : TreeInv disk s m) (hroot : Directory disk ext2RootInode)
    (hl : ∀ name ∈ l, IsName name) (hthrough : Through disk l) (hm : m (pathOf l) = some d) :
    answer s d = disk.lookup l ∧ disk.lookup l = some (s.inodeAt d).2 ∧ s.str d = pathOf l := by
  obtain ⟨hd, hstr⟩ := h.mapped _ _ hm
  have hlookup : disk.lookup l = some (s.inodeAt d).2 :=
    ((h.leads d hd).2.known hroot hl hthrough).1 hstr
  refine ⟨?_, hlookup, hstr⟩
  rw [answer, if_neg (fun h₀ : d = 0 => h.nonnull (h₀ ▸ hd)), hlookup]

theorem descend_sets {origLen fuel len : ℕ} {buf : List UInt8}
    (h : descend disk origLen fuel s d buf len = .ok (r, s')) : s.sets <:+ s'.sets :=
  (descend_rule (I := fun t => s.sets <:+ t.sets) (P := fun _ _ => True)
    (fun _ _ _ ht _ hparse => ⟨ht.trans (keeps_parseDir hparse).1, trivial, trivial⟩) (fun _ _ _ _ _ => trivial)
    (fun _ _ => trivial) h List.suffix_rfl trivial).1

/-- A round of the second loop reads a directory and looks its next name up. -/
theorem descend_step (s : Dentries) (d fuel : ℕ) (hl : l ≠ []) (hnames : ∀ x ∈ l ++ name :: l', IsName x)
    (hlast : name.getLast? ≠ some 46) :
    descend disk (stem (l ++ name :: l')).length (fuel + 1) s d (cut l (name :: l')) (stem l).length = (do
      let s₁ ← ext2ParseDir s disk d
      match htGet s₁.table (stem (l ++ [name])) with
      | none => .error .diverges
      | some none => .ok (0, s₁)
      | some (some d') =>
        descend disk (stem (l ++ [name] ++ l')).length fuel s₁ d' (cut (l ++ [name]) l')
          (stem (l ++ [name])).length) := by
  have hname : IsName name := hnames name (by simp)
  have hdot : ¬ EndsDot name := fun ⟨x, hx⟩ => hlast (hx ▸ List.getLast?_concat ..)
  rw [descend_round s d fuel (fun x hx => (hnames x hx).comp) hl, roundKey, if_neg fun hend => hname.nonempty hend.1]
  exact congrArg (ext2ParseDir s disk d >>= ·) (funext fun s₁ => if_neg hdot)

/-- **The second loop of `dir_iter_get`** follows the names on the disk. -/
theorem descend_answer {fuel : ℕ} (h : TreeInv disk s m) (hroot : Directory disk ext2RootInode)
    (hnames : ∀ name ∈ l ++ l', IsName name) (hdots : ∀ name ∈ l', name.getLast? ≠ some 46)
    (hthrough : Through disk (l ++ l')) (hne : l ≠ []) (hm : m (stem l) = some d)
    (hok : descend disk (stem (l ++ l')).length fuel s d (cut l l') (stem l).length = .ok (r, s'))
    (hfound : s'.Found) (hroom : Roomy s s') : answer s' r = disk.lookup (l ++ l') := by
  induction l' generalizing l s m d fuel with
  | nil =>
    cases fuel with
    | zero => cases hok
    | succ fuel =>
      rw [List.append_nil] at hok hnames hthrough ⊢
      rw [descend, if_pos rfl] at hok
      cases hok
      exact (h.lookup_eq hroot hnames hthrough (pathOf_of_ne hne ▸ hm)).1
  | cons name l' ih =>
    cases fuel with
    | zero => cases hok
    | succ fuel =>
      have hl : ∀ x ∈ l, IsName x := fun x hx => hnames x (List.mem_append_left _ hx)
      have hlast := hdots name List.mem_cons_self
      have hsnoc : l ++ name :: l' = l ++ [name] ++ l' := List.append_cons ..
      rw [descend_step s d fuel hne hnames hlast] at hok
      obtain ⟨s₁, hparse, hok⟩ := eq_ok_of_bind hok
      have hlater : s₁.sets <:+ s'.sets := by
        split at hok
        · cases hok
        · cases hok
          exact List.suffix_rfl
        · exact descend_sets hok
      obtain ⟨m₁, h₁, hm₁⟩ := h.parse (hfound.before hlater) hparse
      obtain ⟨hroom₁, hroom'⟩ := hroom.split (keeps_parseDir hparse).1 hlater
      obtain ⟨es, hes, hadds⟩ := hm₁ hroom₁
      rw [h₁.table.get] at hok
      cases hnext : m₁ (stem (l ++ [name])) with
      | some d' =>
        rw [hnext] at hok
        rw [hsnoc] at hnames hthrough ⊢
        exact ih h₁ hnames (fun x hx => hdots x (List.mem_cons_of_mem _ hx)) hthrough (by simp) hnext hok hroom'
      | none =>
        rw [hnext] at hok
        cases hok
        -- the directory was read, so that it has no such entry
        obtain ⟨-, hlookup, hstr⟩ := h.lookup_eq hroot hl hthrough.left (pathOf_of_ne hne ▸ hm)
        have hmiss : disk.lookup (l ++ [name]) = none := by
          rw [lookup_snoc, hlookup, Option.bind_some]
          by_contra hsome
          obtain ⟨k, hk⟩ := Option.ne_none_iff_exists'.mp hsome
          obtain ⟨es', e, hes', he, rfl, -⟩ := child_mem hk
          obtain rfl : es = es' := Option.some.inj (hes.symm.trans hes')
          have hentry := hadds.all e he (isDot_of_last hlast)
          rw [hstr, entryPath_pathOf hl (hnames e.name (by simp)), pathOf_of_ne (by simp)] at hentry
          exact hentry hnext
        rw [hsnoc, lookup_append_none hmiss]
        rfl

theorem descend_stops {fuel : ℕ} {e : Stop} (h : TreeInv disk s m) (hne : l ≠ [])
    (hnames : ∀ name ∈ l ++ l', IsName name)
    (hdots : ∀ name ∈ l', name.getLast? ≠ some 46) (hfuel : l'.length < fuel)
    (herr : descend disk (stem (l ++ l')).length fuel s d (cut l l') (stem l).length = .error e) :
    ∃ t, s.sets <:+ t.sets ∧ (¬ t.Found ∨ ∃ dir, ext2ParseDir t disk dir = .error e) := by
  induction l' generalizing l s m d fuel with
  | nil =>
    obtain ⟨fuel, rfl⟩ : ∃ f, fuel = f + 1 := ⟨fuel - 1, by omega⟩
    rw [List.append_nil, descend, if_pos rfl] at herr
    cases herr
  | cons name l' ih =>
    obtain ⟨fuel, rfl⟩ : ∃ f, fuel = f + 1 := ⟨fuel - 1, by omega⟩
    rw [descend_step s d fuel hne hnames (hdots name List.mem_cons_self)] at herr
    cases hparse : ext2ParseDir s disk d with
    | error e' =>
      rw [hparse] at herr
      cases herr
      exact ⟨s, List.suffix_rfl, .inr ⟨d, hparse⟩⟩
    | ok s₁ =>
      rw [hparse] at herr
      have hsets := (keeps_parseDir hparse).1
      by_cases hfound : s₁.Found
      · obtain ⟨m₁, h₁, -⟩ := h.parse hfound hparse
        change (match htGet s₁.table (stem (l ++ [name])) with
          | none => .error .diverges
          | some none => .ok (0, s₁)
          | some (some d') => descend disk _ fuel s₁ d' (cut (l ++ [name]) l') _) = Except.error e at herr
        rw [h₁.table.get] at herr
        cases hnext : m₁ (stem (l ++ [name])) with
        | none =>
          rw [hnext] at herr
          cases herr
        | some d' =>
          rw [hnext] at herr
          rw [List.length_cons] at hfuel
          obtain ⟨t, ht, hstop⟩ := ih h₁ (by simp) (List.append_cons l name l' ▸ hnames)
            (fun x hx => hdots x (List.mem_cons_of_mem _ hx)) (by omega) herr
          exact ⟨t, hsets.trans ht, hstop⟩
      · exact ⟨s₁, hsets, .inl hfound⟩

/-! ## The lookup -/

theorem TreeInv.no_empty (h : TreeInv disk s m) : m [] = none := by
  by_contra hsome
  obtain ⟨d, hd⟩ := Option.ne_none_iff_exists'.mp hsome
  obtain ⟨hlive, hstr⟩ := h.mapped _ _ hd
  exact (h.leads d hlive).2.wellFormed.1 hstr

theorem TreeInv.log_cases {path : List UInt8} {comps : List (List UInt8)} (h : TreeInv disk s m)
    (hpath : absPath s path = stem comps) (hcomps : ∀ x ∈ comps, IsComp x) (hne : comps ≠ []) :
    (∃ d, m (stem (trimmed comps)) = some d ∧ dirGetLog s disk path = ([], dirGetHit s d)) ∨
      m (stem (trimmed comps)) = none ∧ ((∀ l l', trimmed comps = l ++ l' → m (stem l) = none) ∧
          (∀ l rest d, ¬ Starts s comps l rest d) ∧ dirGetLog s disk path = ([], .ok (0, s)) ∨
        ∃ l rest d, l ≠ [] ∧ Starts s comps l rest d ∧ dirGetLog s disk path =
          descendLog disk (stem comps).length ((stem comps).length + 1) s d (cut l rest) (stem l).length) :=
  dirGetLog_cases h.table.get h.no_empty (fun _ hk => h.nonnull (h.mapped _ _ hk).1) hpath hcomps hne

theorem trimmed_names (hnames : ∀ name ∈ names, IsName name) : trimmed names = names :=
  trimmed_of_ne fun hlast => (hnames [] (List.mem_of_getLast? hlast)).nonempty rfl

/-- **`dir_get`** of a path: it is in the table; nothing on it is; or the second loop starts at a directory. -/
theorem TreeInv.get_cases (h : TreeInv disk s m) (hnames : ∀ name ∈ names, IsName name) :
    (∃ d, m (pathOf names) = some d ∧ dirGet s disk (pathOf names) = dirGetHit s d) ∨
      m (pathOf names) = none ∧ (¬ Reached s names ∧ dirGet s disk (pathOf names) = .ok (0, s) ∨
        ∃ l name l' d, names = l ++ name :: l' ∧ l ≠ [] ∧ m (stem l) = some d ∧ Reached s names ∧
          dirGet s disk (pathOf names) =
            descend disk (stem names).length ((stem names).length + 1) s d (cut l (name :: l')) (stem l).length) := by
  rw [← dirGetLog_result]
  have hself : m (pathOf names) = none → ¬ htGet s.table (pathOf names) ≠ some none := fun hm hne =>
    hne (by rw [h.table.get, hm])
  by_cases hnil : names = []
  · subst hnil
    have hpath : absPath s (pathOf []) = stem [[]] := rfl
    rcases h.log_cases hpath
      (List.forall_mem_singleton.mpr ⟨List.not_mem_nil, List.not_mem_nil⟩) (List.cons_ne_nil _ _) with
      ⟨d, hd, hlog⟩ | ⟨hm, ⟨-, -, hlog⟩ | ⟨l, rest, d, hl, hstart, -⟩⟩
    · exact .inl ⟨d, hd, congrArg Prod.snd hlog⟩
    · refine .inr ⟨hm, .inl ⟨fun hreached => ?_, congrArg Prod.snd hlog⟩⟩
      obtain ⟨l, l', hsplit, hl, -⟩ := hreached.resolve_left (hself hm)
      exact hl (List.append_eq_nil_iff.mp hsplit.symm).1
    · obtain ⟨x, l, rfl⟩ := List.exists_cons_of_ne_nil hl
      exact absurd (List.append_eq_nil_iff.mp (List.cons.inj hstart.split).2.symm).2 hstart.proper.1
  · have hpath : absPath s (pathOf names) = stem names := by
      rw [pathOf_of_ne hnil, absPath, if_pos]
      obtain ⟨x, l, rfl⟩ := List.exists_cons_of_ne_nil hnil
      rfl
    have hcases := h.log_cases hpath (fun x hx => (hnames x hx).comp) hnil
    rw [trimmed_names hnames, ← pathOf_of_ne hnil] at hcases
    rcases hcases with ⟨d, hd, hlog⟩ | ⟨hm, ⟨hnone, -, hlog⟩ | ⟨l, rest, d, hl, hstart, hlog⟩⟩
    · exact .inl ⟨d, hd, congrArg Prod.snd hlog⟩
    · refine .inr ⟨hm, .inl ⟨fun hreached => ?_, congrArg Prod.snd hlog⟩⟩
      obtain ⟨l, l', hsplit, -, hcached⟩ := hreached.resolve_left (hself hm)
      exact hcached (by rw [h.table.get, hnone l l' hsplit])
    · obtain ⟨name, l', rfl⟩ := List.exists_cons_of_ne_nil hstart.proper.1
      have hcached := hstart.cached
      refine .inr ⟨hm, .inr ⟨l, name, l', d, hstart.split, hl, ?_, .inr ⟨l, name :: l', hstart.split, hl, ?_⟩, ?_⟩⟩
      · rw [h.table.get] at hcached
        exact Option.some.inj hcached
      · rw [hcached]
        exact fun e => by cases e
      · rw [hlog, pathOf_of_ne hnil, descendLog_result]

/-- **`dir_get`**: a lookup that the cache reaches finds what is on the disk; any other finds nothing. -/
theorem dirGet_answer (h : TreeInv disk s m) (hroot : Directory disk ext2RootInode)
    (hnames : ∀ name ∈ names, IsName name) (hdots : ∀ name ∈ names, name.getLast? ≠ some 46)
    (hthrough : Through disk names) (hok : dirGet s disk (pathOf names) = .ok (r, s')) (hfound : s'.Found)
    (hroom : Roomy s s') :
    Reached s names ∧ answer s' r = disk.lookup names ∨ ¬ Reached s names ∧ answer s' r = none := by
  rcases h.get_cases hnames with ⟨d, hm, hget⟩ | ⟨hm, ⟨hreached, hget⟩ | ⟨l, name, l', d, rfl, hne, hd,
    hreached, hget⟩⟩
  · rw [hget] at hok
    obtain ⟨rfl, hsame⟩ := same_hit hok
    have hreached : Reached s names := by
      refine .inl ?_
      rw [h.table.get, hm]
      exact fun e => by cases e
    have hans : answer s' r = answer s r := by
      unfold answer
      rw [hsame.inodeAt]
    exact .inl ⟨hreached, hans.trans (h.lookup_eq hroot hnames hthrough hm).1⟩
  · rw [hget] at hok
    cases hok
    exact .inr ⟨hreached, rfl⟩
  · rw [hget] at hok
    exact .inl ⟨hreached, descend_answer h hroot hnames
      (fun x hx => hdots x (List.mem_append_right _ hx)) hthrough hne hd
      hok hfound hroom⟩

/-- **The loops of `dir_get` end**: it stops only where `ext2_parse_dir` stops, or `dir_remove` of a dentry that it
found, unless a path was missed. -/
theorem dirGet_stops {e : Stop} (h : TreeInv disk s m) (hnames : ∀ name ∈ names, IsName name)
    (hdots : ∀ name ∈ names, name.getLast? ≠ some 46) (herr : dirGet s disk (pathOf names) = .error e) :
    (∃ d, dirGetHit s d = .error e) ∨
      ∃ t, s.sets <:+ t.sets ∧ (¬ t.Found ∨ ∃ dir, ext2ParseDir t disk dir = .error e) := by
  rcases h.get_cases hnames with ⟨d, -, hget⟩ | ⟨-, ⟨-, hget⟩ | ⟨l, name, l', d, rfl, hne, hd, -, hget⟩⟩
  · rw [hget] at herr
    exact .inl ⟨d, herr⟩
  · rw [hget] at herr
    cases herr
  · rw [hget] at herr
    refine .inr (descend_stops h hne hnames (fun x hx => hdots x (List.mem_append_right _ hx)) ?_ herr)
    have hlen := length_le_stem (l ++ name :: l')
    rw [List.length_append] at hlen
    omega

/-! ## Two caches -/

/-- A cache over the disk that a run from `dir_init` leads to. -/
def Reachable (disk : Disk) (c : PathCfg) : Prop :=
  ∃ s₀ s ops, Empty s₀ ∧ dirInit s₀ disk = .ok s ∧ Run (TreeMove disk) ⟨s, [s.currentDir]⟩ ops c

/-- A lookup in such a cache. No `dir_set` so far missed its path in the table, and none of the lookup found the table
full. -/
structure Lookup (disk : Disk) (names : List (List UInt8)) (c : PathCfg) (r : ℕ) (s' : Dentries) : Prop where
  reachable : Reachable disk c
  get : dirGet c.dir disk (pathOf names) = .ok (r, s')
  found : s'.Found
  roomy : Roomy c.dir s'

theorem Lookup.answer_eq {c : PathCfg} (h : Lookup disk names c r s') (hroot : Directory disk ext2RootInode)
    (hnames : ∀ name ∈ names, IsName name) (hdots : ∀ name ∈ names, name.getLast? ≠ some 46)
    (hthrough : Through disk names) :
    Reached c.dir names ∧ answer s' r = disk.lookup names ∨ ¬ Reached c.dir names ∧ answer s' r = none := by
  obtain ⟨s₀, s, ops, h₀, hboot, hrun⟩ := h.reachable
  obtain ⟨m, hm⟩ := treeInv_run h₀ hboot hrun (h.found.before (follows_get h.get).1)
  exact dirGet_answer hm hroot hnames hdots hthrough h.get h.found h.roomy

/-- **The answer does not depend on the cache** exactly if the path leads to nothing, or both caches reach it, or
neither does. -/
theorem lookup_agrees_iff {c₁ c₂ : PathCfg} {r₁ r₂ : ℕ} {s₁ s₂ : Dentries} (hroot : Directory disk ext2RootInode)
    (hnames : ∀ name ∈ names, IsName name) (hdots : ∀ name ∈ names, name.getLast? ≠ some 46)
    (hthrough : Through disk names) (h₁ : Lookup disk names c₁ r₁ s₁) (h₂ : Lookup disk names c₂ r₂ s₂) :
    answer s₁ r₁ = answer s₂ r₂ ↔ disk.lookup names = none ∨ (Reached c₁.dir names ↔ Reached c₂.dir names) := by
  rcases h₁.answer_eq hroot hnames hdots hthrough with ⟨hr₁, ha₁⟩ | ⟨hr₁, ha₁⟩ <;>
    rcases h₂.answer_eq hroot hnames hdots hthrough with ⟨hr₂, ha₂⟩ | ⟨hr₂, ha₂⟩ <;> rw [ha₁, ha₂]
  · exact iff_of_true rfl (.inr (iff_of_true hr₁ hr₂))
  · rw [iff_false_right hr₂]
    exact ⟨.inl, fun h => h.resolve_right (not_not.mpr hr₁)⟩
  · rw [iff_true_right hr₂, eq_comm]
    exact ⟨.inl, fun h => h.resolve_right hr₁⟩
  · exact iff_of_true rfl (.inr (iff_of_false hr₁ hr₂))

/-! ## Two disks -/

instance (s : Dentries) : Decidable s.Found := inferInstanceAs (Decidable (∀ call ∈ s.sets, call.Found))

instance (s s' : Dentries) : Decidable (Roomy s s') := inferInstanceAs (Decidable (_ = _))

instance (name : List UInt8) : Decidable (IsName name) :=
  decidable_of_iff (name ≠ [] ∧ 47 ∉ name ∧ 0 ∉ name) ⟨fun h => ⟨h.1, h.2.1, h.2.2⟩, fun h => ⟨h.1, h.2, h.3⟩⟩

theorem directory_of_entries {n : ℕ} (h : (disk.entries 0 n).any (fun es => ∀ e ∈ es, IsName e.name ∧
    ∀ e' ∈ es, e.name = e'.name → e.inode = e'.inode) = true) : Directory disk n := by
  obtain ⟨es, hes, hcheck⟩ := (Option.any_eq_true ..).mp h
  have hall := of_decide_eq_true hcheck
  refine ⟨fun es' hes' e he => ?_, fun es' hes' e he => ?_⟩
  · rw [hes, Option.some.injEq] at hes'
    exact (hall e (hes' ▸ he)).1
  · rw [hes, Option.some.injEq] at hes'
    exact hes' ▸ (hall e (hes' ▸ he)).2

theorem run_reads {c c' : PathCfg} {ops : List PathOp} (h : Run PathMove c ops c')
    (hops : ∀ op ∈ ops, op.Reads disk) : Run (TreeMove disk) c ops c' := by
  induction h with
  | nil c => exact .nil c
  | cons h _ ih =>
    exact .cons ⟨hops _ List.mem_cons_self, h⟩ (ih fun op hop => hops op (List.mem_cons_of_mem _ hop))

theorem exists_reachable (disk : Disk) (ops : List PathOp) (p : PathCfg → Bool) (hops : ∀ op ∈ ops, op.Reads disk)
    (h : ((dirInit demoCaches disk).toOption.bind fun s =>
      ops.foldlM (tryStep PathOp.Legal pathStep) ⟨s, [s.currentDir]⟩).any p = true) :
    ∃ c, Reachable disk c ∧ p c = true := by
  cases hboot : dirInit demoCaches disk with
  | error e =>
    rw [hboot] at h
    cases h
  | ok s =>
    rw [hboot] at h
    obtain ⟨c, hrun, hp⟩ := exists_run PathOp.Legal pathStep _ ops _ h
    exact ⟨c, ⟨demoCaches, s, ops, demoCaches_empty, hboot, run_reads hrun hops⟩, hp⟩

theorem exists_lookup (disk : Disk) (names : List (List UInt8)) (ops : List PathOp) (p : PathCfg → Option ℕ → Bool)
    (hops : ∀ op ∈ ops, op.Reads disk)
    (h : ((dirInit demoCaches disk).toOption.bind fun s =>
      ops.foldlM (tryStep PathOp.Legal pathStep) ⟨s, [s.currentDir]⟩).any (fun c =>
        (dirGet c.dir disk (pathOf names)).toOption.any fun x =>
          decide (x.2.Found ∧ Roomy c.dir x.2) && p c (answer x.2 x.1)) = true) :
    ∃ c r s', Lookup disk names c r s' ∧ p c (answer s' r) = true := by
  obtain ⟨c, hreach, hp⟩ := exists_reachable disk ops _ hops h
  obtain ⟨⟨r, s'⟩, hget, hp⟩ := (Option.any_eq_true ..).mp hp
  rw [Bool.and_eq_true] at hp
  obtain ⟨hfound, hroomy⟩ := of_decide_eq_true hp.1
  exact ⟨c, r, s', ⟨hreach, eq_ok_of_toOption hget, hfound, hroomy⟩, hp.2⟩

/-- A directory of one block with names of at most four bytes. -/
def shortDir (entries : List (ℕ × List UInt8)) : Mem := fun x =>
  let i := min (x / 12) (entries.length - 1)
  let size := if i + 1 = entries.length then 1024 - 12 * i else 12
  let (n, name) := entries.getD i (0, [])
  ([UInt8.ofNat n, 0, 0, 0, UInt8.ofNat size, UInt8.ofNat (size / 256), UInt8.ofNat name.length, 2] ++ name).getD
    (x - 12 * i) 0

/-- The root has the directories `h`, which is empty, and `e`, which has 49 links to a file. -/
def wideDisk : Disk where
  inode device n := ⟨device, n, if n = 14 then 0x8000 else 0x4000, 1, 1024, 0, 0, 0, 0, 2, fun _ => 0⟩
  content _ n :=
    if n = 2 then shortDir [(2, [46]), (2, [46, 46]), (12, [104]), (13, [101])]
    else if n = 12 then shortDir [(12, [46]), (2, [46, 46])]
    else if n = 13 then
      shortDir ([(13, [46]), (2, [46, 46])] ++ (List.range 49).map fun k => (14, [UInt8.ofNat (48 + k)]))
    else fun _ => 0

/-- `"/a/b"` is looked up in a cache that has it, and in one that has not. -/
theorem lookup_agrees_iff_tree : ∃ c₁ r₁ s₁ c₂ r₂ s₂, Lookup treeDisk [[97], [98]] c₁ r₁ s₁ ∧
    Lookup treeDisk [[97], [98]] c₂ r₂ s₂ ∧ htGet c₁.dir.table (pathOf [[97], [98]]) = some none ∧
    htGet c₂.dir.table (pathOf [[97], [98]]) ≠ some none ∧ answer s₁ r₁ = answer s₂ r₂ := by
  have hroot : Directory treeDisk 2 := directory_of_entries (by decide +kernel)
  have ha : Directory treeDisk 12 := directory_of_entries (by decide +kernel)
  have hlookup : treeDisk.lookup [[97]] = some 12 := by decide +kernel
  have hthrough : Through treeDisk [[97], [98]] := by
    intro l name l' hl n hn
    rcases l with _ | ⟨x, _ | ⟨y, l⟩⟩
    · cases hn
      exact hroot
    · cases hl
      rw [hlookup] at hn
      cases hn
      exact ha
    · simp at hl
  obtain ⟨c₁, r₁, s₁, h₁, hp₁⟩ := exists_lookup treeDisk [[97], [98]] []
    (fun c _ => htGet c.dir.table (stem [[97]]) ≠ some none ∧ htGet c.dir.table (pathOf [[97], [98]]) = some none)
    (fun op hop => absurd hop List.not_mem_nil) (by decide +kernel)
  obtain ⟨c₂, r₂, s₂, h₂, hp₂⟩ := exists_lookup treeDisk [[97], [98]] [.get treeDisk [47, 97, 47, 98]]
    (fun c _ => htGet c.dir.table (pathOf [[97], [98]]) ≠ some none)
    (List.forall_mem_singleton.mpr rfl) (by decide +kernel)
  obtain ⟨hfirst, hmiss⟩ := of_decide_eq_true hp₁
  have hhit := of_decide_eq_true hp₂
  refine ⟨c₁, r₁, s₁, c₂, r₂, s₂, h₁, h₂, hmiss, hhit, ?_⟩
  have hreached : Reached c₁.dir [[97], [98]] := .inr ⟨[[97]], [[98]], rfl, by decide, hfirst⟩
  exact (lookup_agrees_iff hroot (by decide) (by decide) hthrough h₁ h₂).mpr
    (.inr (iff_of_true hreached (.inl hhit)))

/-- **An entry of the root is evicted**: `"/h"` is found by one cache and not by the other, and both have the root. The
lookup of `"/h/../x"` reads the root again, and the one of ``"/e/`"`` fills the table. -/
theorem top_level_evicted : Directory wideDisk 2 ∧ Directory wideDisk 12 ∧ Directory wideDisk 13 ∧
    ∃ c₁ r₁ s₁ c₂ r₂ s₂, Lookup wideDisk [[104]] c₁ r₁ s₁ ∧ Lookup wideDisk [[104]] c₂ r₂ s₂ ∧
    htGet c₁.dir.table [47] ≠ some none ∧ htGet c₂.dir.table [47] ≠ some none ∧
    answer s₁ r₁ = some 12 ∧ answer s₂ r₂ = none := by
  have hroot : Directory wideDisk 2 := directory_of_entries (by decide +kernel)
  have hh : Directory wideDisk 12 := directory_of_entries (by decide +kernel)
  have he : Directory wideDisk 13 := directory_of_entries (by decide +kernel)
  obtain ⟨c₁, r₁, s₁, h₁, hp₁⟩ := exists_lookup wideDisk [[104]] []
    (fun c a => htGet c.dir.table [47] ≠ some none ∧ a = some 12)
    (fun op hop => absurd hop List.not_mem_nil) (by decide +kernel)
  obtain ⟨c₂, r₂, s₂, h₂, hp₂⟩ := exists_lookup wideDisk [[104]]
    [.get wideDisk [47, 104, 47, 46, 46, 47, 120], .get wideDisk [47, 101, 47, 96]]
    (fun c a => htGet c.dir.table [47] ≠ some none ∧ a = none)
    (List.forall_mem_cons.mpr ⟨rfl, List.forall_mem_singleton.mpr rfl⟩) (by decide +kernel)
  obtain ⟨hroot₁, ha₁⟩ := of_decide_eq_true hp₁
  obtain ⟨hroot₂, ha₂⟩ := of_decide_eq_true hp₂
  exact ⟨hroot, hh, he, c₁, r₁, s₁, c₂, r₂, s₂, h₁, h₂, hroot₁, hroot₂, ha₁, ha₂⟩

end BulbOS.Dentry
