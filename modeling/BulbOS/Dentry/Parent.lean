import BulbOS.Dentry.Lookup

/-!
# The directory of an entry (`dir_get_parent`)

`dir_get_parent` cuts a path at its last slash, looks up what is before it, and returns what is after it. Of a path
whose one slash is the first byte, the empty string is left, which `dir_get` takes for a path in the current directory.
Of a path without a slash, the name that is returned starts at the second byte.

* `dirGetParent`: the function; `Dentries.inDir`: a task in another directory;
* `dirGetAbs_inDir`: the lookup of an absolute path does not read the current directory;
* **`dirGetParent_iff`**: when the result is the directory of the entry and its name; `top_level_in_cwd`: when not.
-/

namespace BulbOS.Dentry

open KLib BulbOS.Table BulbOS.Inode

variable {s s' : Dentries} {disk : Disk} {m : List UInt8 → Option ℕ} {names : List (List UInt8)}
  {path p n : List UInt8} {d r : ℕ}

/-- The dentry, or `0` for `NULL`, and the name. -/
def dirGetParent (s : Dentries) (disk : Disk) (path : List UInt8) : Except Stop (ℕ × List UInt8 × Dentries) := do
  let len := slashBefore path path.length
  let (dentry, s) ← dirGet s disk (path.take len)
  return (dentry, path.drop (len + 1), s)

/-- The current task is in this directory. -/
def Dentries.inDir (s : Dentries) (dentry : ℕ) : Dentries := { s with currentDir := dentry }

theorem same_inDir (s : Dentries) (d : ℕ) : Same s (s.inDir d) :=
  ⟨rfl, rfl, rfl, rfl, rfl, rfl, rfl, fun _ => rfl, fun _ => rfl, fun _ => rfl⟩

/-! ## The current directory is not read -/

/-- The same result of a task in the directory. -/
abbrev movedTo {α : Type} (d : ℕ) (x : Except Stop (α × Dentries)) : Except Stop (α × Dentries) :=
  x.map (Prod.map id (Dentries.inDir · d))

theorem newPath_inDir (s : Dentries) (d : ℕ) (str : List UInt8) :
    newPath (s.inDir d) str = movedTo d (newPath s str) := ite_eq_map (fun _ => rfl) fun _ => rfl

theorem dirPut_inDir (s : Dentries) (d path dentry : ℕ) :
    dirPut (s.inDir d) path dentry = movedTo d (dirPut s path dentry) := by
  unfold dirPut
  dsimp only [Dentries.inDir]
  generalize htSet s.fresh s.table (s.strs path) (some dentry) = x
  rcases x with _ | ⟨ret, table⟩
  · rfl
  · rfl

theorem dentryAlloc_inDir (s : Dentries) (d path inode offset : ℕ) :
    dentryAlloc (s.inDir d) path inode offset = movedTo d (dentryAlloc s path inode offset) :=
  ite_eq_map (fun _ => rfl) fun _ => rfl

theorem dirRelease_inDir (s : Dentries) (d dentry : ℕ) :
    dirRelease (s.inDir d) dentry = (dirRelease s dentry).inDir d := by
  unfold dirRelease
  by_cases h : ((s.addRef dentry (-1)).dentries dentry).refCount = 0
  · rw [if_pos (by exact h), if_pos (by exact h)]
    rfl
  · rw [if_neg (by exact h), if_neg (by exact h)]
    rfl

theorem dirReleaseEntries_inDir (d dentry fuel : ℕ) (s : Dentries) (child : ℕ) :
    dirReleaseEntries dentry fuel (s.inDir d) child = (dirReleaseEntries dentry fuel s child).map (·.inDir d) := by
  induction fuel generalizing s child with
  | zero => rfl
  | succ fuel ih =>
    refine ite_eq_map (fun _ => rfl) fun _ => ?_
    rw [show (s.inDir d).str child = s.str child from rfl,
      show (s.inDir d).tables ((s.inDir d).dentries dentry).table = s.tables (s.dentries dentry).table from rfl]
    generalize htRemove (s.tables (s.dentries dentry).table) (s.str child) = x
    rcases x with _ | ⟨ret, t⟩
    · rfl
    · let s₁ := { s with tables := Function.update s.tables (s.dentries dentry).table t }
      change dirReleaseEntries dentry fuel (dirRelease (s₁.inDir d) child)
        ((dirRelease (s₁.inDir d) child).dentries child).nextSib = _
      rw [dirRelease_inDir]
      exact ih ..

theorem tableFree_inDir (s : Dentries) (d table : ℕ) :
    tableFree (s.inDir d) table = (tableFree s table).map (·.inDir d) :=
  ite_eq_map (fun _ => rfl) fun _ => ite_eq_map (fun _ => rfl) fun _ => rfl

theorem dirFree_inDir (s : Dentries) (d old : ℕ) : dirFree (s.inDir d) old = (dirFree s old).map (·.inDir d) := by
  refine bind_eq_map_self (dirRemove s.lru old) fun lru => ?_
  let s₁ : Dentries := { s with lru := lru, paths := s.paths.erase (s.dentries old).path }
  have hend : ∀ s₂ : Dentries, (do
      let s₃ ← tableFree (s₂.inDir d) (s₂.dentries old).table
      return { s₃ with live := s₃.live.erase old }) = Except.map (·.inDir d) (do
      let s₃ ← tableFree s₂ (s₂.dentries old).table
      return { s₃ with live := s₃.live.erase old }) := fun s₂ => bind_eq_map (tableFree_inDir s₂ d _) fun _ => rfl
  exact ite_eq_map (fun _ => bind_eq_map (dirReleaseEntries_inDir d old _ s₁ _) hend) fun _ => hend s₁

theorem dirEvict_inDir (s : Dentries) (d : ℕ) : dirEvict (s.inDir d) = (dirEvict s).map (·.inDir d) := by
  refine ite_eq_map (fun _ => rfl) fun _ => ite_eq_map (fun _ => rfl) fun _ => ite_eq_map (fun _ => rfl) fun _ => ?_
  rw [show (s.inDir d).lru = s.lru from rfl, show (s.inDir d).table = s.table from rfl,
    show (s.inDir d).str s.lru.ltail = s.str s.lru.ltail from rfl]
  generalize htRemove s.table (s.str s.lru.ltail) = x
  rcases x with _ | ⟨ret, table⟩
  · rfl
  · refine ite_eq_map (fun _ => rfl) fun _ => ?_
    exact dirFree_inDir { s with table := table, keys := keysRemove s.table s.keys (s.str s.lru.ltail) } d _

theorem dirEvictLoop_inDir (path dentry d fuel : ℕ) (s : Dentries) :
    dirEvictLoop path dentry fuel (s.inDir d) = movedTo d (dirEvictLoop path dentry fuel s) := by
  induction fuel generalizing s with
  | zero => rfl
  | succ fuel ih =>
    refine bind_eq_map (dirEvict_inDir s d) fun s₁ => ?_
    refine bind_eq_map (dirPut_inDir s₁ d path dentry) fun ⟨ret, s₂⟩ => ?_
    exact ite_eq_map (fun _ => ih s₂) fun _ => rfl

theorem dirSet_inDir (s : Dentries) (d device path inodeN offset : ℕ) :
    dirSet (s.inDir d) device path inodeN offset = movedTo d (dirSet s device path inodeN offset) := by
  refine bind_eq_map_self (inodeGet s.inodes (s.heap 0) device inodeN) fun ⟨inode, inodes⟩ => ?_
  let s₀ : Dentries := { s.pop with inodes := inodes, sets := setCall s device path inodeN :: s.sets }
  refine bind_eq_map (dentryAlloc_inDir s₀ d path inode offset) fun ⟨dentry, s₁⟩ => ?_
  refine bind_eq_map (dirPut_inDir s₁ d path dentry) fun ⟨ret, s₂⟩ => ?_
  refine ite_eq_map (fun _ => rfl) fun _ => ?_
  refine bind_eq_map (dirEvictLoop_inDir path dentry d s₂.table.capacity s₂) fun ⟨ret', s₃⟩ => ?_
  exact ite_eq_map (fun _ => rfl) fun _ => rfl

theorem linkChild_inDir (s : Dentries) (d dir entry : ℕ) :
    linkChild (s.inDir d) dir entry = (linkChild s dir entry).inDir d := by
  let rest (t : Dentries) : Dentries :=
    let t := t.set entry { t.dentries entry with nextSib := (t.dentries dir).children }
    let t := t.set entry { t.dentries entry with prevSib := 0 }
    let t := t.addRef entry 1
    t.set dir { t.dentries dir with children := entry }
  let start (t : Dentries) : Dentries :=
    let t := t.addRef dir 1
    t.set entry { t.dentries entry with parent := dir }
  let next (t : Dentries) : Dentries :=
    t.set (t.dentries dir).children { t.dentries (t.dentries dir).children with prevSib := entry }
  have hlink : ∀ t, linkChild t dir entry =
      rest (if ((start t).dentries dir).children ≠ 0 then next (start t) else start t) := fun _ => rfl
  have hrest : ∀ t, rest (t.inDir d) = (rest t).inDir d := fun _ => rfl
  have hstart : start (s.inDir d) = (start s).inDir d := rfl
  have hnext : ∀ t, next (t.inDir d) = (next t).inDir d := fun _ => rfl
  rw [hlink, hlink, hstart, hnext]
  clear_value rest start next
  rw [← hrest]
  exact congrArg rest (apply_ite (Dentries.inDir · d) _ _ _).symm

theorem dirAddChild_inDir (s : Dentries) (d dir entry : ℕ) :
    dirAddChild (s.inDir d) dir entry = (dirAddChild s dir entry).map (·.inDir d) := by
  refine ite_eq_map (fun _ => rfl) fun _ => ?_
  -- the tables and the names do not depend on the current directory
  dsimp only [Dentries.inDir, Dentries.str]
  rcases htGet (s.tables (s.dentries dir).table) (s.strs (s.dentries entry).path) with _ | _ | e
  · rfl
  · rcases htSet s.fresh (s.tables (s.dentries dir).table) (s.strs (s.dentries entry).path) (some entry)
      with _ | ⟨ret, t⟩
    · rfl
    · exact congrArg Except.ok
        (linkChild_inDir { s with tables := Function.update s.tables (s.dentries dir).table t } d dir entry)
  · rfl

theorem parseEntry_inDir (s : Dentries) (d dir device : ℕ) (e : Entry) :
    parseEntry (s.inDir d) dir device e = (parseEntry s dir device e).map (·.inDir d) := by
  refine ite_eq_map (fun _ => rfl) fun _ => ?_
  refine bind_eq_map (newPath_inDir s d _) fun ⟨path, s₁⟩ => ?_
  refine ite_eq_map (fun _ => rfl) fun _ => ?_
  refine bind_eq_map (dirSet_inDir s₁ d device path e.inode e.offset) fun ⟨child, s₂⟩ => ?_
  refine bind_eq_map (dirAddChild_inDir s₂ d dir child) fun s₃ => ?_
  exact congrArg Except.ok (dirRelease_inDir s₃ d child)

theorem dirTable_inDir (s : Dentries) (d dir : ℕ) :
    dirTable (s.inDir d) dir = (dirTable s dir).map (·.inDir d) := by
  refine ite_eq_map (fun _ => rfl) fun _ => ?_
  rcases htCreate 20 75 true with _ | t
  · rfl
  · exact ite_eq_map (fun _ => rfl) fun _ => rfl

theorem ext2ParseDir_inDir (s : Dentries) (disk : Disk) (d dir : ℕ) :
    ext2ParseDir (s.inDir d) disk dir = (ext2ParseDir s disk dir).map (·.inDir d) := by
  refine ite_eq_map (fun _ => rfl) fun _ => ?_
  refine bind_eq_map (dirTable_inDir s d dir) fun s₁ => ?_
  refine bind_eq_map_self (inodeLock disk.inode s₁.inodes (s₁.dentries dir).inode) fun inodes => ?_
  generalize hdata : (inodes.inodes (s₁.dentries dir).inode).data = data
  dsimp only
  rw [show (inodes.inodes ((s₁.inDir d).dentries dir).inode).data = data from hdata]
  rcases dirEntries (disk.content data.device data.n) data.size (data.size + 1) 0 with _ | es
  · rfl
  · exact foldlM_eq_map (g := (Dentries.inDir · d)) (f := fun s e => parseEntry s dir data.device e)
      (fun s e => parseEntry_inDir s d dir data.device e) es { s₁ with inodes := inodes }

theorem prefixLoop_inDir (s : Dentries) (d fuel : ℕ) (path : List UInt8) (len : ℕ) :
    prefixLoop (s.inDir d) fuel path len = prefixLoop s fuel path len := by
  induction fuel generalizing path len with
  | zero => rfl
  | succ fuel ih =>
    rw [prefixLoop, prefixLoop, show (s.inDir d).table = s.table from rfl]
    simp only [ih]

theorem descend_inDir (disk : Disk) (origLen d fuel : ℕ) (s : Dentries) (dentry : ℕ) (path : List UInt8) (len : ℕ) :
    descend disk origLen fuel (s.inDir d) dentry path len =
      movedTo d (descend disk origLen fuel s dentry path len) := by
  induction fuel generalizing s dentry path len with
  | zero => rfl
  | succ fuel ih =>
    refine ite_eq_map (fun _ => rfl) fun _ => ?_
    refine bind_eq_map (ext2ParseDir_inDir s disk d dentry) fun s₁ => ?_
    dsimp only
    generalize path.set len 47 = path
    generalize nextNul path origLen (origLen - len) len = len'
    refine ite_eq_map (fun _ => ite_eq_map (fun _ => ih ..) fun _ => ih ..) fun _ => ?_
    generalize (if 1 < origLen ∧ path.getD (origLen - 1) 0 = 47 then path.set (origLen - 1) 0 else path) = path
    rw [show (s₁.inDir d).table = s₁.table from rfl]
    rcases htGet s₁.table (cstr path) with _ | _ | e
    · rfl
    · rfl
    · exact ih ..

theorem dirGetHit_inDir (s : Dentries) (d dentry : ℕ) :
    dirGetHit (s.inDir d) dentry = movedTo d (dirGetHit s dentry) := by
  refine ite_eq_map (fun _ => ?_) fun _ => rfl
  exact bind_eq_map_self (dirRemove s.lru dentry) fun lru => rfl

/-- **The lookup of an absolute path** does not depend on the current directory. -/
theorem dirGetAbs_inDir (s : Dentries) (disk : Disk) (d : ℕ) (path : List UInt8) :
    dirGetAbs (s.inDir d) disk path = movedTo d (dirGetAbs s disk path) := by
  unfold dirGetAbs
  dsimp only
  generalize (if 1 < path.length ∧ path.getD (path.length - 1) 0 = 47 then path.take (path.length - 1) else path) = key
  rw [show (s.inDir d).table = s.table from rfl]
  rcases htGet s.table key with _ | _ | e
  · rfl
  · unfold dirIterGet
    rw [prefixLoop_inDir]
    refine bind_eq_map_self (prefixLoop s _ _ _) fun ⟨dentry, buf, start⟩ => ?_
    exact ite_eq_map (fun _ => rfl) fun _ => descend_inDir ..
  · exact dirGetHit_inDir s d e

/-! ## Counts -/

/-- Unless `dir_set` is called, no count changes. -/
def Quiet (s s' : Dentries) : Prop :=
  s.sets <:+ s'.sets ∧ (s'.sets = s.sets → ∀ e, (s'.dentries e).refCount = (s.dentries e).refCount)

theorem Quiet.refl (s : Dentries) : Quiet s s := ⟨List.suffix_rfl, fun _ _ => rfl⟩

theorem Quiet.trans {s'' : Dentries} (h : Quiet s s') (h' : Quiet s' s'') : Quiet s s'' := by
  refine ⟨h.1.trans h'.1, fun hsets e => ?_⟩
  have hmid : s'.sets = s.sets := (h.1.eq_of_length_le (hsets ▸ h'.1.length_le)).symm
  rw [h'.2 (hsets.trans hmid.symm), h.2 hmid]

theorem quiet_parseEntry {dir device : ℕ} {e : Entry} (h : parseEntry s dir device e = .ok s') : Quiet s s' := by
  refine ⟨(keeps_parseEntry h).1, fun hsets => ?_⟩
  obtain ⟨-, path, s₁, hpath, ⟨-, rfl⟩ | ⟨-, child, s₂, s₃, hset, hadd, rfl⟩⟩ := parseEntry_cases h
  · obtain ⟨-, -, rfl⟩ := newPath_cases hpath
    exact fun _ => rfl
  · have hlonger := congrArg List.length (dirSet_sets hset)
    rw [newPath_sets hpath, ← (same_addChild hadd).sets, ← (same_release s₃ child).sets, hsets,
      List.length_cons] at hlonger
    omega

theorem quiet_parseDir {dir : ℕ} (h : ext2ParseDir s disk dir = .ok s') : Quiet s s' := by
  obtain ⟨-, s₁, inodes, es, htable, -, -, hfold⟩ := ext2ParseDir_cases h
  have h₁ : Quiet s s₁ := by
    refine ⟨(same_table htable).sets ▸ List.suffix_rfl, fun _ e => ?_⟩
    rcases dirTable_cases htable with rfl | ⟨table, tables, liveTables, rfl⟩
    · rfl
    · change ((s.pop.set dir _).dentries e).refCount = _
      by_cases he : e = dir
      · rw [he, set_self]
      · rw [set_of_ne _ _ he]
        rfl
  exact foldlM_invariant (I := Quiet s) (fun _ _ _ _ hq he => hq.trans (quiet_parseEntry he)) hfold
    (h₁.trans ⟨List.suffix_rfl, fun _ _ => rfl⟩)

theorem hit_refs (h : dirGetHit s d = .ok (r, s')) : (s'.dentries d).refCount = (s.dentries d).refCount + 1 := by
  unfold dirGetHit at h
  dsimp only at h
  split_ifs at h
  · obtain ⟨lru, -, h⟩ := eq_ok_of_bind h
    cases h
    exact congrArg DentryT.refCount (set_self ..)
  · cases h
    exact congrArg DentryT.refCount (set_self ..)

/-! ## The directory and the name -/

theorem slashBefore_name (q : List UInt8) (hn : 47 ∉ n) :
    slashBefore (q ++ 47 :: n) (q ++ 47 :: n).length = q.length := by
  rw [List.length_append, List.length_cons]
  exact slashBefore_append fun j _ => getD_ne hn j

theorem slashBefore_noSlash (hpath : 47 ∉ path) (len : ℕ) : slashBefore path len = 0 := by
  induction len with
  | zero => rfl
  | succ len ih =>
    rw [slashBefore, if_neg (getD_ne hpath _)]
    exact ih

/-- **`dir_get_parent`** of a path with a slash. -/
theorem dirGetParent_slash (s : Dentries) (disk : Disk) (q : List UInt8) (hn : 47 ∉ n) :
    dirGetParent s disk (q ++ 47 :: n) = (do let (dentry, s) ← dirGet s disk q; return (dentry, n, s)) := by
  unfold dirGetParent
  dsimp only
  rw [slashBefore_name q hn, List.take_left, List.drop_append, List.drop_of_length_le (Nat.le_succ _),
    Nat.add_sub_cancel_left]
  rfl

/-- **`dir_get_parent`** of a path without a slash. -/
theorem dirGetParent_noSlash (s : Dentries) (disk : Disk) (hpath : 47 ∉ path) :
    dirGetParent s disk path = (do let (dentry, s) ← dirGet s disk []; return (dentry, path.drop 1, s)) := by
  unfold dirGetParent
  dsimp only
  rw [slashBefore_noSlash hpath]
  rfl

/-- Where the last slash of an absolute path is in the path that is given. -/
theorem absPath_split (hn : 47 ∉ n) (hpath : absPath s path = p ++ 47 :: n) :
    (∃ q, q ≠ [] ∧ path = q ++ 47 :: n ∧ p = absPath s q) ∨ path = 47 :: n ∧ p = [] ∨ path = n := by
  unfold absPath at hpath
  by_cases habs : path.head? = some 47
  · rw [if_pos habs] at hpath
    cases p with
    | nil => exact .inr (.inl ⟨hpath, rfl⟩)
    | cons c p =>
      refine .inl ⟨c :: p, List.cons_ne_nil _ _, hpath, (if_pos ?_).symm⟩
      rw [hpath] at habs
      exact habs
  · rw [if_neg habs] at hpath
    obtain ⟨u, hu⟩ : ∃ u, ∀ q, sumPath (s.str s.currentDir) q = u ++ 47 :: q := by
      by_cases hlast : (s.str s.currentDir).getLast? = some 47
      · obtain ⟨u, hu⟩ := List.getLast?_eq_some_iff.mp hlast
        refine ⟨u, fun q => ?_⟩
        rw [sumPath, if_pos hlast, hu, List.append_assoc]
        rfl
      · refine ⟨s.str s.currentDir, fun q => ?_⟩
        rw [sumPath, if_neg hlast, List.append_assoc]
        rfl
    rw [hu] at hpath
    rcases List.append_eq_append_iff.mp hpath with ⟨a, rfl, ha⟩ | ⟨a, rfl, ha⟩
    · cases a with
      | nil => exact .inr (.inr (List.cons.inj ha).2)
      | cons c q =>
        rw [List.cons_append, List.cons.injEq] at ha
        obtain ⟨rfl, rfl⟩ := ha
        have hq : q ≠ [] := fun hnil => habs (by rw [hnil]; rfl)
        refine .inl ⟨q, hq, rfl, ?_⟩
        rw [absPath, if_neg (fun hhead => habs ?_), hu]
        obtain ⟨c, q, rfl⟩ := List.exists_cons_of_ne_nil hq
        exact hhead
    · cases a with
      | nil => exact .inr (.inr (List.cons.inj ha).2.symm)
      | cons c t =>
        rw [List.cons_append, List.cons.injEq] at ha
        exact absurd (ha.2 ▸ by simp) hn

theorem TreeInv.root_hit (h : TreeInv disk s m) (hget : dirGetAbs s disk [47] = .ok (r, s')) (hr : r ≠ 0) :
    m [47] = some r ∧ dirGetHit s r = .ok (r, s') := by
  change dirGet s disk (pathOf []) = .ok (r, s') at hget
  have hnone : ∀ name ∈ ([] : List (List UInt8)), IsName name := fun x hx => absurd hx List.not_mem_nil
  rcases h.get_cases hnone with
    ⟨e, hm, hhit⟩ | ⟨-, ⟨-, hnull⟩ | ⟨l, name, l', e, hsplit, hl, -⟩⟩
  · rw [hhit] at hget
    obtain ⟨rfl, -⟩ := same_hit hget
    exact ⟨hm, hget⟩
  · rw [hnull] at hget
    cases hget
    exact absurd rfl hr
  · exact absurd (List.append_eq_nil_iff.mp hsplit.symm).1 hl

theorem stem_ne_root (hnames : ∀ x ∈ names, IsName x) : stem names ≠ [47] := by
  cases names with
  | nil => exact fun h => by cases h
  | cons x l =>
    intro h
    rw [stem_cons, List.cons.injEq] at h
    exact (hnames x List.mem_cons_self).nonempty (List.append_eq_nil_iff.mp h.2).1

theorem absPath_empty (hnames : ∀ x ∈ names, IsName x) (hne : names ≠ []) (hcwd : s.str d = pathOf names) :
    absPath (s.inDir d) [] = stem (names ++ [[]]) := by
  change sumPath (s.str d) [] = _
  rw [hcwd, pathOf_of_ne hne, sumPath, if_neg (getLast_stem hnames), List.append_nil, stem_snoc]

/-- **The empty path** in a directory other than the root: the lookup finds that directory, or it does other things than
that of the root. -/
theorem TreeInv.empty_path (h : TreeInv disk s m) (hnames : ∀ x ∈ names, IsName x) (hne : names ≠ [])
    (hcwd : s.str d = pathOf names) (hget : dirGetAbs s disk [47] = .ok (r, s')) (hr : r ≠ 0) :
    dirGet (s.inDir d) disk [] ≠ .ok (r, s'.inDir d) := by
  obtain ⟨hm, hhit⟩ := h.root_hit hget hr
  have hcomps : ∀ x ∈ names ++ [[]], IsComp x := List.forall_mem_append.mpr
    ⟨fun x hx => (hnames x hx).comp, List.forall_mem_singleton.mpr ⟨List.not_mem_nil, List.not_mem_nil⟩⟩
  have hcases := (h.same (same_inDir s d)).log_cases (absPath_empty hnames hne hcwd) hcomps (by simp)
  rw [trimmed_concat hne] at hcases
  rw [← dirGetLog_result]
  rcases hcases with ⟨e, he, hlog⟩ | ⟨-, ⟨-, -, hlog⟩ | ⟨l, rest, e, -, -, hlog⟩⟩
  · rw [hlog]
    intro hok
    obtain ⟨rfl, -⟩ := same_hit hok
    exact stem_ne_root hnames ((h.mapped _ _ he).2.symm.trans (h.mapped _ _ hm).2)
  · rw [hlog]
    intro hok
    exact hr (Prod.mk.inj (Except.ok.inj hok)).1.symm
  · rw [hlog]
    intro hok
    rw [descendLog_result] at hok
    -- no `dir_set` was called, and yet the root has one reference more
    obtain ⟨hquiet, -⟩ := descend_rule (I := Quiet (s.inDir d)) (P := fun _ _ => True)
      (fun _ _ _ hq _ hparse => ⟨hq.trans (quiet_parseDir hparse), trivial, trivial⟩) (fun _ _ _ _ _ => trivial)
      (fun _ _ => trivial) hok (.refl _) trivial
    have hsame : (s'.dentries r).refCount = (s.dentries r).refCount := hquiet.2 (same_hit hhit).2.sets r
    rw [hit_refs hhit] at hsame
    omega

/-- **`dir_get_parent`** gives the directory of the entry `n` that a lookup from the root finds, and the name `n`,
exactly if something is before the last slash of the path, or the path is `"/n"` and the current directory is the
root. -/
theorem dirGetParent_iff {c : PathCfg} (hreach : Reachable disk c) (hfound : c.dir.Found)
    (hnames : ∀ x ∈ names, IsName x) (hcwd : c.dir.str d = pathOf names) (hn : n ≠ []) (hslash : 47 ∉ n)
    (hpath : absPath (c.dir.inDir d) path = p ++ 47 :: n)
    (hget : dirGetAbs c.dir disk (if p = [] then [47] else p) = .ok (r, s')) (hr : r ≠ 0) :
    dirGetParent (c.dir.inDir d) disk path = .ok (r, n, s'.inDir d) ↔
      (∃ q, q ≠ [] ∧ path = q ++ 47 :: n) ∨ path = 47 :: n ∧ names = [] := by
  obtain ⟨s₀, s, ops, h₀, hboot, hrun⟩ := hreach
  obtain ⟨m, hm⟩ := treeInv_run h₀ hboot hrun hfound
  -- the lookup of the directory by a task in another directory
  have hdir : dirGetAbs (c.dir.inDir d) disk (if p = [] then [47] else p) = .ok (r, s'.inDir d) := by
    rw [dirGetAbs_inDir, hget]
    rfl
  rcases absPath_split hslash hpath with ⟨q, hq, rfl, rfl⟩ | ⟨rfl, rfl⟩ | rfl
  · refine iff_of_true ?_ (.inl ⟨q, hq, rfl⟩)
    have hne : absPath (c.dir.inDir d) q ≠ [] := by
      unfold absPath sumPath
      split_ifs
      · exact hq
      all_goals simp [hq]
    rw [if_neg hne] at hdir
    rw [dirGetParent_slash _ _ _ hslash, show dirGet (c.dir.inDir d) disk q = .ok (r, s'.inDir d) from hdir]
    rfl
  · rw [if_pos rfl] at hdir hget
    rw [← List.nil_append (47 :: n), dirGetParent_slash _ _ _ hslash]
    by_cases hne : names = []
    · subst hne
      refine iff_of_true ?_ (.inr ⟨rfl, rfl⟩)
      have hroot : dirGet (c.dir.inDir d) disk [] = .ok (r, s'.inDir d) := by
        change dirGetAbs _ disk (sumPath (c.dir.str d) []) = _
        rw [hcwd]
        exact hdir
      rw [hroot]
      rfl
    · refine iff_of_false (fun hok => ?_) ?_
      · obtain ⟨⟨e, s₁⟩, hempty, hok⟩ := eq_ok_of_bind hok
        cases hok
        exact hm.empty_path hnames hne hcwd hget hr hempty
      · rintro (⟨q, hq, hsplit⟩ | ⟨-, hnil⟩)
        · exact hq (List.append_cancel_right hsplit.symm)
        · exact hne hnil
  · refine iff_of_false (fun hok => ?_) ?_
    · rw [dirGetParent_noSlash _ _ hslash] at hok
      obtain ⟨⟨e, s₁⟩, -, hok⟩ := eq_ok_of_bind hok
      -- the name has lost its first byte
      obtain ⟨c, n, rfl⟩ := List.exists_cons_of_ne_nil hn
      have hname : n = c :: n := (Prod.mk.inj (Prod.mk.inj (Except.ok.inj hok)).2).1
      exact List.cons_ne_self c n hname.symm
    · rintro (⟨q, -, hsplit⟩ | ⟨hsplit, -⟩)
      · exact hslash (hsplit ▸ by simp)
      · exact hslash (hsplit ▸ List.mem_cons_self)

theorem absolute_split (s : Dentries) (p n : List UInt8) (h : (p ++ 47 :: n).head? = some 47) :
    absPath s (p ++ 47 :: n) = p ++ 47 :: n := if_pos h

theorem exists_result {x : Except Stop (ℕ × Dentries)} (h : (x.toOption.any fun y => y.1 = r) = true) :
    ∃ s', x = .ok (r, s') := by
  obtain ⟨⟨e, s'⟩, hx, he⟩ := (Option.any_eq_true ..).mp h
  obtain rfl : e = r := of_decide_eq_true he
  exact ⟨s', eq_ok_of_toOption hx⟩

/-- The directory of `"/a/b"`, in the directory `"/a"`. -/
theorem dirGetParent_iff_tree : ∃ (c : PathCfg) (s' : Dentries), Reachable treeDisk c ∧ 108 ∈ c.held ∧
    c.dir.str 108 = [47, 97] ∧
    dirGetParent (c.dir.inDir 108) treeDisk [47, 97, 47, 98] = .ok (108, [98], s'.inDir 108) := by
  obtain ⟨c, hreach, hp⟩ := exists_reachable treeDisk [.get treeDisk [47, 97]]
    (fun c => decide (c.dir.Found ∧ 108 ∈ c.held ∧ c.dir.str 108 = [47, 97]) &&
      (dirGetAbs c.dir treeDisk [47, 97]).toOption.any fun y => y.1 = 108)
    (List.forall_mem_singleton.mpr rfl) (by decide +kernel)
  rw [Bool.and_eq_true] at hp
  obtain ⟨hfound, hheld, hcwd⟩ := of_decide_eq_true hp.1
  obtain ⟨s', hget⟩ := exists_result hp.2
  have hnames : ∀ x ∈ [([97] : List UInt8)], IsName x := List.forall_mem_singleton.mpr (by decide)
  have hparent := dirGetParent_iff (p := [47, 97]) hreach hfound hnames hcwd (by decide : ([98] : List UInt8) ≠ [])
    (by decide) (absolute_split _ [47, 97] [98] rfl) hget (by decide)
  exact ⟨c, s', hreach, hheld, hcwd, hparent.mpr (.inl ⟨[47, 97], by decide, rfl⟩)⟩

/-- **`"/a"` and `"b"` in the directory `"/a"`**: the first is taken for an entry of `"/a"` and not of the root, and the
name of the second is empty. -/
theorem top_level_in_cwd : ∃ (c : PathCfg) (s₁ s₂ : Dentries), Reachable treeDisk c ∧ c.dir.Found ∧ 108 ∈ c.held ∧
    c.dir.str 108 = [47, 97] ∧
    dirGetAbs c.dir treeDisk [47] = .ok (102, s₁) ∧ dirGetAbs c.dir treeDisk [47, 97] = .ok (108, s₂) ∧
    (∃ s', dirGetParent (c.dir.inDir 108) treeDisk [47, 97] = .ok (108, [97], s')) ∧
    (∃ s', dirGetParent (c.dir.inDir 102) treeDisk [47, 97] = .ok (102, [97], s')) ∧
    ∃ s', dirGetParent (c.dir.inDir 108) treeDisk [98] = .ok (108, [], s') := by
  obtain ⟨c, hreach, hp⟩ := exists_reachable treeDisk [.get treeDisk [47, 97]]
    (fun c => decide (c.dir.Found ∧ 108 ∈ c.held ∧ c.dir.str 108 = [47, 97]) &&
      ((dirGetAbs c.dir treeDisk [47]).toOption.any fun y => y.1 = 102) &&
      ((dirGetAbs c.dir treeDisk [47, 97]).toOption.any fun y => y.1 = 108) &&
      ((dirGet (c.dir.inDir 108) treeDisk []).toOption.any fun y => y.1 = 108) &&
      (dirGet (c.dir.inDir 102) treeDisk []).toOption.any fun y => y.1 = 102)
    (List.forall_mem_singleton.mpr rfl) (by decide +kernel)
  simp only [Bool.and_eq_true] at hp
  obtain ⟨⟨⟨⟨hstate, hroot⟩, ha⟩, hcwd⟩, htop⟩ := hp
  obtain ⟨hfound, hheld, hstr⟩ := of_decide_eq_true hstate
  obtain ⟨s₁, hroot⟩ := exists_result hroot
  obtain ⟨s₂, ha⟩ := exists_result ha
  obtain ⟨s₃, hcwd⟩ := exists_result hcwd
  obtain ⟨s₄, htop⟩ := exists_result htop
  refine ⟨c, s₁, s₂, hreach, hfound, hheld, hstr, hroot, ha, ⟨s₃, ?_⟩, ⟨s₄, ?_⟩, s₃, ?_⟩
  · refine (dirGetParent_slash (n := [97]) _ _ [] (by decide)).trans ?_
    rw [hcwd]
    rfl
  · refine (dirGetParent_slash (n := [97]) _ _ [] (by decide)).trans ?_
    rw [htop]
    rfl
  · rw [dirGetParent_noSlash _ _ (by decide), hcwd]
    rfl

end BulbOS.Dentry
