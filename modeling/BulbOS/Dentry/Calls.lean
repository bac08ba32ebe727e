import BulbOS.Dentry.Model
import BulbOS.Lib.Stop

/-!
# What the calls of `dir.c` do

* `Same`: only counts and links of dentries change; `Freed`: a dentry is freed;
* `dirEvict_cases`, `dirSet_cases`, `parseEntry_cases`, `ext2ParseDir_cases`: a call that returns, step by step;
* `dirEvictLoop_rule`, `descend_rule`, `dirGet_rule`: what every step keeps, the loops keep.
-/

namespace BulbOS.Dentry

open KLib BulbOS.Table BulbOS.Inode

variable {s s' s'' : Dentries} {disk : Disk} {d dir entry path device inodeN offset : ℕ}

/-! ## Counts and links -/

/-- The caches, the strings, and which inode and path a dentry has, are the same. -/
structure Same (s s' : Dentries) : Prop where
  inodes : s'.inodes = s.inodes
  live : s'.live = s.live
  table : s'.table = s.table
  keys : s'.keys = s.keys
  strs : s'.strs = s.strs
  paths : s'.paths = s.paths
  sets : s'.sets = s.sets
  inode : ∀ d, (s'.dentries d).inode = (s.dentries d).inode
  path : ∀ d, (s'.dentries d).path = (s.dentries d).path
  valid : ∀ d, (s'.dentries d).valid = (s.dentries d).valid

theorem Same.refl (s : Dentries) : Same s s :=
  ⟨rfl, rfl, rfl, rfl, rfl, rfl, rfl, fun _ => rfl, fun _ => rfl, fun _ => rfl⟩

theorem Same.trans (h : Same s s') (h' : Same s' s'') : Same s s'' :=
  ⟨h'.inodes.trans h.inodes, h'.live.trans h.live, h'.table.trans h.table, h'.keys.trans h.keys,
    h'.strs.trans h.strs, h'.paths.trans h.paths, h'.sets.trans h.sets, fun d => (h'.inode d).trans (h.inode d),
    fun d => (h'.path d).trans (h.path d), fun d => (h'.valid d).trans (h.valid d)⟩

theorem Same.str (h : Same s s') (d : ℕ) : s'.str d = s.str d := by
  rw [Dentries.str, Dentries.str, h.strs, h.path]

@[simp] theorem set_self (s : Dentries) (d : ℕ) (x : DentryT) : (s.set d x).dentries d = x :=
  Function.update_self ..

theorem set_of_ne (s : Dentries) {d e : ℕ} (x : DentryT) (h : e ≠ d) :
    (s.set d x).dentries e = s.dentries e :=
  Function.update_of_ne h ..

theorem same_set {x : DentryT} (hi : x.inode = (s.dentries d).inode) (hp : x.path = (s.dentries d).path)
    (hv : x.valid = (s.dentries d).valid) : Same s (s.set d x) := by
  refine ⟨rfl, rfl, rfl, rfl, rfl, rfl, rfl, fun e => ?_, fun e => ?_, fun e => ?_⟩
  all_goals
    by_cases he : e = d
    · subst he
      rw [set_self]
      assumption
    · rw [set_of_ne _ _ he]

theorem Same.set {x : DentryT} (h : Same s s') (hi : x.inode = (s'.dentries d).inode)
    (hp : x.path = (s'.dentries d).path) (hv : x.valid = (s'.dentries d).valid) : Same s (s'.set d x) :=
  h.trans (same_set hi hp hv)

theorem same_addRef (s : Dentries) (d : ℕ) (k : ℤ) : Same s (s.addRef d k) := same_set rfl rfl rfl

theorem same_lru (s : Dentries) (lru : Lru) : Same s { s with lru := lru } :=
  ⟨rfl, rfl, rfl, rfl, rfl, rfl, rfl, fun _ => rfl, fun _ => rfl, fun _ => rfl⟩

theorem same_release (s : Dentries) (d : ℕ) : Same s (dirRelease s d) := by
  unfold dirRelease
  dsimp only
  split_ifs
  · exact (same_addRef s d (-1)).trans (same_lru _ _)
  · exact same_addRef s d (-1)

theorem same_hit {r : ℕ} (h : dirGetHit s d = .ok (r, s')) : r = d ∧ Same s s' := by
  unfold dirGetHit at h
  dsimp only at h
  split_ifs at h
  · obtain ⟨lru, -, h⟩ := eq_ok_of_bind h
    cases h
    exact ⟨rfl, (same_addRef s _ 1).trans (same_lru _ _)⟩
  · cases h
    exact ⟨rfl, same_addRef s _ 1⟩

theorem same_linkChild (s : Dentries) (dir entry : ℕ) : Same s (linkChild s dir entry) := by
  unfold linkChild
  dsimp only
  refine Same.set ?_ rfl rfl rfl
  refine Same.set ?_ rfl rfl rfl
  refine Same.set ?_ rfl rfl rfl
  refine Same.set ?_ rfl rfl rfl
  split_ifs
  · refine Same.set ?_ rfl rfl rfl
    exact (same_addRef s dir 1).set rfl rfl rfl
  · exact (same_addRef s dir 1).set rfl rfl rfl

/-- `dir_add_child` finds the path in the table of the directory, or links the entry. -/
theorem dirAddChild_cases (h : dirAddChild s dir entry = .ok s') :
    dir ∈ s.live ∧ (s' = s ∨ ∃ tables, s' = linkChild { s with tables := tables } dir entry) := by
  unfold dirAddChild at h
  dsimp only at h
  by_cases hdir : dir ∉ s.live
  · rw [if_pos hdir] at h
    cases h
  rw [if_neg hdir] at h
  refine ⟨not_not.mp hdir, ?_⟩
  split at h
  · cases h
  · cases h
    exact .inl rfl
  · split at h
    · cases h
    · cases h
      exact .inr ⟨_, rfl⟩

theorem same_addChild (h : dirAddChild s dir entry = .ok s') : Same s s' := by
  obtain ⟨-, rfl | ⟨tables, rfl⟩⟩ := dirAddChild_cases h
  · exact .refl _
  · have hs : Same s { s with tables := tables } :=
      ⟨rfl, rfl, rfl, rfl, rfl, rfl, rfl, fun _ => rfl, fun _ => rfl, fun _ => rfl⟩
    exact hs.trans (same_linkChild _ _ _)

theorem dirTable_cases (h : dirTable s dir = .ok s') : s' = s ∨ ∃ table tables liveTables,
    s' = { s.pop.set dir { s.dentries dir with table := table } with
      tables := tables, liveTables := liveTables } := by
  unfold dirTable at h
  dsimp only at h
  by_cases ht : (s.dentries dir).table ≠ 0
  · rw [if_pos ht] at h
    cases h
    exact .inl rfl
  rw [if_neg ht] at h
  split at h
  · cases h
  · split_ifs at h
    cases h
    exact .inr ⟨_, _, _, rfl⟩

theorem same_table (h : dirTable s dir = .ok s') : Same s s' := by
  rcases dirTable_cases h with rfl | ⟨table, tables, liveTables, rfl⟩
  · exact .refl _
  · have hpop : Same s s.pop := ⟨rfl, rfl, rfl, rfl, rfl, rfl, rfl, fun _ => rfl, fun _ => rfl, fun _ => rfl⟩
    have hs : Same s (s.pop.set dir { s.dentries dir with table := table }) := hpop.trans (same_set rfl rfl rfl)
    exact ⟨hs.inodes, hs.live, hs.table, hs.keys, hs.strs, hs.paths, hs.sets, hs.inode, hs.path, hs.valid⟩

/-! ## Eviction -/

/-- The dentry `old` is freed, with its path. -/
structure Freed (s s' : Dentries) (old : ℕ) : Prop where
  inodes : s'.inodes = s.inodes
  live : s'.live = s.live.erase old
  table : s'.table = s.table
  keys : s'.keys = s.keys
  strs : s'.strs = s.strs
  paths : s'.paths = s.paths.erase (s.dentries old).path
  sets : s'.sets = s.sets
  inode : ∀ d, (s'.dentries d).inode = (s.dentries d).inode
  path : ∀ d, (s'.dentries d).path = (s.dentries d).path
  valid : ∀ d, (s'.dentries d).valid = (s.dentries d).valid
  /-- No count changes, since the children of a valid dentry would be released. -/
  refs : (s.dentries old).valid = false → ∀ d, (s'.dentries d).refCount = (s.dentries d).refCount

theorem same_releaseEntries {old fuel child : ℕ} (h : dirReleaseEntries old fuel s child = .ok s') :
    Same s s' := by
  induction fuel generalizing s child with
  | zero => cases h
  | succ fuel ih =>
    rw [dirReleaseEntries] at h
    split_ifs at h
    · cases h
      exact .refl _
    · split at h
      · cases h
      · rename_i ret t hrem
        have hs : Same s { s with tables := Function.update s.tables (s.dentries old).table t } :=
          ⟨rfl, rfl, rfl, rfl, rfl, rfl, rfl, fun _ => rfl, fun _ => rfl, fun _ => rfl⟩
        exact hs.trans ((same_release _ _).trans (ih h))

theorem tableFree_cases {table : ℕ} (h : tableFree s table = .ok s') :
    ∃ liveTables, s' = { s with liveTables := liveTables } := by
  unfold tableFree at h
  split_ifs at h
  · cases h
    exact ⟨_, rfl⟩
  · cases h
    exact ⟨_, rfl⟩

theorem dirFree_spec {old : ℕ} (h : dirFree s old = .ok s') : Freed s s' old := by
  unfold dirFree at h
  obtain ⟨lru, -, h⟩ := eq_ok_of_bind h
  dsimp only at h
  obtain ⟨s₁, hs, hv, h⟩ : ∃ s₁, Same { s with lru := lru, paths := s.paths.erase (s.dentries old).path } s₁ ∧
      ((s.dentries old).valid = false → ∀ d, (s₁.dentries d).refCount = (s.dentries d).refCount) ∧
      (do let s ← tableFree s₁ (s₁.dentries old).table; return { s with live := s.live.erase old }) = .ok s' := by
    split_ifs at h with hv
    · obtain ⟨s₁, h₁, h⟩ := eq_ok_of_bind h
      refine ⟨s₁, same_releaseEntries h₁, fun hv' => ?_, h⟩
      rw [hv] at hv'
      cases hv'
    · exact ⟨_, .refl _, fun _ _ => rfl, h⟩
  obtain ⟨s₂, h₂, h⟩ := eq_ok_of_bind h
  cases h
  obtain ⟨liveTables, rfl⟩ := tableFree_cases h₂
  exact ⟨hs.inodes, congrArg (List.erase · old) hs.live, hs.table, hs.keys, hs.strs, hs.paths, hs.sets, hs.inode,
    hs.path, hs.valid, hv⟩

/-- **`dir_evict`** frees the last dentry of the list, which has no references. -/
theorem dirEvict_cases (h : dirEvict s = .ok s') : ∃ old table, old ∈ s.live ∧ (s.dentries old).refCount = 0 ∧
    htRemove s.table (s.str old) = some (0, table) ∧
    Freed { s with table := table, keys := keysRemove s.table s.keys (s.str old) } s' old := by
  unfold dirEvict at h
  dsimp only at h
  by_cases h₀ : s.lru.ltail = 0
  · rw [if_pos h₀] at h
    cases h
  rw [if_neg h₀] at h
  by_cases hlive : s.lru.ltail ∉ s.live
  · rw [if_pos hlive] at h
    cases h
  rw [if_neg hlive] at h
  by_cases href : (s.dentries s.lru.ltail).refCount ≠ 0
  · rw [if_pos href] at h
    cases h
  rw [if_neg href] at h
  split at h
  · cases h
  · rename_i ret table hrem
    by_cases hret : ret ≠ 0
    · rw [if_pos hret] at h
      cases h
    rw [if_neg hret] at h
    rw [not_not] at hlive href hret
    exact ⟨_, table, hlive, href, hret ▸ hrem, dirFree_spec h⟩

theorem dirPut_cases {ret : ℤ} (h : dirPut s path d = .ok (ret, s')) : ∃ table,
    htSet s.fresh s.table (s.strs path) (some d) = some (ret, table) ∧
    s' = { s with
      table := table, keys := if ret = 0 then keysPut s.table s.keys (s.strs path) path else s.keys } := by
  unfold dirPut at h
  split at h
  · cases h
  · rename_i r table hset
    cases h
    exact ⟨table, hset, rfl⟩

/-- What an eviction and a `ht_set` keep, the loop of `dir_set` keeps. -/
theorem dirEvictLoop_rule {I : Dentries → Prop} {fuel : ℕ} {ret : ℤ}
    (hevict : ∀ s s', I s → dirEvict s = .ok s' → I s')
    (hput : ∀ s ret s', I s → dirPut s path d = .ok (ret, s') → I s')
    (h : dirEvictLoop path d fuel s = .ok (ret, s')) (h₀ : I s) : I s' := by
  induction fuel generalizing s with
  | zero => cases h
  | succ fuel ih =>
    rw [dirEvictLoop] at h
    obtain ⟨s₁, h₁, h⟩ := eq_ok_of_bind h
    obtain ⟨⟨ret', s₂⟩, h₂, h⟩ := eq_ok_of_bind h
    have hinv := hput _ _ _ (hevict _ _ h₀ h₁) h₂
    dsimp only at h
    split_ifs at h
    · exact ih h hinv
    · cases h
      exact hinv

/-! ## New dentries -/

/-- The state of `dir_set` after `dentry_alloc`. -/
def newDentry (s : Dentries) (device path inodeN offset inode : ℕ) (inodes : Inodes) : Dentries :=
  let d := s.heap 1
  let s₁ := s.pop.pop.set d { s.dentries d with
    valid := false, refCount := 1, offset := offset, inode := inode, path := path }
  { s₁ with
    inodes := inodeDup inodes inode
    live := d :: s.live
    lru := { s.lru with next := Function.update s.lru.next d 0, prev := Function.update s.lru.prev d 0 }
    sets := setCall s device path inodeN :: s.sets }

/-- **`dir_set`**: the inode, the dentry, and then `ht_set`, with evictions if it refuses. -/
theorem dirSet_cases (h : dirSet s device path inodeN offset = .ok (d, s')) : ∃ inode inodes ret s₁,
    inodeGet s.inodes (s.heap 0) device inodeN = .ok (inode, inodes) ∧ d = s.heap 1 ∧ d ≠ 0 ∧ d ∉ s.live ∧
    dirPut (newDentry s device path inodeN offset inode inodes) path d = .ok (ret, s₁) ∧
    (ret = 0 ∧ s' = s₁ ∨ ret ≠ 0 ∧ dirEvictLoop path d s₁.table.capacity s₁ = .ok (0, s')) := by
  unfold dirSet at h
  obtain ⟨⟨inode, inodes⟩, hget, h⟩ := eq_ok_of_bind h
  obtain ⟨⟨d', s₁⟩, halloc, h⟩ := eq_ok_of_bind h
  unfold dentryAlloc at halloc
  dsimp only at halloc
  by_cases hd : s.heap 1 = 0 ∨ s.heap 1 ∈ s.live
  · rw [if_pos (by exact hd)] at halloc
    cases halloc
  rw [if_neg (by exact hd)] at halloc
  rw [not_or] at hd
  cases halloc
  obtain ⟨⟨ret, s₂⟩, hput, h⟩ := eq_ok_of_bind h
  dsimp only at h
  by_cases hret : ret = 0
  · rw [if_pos hret] at h
    cases h
    exact ⟨inode, inodes, ret, _, hget, rfl, hd.1, hd.2, hput, .inl ⟨hret, rfl⟩⟩
  · rw [if_neg hret] at h
    obtain ⟨⟨ret', s₃⟩, hloop, h⟩ := eq_ok_of_bind h
    dsimp only at h
    split_ifs at h with hret'
    cases h
    exact ⟨inode, inodes, ret, s₂, hget, rfl, hd.1, hd.2, hput, .inr ⟨hret, hret' ▸ hloop⟩⟩

theorem newPath_cases {str : List UInt8} (h : newPath s str = .ok (path, s')) : path ≠ 0 ∧ path ∉ s.paths ∧
    s' = { s.pop with strs := Function.update s.strs path str, paths := path :: s.paths } := by
  unfold newPath at h
  dsimp only at h
  split_ifs at h with hp
  rw [not_or] at hp
  cases h
  exact ⟨hp.1, hp.2, rfl⟩

/-- **A round of `ext2_parse_dir`**. -/
theorem parseEntry_cases {e : Entry} (h : parseEntry s dir device e = .ok s') : dir ∈ s.live ∧ ∃ path s₁,
    newPath s ((sumPath (s.str dir) e.name).takeWhile (· ≠ 0)) = .ok (path, s₁) ∧
    (isDot e.name = true ∧ s' = s₁ ∨ isDot e.name = false ∧ ∃ child s₂ s₃,
      dirSet s₁ device path e.inode e.offset = .ok (child, s₂) ∧ dirAddChild s₂ dir child = .ok s₃ ∧
      s' = dirRelease s₃ child) := by
  unfold parseEntry at h
  by_cases hdir : dir ∉ s.live
  · rw [if_pos hdir] at h
    cases h
  rw [if_neg hdir] at h
  obtain ⟨⟨path, s₁⟩, hpath, h⟩ := eq_ok_of_bind h
  refine ⟨not_not.mp hdir, path, s₁, hpath, ?_⟩
  dsimp only at h
  by_cases hdot : isDot e.name = true
  · rw [if_pos hdot] at h
    cases h
    exact .inl ⟨hdot, rfl⟩
  · rw [if_neg hdot] at h
    obtain ⟨⟨child, s₂⟩, hset, h⟩ := eq_ok_of_bind h
    obtain ⟨s₃, hadd, h⟩ := eq_ok_of_bind h
    cases h
    exact .inr ⟨by simpa using hdot, child, s₂, s₃, hset, hadd, rfl⟩

theorem ext2ParseDir_cases (h : ext2ParseDir s disk dir = .ok s') : dir ∈ s.live ∧ ∃ s₁ inodes es,
    dirTable s dir = .ok s₁ ∧ inodeLock disk.inode s₁.inodes (s₁.dentries dir).inode = .ok inodes ∧
    dirEntries (disk.content (inodes.inodes (s₁.dentries dir).inode).data.device
      (inodes.inodes (s₁.dentries dir).inode).data.n) (inodes.inodes (s₁.dentries dir).inode).data.size
      ((inodes.inodes (s₁.dentries dir).inode).data.size + 1) 0 = some es ∧
    es.foldlM (fun s e => parseEntry s dir (inodes.inodes (s₁.dentries dir).inode).data.device e)
      { s₁ with inodes := inodes } = .ok s' := by
  unfold ext2ParseDir at h
  by_cases hdir : dir ∉ s.live
  · rw [if_pos hdir] at h
    cases h
  rw [if_neg hdir] at h
  obtain ⟨s₁, htable, h⟩ := eq_ok_of_bind h
  obtain ⟨inodes, hlock, h⟩ := eq_ok_of_bind h
  dsimp only at h
  refine ⟨not_not.mp hdir, s₁, inodes, ?_⟩
  split at h
  · cases h
  · rename_i es hes
    exact ⟨es, htable, hlock, hes, h⟩

theorem dirEntries_inode_lt {buffer : Mem} {size fuel i : ℕ} {es : List Entry}
    (h : dirEntries buffer size fuel i = some es) : ∀ e ∈ es, e.inode < 2 ^ 32 := by
  induction fuel generalizing i es with
  | zero => cases h
  | succ fuel ih =>
    rw [dirEntries] at h
    split_ifs at h
    · obtain ⟨rest, hrest, h⟩ := Option.bind_eq_some_iff.mp h
      cases h
      intro e he
      rcases List.mem_cons.mp he with rfl | he
      · exact load32_lt _ _
      · exact ih hrest e he
    · cases h
      intro e he
      cases he

/-! ## Lookup -/

/-- What `ext2_parse_dir` and a hit keep, `dir_get` keeps: `I` of the state, and `P` of the dentry it is at. -/
theorem descend_rule {I : Dentries → Prop} {P : Dentries → ℕ → Prop} {origLen fuel len r : ℕ}
    {buf : List UInt8}
    (hparse : ∀ s d s', I s → P s d → ext2ParseDir s disk d = .ok s' → I s' ∧ P s' d ∧ P s' (s'.dentries d).parent)
    (hfound : ∀ s key d, I s → htGet s.table key = some (some d) → P s d) (hnull : ∀ s, I s → P s 0)
    (h : descend disk origLen fuel s d buf len = .ok (r, s')) (h₀ : I s) (hP : P s d) : I s' ∧ P s' r := by
  induction fuel generalizing s d buf len with
  | zero => cases h
  | succ fuel ih =>
    rw [descend] at h
    by_cases hlen : len = origLen
    · rw [if_pos hlen] at h
      cases h
      exact ⟨h₀, hP⟩
    rw [if_neg hlen] at h
    obtain ⟨s₁, hparse₁, h⟩ := eq_ok_of_bind h
    obtain ⟨h₁, hP₁, hparent⟩ := hparse _ _ _ h₀ hP hparse₁
    dsimp only at h
    split_ifs at h
    · exact ih h h₁ hparent
    · exact ih h h₁ hP₁
    all_goals
      split at h
      · cases h
      · cases h
        exact ⟨h₁, hnull _ h₁⟩
      · rename_i e hget
        exact ih h h₁ (hfound _ _ _ h₁ hget)

/-- The first loop of `dir_iter_get` returns `NULL` or a dentry of the table. -/
theorem prefixLoop_found {fuel len r start : ℕ} {buf buf' : List UInt8}
    (h : prefixLoop s fuel buf len = .ok (r, buf', start)) :
    r = 0 ∨ ∃ key, htGet s.table key = some (some r) := by
  induction fuel generalizing buf len with
  | zero => cases h
  | succ fuel ih =>
    rw [prefixLoop] at h
    split_ifs at h
    · cases h
      exact .inl rfl
    · dsimp only at h
      split at h
      · cases h
      · rename_i e hget
        cases h
        exact .inr ⟨_, hget⟩
      · exact ih h

theorem dirGet_rule {I : Dentries → Prop} {P : Dentries → ℕ → Prop} {name : List UInt8} {r : ℕ}
    (hparse : ∀ s d s', I s → P s d → ext2ParseDir s disk d = .ok s' → I s' ∧ P s' d ∧ P s' (s'.dentries d).parent)
    (hfound : ∀ s key d, I s → htGet s.table key = some (some d) → P s d) (hnull : ∀ s, I s → P s 0)
    (hhit : ∀ s d r s', I s → P s d → dirGetHit s d = .ok (r, s') → I s' ∧ P s' r)
    (h : dirGet s disk name = .ok (r, s')) (h₀ : I s) : I s' ∧ P s' r := by
  unfold dirGet dirGetAbs at h
  dsimp only at h
  generalize (if name.head? = some 47 then name else sumPath (s.str s.currentDir) name) = abs at h
  split at h
  · cases h
  · rename_i e hget
    exact hhit _ _ _ _ h₀ (hfound _ _ _ h₀ hget) h
  · unfold dirIterGet at h
    obtain ⟨⟨e, buf, start⟩, hfirst, h⟩ := eq_ok_of_bind h
    dsimp only at h
    by_cases he : e = 0
    · rw [if_pos he] at h
      cases h
      exact ⟨h₀, hnull _ h₀⟩
    · rw [if_neg he] at h
      obtain ⟨key, hget⟩ := (prefixLoop_found hfirst).resolve_left he
      exact descend_rule hparse hfound hnull h h₀ (hfound _ _ _ h₀ hget)

end BulbOS.Dentry
