import BulbOS.Dentry.Refs

/-!
# One dentry for a path

Runs of `dir_get`, `dir_release` and `ext2_parse_dir`. A directory that is read again gets new dentries for entries
that have one; and a dentry that was found by reading a directory is not counted for the caller, so that it can be
freed while it is a child.

* `Child`: the child list of a dentry; `OnePerPath`: the table has the dentries that are in use, and no others;
* `PathInv`: the table before anything was found twice or freed; `PathInv.set`, `PathInv.addChild`, `keeps_parseDir`;
* **`one_dentry_per_path`**: as long as no `dir_set` finds its path in the table or the table full, there is one dentry
  for a path.
-/

namespace BulbOS.Dentry

open KLib BulbOS.Table BulbOS.Inode

variable {s s' s'' : Dentries} {disk : Disk} {m : List UInt8 → Option ℕ} {d dir entry path device inodeN offset : ℕ}

/-! ## Child lists -/

/-- The dentries of a child list. -/
inductive Child (s : Dentries) (dir : ℕ) : ℕ → Prop
  | first (h : (s.dentries dir).children ≠ 0) : Child s dir (s.dentries dir).children
  | next {d : ℕ} (t : Child s dir d) (h : (s.dentries d).nextSib ≠ 0) : Child s dir (s.dentries d).nextSib

/-- The links that a lookup follows. -/
structure Links where
  children : ℕ
  nextSib : ℕ
  parent : ℕ

def DentryT.links (x : DentryT) : Links := ⟨x.children, x.nextSib, x.parent⟩

def Dentries.links (s : Dentries) (d : ℕ) : Links := (s.dentries d).links

theorem links_set (s : Dentries) (d : ℕ) (x : DentryT) : (s.set d x).links = Function.update s.links d x.links :=
  Function.comp_update ..

theorem links_set_same {x : DentryT} (h : x.links = s.links d) : (s.set d x).links = s.links := by
  rw [links_set, h, Function.update_eq_self]

theorem links_addRef (s : Dentries) (d : ℕ) (k : ℤ) : (s.addRef d k).links = s.links := links_set_same rfl

theorem Child.congr {e : ℕ} (h : Child s' dir e) (hl : s'.links = s.links) : Child s dir e := by
  have hc : ∀ d, (s'.dentries d).children = (s.dentries d).children := fun d =>
    congrArg Links.children (congrFun hl d)
  have hn : ∀ d, (s'.dentries d).nextSib = (s.dentries d).nextSib := fun d => congrArg Links.nextSib (congrFun hl d)
  induction h with
  | first h₀ =>
    rw [hc] at h₀ ⊢
    exact .first h₀
  | next t h₀ ih =>
    rw [hn] at h₀ ⊢
    exact .next ih h₀

theorem links_release (s : Dentries) (d : ℕ) : (dirRelease s d).links = s.links := by
  unfold dirRelease
  dsimp only
  split_ifs
  · exact links_set_same rfl
  · exact links_set_same rfl

theorem links_hit {r : ℕ} (h : dirGetHit s d = .ok (r, s')) : s'.links = s.links := by
  unfold dirGetHit at h
  dsimp only at h
  split_ifs at h
  · obtain ⟨lru, -, h⟩ := eq_ok_of_bind h
    cases h
    exact links_set_same rfl
  · cases h
    exact links_set_same rfl

theorem links_table (h : dirTable s dir = .ok s') : s'.links = s.links := by
  rcases dirTable_cases h with rfl | ⟨table, tables, liveTables, rfl⟩
  · rfl
  · exact links_set_same (s := s.pop) rfl

/-- **`dir_add_child`** makes the entry the first child. -/
theorem links_linkChild (hne : dir ≠ entry) : (linkChild s dir entry).links =
    Function.update (Function.update s.links entry ⟨(s.dentries entry).children, (s.dentries dir).children, dir⟩)
      dir ⟨entry, (s.dentries dir).nextSib, (s.dentries dir).parent⟩ := by
  let s₁ := s.addRef dir 1
  let s₂ := s₁.set entry { s₁.dentries entry with parent := dir }
  let first := (s₂.dentries dir).children
  let s₃ := if first ≠ 0 then s₂.set first { s₂.dentries first with prevSib := entry } else s₂
  let s₄ := s₃.set entry { s₃.dentries entry with nextSib := (s₃.dentries dir).children }
  let s₅ := (s₄.set entry { s₄.dentries entry with prevSib := 0 }).addRef entry 1
  change (s₅.set dir { s₅.dentries dir with children := entry }).links = _
  have h₁ : s₁.links = s.links := links_addRef ..
  have h₂ : s₂.links = Function.update s₁.links entry { s₁.links entry with parent := dir } := links_set ..
  have h₃ : s₃.links = s₂.links := by
    by_cases hfirst : first ≠ 0
    · exact (congrArg Dentries.links (if_pos hfirst)).trans (links_set_same rfl)
    · exact congrArg Dentries.links (if_neg hfirst)
  have h₄ : s₄.links = Function.update s₃.links entry { s₃.links entry with nextSib := (s₃.links dir).children } :=
    links_set ..
  have h₅ : s₅.links = s₄.links := (links_addRef ..).trans (links_set_same rfl)
  have h₆ : (s₅.set dir { s₅.dentries dir with children := entry }).links =
      Function.update s₅.links dir { s₅.links dir with children := entry } := links_set ..
  rw [h₆, h₅, h₄, h₃, h₂, h₁, Function.update_idem, Function.update_self, Function.update_of_ne hne,
    Function.update_of_ne hne]
  rfl

/-- A child list has the new child, or what was in it before. -/
theorem child_linkChild {dir' e : ℕ} (hne : dir ≠ entry) (hun : ¬ Child s dir' entry)
    (h : Child (linkChild s dir entry) dir' e) : e = entry ∧ dir' = dir ∨ Child s dir' e := by
  have hlinks : ∀ d, (linkChild s dir entry).links d = _ := congrFun (links_linkChild hne)
  have hc : ∀ d, d ≠ dir → ((linkChild s dir entry).dentries d).children = (s.dentries d).children := by
    intro d hd
    have hl := hlinks d
    rw [Function.update_of_ne hd] at hl
    by_cases hde : d = entry
    · subst hde
      rw [Function.update_self] at hl
      exact congrArg Links.children hl
    · rw [Function.update_of_ne hde] at hl
      exact congrArg Links.children hl
  have hn : ∀ d, d ≠ entry → ((linkChild s dir entry).dentries d).nextSib = (s.dentries d).nextSib := by
    intro d hd
    have hl := hlinks d
    by_cases hdd : d = dir
    · subst hdd
      rw [Function.update_self] at hl
      exact congrArg Links.nextSib hl
    · rw [Function.update_of_ne hdd, Function.update_of_ne hd] at hl
      exact congrArg Links.nextSib hl
  have hfirst : ((linkChild s dir entry).dentries dir).children = entry := by
    have hl := hlinks dir
    rw [Function.update_self] at hl
    exact congrArg Links.children hl
  have hnext : ((linkChild s dir entry).dentries entry).nextSib = (s.dentries dir).children := by
    have hl := hlinks entry
    rw [Function.update_of_ne hne.symm, Function.update_self] at hl
    exact congrArg Links.nextSib hl
  induction h with
  | first h₀ =>
    by_cases hd : dir' = dir
    · rw [hd, hfirst]
      exact .inl ⟨rfl, rfl⟩
    · rw [hc dir' hd] at h₀ ⊢
      exact .inr (.first h₀)
  | @next d t h₀ ih =>
    rcases ih with ⟨rfl, rfl⟩ | hchild
    · rw [hnext] at h₀ ⊢
      exact .inr (.first h₀)
    · have hd : d ≠ entry := fun e => hun (e ▸ hchild)
      rw [hn d hd] at h₀ ⊢
      exact .inr (.next hchild h₀)

/-! ## The invariant -/

/-- The call finds a new path and room in the table, and the memory of the new dentry is clear. -/
def SetCall.Plain (call : SetCall) : Prop := call.cached = false ∧ call.refused = false ∧ call.cleared = true

instance (call : SetCall) : Decidable call.Plain := inferInstanceAs (Decidable (_ ∧ _))

def Dentries.Plain (s : Dentries) : Prop := ∀ call ∈ s.sets, call.Plain

/-- The table has exactly the dentries that are in use, by their paths, and its keys are these paths; the links lead
from dentries in use to dentries in use. -/
structure PathInv (s : Dentries) (m : List UInt8 → Option ℕ) : Prop where
  table : TableInv s.table m
  cached : ∀ k d, m k = some d ↔ d ∈ s.live ∧ s.str d = k
  keys : ∀ i < (s.table.capacity : ℕ), (s.table.entries i).state = .valid →
    ∃ d ∈ s.live, s.keys i = (s.dentries d).path
  paths : ∀ d ∈ s.live, (s.dentries d).path ∈ s.paths
  nonnull : 0 ∉ s.live
  children : ∀ dir ∈ s.live, ∀ d, Child s dir d → d ∈ s.live
  parent : ∀ d ∈ s.live, (s.dentries d).parent = 0 ∨ (s.dentries d).parent ∈ s.live

theorem PathInv.linked (h : PathInv s m) (hs : Same s s')
    (hchildren : ∀ dir ∈ s.live, ∀ d, Child s' dir d → d ∈ s.live)
    (hparent : ∀ d ∈ s.live, (s'.dentries d).parent = 0 ∨ (s'.dentries d).parent ∈ s.live) : PathInv s' m := by
  refine ⟨hs.table ▸ h.table, fun k d => ?_, fun i hi hv => ?_, fun d hd => ?_, hs.live ▸ h.nonnull, ?_, ?_⟩
  · rw [h.cached, hs.live, hs.str]
  · rw [hs.table] at hi hv
    obtain ⟨d, hd, hk⟩ := h.keys i hi hv
    exact ⟨d, hs.live ▸ hd, by rw [hs.keys, hs.path, hk]⟩
  · rw [hs.path, hs.paths]
    exact h.paths d (hs.live ▸ hd)
  · rw [hs.live]
    exact hchildren
  · rw [hs.live]
    exact hparent

theorem PathInv.same (h : PathInv s m) (hs : Same s s') (hl : s'.links = s.links) : PathInv s' m := by
  refine h.linked hs (fun dir hdir d hc => h.children dir hdir d (hc.congr hl)) fun d hd => ?_
  have hp : (s'.dentries d).parent = (s.dentries d).parent := congrArg Links.parent (congrFun hl d)
  rw [hp]
  exact h.parent d hd

theorem PathInv.inodes (h : PathInv s m) (inodes : Inodes) : PathInv { s with inodes := inodes } m :=
  ⟨h.table, h.cached, h.keys, h.paths, h.nonnull, fun dir hdir d hc => h.children dir hdir d (hc.congr rfl), h.parent⟩

theorem PathInv.alloc {str : List UInt8} (h : PathInv s m) (hp : newPath s str = .ok (path, s')) :
    PathInv s' m ∧ path ∈ s'.paths ∧ s'.strs path = str ∧ s'.live = s.live ∧ ∀ d ∈ s.live, s'.str d = s.str d := by
  obtain ⟨-, hnew, rfl⟩ := newPath_cases hp
  have hstr : ∀ d ∈ s.live, (Function.update s.strs path str) (s.dentries d).path = s.str d := fun d hd =>
    Function.update_of_ne (fun e : (s.dentries d).path = path => hnew (e ▸ h.paths d hd)) ..
  refine ⟨⟨h.table, fun k d => ?_, h.keys, fun d hd => List.mem_cons_of_mem _ (h.paths d hd), h.nonnull,
    fun dir hdir d hc => h.children dir hdir d (hc.congr rfl), h.parent⟩, List.mem_cons_self, Function.update_self ..,
    rfl, hstr⟩
  rw [h.cached]
  refine and_congr_right fun hd => ?_
  change s.str d = k ↔ Function.update s.strs path str (s.dentries d).path = k
  rw [hstr d hd]

theorem dirSet_sets (h : dirSet s device path inodeN offset = .ok (d, s')) :
    s'.sets = setCall s device path inodeN :: s.sets := by
  obtain ⟨inode, inodes, ret, s₁, -, -, -, -, hput, ⟨-, rfl⟩ | ⟨-, hloop⟩⟩ := dirSet_cases h
  · exact (dirPut_frame hput).sets
  · refine dirEvictLoop_rule (I := fun t => t.sets = setCall s device path inodeN :: s.sets)
      (fun t t' ht he => ?_) (fun t ret t' ht hp => ?_) hloop (dirPut_frame hput).sets
    · rw [(dirEvict_frame he).sets, ht]
    · rw [(dirPut_frame hp).sets, ht]

theorem PathInv.put {s₁ : Dentries} {ret : ℤ} (h : TableInv s.table m) (hm : m (s.strs path) = none)
    (hroom : ¬ s.table.Overloaded) (hput : dirPut s path d = .ok (ret, s₁)) :
    ret = 0 ∧ ∃ table index, TableInv table (Function.update m (s.strs path) (some d)) ∧
      table.capacity = s.table.capacity ∧
      table.entries = Function.update s.table.entries (index % s.table.capacity) ⟨s.strs path, some d, .valid⟩ ∧
      s₁ = { s with table := table, keys := Function.update s.keys (index % s.table.capacity) path } := by
  obtain ⟨table, hset, rfl⟩ := dirPut_cases hput
  have hsize : s.table.size * 100 ≤ s.table.capacity * s.table.maxLoad := by
    rw [h.overloaded_iff] at hroom
    omega
  obtain ⟨t', ht', hinv⟩ := h.put hm hsize d
  rw [htSet, htSetDepth, if_neg hroom, ht'] at hset
  cases hset
  obtain ⟨index, hrun, hstate, hcap, hentries⟩ := h.put_entries hm ht'
  refine ⟨rfl, table, index, hinv, hcap, hentries, ?_⟩
  rw [if_pos rfl, keysPut, putSlot, hrun]
  dsimp only
  rw [if_neg hstate]

/-- A child list of dentries in use depends on their links only. -/
theorem PathInv.child {e : ℕ} (h : PathInv s m) (hold : ∀ e ∈ s.live, s'.links e = s.links e) (hdir : dir ∈ s.live)
    (hc : Child s' dir e) : e ∈ s.live := by
  have hchild : Child s dir e := by
    induction hc with
    | first h₀ =>
      have hl : (s'.dentries dir).children = (s.dentries dir).children := congrArg Links.children (hold dir hdir)
      rw [hl] at h₀ ⊢
      exact .first h₀
    | @next e _ h₀ ih =>
      have hl : (s'.dentries e).nextSib = (s.dentries e).nextSib :=
        congrArg Links.nextSib (hold e (h.children dir hdir e ih))
      rw [hl] at h₀ ⊢
      exact .next ih h₀
  exact h.children dir hdir e hchild

theorem not_child {e : ℕ} (h : (s.dentries dir).children = 0) : ¬ Child s dir e := by
  intro hc
  induction hc with
  | first h₀ => exact h₀ h
  | next _ _ ih => exact ih

/-- **`dir_set` of a new path**: the new dentry is in the table, and no child of another. -/
theorem PathInv.set (h : PathInv s m) (hp : path ∈ s.paths) (hplain : (setCall s device path inodeN).Plain)
    (hset : dirSet s device path inodeN offset = .ok (d, s')) :
    ∃ m', PathInv s' m' ∧ d ∈ s'.live ∧ s'.str d = s.strs path ∧ d ∉ s.live ∧
      (∀ e ∈ s.live, e ∈ s'.live ∧ s'.str e = s.str e) ∧ ∀ dir ∈ s'.live, ¬ Child s' dir d := by
  obtain ⟨hcached, hrefused, hcleared⟩ := hplain
  have hm : m (s.strs path) = none := by
    have hget : htGet s.table (s.strs path) = some none := not_not.mp (of_decide_eq_false hcached)
    rwa [h.table.get, Option.some.injEq] at hget
  have hroom : ¬ s.table.Overloaded := of_decide_eq_false hrefused
  obtain ⟨inode, inodes, ret, s₁, -, rfl, hd₀, hd, hput, hres⟩ := dirSet_cases hset
  obtain ⟨hchildren, hparent, -⟩ := of_decide_eq_true hcleared
  let s₀ := newDentry s device path inodeN offset inode inodes
  obtain ⟨rfl, table, index, htable, hcap, hentries, rfl⟩ := PathInv.put (s := s₀) h.table hm hroom hput
  obtain ⟨-, rfl⟩ := hres.resolve_right fun hr => hr.1 rfl
  have hnew : s₀.dentries (s.heap 1) = { s.dentries (s.heap 1) with
      valid := false, refCount := 1, offset := offset, inode := inode, path := path } := Function.update_self ..
  have hold : ∀ e ∈ s.live, s₀.dentries e = s.dentries e := fun e he =>
    Function.update_of_ne (fun hed : e = s.heap 1 => hd (hed ▸ he)) ..
  have hstr : s₀.str (s.heap 1) = s.strs path := by
    rw [Dentries.str, hnew]
    rfl
  have hstr' : ∀ e ∈ s.live, s₀.str e = s.str e := fun e he => by
    rw [Dentries.str, hold e he]
    rfl
  have hchild : ∀ dir ∈ s₀.live, ∀ e, Child s₀ dir e → e ∈ s.live := by
    intro dir hdir e hc
    rcases List.mem_cons.mp hdir with rfl | hdir
    · exact absurd hc (not_child (by rw [hnew]; exact hchildren))
    · exact h.child (fun e he => congrArg DentryT.links (hold e he)) hdir hc
  refine ⟨_, ⟨htable, fun k e => ?_, fun i hi hv => ?_, fun e he => ?_, fun h₀ => ?_, fun dir hdir e hc => ?_,
    fun e he => ?_⟩, List.mem_cons_self, hstr, hd, fun e he => ⟨List.mem_cons_of_mem _ he, hstr' e he⟩,
    fun dir hdir hc => ?_⟩
  · change _ ↔ e ∈ s.heap 1 :: s.live ∧ s₀.str e = k
    rw [List.mem_cons]
    by_cases hk : k = s.strs path
    · subst hk
      change Function.update m (s.strs path) (some (s.heap 1)) (s.strs path) = some e ↔ _
      rw [Function.update_self, Option.some.injEq]
      constructor
      · rintro rfl
        exact ⟨.inl rfl, hstr⟩
      · rintro ⟨rfl | he, hes⟩
        · rfl
        · rw [hstr' e he] at hes
          rw [(h.cached _ e).mpr ⟨he, hes⟩] at hm
          cases hm
    · change Function.update m (s.strs path) (some (s.heap 1)) k = some e ↔ _
      rw [Function.update_of_ne hk, h.cached]
      constructor
      · rintro ⟨he, hes⟩
        exact ⟨.inr he, (hstr' e he).trans hes⟩
      · rintro ⟨rfl | he, hes⟩
        · exact absurd (hes.symm.trans hstr) hk
        · exact ⟨he, (hstr' e he).symm.trans hes⟩
  · change i < (table.capacity : ℕ) at hi
    change (table.entries i).state = .valid at hv
    rw [hcap] at hi
    rw [hentries] at hv
    change ∃ e ∈ s.heap 1 :: s.live, Function.update s.keys (index % s.table.capacity) path i = (s₀.dentries e).path
    by_cases hindex : i = index % s.table.capacity
    · refine ⟨s.heap 1, List.mem_cons_self, ?_⟩
      rw [hindex, Function.update_self, hnew]
    · have hv' : (s.table.entries i).state = .valid := by
        rwa [show Function.update s₀.table.entries (index % s₀.table.capacity) _ i = s.table.entries i from
          Function.update_of_ne hindex _ _] at hv
      obtain ⟨e, he, hkey⟩ := h.keys i hi hv'
      refine ⟨e, List.mem_cons_of_mem _ he, ?_⟩
      rw [Function.update_of_ne hindex, hold e he, hkey]
  · change (s₀.dentries e).path ∈ s.paths
    rcases List.mem_cons.mp he with rfl | he
    · rw [hnew]
      exact hp
    · rw [hold e he]
      exact h.paths e he
  · rcases List.mem_cons.mp h₀ with h₀ | h₀
    · exact hd₀ h₀.symm
    · exact h.nonnull h₀
  · exact List.mem_cons_of_mem _ (hchild dir hdir e (hc.congr rfl))
  · change (s₀.dentries e).parent = 0 ∨ (s₀.dentries e).parent ∈ s.heap 1 :: s.live
    rcases List.mem_cons.mp he with rfl | he
    · rw [hnew]
      exact .inl hparent
    · rw [hold e he]
      exact (h.parent e he).imp id (List.mem_cons_of_mem _)
  · exact hd (hchild dir hdir _ (hc.congr rfl))

theorem PathInv.link (h : PathInv s m) (hdir : dir ∈ s.live) (hentry : entry ∈ s.live) (hne : dir ≠ entry)
    (hun : ∀ dir' ∈ s.live, ¬ Child s dir' entry) : PathInv (linkChild s dir entry) m := by
  refine h.linked (same_linkChild s dir entry) (fun dir' hdir' d hc => ?_) fun d hd => ?_
  · rcases child_linkChild hne (hun dir' hdir') hc with ⟨rfl, -⟩ | hc
    · exact hentry
    · exact h.children dir' hdir' d hc
  · have hl : ((linkChild s dir entry).dentries d).parent = _ :=
      congrArg Links.parent (congrFun (links_linkChild (s := s) hne) d)
    rw [hl]
    by_cases hdd : d = dir
    · rw [hdd, Function.update_self]
      exact h.parent dir hdir
    · rw [Function.update_of_ne hdd]
      by_cases hde : d = entry
      · rw [hde, Function.update_self]
        exact .inr hdir
      · rw [Function.update_of_ne hde]
        exact h.parent d hd

theorem PathInv.addChild (h : PathInv s m) (hentry : entry ∈ s.live) (hne : dir ≠ entry)
    (hun : ∀ dir' ∈ s.live, ¬ Child s dir' entry) (hadd : dirAddChild s dir entry = .ok s') : PathInv s' m := by
  obtain ⟨hdir, rfl | ⟨tables, rfl⟩⟩ := dirAddChild_cases hadd
  · exact h
  · have htables : Same s { s with tables := tables } :=
      ⟨rfl, rfl, rfl, rfl, rfl, rfl, rfl, fun _ => rfl, fun _ => rfl, fun _ => rfl⟩
    exact (h.same htables rfl).link hdir hentry hne fun dir' hdir' hc => hun dir' hdir' (hc.congr rfl)

/-! ## Parsing and lookup -/

/-- From `s` to `s'` calls of `dir_set` are added, and if all are plain, the invariant is kept, and so is every
dentry. -/
def Keeps (s s' : Dentries) : Prop :=
  s.sets <:+ s'.sets ∧
    (s'.Plain → ∀ m, PathInv s m → (∃ m', PathInv s' m') ∧ ∀ d ∈ s.live, d ∈ s'.live ∧ s'.str d = s.str d)

theorem Keeps.refl (s : Dentries) : Keeps s s := ⟨List.suffix_rfl, fun _ m h => ⟨⟨m, h⟩, fun _ hd => ⟨hd, rfl⟩⟩⟩

theorem Keeps.plain (h : Keeps s s') (hp : s'.Plain) : s.Plain := fun call hc => hp call (h.1.subset hc)

theorem Keeps.trans (h : Keeps s s') (h' : Keeps s' s'') : Keeps s s'' := by
  refine ⟨h.1.trans h'.1, fun hp m hm => ?_⟩
  obtain ⟨⟨m', hm'⟩, hlive⟩ := h.2 (h'.plain hp) m hm
  obtain ⟨hm'', hlive'⟩ := h'.2 hp m' hm'
  refine ⟨hm'', fun d hd => ?_⟩
  obtain ⟨hd', hstr⟩ := hlive d hd
  exact ⟨(hlive' d hd').1, (hlive' d hd').2.trans hstr⟩

theorem keeps_same (hs : Same s s') (hl : s'.links = s.links) : Keeps s s' :=
  ⟨hs.sets ▸ List.suffix_rfl, fun _ m h => ⟨⟨m, h.same hs hl⟩, fun d hd => ⟨hs.live ▸ hd, hs.str d⟩⟩⟩

theorem newPath_sets {str : List UInt8} (h : newPath s str = .ok (path, s')) : s'.sets = s.sets := by
  obtain ⟨-, -, rfl⟩ := newPath_cases h
  rfl

theorem PathInv.newSet {str : List UInt8} {s₁ : Dentries} (h : PathInv s m) (hpath : newPath s str = .ok (path, s₁))
    (hset : dirSet s₁ device path inodeN offset = .ok (d, s')) (hp : s'.Plain) :
    ∃ m', PathInv s' m' ∧ d ∈ s'.live ∧ s'.str d = str ∧ d ∉ s.live ∧
      (∀ e ∈ s.live, e ∈ s'.live ∧ s'.str e = s.str e) ∧ ∀ dir ∈ s'.live, ¬ Child s' dir d := by
  obtain ⟨hm₁, hmem, hstr, hlive, hold⟩ := h.alloc hpath
  have hplain := hp (setCall s₁ device path inodeN) (dirSet_sets hset ▸ List.mem_cons_self)
  obtain ⟨m', hm', hd, hstr', hnew, hlive', hun⟩ := hm₁.set hmem hplain hset
  refine ⟨m', hm', hd, hstr'.trans hstr, hlive ▸ hnew, fun e he => ?_, hun⟩
  obtain ⟨he', hes⟩ := hlive' e (hlive ▸ he)
  exact ⟨he', hes.trans (hold e he)⟩

theorem keeps_parseEntry {e : Entry} (h : parseEntry s dir device e = .ok s') : Keeps s s' := by
  obtain ⟨hdir, path, s₁, hpath, hres⟩ := parseEntry_cases h
  have hsets₁ := newPath_sets hpath
  rcases hres with ⟨-, rfl⟩ | ⟨-, child, s₂, s₃, hset, hadd, rfl⟩
  · refine ⟨hsets₁ ▸ List.suffix_rfl, fun _ m hm => ?_⟩
    obtain ⟨hm₁, -, -, hlive, hold⟩ := hm.alloc hpath
    exact ⟨⟨m, hm₁⟩, fun d hd => ⟨hlive ▸ hd, hold d hd⟩⟩
  · have hsame := (same_addChild hadd).trans (same_release s₃ child)
    have hsets := dirSet_sets hset
    rw [hsets₁] at hsets
    refine ⟨hsame.sets ▸ hsets ▸ List.suffix_cons .., fun hp m hm => ?_⟩
    obtain ⟨m₂, hm₂, hchild, -, hnew, hlive, hun⟩ :=
      hm.newSet hpath hset fun call hc => hp call (hsame.sets ▸ hc)
    have hm₃ := hm₂.addChild hchild (fun he : dir = child => hnew (he ▸ hdir)) hun hadd
    refine ⟨⟨m₂, hm₃.same (same_release _ _) (links_release _ _)⟩, fun d hd => ?_⟩
    rw [hsame.live, hsame.str]
    exact hlive d hd

/-- **`ext2_parse_dir`**. -/
theorem keeps_parseDir (h : ext2ParseDir s disk dir = .ok s') : Keeps s s' := by
  obtain ⟨-, s₁, inodes, es, htable, -, -, hfold⟩ := ext2ParseDir_cases h
  have h₁ : Keeps s s₁ := keeps_same (same_table htable) (links_table htable)
  have h₂ : Keeps s₁ { s₁ with inodes := inodes } :=
    ⟨List.suffix_rfl, fun _ m hm => ⟨⟨m, hm.inodes inodes⟩, fun _ hd => ⟨hd, rfl⟩⟩⟩
  exact foldlM_invariant (I := Keeps s) (fun _ _ _ _ hk he => hk.trans (keeps_parseEntry he)) hfold (h₁.trans h₂)

/-- **`dir_get`** gives a dentry that is in use, or `NULL`. -/
theorem keeps_get {name : List UInt8} {r : ℕ} (h : dirGet s disk name = .ok (r, s')) :
    Keeps s s' ∧ (s'.Plain → ∀ m, PathInv s m → r = 0 ∨ r ∈ s'.live) := by
  refine dirGet_rule (I := Keeps s) (P := fun t d => t.Plain → ∀ m, PathInv s m → d = 0 ∨ d ∈ t.live)
    (fun t d t' ht hd hparse => ?_) (fun t key d ht hget hp m hm => ?_) (fun _ _ _ _ _ => .inl rfl)
    (fun t d r t' ht hd hhit => ?_) h (.refl s)
  · have hk := keeps_parseDir hparse
    refine ⟨ht.trans hk, fun hp m hm => ?_, fun hp m hm => ?_⟩
    · obtain ⟨⟨m', hm'⟩, -⟩ := ht.2 (hk.plain hp) m hm
      exact (hd (hk.plain hp) m hm).imp id fun hd => ((hk.2 hp m' hm').2 d hd).1
    · obtain ⟨⟨m', hm'⟩, -⟩ := ht.2 (hk.plain hp) m hm
      obtain ⟨⟨m'', hm''⟩, hlive⟩ := hk.2 hp m' hm'
      exact hm''.parent d (hlive d (ext2ParseDir_cases hparse).1).1
  · obtain ⟨⟨m', hm'⟩, -⟩ := ht.2 hp m hm
    rw [hm'.table.get, Option.some.injEq] at hget
    exact .inr ((hm'.cached key d).mp hget).1
  · obtain ⟨rfl, hs⟩ := same_hit hhit
    refine ⟨ht.trans (keeps_same hs (links_hit hhit)), fun hp => ?_⟩
    rw [hs.live]
    exact hd (fun call hc => hp call (hs.sets ▸ hc))

theorem keeps_parseRoot (h : ext2ParseRoot s disk device = .ok s') :
    Keeps s s' ∧ (s'.Plain → ∀ m, PathInv s m → ∃ m' d, PathInv s' m' ∧ d ∈ s'.live ∧ s'.str d = [47]) := by
  unfold ext2ParseRoot at h
  obtain ⟨⟨path, s₁⟩, hpath, h⟩ := eq_ok_of_bind h
  obtain ⟨⟨d, s₂⟩, hset, h⟩ := eq_ok_of_bind h
  obtain ⟨s₃, hparse, h⟩ := eq_ok_of_bind h
  cases h
  have hset' : Keeps s s₂ := by
    refine ⟨dirSet_sets hset ▸ newPath_sets hpath ▸ List.suffix_cons .., fun hp m hm => ?_⟩
    obtain ⟨m', hm', -, -, -, hlive, -⟩ := hm.newSet hpath hset hp
    exact ⟨⟨m', hm'⟩, hlive⟩
  have hrest : Keeps s₂ (dirRelease s₃ d) :=
    (keeps_parseDir hparse).trans (keeps_same (same_release _ _) (links_release _ _))
  refine ⟨hset'.trans hrest, fun hp m hm => ?_⟩
  obtain ⟨m₂, hm₂, hd, hstr, -⟩ := hm.newSet hpath hset (hrest.plain hp)
  obtain ⟨⟨m', hm'⟩, hlive⟩ := hrest.2 hp m₂ hm₂
  exact ⟨m', d, hm', (hlive d hd).1, (hlive d hd).2.trans hstr⟩

/-! ## Runs -/

/-- The cache, and the dentries that callers hold. -/
structure PathCfg where
  dir : Dentries
  held : List ℕ

inductive PathOp
  | get (disk : Disk) (name : List UInt8)
  | release (dentry : ℕ)
  | parse (disk : Disk) (dentry : ℕ)
  | other (junk : Junk)

def pathStep (c : PathCfg) : PathOp → Except Stop PathCfg
  | .get disk name => do
    let (dentry, s) ← dirGet c.dir disk name
    return ⟨s, if dentry = 0 then c.held else dentry :: c.held⟩
  | .release dentry => .ok ⟨dirRelease c.dir dentry, c.held.erase dentry⟩
  | .parse disk dentry => do
    let s ← ext2ParseDir c.dir disk dentry
    return { c with dir := s }
  | .other junk => .ok { c with dir := c.dir.other junk }

/-- A caller releases a dentry that it holds. -/
def PathOp.Legal (c : PathCfg) : PathOp → Prop
  | .release dentry => dentry ∈ c.held
  | .get _ _ | .parse _ _ | .other _ => True

/-- A call that returns. -/
def PathMove (c : PathCfg) (op : PathOp) (c' : PathCfg) : Prop := op.Legal c ∧ pathStep c op = .ok c'

/-- There is one dentry for a path: the table maps a path to a dentry in use with this path; a dentry that is held,
counted or a child is the one of its path; and a key of the table is the path of a dentry in use. -/
structure OnePerPath (c : PathCfg) : Prop where
  table : ∀ key d, htGet c.dir.table key = some (some d) → d ∈ c.dir.live ∧ c.dir.str d = key
  held : ∀ d ∈ c.held, htGet c.dir.table (c.dir.str d) = some (some d)
  counted : ∀ d ∈ c.dir.live, (c.dir.dentries d).refCount ≠ 0 → htGet c.dir.table (c.dir.str d) = some (some d)
  child : ∀ dir ∈ c.dir.live, ∀ d, Child c.dir dir d → htGet c.dir.table (c.dir.str d) = some (some d)
  keys : ∀ i < (c.dir.table.capacity : ℕ), (c.dir.table.entries i).state = .valid →
    ∃ d ∈ c.dir.live, c.dir.keys i = (c.dir.dentries d).path

/-- What holds as long as all calls of `dir_set` are plain. -/
def PathsOk (c : PathCfg) : Prop := c.dir.Plain → ∃ m, PathInv c.dir m ∧ ∀ d ∈ c.held, d ∈ c.dir.live

theorem PathInv.other (h : PathInv s m) (junk : Junk) : PathInv (s.other junk) m := by
  have hold : ∀ d ∈ s.live, (s.other junk).dentries d = s.dentries d := fun d hd => if_pos hd
  have hstr : ∀ d ∈ s.live, (s.other junk).str d = s.str d := fun d hd => by
    unfold Dentries.str
    rw [hold d hd]
    exact if_pos (h.paths d hd)
  refine ⟨h.table, fun k d => ?_, fun i hi hv => ?_, fun d hd => ?_, h.nonnull, fun dir hdir d hc => ?_, fun d hd => ?_⟩
  · rw [h.cached]
    refine and_congr_right fun hd => ?_
    rw [hstr d hd]
  · obtain ⟨d, hd, hk⟩ := h.keys i hi hv
    exact ⟨d, hd, by rw [hold d hd]; exact hk⟩
  · rw [hold d hd]
    exact h.paths d hd
  · exact h.child (fun e he => congrArg DentryT.links (hold e he)) hdir hc
  · rw [hold d hd]
    exact h.parent d hd

theorem PathsOk.keep {c c' : PathCfg} (h : PathsOk c) (hk : Keeps c.dir c'.dir)
    (hheld : ∀ d ∈ c'.held, d ∈ c.held ∨ (c'.dir.Plain → ∀ m, PathInv c.dir m → d ∈ c'.dir.live)) : PathsOk c' := by
  intro hp
  obtain ⟨m, hm, hlive⟩ := h (hk.plain hp)
  obtain ⟨⟨m', hm'⟩, hstay⟩ := hk.2 hp m hm
  refine ⟨m', hm', fun d hd => ?_⟩
  rcases hheld d hd with hd | hd
  · exact (hstay d (hlive d hd)).1
  · exact hd hp m hm

theorem PathsOk.step {c c' : PathCfg} {op : PathOp} (h : PathsOk c) (hs : PathMove c op c') : PathsOk c' := by
  obtain ⟨-, hs⟩ := hs
  cases op with
  | get disk name =>
    obtain ⟨⟨r, s'⟩, hget, hs⟩ := eq_ok_of_bind hs
    cases hs
    obtain ⟨hk, hr⟩ := keeps_get hget
    refine h.keep hk fun d hd => ?_
    change d ∈ (if r = 0 then c.held else r :: c.held) at hd
    by_cases hr₀ : r = 0
    · rw [if_pos hr₀] at hd
      exact .inl hd
    · rw [if_neg hr₀] at hd
      rcases List.mem_cons.mp hd with rfl | hd
      · exact .inr fun hp m hm => (hr hp m hm).resolve_left hr₀
      · exact .inl hd
  | release dentry =>
    cases hs
    exact h.keep (keeps_same (same_release _ _) (links_release _ _)) fun d hd => .inl (List.mem_of_mem_erase hd)
  | parse disk dentry =>
    obtain ⟨s', hparse, hs⟩ := eq_ok_of_bind hs
    cases hs
    exact h.keep (keeps_parseDir hparse) fun d hd => .inl hd
  | other junk =>
    cases hs
    intro hp
    obtain ⟨m, hm, hlive⟩ := h hp
    exact ⟨m, hm.other junk, hlive⟩

theorem tableInv_dirInit {table : HashTable (List UInt8) ℕ} (h : htCreate 50 75 false = some table) :
    TableInv table fun _ => none := by
  have hprime : htFindPrime (u32 (50 * 100) / 75) = some ⟨67, by decide⟩ := by decide
  rw [htCreate, if_neg (by decide), hprime] at h
  cases h
  exact tableInv_empty (by decide) (by decide) rfl rfl fun _ _ => rfl

/-- **`dir_init`** gets the dentry of the root. -/
theorem pathsOk_boot {s₀ : Dentries} (hlive : s₀.live = []) (hboot : dirInit s₀ disk = .ok s) :
    PathsOk ⟨s, [s.currentDir]⟩ := by
  unfold dirInit at hboot
  split at hboot
  · cases hboot
  rename_i table htable
  obtain ⟨s₁, hroot, hboot⟩ := eq_ok_of_bind hboot
  obtain ⟨⟨r, s₂⟩, hget, hboot⟩ := eq_ok_of_bind hboot
  cases hboot
  let s' := { s₀ with table := table, lru := { s₀.lru with lhead := 0, ltail := 0 } }
  have hinv := tableInv_dirInit htable
  have hnone : ∀ d, d ∉ s'.live := fun d hd => List.not_mem_nil (hlive ▸ hd)
  have hstart : PathInv s' fun _ => none := by
    refine ⟨hinv, fun k d => ⟨fun e => (by cases e), fun e => absurd e.1 (hnone d)⟩, fun i hi hv => ?_,
      fun d hd => absurd hd (hnone d), hnone 0, fun d hd => absurd hd (hnone d), fun d hd => absurd hd (hnone d)⟩
    exact absurd (slotOf_eq_used.mpr ⟨hv, rfl⟩) (hinv.eq_none_iff.mp rfl i hi)
  intro hp
  obtain ⟨hk, -⟩ := keeps_get hget
  obtain ⟨-, hroot'⟩ := keeps_parseRoot hroot
  obtain ⟨m₁, d, hm₁, hd, hstr⟩ := hroot' (hk.plain hp) _ hstart
  obtain ⟨⟨m', hm'⟩, hlive'⟩ := hk.2 hp m₁ hm₁
  have hfind : htGet s₁.table [47] = some (some d) := by
    rw [hm₁.table.get, (hm₁.cached _ d).mpr ⟨hd, hstr⟩]
  have hhit : dirGetHit s₁ d = .ok (r, s₂) := by
    rw [dirGet, if_pos (show ([47] : List UInt8).head? = some 47 from rfl), dirGetAbs] at hget
    rw [if_neg (by decide), hfind] at hget
    exact hget
  obtain ⟨rfl, -⟩ := same_hit hhit
  refine ⟨m', ⟨hm'.table, hm'.cached, hm'.keys, hm'.paths, hm'.nonnull,
    fun dir hdir d hc => hm'.children dir hdir d (hc.congr rfl), hm'.parent⟩, fun e he => ?_⟩
  rw [List.mem_singleton.mp he]
  exact (hlive' r hd).1

theorem PathsOk.onePerPath {c : PathCfg} (h : PathsOk c) (hp : c.dir.Plain) : OnePerPath c := by
  obtain ⟨m, hm, hheld⟩ := h hp
  have hget : ∀ d ∈ c.dir.live, htGet c.dir.table (c.dir.str d) = some (some d) := fun d hd => by
    rw [hm.table.get, (hm.cached _ d).mpr ⟨hd, rfl⟩]
  refine ⟨fun key d hd => ?_, fun d hd => hget d (hheld d hd), fun d hd _ => hget d hd,
    fun dir hdir d hc => hget d (hm.children dir hdir d hc), hm.keys⟩
  rw [hm.table.get, Option.some.injEq] at hd
  exact (hm.cached key d).mp hd

/-- **One dentry for a path.** In a run from `dir_init` in which no `dir_set` finds its path in the table, none finds
the table full, and the memory of new dentries is clear, there is one dentry for a path. -/
theorem one_dentry_per_path {s₀ : Dentries} {ops : List PathOp} {c : PathCfg} (hlive : s₀.live = [])
    (hboot : dirInit s₀ disk = .ok s) (hrun : Run PathMove ⟨s, [s.currentDir]⟩ ops c) (hplain : c.dir.Plain) :
    OnePerPath c :=
  (hrun.invariant (I := PathsOk) (fun _ _ _ => PathsOk.step) (pathsOk_boot hlive hboot)).onePerPath hplain

/-- A directory of one block with `.`, `..` and one more entry, which has a name of one byte. -/
def smallDir (self parent n : ℕ) (type name : UInt8) : Mem := fun x =>
  [UInt8.ofNat self, 0, 0, 0, 12, 0, 1, 2, 46, 0, 0, 0, UInt8.ofNat parent, 0, 0, 0, 12, 0, 2, 2, 46, 46, 0, 0,
    UInt8.ofNat n, 0, 0, 0, 232, 3, 1, type, name].getD x 0

/-- The root, inode 2, has the directory `a`, which is inode 12, and this the file `b`, which is inode 13. -/
def treeDisk : Disk where
  inode device n := ⟨device, n, if n = 13 then 0x8000 else 0x4000, 1, 1024, 0, 0, 0, 0, 2, fun _ => 0⟩
  content _ n := if n = 2 then smallDir 2 2 12 2 97 else if n = 12 then smallDir 12 2 13 1 98 else fun _ => 0

instance (c : PathCfg) : (op : PathOp) → Decidable (op.Legal c)
  | .release _ => inferInstanceAs (Decidable (_ ∈ _))
  | .get _ _ | .parse _ _ | .other _ => inferInstanceAs (Decidable True)

theorem tree_run (ops : List PathOp) (p : PathCfg → Bool)
    (h : ((dirInit demoCaches treeDisk).toOption.bind fun s =>
      ops.foldlM (tryStep PathOp.Legal pathStep) ⟨s, [s.currentDir]⟩).any p = true) :
    ∃ s c, dirInit demoCaches treeDisk = .ok s ∧ Run PathMove ⟨s, [s.currentDir]⟩ ops c ∧ p c = true := by
  cases hboot : dirInit demoCaches treeDisk with
  | error e =>
    rw [hboot] at h
    cases h
  | ok s =>
    rw [hboot] at h
    obtain ⟨c, hrun, hp⟩ := exists_run PathOp.Legal pathStep _ ops p h
    exact ⟨s, c, rfl, hrun, hp⟩

/-- `"/a/b"` is looked up. -/
theorem one_dentry_per_path_tree : ∃ s c, dirInit demoCaches treeDisk = .ok s ∧
    Run PathMove ⟨s, [s.currentDir]⟩ [.get treeDisk [47, 97, 47, 98]] c ∧ c.held = [114, 102] ∧ OnePerPath c := by
  obtain ⟨s, c, hboot, hrun, hp⟩ := tree_run [.get treeDisk [47, 97, 47, 98]]
    (fun c => c.held = [114, 102] ∧ ∀ call ∈ c.dir.sets, call.Plain) (by decide +kernel)
  obtain ⟨hheld, hplain⟩ := of_decide_eq_true hp
  exact ⟨s, c, hboot, hrun, hheld, one_dentry_per_path rfl hboot hrun hplain⟩

/-- **`"/a/b"` and `"/a/c"` are looked up**: `a` is read twice, and the dentry of `b` that the caller holds is not the
one of the table any more. -/
theorem parsed_twice : ∃ s c, dirInit demoCaches treeDisk = .ok s ∧
    Run PathMove ⟨s, [s.currentDir]⟩ [.get treeDisk [47, 97, 47, 98], .get treeDisk [47, 97, 47, 99]] c ∧
    c.held = [114, 102] ∧ htGet c.dir.table (c.dir.str 114) = some (some 119) ∧ ¬ OnePerPath c := by
  obtain ⟨s, c, hboot, hrun, hp⟩ := tree_run [.get treeDisk [47, 97, 47, 98], .get treeDisk [47, 97, 47, 99]]
    (fun c => c.held = [114, 102] ∧ htGet c.dir.table (c.dir.str 114) = some (some 119)) (by decide +kernel)
  obtain ⟨hheld, hget⟩ := of_decide_eq_true hp
  refine ⟨s, c, hboot, hrun, hheld, hget, fun h => ?_⟩
  have hone := h.held 114 (hheld ▸ List.mem_cons_self)
  rw [hget] at hone
  cases hone

end BulbOS.Dentry
