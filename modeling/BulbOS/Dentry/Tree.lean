import BulbOS.Dentry.Unique
import BulbOS.Inode.Valid

/-!
# Dentries and the directory tree

What the table has is on the disk: a dentry has the inode that its path leads to, whatever was evicted, as long as no
key is in the table twice.

* `Leads`: the inode that a path leads to;
* `TreeInv`: every dentry in use has the inode of its path; `TreeInv.evict`, `TreeInv.set`, `TreeInv.parse`;
* `TreeOk.step`, `treeOk_boot`: every run keeps it.
-/

namespace BulbOS.Dentry

open KLib BulbOS.Table BulbOS.Inode

variable {s s' s'' : Dentries} {disk : Disk} {m : List UInt8 → Option ℕ} {d dir path inodeN offset : ℕ}

/-! ## The tree -/

/-- The inode that a path leads to. -/
inductive Leads (disk : Disk) : List UInt8 → ℕ → Prop
  | root : Leads disk [47] ext2RootInode
  | entry {p : List UInt8} {n : ℕ} {es : List Entry} {e : Entry} (h : Leads disk p n)
      (hes : disk.entries 0 n = some es) (he : e ∈ es) (hdot : isDot e.name = false) :
      Leads disk ((sumPath p e.name).takeWhile (· ≠ 0)) e.inode

/-- The device and the number of the inode of a dentry. -/
def Dentries.inodeAt (s : Dentries) (d : ℕ) : ℕ × ℕ :=
  ((s.inodes.inodes (s.dentries d).inode).data.device, (s.inodes.inodes (s.dentries d).inode).data.n)

/-- What the table has are dentries in use; a dentry in use has a path of its own, and the inode of that path. -/
structure TreeInv (disk : Disk) (s : Dentries) (m : List UInt8 → Option ℕ) : Prop where
  table : TableInv s.table m
  mapped : ∀ k d, m k = some d → d ∈ s.live ∧ s.str d = k
  nodup : s.live.Nodup
  nonnull : 0 ∉ s.live
  paths : ∀ d ∈ s.live, (s.dentries d).path ∈ s.paths
  apart : ∀ d ∈ s.live, ∀ e ∈ s.live, (s.dentries d).path = (s.dentries e).path → d = e
  valid : ∀ d ∈ s.live, (s.dentries d).valid = false
  leads : ∀ d ∈ s.live, (s.inodeAt d).1 = 0 ∧ Leads disk (s.str d) (s.inodeAt d).2
  loaded : ∀ i ∈ s.inodes.live, (s.inodes.inodes i).valid = false
  refs : ∃ m refs, RefsInv s [] m refs

/-- Dentries that were in use still are, with the parents, paths and inodes that they had. -/
structure Grown (s s' : Dentries) : Prop where
  live : ∀ d ∈ s.live, d ∈ s'.live
  parent : ∀ d ∈ s.live, (s'.dentries d).parent = (s.dentries d).parent
  str : ∀ d ∈ s.live, s'.str d = s.str d
  inodeAt : ∀ d ∈ s.live, s'.inodeAt d = s.inodeAt d

theorem Grown.refl (s : Dentries) : Grown s s := ⟨fun _ h => h, fun _ _ => rfl, fun _ _ => rfl, fun _ _ => rfl⟩

theorem Grown.trans (h : Grown s s') (h' : Grown s' s'') : Grown s s'' :=
  ⟨fun d hd => h'.live d (h.live d hd), fun d hd => (h'.parent d (h.live d hd)).trans (h.parent d hd),
    fun d hd => (h'.str d (h.live d hd)).trans (h.str d hd),
    fun d hd => (h'.inodeAt d (h.live d hd)).trans (h.inodeAt d hd)⟩

/-- The paths and inodes of dentries are the same. -/
def Unmoved (s s' : Dentries) : Prop := ∀ d, s'.str d = s.str d ∧ s'.inodeAt d = s.inodeAt d

/-- Dentries that were in use have the paths and inodes that they had. -/
def Stable (s s' : Dentries) : Prop := ∀ d ∈ s.live, s'.str d = s.str d ∧ s'.inodeAt d = s.inodeAt d

theorem Grown.stable (h : Grown s s') : Stable s s' := fun d hd => ⟨h.str d hd, h.inodeAt d hd⟩

theorem Unmoved.trans (h : Unmoved s s') (h' : Unmoved s' s'') : Unmoved s s'' :=
  fun d => ⟨(h' d).1.trans (h d).1, (h' d).2.trans (h d).2⟩

theorem Stable.unmoved (h : Stable s s') (h' : Unmoved s' s'') : Stable s s'' :=
  fun d hd => ⟨(h' d).1.trans (h d hd).1, (h' d).2.trans (h d hd).2⟩

theorem Same.inodeAt (h : Same s s') (d : ℕ) : s'.inodeAt d = s.inodeAt d := by
  unfold Dentries.inodeAt
  rw [h.inodes, h.inode]

theorem Same.unmoved (h : Same s s') : Unmoved s s' := fun d => ⟨h.str d, h.inodeAt d⟩

theorem Same.grown (h : Same s s') (hparent : ∀ d ∈ s.live, (s'.dentries d).parent = (s.dentries d).parent) :
    Grown s s' :=
  ⟨fun _ hd => h.live ▸ hd, hparent, fun d _ => h.str d, fun d _ => h.inodeAt d⟩

theorem TreeInv.same (h : TreeInv disk s m) (hs : Same s s') : TreeInv disk s' m := by
  obtain ⟨mi, refs, hrefs⟩ := h.refs
  refine ⟨hs.table ▸ h.table, fun k d hk => ?_, hs.live ▸ h.nodup, hs.live ▸ h.nonnull, fun d hd => ?_,
    fun d hd e he hp => ?_, fun d hd => ?_, fun d hd => ?_, hs.inodes ▸ h.loaded, mi, refs, hrefs.frame hs.frame⟩
  · rw [hs.live, hs.str]
    exact h.mapped k d hk
  · rw [hs.path, hs.paths]
    exact h.paths d (hs.live ▸ hd)
  · rw [hs.live] at hd he
    rw [hs.path, hs.path] at hp
    exact h.apart d hd e he hp
  · rw [hs.valid]
    exact h.valid d (hs.live ▸ hd)
  · rw [hs.str, hs.inodeAt]
    exact h.leads d (hs.live ▸ hd)

theorem TreeInv.alloc {str : List UInt8} (h : TreeInv disk s m) (hp : newPath s str = .ok (path, s')) :
    TreeInv disk s' m ∧ Stable s s' ∧ path ∈ s'.paths ∧ s'.strs path = str ∧
      ∀ d ∈ s'.live, (s'.dentries d).path ≠ path := by
  obtain ⟨-, hnew, rfl⟩ := newPath_cases hp
  have hne : ∀ d ∈ s.live, (s.dentries d).path ≠ path := fun d hd e => hnew (e ▸ h.paths d hd)
  have hstr : ∀ d ∈ s.live, (Function.update s.strs path str) (s.dentries d).path = s.str d := fun d hd =>
    Function.update_of_ne (hne d hd) ..
  have hframe : Frame s { s.pop with strs := Function.update s.strs path str, paths := path :: s.paths } :=
    ⟨rfl, rfl, List.Sublist.refl _, fun _ => rfl⟩
  obtain ⟨mi, refs, hrefs⟩ := h.refs
  refine ⟨⟨h.table, fun k d hk => ?_, h.nodup, h.nonnull, fun d hd => List.mem_cons_of_mem _ (h.paths d hd), h.apart,
    h.valid, fun d hd => ?_, h.loaded, mi, refs, hrefs.frame hframe⟩, fun d hd => ⟨hstr d hd, rfl⟩, List.mem_cons_self,
    Function.update_self .., hne⟩
  · obtain ⟨hd, hdk⟩ := h.mapped k d hk
    exact ⟨hd, (hstr d hd).trans hdk⟩
  · change (s.inodeAt d).1 = 0 ∧ Leads disk (Function.update s.strs path str (s.dentries d).path) (s.inodeAt d).2
    rw [hstr d hd]
    exact h.leads d hd

/-! ## Eviction and new dentries -/

/-- **`dir_evict`** takes a path out of the table; a dentry with references stays. -/
theorem TreeInv.evict (h : TreeInv disk s m) (hok : dirEvict s = .ok s') :
    ∃ k, TreeInv disk s' (Function.update m k none) ∧ Unmoved s s' ∧ s'.strs = s.strs ∧
      ∀ d ∈ s.live, (s.dentries d).refCount ≠ 0 → d ∈ s'.live ∧ (s'.dentries d).refCount = (s.dentries d).refCount := by
  have hrefs := h.refs
  obtain ⟨old, table, hold, href, hrem, hf⟩ := dirEvict_cases hok
  have hm : m (s.str old) ≠ none := fun hnone => by
    rw [h.table.remove_absent hnone] at hrem
    cases hrem
  obtain ⟨t', ht', hinv⟩ := h.table.remove_mem hm
  rw [ht', Option.some.injEq, Prod.mk.injEq] at hrem
  obtain ⟨-, rfl⟩ := hrem
  have hmem : ∀ d, d ∈ s'.live ↔ d ≠ old ∧ d ∈ s.live := fun d => by
    rw [hf.live]
    exact h.nodup.mem_erase_iff
  have hstr : ∀ d, s'.str d = s.str d := fun d => by
    rw [Dentries.str, hf.strs, hf.path]
    rfl
  have hat : ∀ d, s'.inodeAt d = s.inodeAt d := fun d => by
    unfold Dentries.inodeAt
    rw [hf.inodes, hf.inode]
  refine ⟨s.str old, ⟨hf.table ▸ hinv, fun k d hk => ?_, ?_, fun h₀ => h.nonnull ((hmem 0).mp h₀).2, fun d hd => ?_,
    fun d hd e he hp => ?_, fun d hd => ?_, fun d hd => ?_, fun i hi => ?_, ?_⟩, fun d => ⟨hstr d, hat d⟩, hf.strs,
      fun d hd hne => ?_⟩
  · by_cases hkold : k = s.str old
    · rw [hkold, Function.update_self] at hk
      cases hk
    · rw [Function.update_of_ne hkold] at hk
      obtain ⟨hd, hdk⟩ := h.mapped k d hk
      refine ⟨(hmem d).mpr ⟨?_, hd⟩, (hstr d).trans hdk⟩
      rintro rfl
      exact hkold hdk.symm
  · rw [hf.live]
    exact h.nodup.erase old
  · obtain ⟨hne, hd⟩ := (hmem d).mp hd
    rw [hf.path, hf.paths]
    exact (List.mem_erase_of_ne fun e => hne (h.apart d hd old hold e)).mpr (h.paths d hd)
  · rw [hf.path, hf.path] at hp
    exact h.apart d ((hmem d).mp hd).2 e ((hmem e).mp he).2 hp
  · rw [hf.valid]
    exact h.valid d ((hmem d).mp hd).2
  · rw [hstr, hat]
    exact h.leads d ((hmem d).mp hd).2
  · rw [hf.inodes] at hi ⊢
    exact h.loaded i hi
  · obtain ⟨mi, refs, hrefs⟩ := hrefs
    exact ⟨mi, refs, hrefs.frame (dirEvict_frame hok)⟩
  · refine ⟨(hmem d).mpr ⟨?_, hd⟩, hf.refs (h.valid old hold) d⟩
    rintro rfl
    exact hne href

/-- **A new dentry** with the inode of its path. -/
theorem TreeInv.new {inode : ℕ} {inodes : Inodes} (h : TreeInv disk s m) (hp : path ∈ s.paths)
    (hnew : ∀ d ∈ s.live, (s.dentries d).path ≠ path) (hl : Leads disk (s.strs path) inodeN) (hn : inodeN < 2 ^ 32)
    (hget : inodeGet s.inodes (s.heap 0) 0 inodeN = .ok (inode, inodes)) (hd₀ : s.heap 1 ≠ 0) (hd : s.heap 1 ∉ s.live)
    (offset : ℕ) :
    TreeInv disk (newDentry s 0 path inodeN offset inode inodes) m ∧
      Grown s (newDentry s 0 path inodeN offset inode inodes) ∧
      (newDentry s 0 path inodeN offset inode inodes).inodeAt (s.heap 1) = (0, inodeN) := by
  obtain ⟨mi, refs, hrefs⟩ := h.refs
  obtain ⟨htaken, hdev, hnum⟩ := inodeGet_spec hrefs.inv (by decide) hn hget
  let s₀ := newDentry s 0 path inodeN offset inode inodes
  have hself : s₀.dentries (s.heap 1) = { s.dentries (s.heap 1) with
      valid := false, refCount := 1, offset := offset, inode := inode, path := path } := Function.update_self ..
  have hold : ∀ e ∈ s.live, s₀.dentries e = s.dentries e := fun e he =>
    Function.update_of_ne (fun hed : e = s.heap 1 => hd (hed ▸ he)) ..
  have hdata : ∀ j ∈ s.inodes.live, (s₀.inodes.inodes j).data = (s.inodes.inodes j).data := fun j hj =>
    (inodeDup_data inodes inode j).trans (htaken.data j hj)
  have hstable : Stable s s₀ := by
    intro e he
    unfold Dentries.str Dentries.inodeAt
    rw [hold e he, hdata _ (hrefs.inode e he)]
    exact ⟨rfl, rfl⟩
  have hmem : ∀ e, e ∈ s₀.live ↔ e = s.heap 1 ∨ e ∈ s.live := fun e => List.mem_cons
  have hat : s₀.inodeAt (s.heap 1) = (0, inodeN) := by
    unfold Dentries.inodeAt
    rw [hself]
    exact Prod.ext ((congrArg _ (inodeDup_data inodes inode inode)).trans hdev)
      ((congrArg _ (inodeDup_data inodes inode inode)).trans hnum)
  have hgrown : Grown s s₀ := ⟨fun e he => (hmem e).mpr (.inr he), fun e he => by rw [hold e he],
    fun e he => (hstable e he).1, fun e he => (hstable e he).2⟩
  refine ⟨⟨h.table, fun k e hk => ?_, List.nodup_cons.mpr ⟨hd, h.nodup⟩,
    fun h₀ => ((hmem 0).mp h₀).elim (fun e => hd₀ e.symm) h.nonnull, fun e he => ?_, fun e he e' he' hpath => ?_,
    fun e he => ?_, fun e he => ?_, fun i hi => ?_, hrefs.allocated path offset (by decide) hn hget hd⟩, hgrown, hat⟩
  · obtain ⟨he, hek⟩ := h.mapped k e hk
    exact ⟨(hmem e).mpr (.inr he), (hstable e he).1.trans hek⟩
  · change (s₀.dentries e).path ∈ s.paths
    rcases (hmem e).mp he with rfl | he
    · rw [hself]
      exact hp
    · rw [hold e he]
      exact h.paths e he
  · change (s₀.dentries e).path = (s₀.dentries e').path at hpath
    rcases (hmem e).mp he with rfl | he <;> rcases (hmem e').mp he' with rfl | he'
    · rfl
    · rw [hself, hold e' he'] at hpath
      exact absurd hpath.symm (hnew e' he')
    · rw [hself, hold e he] at hpath
      exact absurd hpath (hnew e he)
    · rw [hold e he, hold e' he'] at hpath
      exact h.apart e he e' he' hpath
  · change (s₀.dentries e).valid = false
    rcases (hmem e).mp he with rfl | he
    · rw [hself]
    · rw [hold e he]
      exact h.valid e he
  · change (s₀.inodeAt e).1 = 0 ∧ Leads disk (s₀.str e) (s₀.inodeAt e).2
    rcases (hmem e).mp he with rfl | he
    · have hstr : s₀.str (s.heap 1) = s.strs path := by
        unfold Dentries.str
        rw [hself]
        rfl
      rw [hat, hstr]
      exact ⟨rfl, hl⟩
    · rw [(hstable e he).1, (hstable e he).2]
      exact h.leads e he
  · by_contra hv
    have hkeep : KeepsValid s.inodes s₀.inodes := (inodeGet_valid hget).trans (keepsValid_set id)
    obtain ⟨hi', hv'⟩ := hkeep i hi (Bool.eq_true_of_not_eq_false hv)
    rw [h.loaded i hi'] at hv'
    cases hv'

/-- The table is given another one that has `d` for its path. -/
theorem TreeInv.retable {table : HashTable (List UInt8) ℕ} (h : TreeInv disk s m) (hd : d ∈ s.live)
    (ht : TableInv table (Function.update m (s.str d) (some d))) (keys : ℕ → ℕ) :
    TreeInv disk { s with table := table, keys := keys } (Function.update m (s.str d) (some d)) := by
  obtain ⟨mi, refs, hrefs⟩ := h.refs
  have hframe : Frame s { s with table := table, keys := keys } :=
    ⟨rfl, rfl, List.Sublist.refl _, fun _ => rfl⟩
  refine ⟨ht, fun k e hk => ?_, h.nodup, h.nonnull, h.paths, h.apart, h.valid, h.leads, h.loaded, mi, refs,
    hrefs.frame hframe⟩
  by_cases hkd : k = s.str d
  · rw [hkd, Function.update_self] at hk
    cases hk
    exact ⟨hd, hkd.symm⟩
  · rw [Function.update_of_ne hkd] at hk
    exact h.mapped k e hk

theorem dirPut_unmoved {ret : ℤ} (h : dirPut s path d = .ok (ret, s')) : Unmoved s s' := by
  obtain ⟨table, -, rfl⟩ := dirPut_cases h
  exact fun _ => ⟨rfl, rfl⟩

theorem TreeInv.put {ret : ℤ} (h : TreeInv disk s m) (hd : d ∈ s.live) (hstr : s.str d = s.strs path)
    (hm : m (s.strs path) = none) (hput : dirPut s path d = .ok (ret, s')) :
    ret ≠ 0 ∧ s.table.Overloaded ∧ s' = s ∨ ret = 0 ∧ TreeInv disk s' (Function.update m (s.strs path) (some d)) := by
  obtain ⟨table, hset, rfl⟩ := dirPut_cases hput
  rw [← hstr] at hm hset ⊢
  by_cases hov : s.table.Overloaded
  · rcases h.table.set hm s.fresh d with hfull | ⟨t', ht', hinv⟩
    · rw [hfull, Option.some.injEq, Prod.mk.injEq] at hset
      obtain ⟨rfl, rfl⟩ := hset
      exact .inl ⟨by decide, hov, by rw [if_neg (by decide)]⟩
    · rw [ht', Option.some.injEq, Prod.mk.injEq] at hset
      obtain ⟨rfl, rfl⟩ := hset
      exact .inr ⟨rfl, h.retable hd hinv _⟩
  · obtain ⟨t', ht', hinv⟩ := h.table.put hm (by rw [h.table.overloaded_iff] at hov; omega) d
    rw [htSet, htSetDepth, if_neg hov, ht'] at hset
    cases hset
    exact .inr ⟨rfl, h.retable hd hinv _⟩

/-- **The loop of `dir_set`** evicts until the new dentry is in the table. -/
theorem TreeInv.evictLoop {fuel : ℕ} (h : TreeInv disk s m) (hd : d ∈ s.live) (href : (s.dentries d).refCount ≠ 0)
    (hstr : s.str d = s.strs path) (hm : m (s.strs path) = none)
    (hloop : dirEvictLoop path d fuel s = .ok (0, s')) : ∃ m', TreeInv disk s' m' ∧ Unmoved s s' := by
  induction fuel generalizing s m with
  | zero => cases hloop
  | succ fuel ih =>
    rw [dirEvictLoop] at hloop
    obtain ⟨s₁, hevict, hput⟩ := eq_ok_of_bind hloop
    obtain ⟨⟨ret, s₂⟩, hput, hrest⟩ := eq_ok_of_bind hput
    obtain ⟨k, h₁, hun, hstrs, hstay⟩ := h.evict hevict
    obtain ⟨hd₁, href₁⟩ := hstay d hd href
    have hstr₁ : s₁.str d = s₁.strs path := by rw [(hun d).1, hstrs, hstr]
    have hm₁ : Function.update m k none (s₁.strs path) = none := by
      rw [hstrs, Function.update_apply]
      split_ifs
      · rfl
      · exact hm
    dsimp only at hrest
    rcases h₁.put hd₁ hstr₁ hm₁ hput with ⟨hret, -, rfl⟩ | ⟨rfl, h₂⟩
    · by_cases hgo : ret ≠ 0 ∧ s₂.lru.ltail ≠ 0
      · rw [if_pos hgo] at hrest
        obtain ⟨m', h', hun'⟩ := ih h₁ hd₁ (href₁ ▸ href) hstr₁ hm₁ hrest
        exact ⟨m', h', hun.trans hun'⟩
      · rw [if_neg hgo] at hrest
        cases hrest
        exact absurd rfl hret
    · rw [if_neg (fun hgo => hgo.1 rfl)] at hrest
      cases hrest
      exact ⟨_, h₂, hun.trans (dirPut_unmoved hput)⟩

/-- If the table has the path, then `ht_set` finds it, and there is room. -/
def SetCall.Found (call : SetCall) : Prop := call.cached = true → call.buried = false ∧ call.refused = false

instance (call : SetCall) : Decidable call.Found := inferInstanceAs (Decidable (_ → _))

theorem TreeInv.replace {ret : ℤ} (h : TreeInv disk s m) (hd : d ∈ s.live) (hstr : s.str d = s.strs path)
    (hslot : ¬ (putSlot s.table (s.strs path)).any fun i => (s.table.entry i).state ≠ .valid)
    (hroom : ¬ s.table.Overloaded) (hput : dirPut s path d = .ok (ret, s')) :
    ret = 0 ∧ TreeInv disk s' (Function.update m (s.strs path) (some d)) := by
  obtain ⟨table, hset, rfl⟩ := dirPut_cases hput
  rw [← hstr] at hset hslot ⊢
  have hempty : ∀ e : HashEntry (List UInt8) ℕ, slotOf e = .empty → stopSlot (s.str d) e = true := fun e he =>
    stopSlot_iff.mpr (.inl fun k' hu => by rw [he] at hu; cases hu)
  obtain ⟨o, -, hrun, -⟩ := h.table.probe (s.str d) hempty
  have hst : (s.table.entry (s.table.home (s.str d) + o)).state = .valid := by
    rw [putSlot, hrun] at hslot
    simpa using hslot
  obtain ⟨t', ht', hinv⟩ := h.table.overwrite hrun hst d
  rw [htSet, htSetDepth, if_neg hroom, ht'] at hset
  cases hset
  exact ⟨rfl, h.retable hd hinv _⟩

/-- **`dir_set`** with the inode of the path. -/
theorem TreeInv.set (h : TreeInv disk s m) (hp : path ∈ s.paths) (hnew : ∀ e ∈ s.live, (s.dentries e).path ≠ path)
    (hl : Leads disk (s.strs path) inodeN) (hn : inodeN < 2 ^ 32) (hfound : (setCall s 0 path inodeN).Found)
    (hset : dirSet s 0 path inodeN offset = .ok (d, s')) :
    ∃ m', TreeInv disk s' m' ∧ Stable s s' ∧
      ((setCall s 0 path inodeN).refused = false → m' = Function.update m (s.strs path) (some d) ∧ Grown s s' ∧
        d ∉ s.live ∧ s'.inodeAt d = (0, inodeN)) := by
  obtain ⟨inode, inodes, ret, s₁, hget, rfl, hd₀, hd, hput, hres⟩ := dirSet_cases hset
  let s₀ := newDentry s 0 path inodeN offset inode inodes
  obtain ⟨h₀, hgrown, hat⟩ := h.new hp hnew hl hn hget hd₀ hd offset
  have hstable := hgrown.stable
  -- without an eviction the dentries are those that `dentry_alloc` leaves
  have hplace : ∀ ret, dirPut s₀ path (s.heap 1) = .ok (ret, s') → Grown s s' ∧ s'.inodeAt (s.heap 1) = (0, inodeN) :=
    fun ret hput => by
      obtain ⟨table, -, rfl⟩ := dirPut_cases hput
      exact ⟨⟨hgrown.live, hgrown.parent, hgrown.str, hgrown.inodeAt⟩, hat⟩
  have hself : s₀.dentries (s.heap 1) = { s.dentries (s.heap 1) with
      valid := false, refCount := 1, offset := offset, inode := inode, path := path } := Function.update_self ..
  have hstr : s₀.str (s.heap 1) = s₀.strs path := by
    unfold Dentries.str
    rw [hself]
  have hmem : s.heap 1 ∈ s₀.live := List.mem_cons_self
  by_cases hm : m (s.strs path) = none
  · rcases h₀.put hmem hstr hm hput with ⟨hret, hov, rfl⟩ | ⟨rfl, h₁⟩
    · obtain ⟨-, hloop⟩ := hres.resolve_left fun hr => hret hr.1
      obtain ⟨m', h', hun⟩ := h₀.evictLoop hmem (by rw [hself]; exact one_ne_zero) hstr hm hloop
      refine ⟨m', h', hstable.unmoved hun, fun hroom => ?_⟩
      exact absurd hov (of_decide_eq_false hroom)
    · obtain ⟨-, rfl⟩ := hres.resolve_right fun hr => hr.1 rfl
      obtain ⟨hgrown', hat'⟩ := hplace 0 hput
      exact ⟨_, h₁, hstable.unmoved (dirPut_unmoved hput), fun _ => ⟨rfl, hgrown', hd, hat'⟩⟩
  · have hcached : (setCall s 0 path inodeN).cached = true := by
      refine decide_eq_true fun hnone => hm ?_
      rwa [h.table.get, Option.some.injEq] at hnone
    obtain ⟨hburied, hrefused⟩ := hfound hcached
    have hslot : ¬ (putSlot s.table (s.strs path)).any fun i => (s.table.entry i).state ≠ .valid := fun hany =>
      of_decide_eq_false hburied ⟨of_decide_eq_true hcached, hany⟩
    obtain ⟨rfl, h₁⟩ := h₀.replace hmem hstr hslot (of_decide_eq_false hrefused) hput
    obtain ⟨-, rfl⟩ := hres.resolve_right fun hr => hr.1 rfl
    obtain ⟨hgrown', hat'⟩ := hplace 0 hput
    exact ⟨_, h₁, hstable.unmoved (dirPut_unmoved hput), fun _ => ⟨rfl, hgrown', hd, hat'⟩⟩

/-! ## Parsing -/

def Dentries.Found (s : Dentries) : Prop := ∀ call ∈ s.sets, call.Found

/-- No `dir_set` between the two states finds the table full. -/
def Roomy (s s' : Dentries) : Prop := s'.sets.countP (·.refused) = s.sets.countP (·.refused)

theorem Roomy.split (h : Roomy s s'') (h₁ : s.sets <:+ s'.sets) (h₂ : s'.sets <:+ s''.sets) :
    Roomy s s' ∧ Roomy s' s'' := by
  unfold Roomy at h ⊢
  have hle₁ := h₁.sublist.countP_le (p := (·.refused))
  have hle₂ := h₂.sublist.countP_le (p := (·.refused))
  omega

theorem Dentries.Found.before (h : s'.Found) (hs : s.sets <:+ s'.sets) : s.Found := fun call hc => h call (hs.subset hc)

/-- The path of an entry of a directory. -/
def entryPath (p name : List UInt8) : List UInt8 := (sumPath p name).takeWhile (· ≠ 0)

/-- What reading entries of a directory adds, if there is room: the table has everything that it had and the entries,
and whatever else it has is a new dentry with the inode of an entry. -/
structure Adds (s s' : Dentries) (m m' : List UInt8 → Option ℕ) (p : List UInt8) (es : List Entry) : Prop where
  grown : Grown s s'
  more : ∀ k, m k ≠ none → m' k ≠ none
  all : ∀ e ∈ es, isDot e.name = false → m' (entryPath p e.name) ≠ none
  new : ∀ k d, m' k = some d →
    m k = some d ∨ d ∉ s.live ∧ ∃ e ∈ es, isDot e.name = false ∧ k = entryPath p e.name ∧ s'.inodeAt d = (0, e.inode)

theorem Adds.refl (s : Dentries) (m : List UInt8 → Option ℕ) (p : List UInt8) : Adds s s m m p [] :=
  ⟨.refl s, fun _ hk => hk, fun _ he => absurd he List.not_mem_nil, fun _ _ hk => .inl hk⟩

theorem Adds.cons {m₁ m' : List UInt8 → Option ℕ} {p : List UInt8} {e : Entry} {es : List Entry} {s₁ : Dentries}
    (h : Adds s s₁ m m₁ p [e]) (h' : Adds s₁ s' m₁ m' p es) (hlive : ∀ k d, m₁ k = some d → d ∈ s₁.live) :
    Adds s s' m m' p (e :: es) := by
  refine ⟨h.grown.trans h'.grown, fun k hk => h'.more k (h.more k hk), fun e' he' hdot => ?_, fun k d hk => ?_⟩
  · rcases List.mem_cons.mp he' with rfl | he'
    · exact h'.more _ (h.all e' (List.mem_singleton_self e') hdot)
    · exact h'.all e' he' hdot
  · rcases h'.new k d hk with hk₁ | ⟨hd, e', he', hdot, hpath, hat⟩
    · refine (h.new k d hk₁).imp id fun hnew => ?_
      obtain ⟨hd, e', he', hdot, hpath, hat⟩ := hnew
      obtain rfl := List.mem_singleton.mp he'
      exact ⟨hd, e', List.mem_cons_self, hdot, hpath, (h'.grown.inodeAt d (hlive k d hk₁)).trans hat⟩
    · exact .inr ⟨fun hd' => hd (h.grown.live d hd'), e', List.mem_cons_of_mem _ he', hdot, hpath, hat⟩

theorem dirAddChild_parent {entry e : ℕ} (h : dirAddChild s dir entry = .ok s') (hne : dir ≠ entry) (he : e ≠ entry) :
    (s'.dentries e).parent = (s.dentries e).parent := by
  obtain ⟨-, rfl | ⟨tables, rfl⟩⟩ := dirAddChild_cases h
  · rfl
  · have hl := congrFun (links_linkChild (s := { s with tables := tables }) hne) e
    by_cases hd : e = dir
    · rw [hd, Function.update_self] at hl
      rw [hd]
      exact congrArg Links.parent hl
    · rw [Function.update_of_ne hd, Function.update_of_ne he] at hl
      exact congrArg Links.parent hl

theorem dirRelease_parent (s : Dentries) (d e : ℕ) : ((dirRelease s d).dentries e).parent = (s.dentries e).parent :=
  congrArg Links.parent (congrFun (links_release s d) e)

/-- **A round of `ext2_parse_dir`** for an entry of the directory. -/
theorem TreeInv.entry {n : ℕ} {es : List Entry} {e : Entry} (h : TreeInv disk s m) (hdir : s.inodeAt dir = (0, n))
    (hes : disk.entries 0 n = some es) (he : e ∈ es) (hfound : s'.Found) (hok : parseEntry s dir 0 e = .ok s') :
    ∃ m', TreeInv disk s' m' ∧ dir ∈ s'.live ∧ Stable s s' ∧ (Roomy s s' → Adds s s' m m' (s.str dir) [e]) := by
  obtain ⟨hlive, path, s₁, hpath, hres⟩ := parseEntry_cases hok
  obtain ⟨h₁, hstable, hmem, hstr, hnew⟩ := h.alloc hpath
  obtain ⟨-, -, hs₁⟩ := newPath_cases hpath
  have hlive₁ : s₁.live = s.live := by rw [hs₁]; rfl
  have hparent₁ : ∀ d, (s₁.dentries d).parent = (s.dentries d).parent := fun d => by rw [hs₁]; rfl
  have hgrown₁ : Grown s s₁ := ⟨fun d hd => hlive₁ ▸ hd, fun d _ => hparent₁ d, fun d hd => (hstable d hd).1,
    fun d hd => (hstable d hd).2⟩
  rcases hres with ⟨hdot, rfl⟩ | ⟨hdot, child, s₂, s₃, hset, hadd, rfl⟩
  · refine ⟨m, h₁, hlive₁ ▸ hlive, hstable, fun _ => ⟨hgrown₁, fun _ hk => hk, fun e' he' hdot' => ?_,
      fun _ _ hk => .inl hk⟩⟩
    rw [List.mem_singleton.mp he', hdot] at hdot'
    cases hdot'
  · have hsame := (same_addChild hadd).trans (same_release s₃ child)
    have hsets : (dirRelease s₃ child).sets = setCall s₁ 0 path e.inode :: s.sets := by
      rw [hsame.sets, dirSet_sets hset, newPath_sets hpath]
    have hl : Leads disk (s₁.strs path) e.inode := by
      rw [hstr]
      obtain ⟨-, hl⟩ := h.leads dir hlive
      rw [hdir] at hl
      exact .entry hl hes he hdot
    obtain ⟨m₂, h₂, hstable₂, hm₂⟩ := h₁.set hmem hnew hl (dirEntries_inode_lt hes e he)
      (hfound _ (hsets ▸ List.mem_cons_self)) hset
    refine ⟨m₂, h₂.same hsame, ?_, fun d hd => ?_, fun hroom => ?_⟩
    · rw [hsame.live]
      exact (dirAddChild_cases hadd).1
    · have hd₁ : d ∈ s₁.live := hlive₁ ▸ hd
      exact ⟨((hsame.unmoved d).1.trans (hstable₂ d hd₁).1).trans (hstable d hd).1,
        ((hsame.unmoved d).2.trans (hstable₂ d hd₁).2).trans (hstable d hd).2⟩
    · have hrefused : (setCall s₁ 0 path e.inode).refused = false := by
        unfold Roomy at hroom
        rw [hsets, List.countP_cons] at hroom
        by_contra hr
        rw [if_pos (Bool.eq_true_of_not_eq_false hr)] at hroom
        omega
      obtain ⟨rfl, hgrown₂, hchild, hat⟩ := hm₂ hrefused
      rw [hlive₁] at hchild
      have hgrown₃ : Grown s (dirRelease s₃ child) := by
        refine hgrown₁.trans ⟨fun d hd => ?_, fun d hd => ?_, fun d hd => ?_, fun d hd => ?_⟩
        · rw [hsame.live]
          exact hgrown₂.live d hd
        · rw [dirRelease_parent, dirAddChild_parent hadd (fun e => hchild (e ▸ hlive))
            fun e => hchild (e ▸ hlive₁ ▸ hd)]
          exact hgrown₂.parent d hd
        · exact (hsame.str d).trans (hgrown₂.str d hd)
        · exact (hsame.inodeAt d).trans (hgrown₂.inodeAt d hd)
      have hkey : entryPath (s.str dir) e.name = s₁.strs path := hstr.symm
      refine ⟨hgrown₃, fun k hk => ?_, fun e' he' _ => ?_, fun k d hk => ?_⟩
      · rw [Function.update_apply]
        split_ifs
        · exact Option.some_ne_none child
        · exact hk
      · rw [List.mem_singleton.mp he', hkey, Function.update_self]
        exact Option.some_ne_none child
      · by_cases hks : k = s₁.strs path
        · rw [hks, Function.update_self, Option.some.injEq] at hk
          refine .inr ⟨hk ▸ hchild, e, List.mem_singleton_self e, hdot, hks.trans hkey.symm, ?_⟩
          rw [← hk]
          exact (hsame.inodeAt child).trans hat
        · rw [Function.update_of_ne hks] at hk
          exact .inl hk

theorem TreeInv.entries {n : ℕ} {es l : List Entry} (h : TreeInv disk s m) (hlive : dir ∈ s.live)
    (hdir : s.inodeAt dir = (0, n)) (hes : disk.entries 0 n = some es) (hl : ∀ e ∈ l, e ∈ es) (hfound : s'.Found)
    (hok : l.foldlM (fun s e => parseEntry s dir 0 e) s = .ok s') :
    ∃ m', TreeInv disk s' m' ∧ (Roomy s s' → Adds s s' m m' (s.str dir) l) := by
  induction l generalizing s m with
  | nil =>
    cases hok
    exact ⟨m, h, fun _ => .refl ..⟩
  | cons e l ih =>
    rw [List.foldlM_cons] at hok
    obtain ⟨s₁, hentry, hrest⟩ := eq_ok_of_bind hok
    have hlater : s₁.sets <:+ s'.sets := by
      refine foldlM_invariant (I := fun t => s₁.sets <:+ t.sets) (fun t e t' _ ht hp => ?_) hrest List.suffix_rfl
      exact ht.trans (keeps_parseEntry hp).1
    obtain ⟨m₁, h₁, hlive₁, hstable, hm₁⟩ :=
      h.entry hdir hes (hl e List.mem_cons_self) (hfound.before hlater) hentry
    obtain ⟨hstr, hat⟩ := hstable dir hlive
    obtain ⟨m', h', hm'⟩ := ih h₁ hlive₁ (hat.trans hdir) (fun e he => hl e (List.mem_cons_of_mem _ he)) hrest
    refine ⟨m', h', fun hroom => ?_⟩
    obtain ⟨hroom₁, hroom'⟩ := hroom.split (keeps_parseEntry hentry).1 hlater
    exact (hm₁ hroom₁).cons (hstr ▸ hm' hroom') fun k d hk => (h₁.mapped k d hk).1

theorem TreeInv.lock {i : ℕ} {inodes : Inodes} (h : TreeInv disk s m)
    (hok : inodeLock disk.inode s.inodes i = .ok inodes) : TreeInv disk { s with inodes := inodes } m := by
  have happly := inodeLock_apply hok
  obtain ⟨mi, refs, hrefs⟩ := h.refs
  have hat : ∀ d, ({ s with inodes := inodes } : Dentries).inodeAt d = s.inodeAt d := fun d =>
    Prod.ext (happly _).2.1 (happly _).2.2.1
  refine ⟨h.table, h.mapped, h.nodup, h.nonnull, h.paths, h.apart, h.valid, fun d hd => ?_, fun i hi => ?_, mi, refs,
    hrefs.lock hok⟩
  · rw [hat]
    exact h.leads d hd
  · rw [(happly i).2.2.2]
    exact h.loaded i ((inodeLock_frame hok).1 ▸ hi)

theorem inodeLock_data {load : ℕ → ℕ → Ext2.Inode} {inodes inodes' : Inodes} {i : ℕ}
    (hok : inodeLock load inodes i = .ok inodes') (hv : (inodes.inodes i).valid = false) :
    (inodes'.inodes i).data.size = (load (inodes.inodes i).data.device (inodes.inodes i).data.n).size := by
  unfold inodeLock at hok
  dsimp only at hok
  split_ifs at hok with hstate hvalid
  · rw [hv] at hvalid
    cases hvalid
  · cases hok
    simp [Inodes.set]

/-- **`ext2_parse_dir`**: if there is room, then all entries are in the table afterwards, and nothing else is new. -/
theorem TreeInv.parse (h : TreeInv disk s m) (hfound : s'.Found) (hok : ext2ParseDir s disk dir = .ok s') :
    ∃ m', TreeInv disk s' m' ∧ (Roomy s s' → ∃ es, disk.entries 0 (s.inodeAt dir).2 = some es ∧
      Adds s s' m m' (s.str dir) es) := by
  obtain ⟨hlive, s₁, inodes, es, htable, hlock, hes, hfold⟩ := ext2ParseDir_cases hok
  have hsame := same_table htable
  have h₁ := h.same hsame
  have h₂ := h₁.lock hlock
  have hlive₁ : dir ∈ s₁.live := hsame.live ▸ hlive
  have happly := inodeLock_apply hlock (s₁.dentries dir).inode
  have hdev : (s₁.inodeAt dir).1 = 0 := (h₁.leads dir hlive₁).1
  have hdev' : (inodes.inodes (s₁.dentries dir).inode).data.device = 0 := happly.2.1.trans hdev
  have hnum : (inodes.inodes (s₁.dentries dir).inode).data.n = (s.inodeAt dir).2 :=
    happly.2.2.1.trans (congrArg Prod.snd (hsame.inodeAt dir))
  obtain ⟨mi, refs, hrefs⟩ := h₁.refs
  have hsize : (inodes.inodes (s₁.dentries dir).inode).data.size = (disk.inode 0 (s.inodeAt dir).2).size := by
    rw [inodeLock_data hlock (h₁.loaded _ (hrefs.inode dir hlive₁))]
    congr 2
    · exact congrArg Prod.snd (hsame.inodeAt dir)
  have hes' : disk.entries 0 (s.inodeAt dir).2 = some es := by
    rw [hdev', hnum, hsize] at hes
    exact hes
  rw [hdev'] at hfold
  have hat : ({ s₁ with inodes := inodes } : Dentries).inodeAt dir = (0, (s.inodeAt dir).2) := Prod.ext hdev' hnum
  obtain ⟨m', h', hm'⟩ := h₂.entries hlive₁ hat hes' (fun e he => he) hfound hfold
  refine ⟨m', h', fun hroom => ?_⟩
  have hroom' : Roomy { s₁ with inodes := inodes } s' := by
    unfold Roomy at hroom ⊢
    rw [hroom, ← hsame.sets]
  have hadds := hm' hroom'
  have hgrown : Grown s { s₁ with inodes := inodes } := by
    refine ⟨fun d hd => hsame.live ▸ hd, fun d _ => ?_, fun d _ => hsame.str d, fun d _ => ?_⟩
    · exact congrArg Links.parent (congrFun (links_table htable) d)
    · exact (Prod.ext (inodeLock_apply hlock _).2.1 (inodeLock_apply hlock _).2.2.1 : _ = s₁.inodeAt d).trans
        (hsame.inodeAt d)
  have hstr : ({ s₁ with inodes := inodes } : Dentries).str dir = s.str dir := hsame.str dir
  rw [hstr] at hadds
  refine ⟨es, hes', hgrown.trans hadds.grown, hadds.more, hadds.all, fun k d hk => (hadds.new k d hk).imp id ?_⟩
  rintro ⟨hd, hnew⟩
  exact ⟨fun hd' => hd (hsame.live ▸ hd'), hnew⟩

/-! ## Runs -/

/-- If all calls of `dir_set` find their paths, then the dentries that were on the disk still are. -/
def Follows (disk : Disk) (s s' : Dentries) : Prop :=
  s.sets <:+ s'.sets ∧ (s'.Found → (∃ m, TreeInv disk s m) → ∃ m, TreeInv disk s' m)

theorem Follows.trans (h : Follows disk s s') (h' : Follows disk s' s'') : Follows disk s s'' :=
  ⟨h.1.trans h'.1, fun hf hm => h'.2 hf (h.2 (hf.before h'.1) hm)⟩

theorem follows_same (h : Same s s') : Follows disk s s' :=
  ⟨h.sets ▸ List.suffix_rfl, fun _ ⟨m, hm⟩ => ⟨m, hm.same h⟩⟩

theorem follows_parseDir (h : ext2ParseDir s disk dir = .ok s') : Follows disk s s' := by
  refine ⟨(keeps_parseDir h).1, fun hf ⟨m, hm⟩ => ?_⟩
  obtain ⟨m', hm', -⟩ := hm.parse hf h
  exact ⟨m', hm'⟩

theorem follows_get {name : List UInt8} {r : ℕ} (h : dirGet s disk name = .ok (r, s')) : Follows disk s s' := by
  refine (dirGet_rule (I := Follows disk s) (P := fun _ _ => True) (fun t d t' ht _ hparse => ?_)
    (fun _ _ _ _ _ => trivial) (fun _ _ => trivial) (fun t d r t' ht _ hhit => ?_) h (follows_same (.refl s))).1
  · exact ⟨ht.trans (follows_parseDir hparse), trivial, trivial⟩
  · exact ⟨ht.trans (follows_same (same_hit hhit).2), trivial⟩

theorem follows_parseRoot (h : ext2ParseRoot s disk 0 = .ok s') : Follows disk s s' := by
  unfold ext2ParseRoot at h
  obtain ⟨⟨path, s₁⟩, hpath, h⟩ := eq_ok_of_bind h
  obtain ⟨⟨d, s₂⟩, hset, h⟩ := eq_ok_of_bind h
  obtain ⟨s₃, hparse, h⟩ := eq_ok_of_bind h
  cases h
  have hsets := dirSet_sets hset
  have hroot : Follows disk s s₂ := by
    refine ⟨hsets ▸ newPath_sets hpath ▸ List.suffix_cons .., fun hf ⟨m, hm⟩ => ?_⟩
    obtain ⟨hm₁, -, hmem, hstr, hnew⟩ := hm.alloc hpath
    have hcall := hf (setCall s₁ 0 path ext2RootInode) (hsets ▸ List.mem_cons_self)
    obtain ⟨m', hm', -⟩ := hm₁.set hmem hnew (hstr ▸ .root) (by decide) hcall hset
    exact ⟨m', hm'⟩
  exact (hroot.trans (follows_parseDir hparse)).trans (follows_same (same_release _ _))

theorem TreeInv.other (h : TreeInv disk s m) (junk : Junk) : TreeInv disk (s.other junk) m := by
  obtain ⟨mi, refs, hrefs⟩ := h.refs
  have hold : ∀ d ∈ s.live, (s.other junk).dentries d = s.dentries d := fun d hd => if_pos hd
  have hin : ∀ i ∈ s.inodes.live, (s.other junk).inodes.inodes i = s.inodes.inodes i := fun i hi => if_pos hi
  have hstr : ∀ d ∈ s.live, (s.other junk).str d = s.str d := fun d hd => by
    unfold Dentries.str
    rw [hold d hd]
    exact if_pos (h.paths d hd)
  have hat : ∀ d ∈ s.live, (s.other junk).inodeAt d = s.inodeAt d := fun d hd => by
    unfold Dentries.inodeAt
    rw [hold d hd, hin _ (hrefs.inode d hd)]
  refine ⟨h.table, fun k d hk => ?_, h.nodup, h.nonnull, fun d hd => ?_, fun d hd e he hp => ?_, fun d hd => ?_,
    fun d hd => ?_, fun i hi => ?_, mi, refs, hrefs.other junk⟩
  · obtain ⟨hd, hdk⟩ := h.mapped k d hk
    exact ⟨hd, (hstr d hd).trans hdk⟩
  · rw [hold d hd]
    exact h.paths d hd
  · rw [hold d hd, hold e he] at hp
    exact h.apart d hd e he hp
  · rw [hold d hd]
    exact h.valid d hd
  · rw [hstr d hd, hat d hd]
    exact h.leads d hd
  · rw [hin i hi]
    exact h.loaded i hi

/-- The operation reads this disk, if it reads one. -/
def PathOp.Reads (disk : Disk) : PathOp → Prop
  | .get disk' _ | .parse disk' _ => disk' = disk
  | .release _ | .other _ => True

/-- A call that returns, of a cache over this disk. -/
def TreeMove (disk : Disk) (c : PathCfg) (op : PathOp) (c' : PathCfg) : Prop := op.Reads disk ∧ PathMove c op c'

/-- What holds as long as all calls of `dir_set` find their paths. -/
def TreeOk (disk : Disk) (c : PathCfg) : Prop := c.dir.Found → ∃ m, TreeInv disk c.dir m

theorem TreeOk.follow {c c' : PathCfg} (h : TreeOk disk c) (hs : Follows disk c.dir c'.dir) : TreeOk disk c' :=
  fun hf => hs.2 hf (h (hf.before hs.1))

theorem TreeOk.step {c c' : PathCfg} {op : PathOp} (h : TreeOk disk c) (hs : TreeMove disk c op c') :
    TreeOk disk c' := by
  obtain ⟨hreads, -, hs⟩ := hs
  cases op with
  | get disk' name =>
    obtain rfl : disk' = disk := hreads
    obtain ⟨⟨r, s'⟩, hget, hs⟩ := eq_ok_of_bind hs
    cases hs
    exact h.follow (follows_get hget)
  | release dentry =>
    cases hs
    exact h.follow (follows_same (same_release _ _))
  | parse disk' dentry =>
    obtain rfl : disk' = disk := hreads
    obtain ⟨s', hparse, hs⟩ := eq_ok_of_bind hs
    cases hs
    exact h.follow (follows_parseDir hparse)
  | other junk =>
    cases hs
    intro hf
    obtain ⟨m, hm⟩ := h hf
    exact ⟨m, hm.other junk⟩

/-- **`dir_init`** caches the root and its entries. -/
theorem treeOk_boot {s₀ : Dentries} (h₀ : Empty s₀) (hboot : dirInit s₀ disk = .ok s) :
    TreeOk disk ⟨s, [s.currentDir]⟩ := by
  unfold dirInit at hboot
  split at hboot
  · cases hboot
  rename_i table htable
  obtain ⟨s₁, hroot, hboot⟩ := eq_ok_of_bind hboot
  obtain ⟨⟨r, s₂⟩, hget, hboot⟩ := eq_ok_of_bind hboot
  cases hboot
  let s' := { s₀ with table := table, lru := { s₀.lru with lhead := 0, ltail := 0 } }
  have hnone : ∀ d, d ∉ s'.live := fun d hd => List.not_mem_nil (h₀.live ▸ hd)
  have hframe : Frame s₀ s' := ⟨rfl, rfl, List.Sublist.refl _, fun _ => rfl⟩
  have hstart : TreeInv disk s' fun _ => none := by
    refine ⟨tableInv_dirInit htable, fun k d hk => (by cases hk), h₀.live ▸ List.nodup_nil, hnone 0,
      fun d hd => absurd hd (hnone d), fun d hd => absurd hd (hnone d), fun d hd => absurd hd (hnone d),
      fun d hd => absurd hd (hnone d), fun i hi => ?_, _, _, h₀.refsInv.frame hframe⟩
    exact absurd (h₀.ilive ▸ hi : i ∈ []) List.not_mem_nil
  have hfollow := (follows_parseRoot hroot).trans (follows_get hget)
  intro hf
  obtain ⟨m, hm⟩ := hfollow.2 hf ⟨_, hstart⟩
  exact ⟨m, hm.same ⟨rfl, rfl, rfl, rfl, rfl, rfl, rfl, fun _ => rfl, fun _ => rfl, fun _ => rfl⟩⟩

/-- **Every run over a disk**: the dentries have the inodes of their paths. -/
theorem treeInv_run {s₀ : Dentries} {ops : List PathOp} {c : PathCfg} (h₀ : Empty s₀)
    (hboot : dirInit s₀ disk = .ok s) (hrun : Run (TreeMove disk) ⟨s, [s.currentDir]⟩ ops c) : TreeOk disk c :=
  hrun.invariant (I := TreeOk disk) (fun _ _ _ => TreeOk.step) (treeOk_boot h₀ hboot)

end BulbOS.Dentry
