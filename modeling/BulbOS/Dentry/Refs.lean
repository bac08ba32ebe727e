import BulbOS.Dentry.Calls
import BulbOS.Inode.Refs
import BulbOS.Lib.Run

/-!
# Dentries and the references of inodes

Runs of the calls of `dir.c` and `inode.c`, in any order and on any disks. `dir_set` takes a reference of
the inode with `inode_get` and another with `inode_dup`, and nothing gives either up.

* `RefsInv`: `ref_count` is the number of references of callers plus two for every `dir_set`;
* **`inode_refs_iff`**: an inode is counted by its dentries and callers exactly when no `dir_set` named it;
* `evicted_dentry_keeps_inode`: a dentry is evicted and its inode keeps two references.
-/

namespace BulbOS.Dentry

open KLib BulbOS.Table BulbOS.Inode

variable {s s' : Dentries} {disk : Disk} {held : List ℕ} {m : UInt64 → Option ℕ} {refs : ℕ → ℕ}
  {d dir i device inodeN path offset : ℕ}

/-! ## Runs -/

/-- What is in memory that is not in use. -/
structure Junk where
  inodes : ℕ → InodeT
  dentries : ℕ → DentryT
  strs : ℕ → List UInt8
  tables : ℕ → HashTable (List UInt8) ℕ
  fresh : ℕ → ℕ → HashEntry (List UInt8) ℕ

/-- Somebody else uses the heap. -/
def Dentries.other (s : Dentries) (junk : Junk) : Dentries :=
  { s with
    inodes := { s.inodes with
      inodes := fun i => if i ∈ s.inodes.live then s.inodes.inodes i else junk.inodes i }
    dentries := fun d => if d ∈ s.live then s.dentries d else junk.dentries d
    strs := fun p => if p ∈ s.paths then s.strs p else junk.strs p
    tables := fun t => if t ∈ s.liveTables then s.tables t else junk.tables t
    fresh := junk.fresh }

/-- The caches, and the references that `inode_get` and `inode_dup` gave to callers. -/
structure RefCfg where
  dir : Dentries
  held : List ℕ

inductive RefOp
  | set (device path inodeN offset : ℕ)
  | get (disk : Disk) (name : List UInt8)
  | release (dentry : ℕ)
  | evict
  | inodeGet (device n : ℕ)
  | inodeDup (inode : ℕ)
  | inodeRelease (inode : ℕ)
  | other (junk : Junk)

def refStep (c : RefCfg) : RefOp → Except Stop RefCfg
  | .set device path inodeN offset => do
    let (_, s) ← dirSet c.dir device path inodeN offset
    return { c with dir := s }
  | .get disk name => do
    let (_, s) ← dirGet c.dir disk name
    return { c with dir := s }
  | .release dentry => .ok { c with dir := dirRelease c.dir dentry }
  | .evict => do
    let s ← dirEvict c.dir
    return { c with dir := s }
  | .inodeGet device n => do
    let (inode, inodes) ← BulbOS.Inode.inodeGet c.dir.inodes (c.dir.heap 0) device n
    return ⟨{ c.dir.pop with inodes := inodes }, inode :: c.held⟩
  | .inodeDup inode => .ok ⟨{ c.dir with inodes := BulbOS.Inode.inodeDup c.dir.inodes inode }, inode :: c.held⟩
  | .inodeRelease inode =>
    .ok ⟨{ c.dir with inodes := (BulbOS.Inode.inodeRelease c.dir.inodes inode).2 }, c.held.erase inode⟩
  | .other junk => .ok { c with dir := c.dir.other junk }

/-- The arguments are 32-bit values, and a caller releases a reference that it has. -/
def RefOp.Legal (c : RefCfg) : RefOp → Prop
  | .set device _ inodeN _ | .inodeGet device inodeN => device < 2 ^ 32 ∧ inodeN < 2 ^ 32
  | .inodeDup inode => inode ∈ c.dir.inodes.live
  | .inodeRelease inode => inode ∈ c.held
  | .get _ _ | .release _ | .evict | .other _ => True

/-- A call that returns. -/
def RefMove (c : RefCfg) (op : RefOp) (c' : RefCfg) : Prop := op.Legal c ∧ refStep c op = .ok c'

/-- The caches before anything is cached. -/
structure Empty (s : Dentries) : Prop where
  live : s.live = []
  sets : s.sets = []
  ilive : s.inodes.live = []
  itable : TableInv s.inodes.table fun _ => none

/-! ## The books -/

/-- The calls of `dir_set` that named the inode. -/
def setsOf (s : Dentries) (i : ℕ) : ℕ :=
  s.sets.countP fun c => c.device = (s.inodes.inodes i).data.device ∧ c.inodeN = (s.inodes.inodes i).data.n

/-- The dentries of an inode. -/
def dentriesOf (s : Dentries) (i : ℕ) : ℕ := s.live.countP fun d => (s.dentries d).inode = i

structure RefsInv (s : Dentries) (held : List ℕ) (m : UInt64 → Option ℕ) (refs : ℕ → ℕ) : Prop where
  inv : InodeInv s.inodes m none refs
  refs_eq : ∀ i ∈ s.inodes.live, refs i = 2 * setsOf s i + held.count i
  mem : ∀ i ∈ held, i ∈ s.inodes.live
  named : ∀ c ∈ s.sets, ∃ i ∈ s.inodes.live,
    (s.inodes.inodes i).data.device = c.device ∧ (s.inodes.inodes i).data.n = c.inodeN
  inode : ∀ d ∈ s.live, (s.dentries d).inode ∈ s.inodes.live
  count : ∀ i ∈ s.inodes.live, dentriesOf s i ≤ setsOf s i

/-- Dentries may be gone; inodes and calls are the same. -/
structure Frame (s s' : Dentries) : Prop where
  inodes : s'.inodes = s.inodes
  sets : s'.sets = s.sets
  live : s'.live.Sublist s.live
  inode : ∀ d, (s'.dentries d).inode = (s.dentries d).inode

theorem Frame.refl (s : Dentries) : Frame s s := ⟨rfl, rfl, List.Sublist.refl _, fun _ => rfl⟩

theorem Frame.trans {s'' : Dentries} (h : Frame s s') (h' : Frame s' s'') : Frame s s'' :=
  ⟨h'.inodes.trans h.inodes, h'.sets.trans h.sets, h'.live.trans h.live, fun d => (h'.inode d).trans (h.inode d)⟩

theorem Same.frame (h : Same s s') : Frame s s' := ⟨h.inodes, h.sets, h.live ▸ List.Sublist.refl _, h.inode⟩

theorem dirEvict_frame (h : dirEvict s = .ok s') : Frame s s' := by
  obtain ⟨old, table, -, -, -, hf⟩ := dirEvict_cases h
  exact ⟨hf.inodes, hf.sets, hf.live ▸ List.erase_sublist, hf.inode⟩

theorem dirPut_frame {ret : ℤ} (h : dirPut s path d = .ok (ret, s')) : Frame s s' := by
  obtain ⟨table, -, rfl⟩ := dirPut_cases h
  exact ⟨rfl, rfl, List.Sublist.refl _, fun _ => rfl⟩

theorem setsOf_congr (hs : s'.sets = s.sets) (hi : (s'.inodes.inodes i).data = (s.inodes.inodes i).data) :
    setsOf s' i = setsOf s i := by
  unfold setsOf
  rw [hs, hi]

theorem RefsInv.frame (h : RefsInv s held m refs) (hf : Frame s s') : RefsInv s' held m refs := by
  have hsets : ∀ i, setsOf s' i = setsOf s i := fun i => setsOf_congr hf.sets (by rw [hf.inodes])
  refine ⟨hf.inodes ▸ h.inv, fun i hi => ?_, fun i hi => hf.inodes ▸ h.mem i hi, fun c hc => ?_, fun d hd => ?_,
    fun i hi => ?_⟩
  · rw [hsets]
    exact h.refs_eq i (hf.inodes ▸ hi)
  · rw [hf.inodes]
    exact h.named c (hf.sets ▸ hc)
  · rw [hf.inode, hf.inodes]
    exact h.inode d (hf.live.subset hd)
  · rw [hsets]
    refine le_trans ?_ (h.count i (hf.inodes ▸ hi))
    unfold dentriesOf
    simp only [hf.inode]
    exact hf.live.countP_le

theorem InodeInv.unique {inodes : Inodes} {j : ℕ} (h : InodeInv inodes m none refs) (hi : i ∈ inodes.live)
    (hj : j ∈ inodes.live) (hd : (inodes.inodes i).data.device = (inodes.inodes j).data.device)
    (hn : (inodes.inodes i).data.n = (inodes.inodes j).data.n) : i = j := by
  have hkey : inodes.key i = inodes.key j := by
    unfold Inodes.key
    rw [hd, hn]
  have hmi : m (inodes.key j) = some i := (h.cached _ _).mpr ⟨hi, by simp, hkey⟩
  have hmj : m (inodes.key j) = some j := (h.cached _ _).mpr ⟨hj, by simp, rfl⟩
  rw [hmi, Option.some.injEq] at hmj
  exact hmj

/-- An inode with a dentry, a caller or a `dir_set` has references. -/
theorem RefsInv.pos_of_set (h : RefsInv s held m refs) (hi : i ∈ s.inodes.live) (hs : 0 < setsOf s i) :
    refs i ≠ 0 := by
  rw [h.refs_eq i hi]
  omega

theorem RefsInv.pos_of_dentry (h : RefsInv s held m refs) (hd : d ∈ s.live) :
    refs (s.dentries d).inode ≠ 0 := by
  refine h.pos_of_set (h.inode d hd) (lt_of_lt_of_le ?_ (h.count _ (h.inode d hd)))
  exact List.countP_pos_iff.mpr ⟨d, hd, by simp⟩

theorem RefsInv.pos_of_held (h : RefsInv s held m refs) (hi : i ∈ held) : refs i ≠ 0 := by
  rw [h.refs_eq i (h.mem i hi)]
  have := List.count_pos_iff.mpr hi
  omega

theorem setsOf_pos_of_named {c : SetCall} (hc : c ∈ s.sets) (hd : (s.inodes.inodes i).data.device = c.device)
    (hn : (s.inodes.inodes i).data.n = c.inodeN) : 0 < setsOf s i :=
  List.countP_pos_iff.mpr ⟨c, hc, by simp [hd, hn]⟩

/-- **A caller gets a reference**: a new inode has no dentries and no other callers. -/
theorem RefsInv.taken {inodes : Inodes} (h : RefsInv s held m refs) (ht : Taken s.inodes inodes refs i) :
    ∃ m' refs', RefsInv { s with inodes := inodes } (i :: held) m' refs' := by
  obtain ⟨m', hinv⟩ := ht.inv
  have hnamed : ∀ c ∈ s.sets, ∃ j ∈ inodes.live, j ∈ s.inodes.live ∧
      (inodes.inodes j).data.device = c.device ∧ (inodes.inodes j).data.n = c.inodeN := fun c hc => by
    obtain ⟨j, hj, hd, hn⟩ := h.named c hc
    refine ⟨j, ht.stays j hj (h.pos_of_set hj (setsOf_pos_of_named hc hd hn)), hj, ?_⟩
    rw [ht.data j hj]
    exact ⟨hd, hn⟩
  -- an inode that was not in use is named by no call, since the inode of a call is still in use
  have hnew : i ∉ s.inodes.live → setsOf { s with inodes := inodes } i = 0 := fun hi => by
    refine List.countP_eq_zero.mpr fun c hc hci => hi ?_
    obtain ⟨j, hj, hjs, hd, hn⟩ := hnamed c hc
    simp only [decide_eq_true_eq] at hci
    rw [← InodeInv.unique hinv hj ht.mem (hd.trans hci.1) (hn.trans hci.2)]
    exact hjs
  have hsets : ∀ j ∈ s.inodes.live, setsOf { s with inodes := inodes } j = setsOf s j := fun j hj =>
    setsOf_congr rfl (ht.data j hj)
  have hcount : ∀ j ∈ inodes.live, j ∉ s.inodes.live → j = i := fun j hj hjs => by
    by_contra hne
    exact hjs (ht.old j hj hne)
  refine ⟨m', _, hinv, fun j hj => ?_, fun j hj => ?_, fun c hc => ?_, fun d hd => ?_, fun j hj => ?_⟩
  · by_cases hjs : j ∈ s.inodes.live
    · rw [hsets j hjs]
      by_cases hji : j = i
      · subst hji
        rw [Function.update_self, h.refs_eq j hjs, List.count_cons_self]
        omega
      · rw [Function.update_of_ne hji, h.refs_eq j hjs, List.count_cons_of_ne (Ne.symm hji)]
    · obtain rfl := hcount j hj hjs
      have hz : held.count j = 0 := List.count_eq_zero.mpr fun e => hjs (h.mem j e)
      rw [Function.update_self, hnew hjs, h.inv.unused j hjs, List.count_cons_self, hz]
  · rcases List.mem_cons.mp hj with rfl | hj
    · exact ht.mem
    · exact ht.stays j (h.mem j hj) (h.pos_of_held hj)
  · obtain ⟨j, hj, -, hd, hn⟩ := hnamed c hc
    exact ⟨j, hj, hd, hn⟩
  · exact ht.stays _ (h.inode d hd) (h.pos_of_dentry hd)
  · by_cases hjs : j ∈ s.inodes.live
    · rw [hsets j hjs]
      exact h.count j hjs
    · have hz : dentriesOf { s with inodes := inodes } j = 0 :=
        List.countP_eq_zero.mpr fun d hd e => hjs (of_decide_eq_true e ▸ h.inode d hd)
      rw [hz]
      exact Nat.zero_le _

/-- **A new dentry** keeps two references that `dir_set` got. -/
theorem RefsInv.bind {c : SetCall} (h : RefsInv s (i :: i :: held) m refs) (hi : (s'.dentries d).inode = i)
    (hold : ∀ e ∈ s.live, (s'.dentries e).inode = (s.dentries e).inode) (hin : s'.inodes = s.inodes)
    (hl : s'.live = d :: s.live) (hs : s'.sets = c :: s.sets)
    (hd : (s.inodes.inodes i).data.device = c.device) (hn : (s.inodes.inodes i).data.n = c.inodeN) :
    RefsInv s' held m refs := by
  have hmem : i ∈ s.inodes.live := h.mem i List.mem_cons_self
  have hself : setsOf s' i = setsOf s i + 1 := by
    unfold setsOf
    rw [hs, hin, List.countP_cons_of_pos (by simp [hd, hn])]
  have hother : ∀ j ∈ s.inodes.live, j ≠ i → setsOf s' j = setsOf s j := fun j hj hne => by
    unfold setsOf
    rw [hs, hin, List.countP_cons_of_neg fun e => hne ?_]
    simp only [decide_eq_true_eq] at e
    exact InodeInv.unique h.inv hj hmem (e.1.symm.trans hd.symm) (e.2.symm.trans hn.symm)
  have hden : ∀ j, dentriesOf s' j = dentriesOf s j + if j = i then 1 else 0 := fun j => by
    unfold dentriesOf
    rw [hl, List.countP_cons, hi, List.countP_congr fun e he => by rw [hold e he]]
    by_cases hji : j = i
    · simp [hji]
    · simp [hji, Ne.symm hji]
  refine ⟨hin ▸ h.inv, fun j hj => ?_, fun j hj => ?_, fun c' hc => ?_, fun e he => ?_, fun j hj => ?_⟩
  · rw [hin] at hj
    rw [h.refs_eq j hj]
    by_cases hji : j = i
    · subst hji
      rw [hself, List.count_cons_self, List.count_cons_self]
      omega
    · rw [hother j hj hji, List.count_cons_of_ne (Ne.symm hji), List.count_cons_of_ne (Ne.symm hji)]
  · rw [hin]
    exact h.mem j (List.mem_cons_of_mem _ (List.mem_cons_of_mem _ hj))
  · rw [hs] at hc
    rw [hin]
    rcases List.mem_cons.mp hc with rfl | hc
    · exact ⟨i, hmem, hd, hn⟩
    · exact h.named c' hc
  · rw [hl] at he
    rw [hin]
    rcases List.mem_cons.mp he with rfl | he
    · rw [hi]
      exact hmem
    · rw [hold e he]
      exact h.inode e he
  · rw [hin] at hj
    rw [hden]
    have := h.count j hj
    by_cases hji : j = i
    · subst hji
      rw [hself, if_pos rfl]
      omega
    · rw [hother j hj hji, if_neg hji]
      exact this

/-! ## The calls -/

theorem RefsInv.allocated {inodes : Inodes} (h : RefsInv s held m refs) (path offset : ℕ) (hd : device < 2 ^ 32)
    (hn : inodeN < 2 ^ 32) (hget : inodeGet s.inodes (s.heap 0) device inodeN = .ok (i, inodes))
    (hlive : s.heap 1 ∉ s.live) :
    ∃ m' refs', RefsInv (newDentry s device path inodeN offset i inodes) held m' refs' := by
  obtain ⟨ht, hdev, hnum⟩ := inodeGet_spec h.inv hd hn hget
  obtain ⟨m₁, refs₁, h₁⟩ := h.taken ht
  obtain ⟨m₂, refs₂, h₂⟩ := h₁.taken (h₁.inv.taken (h₁.mem i List.mem_cons_self))
  refine ⟨m₂, refs₂, h₂.bind (d := s.heap 1) (c := setCall s device path inodeN) ?_ (fun e he => ?_) rfl rfl rfl ?_ ?_⟩
  · exact congrArg DentryT.inode (set_self ..)
  · exact congrArg DentryT.inode (set_of_ne _ _ fun e' : e = s.heap 1 => hlive (e' ▸ he))
  · exact (congrArg _ (inodeDup_data inodes i i)).trans hdev
  · exact (congrArg _ (inodeDup_data inodes i i)).trans hnum

theorem RefsInv.set (h : RefsInv s held m refs) (hd : device < 2 ^ 32) (hn : inodeN < 2 ^ 32)
    (hok : dirSet s device path inodeN offset = .ok (d, s')) : ∃ m' refs', RefsInv s' held m' refs' := by
  obtain ⟨inode, inodes, ret, s₁, hget, rfl, h₀, hlive, hput, hres⟩ := dirSet_cases hok
  obtain ⟨m₂, refs₂, h₃⟩ := h.allocated path offset hd hn hget hlive
  refine ⟨m₂, refs₂, h₃.frame ((dirPut_frame hput).trans ?_)⟩
  rcases hres with ⟨-, rfl⟩ | ⟨-, hloop⟩
  · exact .refl _
  · exact dirEvictLoop_rule (fun _ _ hf he => hf.trans (dirEvict_frame he))
      (fun _ _ _ hf hp => hf.trans (dirPut_frame hp)) hloop (.refl _)

theorem RefsInv.entry {e : Entry} (h : RefsInv s held m refs) (hd : device < 2 ^ 32) (hn : e.inode < 2 ^ 32)
    (hok : parseEntry s dir device e = .ok s') : ∃ m' refs', RefsInv s' held m' refs' := by
  obtain ⟨-, path, s₁, hpath, hres⟩ := parseEntry_cases hok
  obtain ⟨-, -, rfl⟩ := newPath_cases hpath
  have hf : Frame s { s.pop with
      strs := Function.update s.strs path ((sumPath (s.str dir) e.name).takeWhile (· ≠ 0))
      paths := path :: s.paths } :=
    ⟨rfl, rfl, List.Sublist.refl _, fun _ => rfl⟩
  rcases hres with ⟨-, rfl⟩ | ⟨-, child, s₂, s₃, hset, hadd, rfl⟩
  · exact ⟨m, refs, h.frame hf⟩
  · obtain ⟨m', refs', h'⟩ := (h.frame hf).set hd hn hset
    exact ⟨m', refs', h'.frame ((same_addChild hadd).frame.trans (same_release _ _).frame)⟩

theorem RefsInv.lock {load : ℕ → ℕ → Ext2.Inode} {inodes : Inodes} (h : RefsInv s held m refs)
    (hok : inodeLock load s.inodes i = .ok inodes) : RefsInv { s with inodes := inodes } held m refs := by
  have happly := inodeLock_apply hok
  obtain ⟨hlive, -⟩ := inodeLock_frame hok
  have hsets : ∀ j, setsOf { s with inodes := inodes } j = setsOf s j := fun j => by
    unfold setsOf
    simp only [(happly j).2.1, (happly j).2.2.1]
  refine ⟨h.inv.lock hok, fun j hj => ?_, fun j hj => ?_, fun c hc => ?_, fun d hd => ?_, fun j hj => ?_⟩
  · rw [hsets]
    exact h.refs_eq j (hlive ▸ hj)
  · exact hlive ▸ h.mem j hj
  · obtain ⟨j, hj, hd, hn⟩ := h.named c hc
    exact ⟨j, hlive ▸ hj, (happly j).2.1.trans hd, (happly j).2.2.1.trans hn⟩
  · exact hlive ▸ h.inode d hd
  · rw [hsets]
    exact h.count j (hlive ▸ hj)

theorem RefsInv.parse (h : RefsInv s held m refs) (hok : ext2ParseDir s disk dir = .ok s') :
    ∃ m' refs', RefsInv s' held m' refs' := by
  obtain ⟨hdir, s₁, inodes, es, htable, hlock, hes, hfold⟩ := ext2ParseDir_cases hok
  have h₁ := (h.frame (same_table htable).frame).lock hlock
  have hbound := (h₁.inv.bound _ (h₁.inode dir (by rw [(same_table htable).live]; exact hdir))).1
  refine foldlM_invariant (I := fun s => ∃ m refs, RefsInv s held m refs) (fun s e s' he hs hok => ?_) hfold
    ⟨m, refs, h₁⟩
  obtain ⟨m, refs, hs⟩ := hs
  exact hs.entry hbound (dirEntries_inode_lt hes e he) hok

theorem RefsInv.get {name : List UInt8} (h : RefsInv s held m refs) (hok : dirGet s disk name = .ok (d, s')) :
    ∃ m' refs', RefsInv s' held m' refs' := by
  refine (dirGet_rule (I := fun s => ∃ m refs, RefsInv s held m refs) (P := fun _ _ => True)
    (fun s d s' hs _ hp => ⟨?_, trivial, trivial⟩) (fun _ _ _ _ _ => trivial) (fun _ _ => trivial)
    (fun s d r s' hs _ hh => ⟨?_, trivial⟩) hok ⟨m, refs, h⟩).1
  · obtain ⟨m, refs, hs⟩ := hs
    exact hs.parse hp
  · obtain ⟨m, refs, hs⟩ := hs
    exact ⟨m, refs, hs.frame (same_hit hh).2.frame⟩

theorem RefsInv.drop (h : RefsInv s held m refs) (hi : i ∈ held) :
    RefsInv { s with inodes := (inodeRelease s.inodes i).2 } (held.erase i) m
      (Function.update refs i (refs i - 1)) := by
  have hpos := h.pos_of_held hi
  obtain ⟨hlive, -⟩ := inodeRelease_frame s.inodes i
  have hdata := inodeRelease_data s.inodes i
  have hsets : ∀ j, setsOf { s with inodes := (inodeRelease s.inodes i).2 } j = setsOf s j := fun j =>
    setsOf_congr rfl (hdata j)
  refine ⟨h.inv.release (h.mem i hi) (Nat.pos_of_ne_zero hpos), fun j hj => ?_, fun j hj => ?_, fun c hc => ?_,
    fun d hd => ?_, fun j hj => ?_⟩
  · rw [hsets]
    have hj' := h.refs_eq j (hlive ▸ hj)
    have hcount := List.count_pos_iff.mpr hi
    by_cases hji : j = i
    · subst hji
      rw [Function.update_self, List.count_erase_self]
      omega
    · rw [Function.update_of_ne hji, List.count_erase_of_ne hji]
      exact hj'
  · exact hlive ▸ h.mem j (List.mem_of_mem_erase hj)
  · obtain ⟨j, hj, hd, hn⟩ := h.named c hc
    exact ⟨j, hlive ▸ hj, by rw [hdata]; exact hd, by rw [hdata]; exact hn⟩
  · exact hlive ▸ h.inode d hd
  · rw [hsets]
    exact h.count j (hlive ▸ hj)

theorem RefsInv.other (h : RefsInv s held m refs) (junk : Junk) : RefsInv (s.other junk) held m refs := by
  have hin : ∀ j ∈ s.inodes.live, (s.other junk).inodes.inodes j = s.inodes.inodes j := fun j hj => if_pos hj
  have hkey : ∀ j ∈ s.inodes.live, (s.other junk).inodes.key j = s.inodes.key j := fun j hj => by
    unfold Inodes.key
    rw [hin j hj]
  have hsets : ∀ j ∈ s.inodes.live, setsOf (s.other junk) j = setsOf s j := fun j hj =>
    setsOf_congr rfl (by rw [hin j hj])
  have hden : ∀ e ∈ s.live, (s.other junk).dentries e = s.dentries e := fun e he => if_pos he
  refine ⟨⟨h.inv.table, fun k j => ?_, fun j hj => ?_, h.inv.unused, h.inv.nodup, fun j hj => ?_⟩,
    fun j hj => ?_, h.mem, fun c hc => ?_, fun e he => ?_, fun j hj => ?_⟩
  · rw [h.inv.cached]
    refine and_congr_right fun hj => and_congr_right fun _ => ?_
    rw [hkey j hj]
  · rw [hin j hj]
    exact h.inv.counts j hj
  · rw [hin j hj]
    exact h.inv.bound j hj
  · rw [hsets j hj]
    exact h.refs_eq j hj
  · obtain ⟨j, hj, hd, hn⟩ := h.named c hc
    exact ⟨j, hj, by rw [hin j hj]; exact hd, by rw [hin j hj]; exact hn⟩
  · rw [hden e he]
    exact h.inode e he
  · rw [hsets j hj]
    refine le_trans (le_of_eq ?_) (h.count j hj)
    exact List.countP_congr fun e he => by rw [hden e he]

theorem RefsInv.move {c c' : RefCfg} {op : RefOp} (h : RefsInv c.dir c.held m refs) (hm : RefMove c op c') :
    ∃ m' refs', RefsInv c'.dir c'.held m' refs' := by
  obtain ⟨hl, hok⟩ := hm
  cases op with
  | set device path inodeN offset =>
    obtain ⟨⟨d, s'⟩, hset, hok⟩ := eq_ok_of_bind hok
    cases hok
    exact h.set hl.1 hl.2 hset
  | get disk name =>
    obtain ⟨⟨d, s'⟩, hget, hok⟩ := eq_ok_of_bind hok
    cases hok
    exact h.get hget
  | release dentry =>
    cases hok
    exact ⟨m, refs, h.frame (same_release _ _).frame⟩
  | evict =>
    obtain ⟨s', hevict, hok⟩ := eq_ok_of_bind hok
    cases hok
    exact ⟨m, refs, h.frame (dirEvict_frame hevict)⟩
  | inodeGet device n =>
    obtain ⟨⟨i, inodes⟩, hget, hok⟩ := eq_ok_of_bind hok
    cases hok
    have hpop : Frame c.dir c.dir.pop := ⟨rfl, rfl, List.Sublist.refl _, fun _ => rfl⟩
    exact (h.frame hpop).taken (inodeGet_spec h.inv hl.1 hl.2 hget).1
  | inodeDup i =>
    cases hok
    exact h.taken (h.inv.taken hl)
  | inodeRelease i =>
    cases hok
    exact ⟨m, _, h.drop hl⟩
  | other junk =>
    cases hok
    exact ⟨m, refs, h.other junk⟩

theorem Empty.refsInv {s₀ : Dentries} (h₀ : Empty s₀) : RefsInv s₀ [] (fun _ => none) fun _ => 0 := by
  refine ⟨⟨h₀.itable, fun k i => ?_, fun i hi => ?_, fun _ _ => rfl, ?_, fun i hi => ?_⟩, fun i hi => ?_,
    fun i hi => (by cases hi), fun c hc => ?_, fun d hd => ?_, fun i hi => ?_⟩
  · rw [h₀.ilive]
    simp
  · rw [h₀.ilive] at hi
    cases hi
  · rw [h₀.ilive]
    exact List.nodup_nil
  · rw [h₀.ilive] at hi
    cases hi
  · rw [h₀.ilive] at hi
    cases hi
  · rw [h₀.sets] at hc
    cases hc
  · rw [h₀.live] at hd
    cases hd
  · rw [h₀.ilive] at hi
    cases hi

/-- **References of inodes.** In every run from empty caches, a cached inode has as many references as
dentries and callers exactly when no `dir_set` of the run named it. -/
theorem inode_refs_iff {s₀ : Dentries} (h₀ : Empty s₀) {ops : List RefOp} {c : RefCfg}
    (hrun : Run RefMove ⟨s₀, []⟩ ops c) {device n i : ℕ} (hd : device < 2 ^ 32) (hn : n < 2 ^ 32)
    (hi : htGet c.dir.inodes.table (inodeKey device n) = some (some i)) :
    (c.dir.inodes.inodes i).refCount = (dentriesOf c.dir i + c.held.count i : ℕ) ↔
      ∀ call ∈ c.dir.sets, ¬ (call.device = device ∧ call.inodeN = n) := by
  obtain ⟨m, refs, h⟩ := hrun.invariant (I := fun c => ∃ m refs, RefsInv c.dir c.held m refs)
    (fun _ _ _ ⟨_, _, h⟩ hm => h.move hm) ⟨_, _, h₀.refsInv⟩
  rw [h.inv.table.get, Option.some.injEq, h.inv.cached] at hi
  obtain ⟨hlive, -, hkey⟩ := hi
  obtain ⟨hdev, hnum⟩ := inodeKey_inj (h.inv.bound i hlive).1 (h.inv.bound i hlive).2 hd hn hkey
  have hcount := h.count i hlive
  have hzero : (∀ call ∈ c.dir.sets, ¬ (call.device = device ∧ call.inodeN = n)) ↔ setsOf c.dir i = 0 := by
    unfold setsOf
    rw [List.countP_eq_zero, hdev, hnum]
    simp only [decide_eq_true_eq]
  rw [hzero, h.inv.counts i hlive, h.refs_eq i hlive, Nat.cast_inj]
  omega

/-- Nothing is cached, and the memory is clear. -/
def demoCaches : Dentries where
  inodes := ⟨fun _ => ⟨false, 0, ⟨0, 0, 0, 0, 0, 0, 0, 0, 0, 0, fun _ => 0⟩⟩, [],
    ⟨fun _ => ⟨0, none, .empty⟩, demoCapacity, 0, 75, false⟩, ⟨fun _ => 0, fun _ => 0, 0, 0⟩⟩
  dentries _ := ⟨false, 0, 0, 0, 0, 0, 0, 0, 0, 0⟩
  live := []
  lru := ⟨fun _ => 0, fun _ => 0, 0, 0⟩
  table := ⟨fun _ => ⟨[], none, .empty⟩, demoCapacity, 0, 75, false⟩
  keys _ := 0
  strs _ := [47, 97]
  paths := []
  tables _ := ⟨fun _ => ⟨[], none, .empty⟩, demoCapacity, 0, 75, false⟩
  liveTables := []
  currentDir := 0
  heap n := 100 + n
  fresh _ _ := ⟨[], none, .empty⟩
  sets := []

theorem demoCaches_empty : Empty demoCaches :=
  ⟨rfl, rfl, rfl, tableInv_empty (by decide) (by decide) rfl rfl fun _ _ => rfl⟩

instance (c : RefCfg) : (op : RefOp) → Decidable (op.Legal c)
  | .set _ _ _ _ | .inodeGet _ _ => inferInstanceAs (Decidable (_ ∧ _))
  | .inodeDup _ | .inodeRelease _ => inferInstanceAs (Decidable (_ ∈ _))
  | .get _ _ | .release _ | .evict | .other _ => inferInstanceAs (Decidable True)

/-- `dir_set` of `"/a"` with inode 12, and `inode_get` of inode 13. -/
theorem inode_refs_iff_demo : ∃ c, Run RefMove ⟨demoCaches, []⟩ [.set 0 50 12 0, .inodeGet 0 13] c ∧
    htGet c.dir.inodes.table (inodeKey 0 13) = some (some 102) ∧
    (c.dir.inodes.inodes 102).refCount = (dentriesOf c.dir 102 + c.held.count 102 : ℕ) := by
  obtain ⟨c, hrun, hp⟩ := exists_run RefOp.Legal refStep ⟨demoCaches, []⟩
    [.set 0 50 12 0, .inodeGet 0 13] (fun c => htGet c.dir.inodes.table (inodeKey 0 13) = some (some 102) ∧
      ∀ call ∈ c.dir.sets, ¬ (call.device = 0 ∧ call.inodeN = 13)) (by decide +kernel)
  obtain ⟨hget, hsets⟩ := of_decide_eq_true hp
  exact ⟨c, hrun, hget, (inode_refs_iff demoCaches_empty hrun (by decide) (by decide) hget).mpr hsets⟩

/-- **The dentry of inode 12 is evicted**, nobody has a reference, and `ref_count` is 2. -/
theorem evicted_dentry_keeps_inode : ∃ c, Run RefMove ⟨demoCaches, []⟩ [.set 0 50 12 0, .release 101, .evict] c ∧
    htGet c.dir.inodes.table (inodeKey 0 12) = some (some 100) ∧ dentriesOf c.dir 100 = 0 ∧ c.held = [] ∧
    (c.dir.inodes.inodes 100).refCount = 2 := by
  obtain ⟨c, hrun, hp⟩ := exists_run RefOp.Legal refStep ⟨demoCaches, []⟩
    [.set 0 50 12 0, .release 101, .evict] (fun c => htGet c.dir.inodes.table (inodeKey 0 12) = some (some 100) ∧
      dentriesOf c.dir 100 = 0 ∧ c.held = [] ∧ (c.dir.inodes.inodes 100).refCount = 2) (by decide +kernel)
  exact ⟨c, hrun, of_decide_eq_true hp⟩

end BulbOS.Dentry
