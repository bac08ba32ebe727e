import BulbOS.Inode.Model
import BulbOS.Lib.Stop
import BulbOS.Table.Refine

/-!
# References to inodes

What the calls of `inode.c` do to the reference counts. The order of the unreferenced inodes does not
matter: only an inode without references is evicted, whichever it is.

* `InodeInv`: the table has the inodes that are in use, and `ref_count` counts the references `refs`;
* `inodeEvict_spec`, `inodeEvictLoop_spec`, `inodeGet_spec`, `InodeInv.dup`, `InodeInv.release`, `InodeInv.lock`.
-/

namespace BulbOS.Inode

open KLib BulbOS.Table

variable {s s' : Inodes} {m : UInt64 → Option ℕ} {out : Option ℕ} {refs : ℕ → ℕ} {i device n ptr : ℕ}

/-- `out` is an inode that is in use and not in the table yet. -/
structure InodeInv (s : Inodes) (m : UInt64 → Option ℕ) (out : Option ℕ) (refs : ℕ → ℕ) : Prop where
  table : TableInv s.table m
  cached : ∀ k i, m k = some i ↔ i ∈ s.live ∧ out ≠ some i ∧ s.key i = k
  counts : ∀ i ∈ s.live, (s.inodes i).refCount = refs i
  unused : ∀ i, i ∉ s.live → refs i = 0
  nodup : s.live.Nodup
  bound : ∀ i ∈ s.live, (s.inodes i).data.device < 2 ^ 32 ∧ (s.inodes i).data.n < 2 ^ 32

/-- Inodes with references stay; the others keep their data if they stay. -/
structure Kept (refs : ℕ → ℕ) (s s' : Inodes) (i : ℕ) : Prop where
  inodes : ∀ j, j ≠ i → s'.inodes j = s.inodes j
  old : ∀ j ∈ s'.live, j ≠ i → j ∈ s.live
  stays : ∀ j ∈ s.live, refs j ≠ 0 → j ∈ s'.live

theorem inodeKey_inj {device' n' : ℕ} (hd : device < 2 ^ 32) (hn : n < 2 ^ 32) (hd' : device' < 2 ^ 32)
    (hn' : n' < 2 ^ 32) (h : inodeKey device n = inodeKey device' n') : device = device' ∧ n = n' :=
  pack_inj hd hn hd' hn' h

theorem InodeInv.congr {lru : Lru} (h : InodeInv s m out refs) : InodeInv { s with lru := lru } m out refs :=
  ⟨h.table, h.cached, h.counts, h.unused, h.nodup, h.bound⟩

theorem InodeInv.drop {old : ℕ} {ret : ℤ} {table : HashTable UInt64 ℕ} {lru : Lru} (h : InodeInv s m out refs)
    (hout : ∀ p, out = some p → refs p ≠ 0) (hlive : old ∈ s.live) (href : (s.inodes old).refCount = 0)
    (hrem : htRemove s.table (s.key old) = some (ret, table)) :
    ∃ m', InodeInv { s with table := table, lru := lru, live := s.live.erase old } m' out refs ∧
      (∀ k, m k = none → m' k = none) ∧ (∀ j ∈ s.live.erase old, j ∈ s.live) ∧
      ∀ j ∈ s.live, refs j ≠ 0 → j ∈ s.live.erase old := by
  have hz : refs old = 0 := by
    have := h.counts old hlive
    omega
  have hin : out ≠ some old := fun e => hout old e hz
  have hm : m (s.key old) = some old := (h.cached _ _).mpr ⟨hlive, hin, rfl⟩
  obtain ⟨t', ht', hinv⟩ := h.table.remove_mem (k := s.key old) (by rw [hm]; simp)
  rw [ht', Option.some.injEq, Prod.mk.injEq] at hrem
  obtain ⟨-, rfl⟩ := hrem
  have hmem : ∀ j, j ∈ s.live.erase old ↔ j ≠ old ∧ j ∈ s.live := fun j => h.nodup.mem_erase_iff
  refine ⟨_, ⟨hinv, fun k i => ?_, fun i hi => h.counts i ((hmem i).mp hi).2, fun i hi => ?_,
    h.nodup.erase old, fun i hi => h.bound i ((hmem i).mp hi).2⟩, fun k hk => ?_,
    fun j hj => ((hmem j).mp hj).2, fun j hj hne => (hmem j).mpr ⟨fun e => hne (e ▸ hz), hj⟩⟩
  · change _ ↔ i ∈ s.live.erase old ∧ out ≠ some i ∧ s.key i = k
    rw [hmem]
    by_cases hk : k = s.key old
    · subst hk
      rw [Function.update_self]
      refine ⟨fun e => (by cases e), fun ⟨⟨hne, hi⟩, hi', hkey⟩ => ?_⟩
      have := (h.cached _ _).mpr ⟨hi, hi', hkey⟩
      rw [hm, Option.some.injEq] at this
      exact absurd this.symm hne
    · rw [Function.update_of_ne hk, h.cached]
      refine ⟨fun ⟨hi, hi', hkey⟩ => ⟨⟨fun e => hk (e ▸ hkey.symm), hi⟩, hi', hkey⟩,
        fun ⟨⟨_, hi⟩, hi', hkey⟩ => ⟨hi, hi', hkey⟩⟩
  · by_cases hi' : i ∈ s.live
    · have he : i = old := by
        by_contra hne
        exact hi ((hmem i).mpr ⟨hne, hi'⟩)
      rw [he, hz]
    · exact h.unused i hi'
  · by_cases hk' : k = s.key old
    · rw [hk', Function.update_self]
    · rw [Function.update_of_ne hk', hk]

/-- **`inode_evict`** gives up an inode without references. -/
theorem inodeEvict_spec (h : InodeInv s m out refs) (hout : ∀ p, out = some p → refs p ≠ 0)
    (hok : inodeEvict s = .ok s') :
    ∃ m', InodeInv s' m' out refs ∧ (∀ k, m k = none → m' k = none) ∧ s'.inodes = s.inodes ∧
      (∀ j ∈ s'.live, j ∈ s.live) ∧ ∀ j ∈ s.live, refs j ≠ 0 → j ∈ s'.live := by
  unfold inodeEvict at hok
  dsimp only at hok
  by_cases h₀ : s.lru.ltail = 0
  · rw [if_pos h₀] at hok
    cases hok
  rw [if_neg h₀] at hok
  by_cases href : (s.inodes s.lru.ltail).refCount ≠ 0
  · rw [if_pos href] at hok
    cases hok
  rw [if_neg href] at hok
  rw [not_not] at href
  split at hok
  · cases hok
  · rename_i ret table hrem
    by_cases hret : ret ≠ 0
    · rw [if_pos hret] at hok
      cases hok
    rw [if_neg hret] at hok
    obtain ⟨lru, -, hok⟩ := eq_ok_of_bind hok
    by_cases hlive : s.lru.ltail ∈ s.live
    · rw [if_pos hlive] at hok
      cases hok
      obtain ⟨m', hinv, hnone, hold, hstay⟩ := h.drop hout hlive href hrem
      exact ⟨m', hinv, hnone, rfl, hold, hstay⟩
    · rw [if_neg hlive] at hok
      cases hok

/-- `ht_set` of the inode that is not in the table yet, or a full table. -/
theorem inodeSet_spec {ret : ℤ} (h : InodeInv s m (some i) refs) (hi : i ∈ s.live) (hm : m (s.key i) = none)
    (hok : inodeSet s (s.key i) i = .ok (ret, s')) :
    ret ≠ 0 ∧ s' = s ∨ ret = 0 ∧ InodeInv s' (Function.update m (s.key i) (some i)) none refs ∧
      s'.inodes = s.inodes ∧ s'.live = s.live := by
  unfold inodeSet at hok
  rcases h.table.set hm (fun _ _ => ⟨0, none, .empty⟩) i with hfull | ⟨t', hput, hinv⟩
  · rw [hfull] at hok
    cases hok
    exact .inl ⟨by decide, rfl⟩
  · rw [hput] at hok
    cases hok
    refine .inr ⟨rfl, ⟨hinv, fun k j => ?_, h.counts, h.unused, h.nodup, h.bound⟩, rfl, rfl⟩
    change _ ↔ j ∈ s.live ∧ none ≠ some j ∧ s.key j = k
    by_cases hk : k = s.key i
    · subst hk
      rw [Function.update_self, Option.some.injEq]
      refine ⟨fun e => e ▸ ⟨hi, by simp, rfl⟩, fun ⟨hj, _, hkey⟩ => ?_⟩
      by_contra hne
      have := (h.cached _ _).mpr ⟨hj, fun e => hne (Option.some.inj e), hkey⟩
      rw [hm] at this
      cases this
    · rw [Function.update_of_ne hk, h.cached]
      refine ⟨fun ⟨hj, _, hkey⟩ => ⟨hj, by simp, hkey⟩, fun ⟨hj, _, hkey⟩ => ⟨hj, fun e => ?_, hkey⟩⟩
      rw [Option.some.injEq] at e
      exact hk (e ▸ hkey.symm)

/-- **The eviction loop** of `inode_get`. -/
theorem inodeEvictLoop_spec {fuel : ℕ} (h : InodeInv s m (some i) refs) (hi : i ∈ s.live) (href : refs i ≠ 0)
    (hm : m (s.key i) = none) (hok : inodeEvictLoop (s.key i) i fuel s = .ok (0, s')) :
    ∃ m', InodeInv s' m' none refs ∧ s'.inodes = s.inodes ∧ (∀ j ∈ s'.live, j ∈ s.live) ∧
      ∀ j ∈ s.live, refs j ≠ 0 → j ∈ s'.live := by
  induction fuel generalizing s m with
  | zero => cases hok
  | succ fuel ih =>
    rw [inodeEvictLoop] at hok
    obtain ⟨s₁, h₁, hok⟩ := eq_ok_of_bind hok
    obtain ⟨⟨ret, s₂⟩, h₂, hok⟩ := eq_ok_of_bind hok
    obtain ⟨m₁, hinv₁, hnone, hin₁, hold₁, hstay₁⟩ :=
      inodeEvict_spec h (fun p e => by rw [Option.some.injEq] at e; exact e ▸ href) h₁
    have hkey : s₁.key i = s.key i := by
      unfold Inodes.key
      rw [hin₁]
    have hm₁ : m₁ (s₁.key i) = none := by
      rw [hkey]
      exact hnone _ hm
    rw [← hkey] at h₂ hok
    rcases inodeSet_spec hinv₁ (hstay₁ i hi href) hm₁ h₂ with
      ⟨hret, rfl⟩ | ⟨rfl, hinv₂, hin₂, hlive₂⟩
    · dsimp only at hok
      split_ifs at hok with hgo
      · obtain ⟨m', hinv', hin', hold', hstay'⟩ :=
          ih hinv₁ (hstay₁ i hi href) hm₁ hok
        exact ⟨m', hinv', hin'.trans hin₁, fun j hj => hold₁ j (hold' j hj),
          fun j hj hne => hstay' j (hstay₁ j hj hne) hne⟩
      · cases hok
        exact absurd rfl hret
    · dsimp only at hok
      rw [if_neg (by simp)] at hok
      cases hok
      exact ⟨_, hinv₂, hin₂.trans hin₁, fun j hj => hold₁ j (hlive₂ ▸ hj),
        fun j hj hne => hlive₂ ▸ hstay₁ j hj hne⟩

theorem InodeInv.recount {s' : Inodes} {k : ℕ} (h : InodeInv s m none refs) (hi : i ∈ s.live)
    (ht : s'.table = s.table) (hl : s'.live = s.live) (hdata : ∀ j, (s'.inodes j).data = (s.inodes j).data)
    (hself : (s'.inodes i).refCount = k) (hother : ∀ j, j ≠ i → (s'.inodes j).refCount = (s.inodes j).refCount) :
    InodeInv s' m none (Function.update refs i k) := by
  refine ⟨ht ▸ h.table, fun k j => ?_, fun j hj => ?_, fun j hj => ?_, hl ▸ h.nodup, fun j hj => ?_⟩
  · rw [h.cached, Inodes.key, Inodes.key, hdata, hl]
  · by_cases hji : j = i
    · subst hji
      rw [Function.update_self, hself]
    · rw [Function.update_of_ne hji, hother j hji]
      exact h.counts j (hl ▸ hj)
  · have hji : j ≠ i := fun e => hj (e ▸ hl ▸ hi)
    rw [Function.update_of_ne hji]
    exact h.unused j (hl ▸ hj)
  · rw [hdata]
    exact h.bound j (hl ▸ hj)

theorem inodeDup_apply (s : Inodes) (i j : ℕ) : (inodeDup s i).inodes j =
    if j = i then { s.inodes i with refCount := (s.inodes i).refCount + 1 } else s.inodes j :=
  Function.update_apply ..

theorem inodeDup_data (s : Inodes) (i j : ℕ) : ((inodeDup s i).inodes j).data = (s.inodes j).data := by
  rw [inodeDup_apply]
  split_ifs with hj
  · rw [hj]
  · rfl

/-- **`inode_dup`**: a new reference to an inode that is in use. -/
theorem InodeInv.dup (h : InodeInv s m none refs) (hi : i ∈ s.live) :
    InodeInv (inodeDup s i) m none (Function.update refs i (refs i + 1)) := by
  refine h.recount hi rfl rfl (inodeDup_data s i) ?_ fun j hj => ?_
  · rw [inodeDup_apply, if_pos rfl]
    change (s.inodes i).refCount + 1 = _
    rw [h.counts i hi]
    push_cast
    rfl
  · rw [inodeDup_apply, if_neg hj]

/-- `inode_get` of an inode that is cached is a new reference to it. -/
theorem inodeGetHit_spec (h : InodeInv s m none refs) (hi : i ∈ s.live) {j : ℕ}
    (hok : inodeGetHit s i = .ok (j, s')) :
    j = i ∧ InodeInv s' m none (Function.update refs i (refs i + 1)) ∧
      (∀ j, s'.inodes j = (inodeDup s i).inodes j) ∧ s'.live = s.live := by
  have hdup := h.dup hi
  unfold inodeGetHit at hok
  dsimp only at hok
  split_ifs at hok with href
  · obtain ⟨lru, -, hok⟩ := eq_ok_of_bind hok
    cases hok
    exact ⟨rfl, hdup.congr, fun _ => rfl, rfl⟩
  · cases hok
    exact ⟨rfl, hdup, fun _ => rfl, rfl⟩

theorem InodeInv.alloc (h : InodeInv s m none refs) (hptr : ptr ∉ s.live) (hd : device < 2 ^ 32)
    (hn : n < 2 ^ 32) : InodeInv (inodeAlloc s ptr device n) m (some ptr) (Function.update refs ptr 1) := by
  have hnew : (inodeAlloc s ptr device n).inodes ptr =
      ⟨false, 1, { (s.inodes ptr).data with device := device, n := n }⟩ := Function.update_self ..
  have hold : ∀ j, j ≠ ptr → (inodeAlloc s ptr device n).inodes j = s.inodes j := fun j hj =>
    Function.update_of_ne hj ..
  have hmem : ∀ j, j ∈ (inodeAlloc s ptr device n).live ↔ j = ptr ∨ j ∈ s.live := fun j => List.mem_cons
  refine ⟨h.table, fun k j => ?_, fun j hj => ?_, fun j hj => ?_, List.nodup_cons.mpr ⟨hptr, h.nodup⟩,
    fun j hj => ?_⟩
  · rw [h.cached, hmem]
    constructor
    · rintro ⟨hj, -, hkey⟩
      have hne : j ≠ ptr := fun e => hptr (e ▸ hj)
      refine ⟨.inr hj, fun e => hne (Option.some.inj e).symm, ?_⟩
      unfold Inodes.key at hkey ⊢
      rwa [hold j hne]
    · rintro ⟨hj, hne, hkey⟩
      have hne' : j ≠ ptr := fun e => hne (e ▸ rfl)
      refine ⟨hj.resolve_left hne', by simp, ?_⟩
      unfold Inodes.key at hkey ⊢
      rwa [hold j hne'] at hkey
  · by_cases hjp : j = ptr
    · rw [hjp, hnew, Function.update_self]
      rfl
    · rw [hold j hjp, Function.update_of_ne hjp]
      exact h.counts j (((hmem j).mp hj).resolve_left hjp)
  · have hjp : j ≠ ptr := fun e => hj ((hmem j).mpr (.inl e))
    rw [Function.update_of_ne hjp]
    exact h.unused j fun e => hj ((hmem j).mpr (.inr e))
  · by_cases hjp : j = ptr
    · rw [hjp, hnew]
      exact ⟨hd, hn⟩
    · rw [hold j hjp]
      exact h.bound j (((hmem j).mp hj).resolve_left hjp)

/-- What `inode_get` and `inode_dup` do: one more reference to inode `i`, of the given device and number;
inodes without references may be gone. -/
structure Taken (s s' : Inodes) (refs : ℕ → ℕ) (i : ℕ) : Prop where
  inv : ∃ m', InodeInv s' m' none (Function.update refs i (refs i + 1))
  mem : i ∈ s'.live
  data : ∀ j ∈ s.live, (s'.inodes j).data = (s.inodes j).data
  old : ∀ j ∈ s'.live, j ≠ i → j ∈ s.live
  stays : ∀ j ∈ s.live, refs j ≠ 0 → j ∈ s'.live

theorem InodeInv.taken (h : InodeInv s m none refs) (hi : i ∈ s.live) : Taken s (inodeDup s i) refs i :=
  ⟨⟨m, h.dup hi⟩, hi, fun j _ => inodeDup_data s i j, fun _ hj _ => hj, fun _ hj _ => hj⟩

theorem inodeGetMiss_spec (h : InodeInv s m none refs) (hd : device < 2 ^ 32) (hn : n < 2 ^ 32)
    (hm : m (inodeKey device n) = none) (hok : inodeGetMiss s ptr device n = .ok (i, s')) :
    i = ptr ∧ ptr ∉ s.live ∧ Taken s s' refs i ∧ (s'.inodes i).data.device = device ∧
      (s'.inodes i).data.n = n := by
  unfold inodeGetMiss at hok
  split_ifs at hok with hptr
  rw [not_or] at hptr
  obtain ⟨⟨ret, s₁⟩, h₁, hok⟩ := eq_ok_of_bind hok
  have hinv := h.alloc hptr.2 hd hn
  have hmem : ptr ∈ (inodeAlloc s ptr device n).live := List.mem_cons_self
  have hnew : (inodeAlloc s ptr device n).inodes ptr =
      ⟨false, 1, { (s.inodes ptr).data with device := device, n := n }⟩ := Function.update_self ..
  have hkey : (inodeAlloc s ptr device n).key ptr = inodeKey device n := by
    unfold Inodes.key
    rw [hnew]
  have hrefs : Function.update refs ptr 1 = Function.update refs ptr (refs ptr + 1) := by
    rw [h.unused ptr hptr.2]
  have hdata : ∀ j ∈ s.live, ((inodeAlloc s ptr device n).inodes j).data = (s.inodes j).data := fun j hj =>
    congrArg InodeT.data (Function.update_of_ne (fun e : j = ptr => hptr.2 (e ▸ hj)) ..)
  have hold : ∀ j ∈ (inodeAlloc s ptr device n).live, j ≠ ptr → j ∈ s.live := fun j hj hne =>
    (List.mem_cons.mp hj).resolve_left hne
  have hone : ∀ j ∈ s.live, refs j ≠ 0 → Function.update refs ptr 1 j ≠ 0 := fun j hj hne => by
    rwa [Function.update_of_ne fun e : j = ptr => hptr.2 (e ▸ hj)]
  rw [← hkey] at h₁ hm
  rcases inodeSet_spec hinv hmem hm h₁ with ⟨hret, rfl⟩ | ⟨rfl, hinv₁, hin₁, hlive₁⟩
  · dsimp only at hok
    rw [if_neg hret] at hok
    obtain ⟨⟨ret', s₂⟩, h₂, hok⟩ := eq_ok_of_bind hok
    dsimp only at hok
    split_ifs at hok with hret'
    cases hok
    subst hret'
    rw [← hkey] at h₂
    obtain ⟨m₂, hinv₂, hin₂, hold₂, hstay₂⟩ :=
      inodeEvictLoop_spec hinv hmem (by rw [Function.update_self]; simp) hm h₂
    refine ⟨rfl, hptr.2, ⟨⟨m₂, hrefs ▸ hinv₂⟩, hstay₂ _ hmem (by rw [Function.update_self]; simp),
      fun j hj => hin₂ ▸ hdata j hj, fun j hj hne => hold j (hold₂ j hj) hne,
      fun j hj hne => hstay₂ j (List.mem_cons_of_mem _ hj) (hone j hj hne)⟩, ?_, ?_⟩
    · rw [hin₂, hnew]
    · rw [hin₂, hnew]
  · dsimp only at hok
    rw [if_pos rfl] at hok
    cases hok
    refine ⟨rfl, hptr.2, ⟨⟨_, hrefs ▸ hinv₁⟩, hlive₁ ▸ hmem, fun j hj => hin₁ ▸ hdata j hj,
      fun j hj hne => hold j (hlive₁ ▸ hj) hne, fun j hj _ => hlive₁ ▸ List.mem_cons_of_mem _ hj⟩, ?_, ?_⟩
    · rw [hin₁, hnew]
    · rw [hin₁, hnew]

/-- **`inode_get`** gives a reference to the inode of the given device and number. -/
theorem inodeGet_spec (h : InodeInv s m none refs) (hd : device < 2 ^ 32) (hn : n < 2 ^ 32)
    (hok : inodeGet s ptr device n = .ok (i, s')) : Taken s s' refs i ∧
      (s'.inodes i).data.device = device ∧ (s'.inodes i).data.n = n := by
  unfold inodeGet at hok
  rw [h.table.get] at hok
  cases hm : m (inodeKey device n) with
  | none =>
    rw [hm] at hok
    obtain ⟨-, -, ht, hdev, hnum⟩ := inodeGetMiss_spec h hd hn hm hok
    exact ⟨ht, hdev, hnum⟩
  | some j =>
    rw [hm] at hok
    obtain ⟨hj, -, hkey⟩ := (h.cached _ _).mp hm
    obtain ⟨rfl, hinv, hin, hlive⟩ := inodeGetHit_spec h hj hok
    obtain ⟨hdev, hnum⟩ := inodeKey_inj (h.bound i hj).1 (h.bound i hj).2 hd hn hkey
    have hdata : ∀ j, (s'.inodes j).data = (s.inodes j).data := fun j => by rw [hin, inodeDup_data]
    refine ⟨⟨⟨m, hinv⟩, hlive ▸ hj, fun j _ => hdata j, fun j hj' _ => hlive ▸ hj', fun j hj' _ => hlive ▸ hj'⟩,
      ?_, ?_⟩
    · rw [hdata, hdev]
    · rw [hdata, hnum]

/-- The inodes after `inode_release`: one count changes, and perhaps `valid`. -/
theorem inodeRelease_apply (s : Inodes) (i : ℕ) : ∃ valid, ∀ j, (inodeRelease s i).2.inodes j =
    if j = i then ⟨valid, (s.inodes i).refCount - 1, (s.inodes i).data⟩ else s.inodes j := by
  unfold inodeRelease
  dsimp only
  split_ifs
  · refine ⟨false, fun j => ?_⟩
    simp only [Inodes.set, Function.update_apply]
    split_ifs <;> rfl
  · exact ⟨(s.inodes i).valid, fun j => Function.update_apply ..⟩
  · exact ⟨(s.inodes i).valid, fun j => Function.update_apply ..⟩

theorem inodeRelease_frame (s : Inodes) (i : ℕ) :
    (inodeRelease s i).2.live = s.live ∧ (inodeRelease s i).2.table = s.table := by
  unfold inodeRelease
  dsimp only
  split_ifs <;> exact ⟨rfl, rfl⟩

theorem inodeRelease_data (s : Inodes) (i j : ℕ) : ((inodeRelease s i).2.inodes j).data = (s.inodes j).data := by
  obtain ⟨valid, happly⟩ := inodeRelease_apply s i
  rw [happly]
  split_ifs with hj
  · rw [hj]
  · rfl

/-- **`inode_release`** gives up a reference. -/
theorem InodeInv.release (h : InodeInv s m none refs) (hi : i ∈ s.live) (hpos : 0 < refs i) :
    InodeInv (inodeRelease s i).2 m none (Function.update refs i (refs i - 1)) := by
  obtain ⟨valid, happly⟩ := inodeRelease_apply s i
  obtain ⟨hlive, htable⟩ := inodeRelease_frame s i
  refine h.recount hi htable hlive (inodeRelease_data s i) ?_ fun j hj => ?_
  · rw [happly, if_pos rfl]
    change (s.inodes i).refCount - 1 = _
    rw [h.counts i hi, Nat.cast_sub (by omega)]
    rfl
  · rw [happly, if_neg hj]

theorem inodeLock_apply {load : ℕ → ℕ → Ext2.Inode} (hok : inodeLock load s i = .ok s') (j : ℕ) :
    (s'.inodes j).refCount = (s.inodes j).refCount ∧ (s'.inodes j).data.device = (s.inodes j).data.device ∧
      (s'.inodes j).data.n = (s.inodes j).data.n ∧ (s'.inodes j).valid = (s.inodes j).valid := by
  unfold inodeLock at hok
  dsimp only at hok
  split_ifs at hok
  · cases hok
    exact ⟨rfl, rfl, rfl, rfl⟩
  · cases hok
    simp only [Inodes.set, Function.update_apply]
    split_ifs with hj
    · rw [hj]
      exact ⟨rfl, rfl, rfl, rfl⟩
    · exact ⟨rfl, rfl, rfl, rfl⟩

theorem inodeLock_frame {load : ℕ → ℕ → Ext2.Inode} (hok : inodeLock load s i = .ok s') :
    s'.live = s.live ∧ s'.table = s.table := by
  unfold inodeLock at hok
  dsimp only at hok
  split_ifs at hok <;> cases hok <;> exact ⟨rfl, rfl⟩

theorem InodeInv.lock {load : ℕ → ℕ → Ext2.Inode} (h : InodeInv s m none refs)
    (hok : inodeLock load s i = .ok s') : InodeInv s' m none refs := by
  have happly := inodeLock_apply hok
  obtain ⟨hlive, htable⟩ := inodeLock_frame hok
  have hkey : ∀ j, s'.key j = s.key j := fun j => by
    unfold Inodes.key
    rw [(happly j).2.1, (happly j).2.2.1]
  refine ⟨htable ▸ h.table, fun k j => ?_, fun j hj => ?_, fun j hj => h.unused j (hlive ▸ hj), hlive ▸ h.nodup,
    fun j hj => ?_⟩
  · rw [h.cached, hkey, hlive]
  · rw [(happly j).1]
    exact h.counts j (hlive ▸ hj)
  · rw [(happly j).2.1, (happly j).2.2.1]
    exact h.bound j (hlive ▸ hj)

end BulbOS.Inode
