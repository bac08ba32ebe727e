import BulbOS.Inode.Model
import BulbOS.Lib.Stop

/-!
# `valid` of inodes

No call of `inode.c` makes an inode valid: `inode_alloc` clears `valid`, and so does `inode_release` after a truncation.

* `KeepsValid`: an inode that is valid was valid before; `inodeGet_valid`, `inodeRelease_valid`, `inodeLock_valid`.
-/

namespace BulbOS.Inode

open KLib BulbOS.Table

variable {s s' : Inodes} {i : ℕ}

/-- An inode in use that was in use before is as valid as it was, and a new one is not. -/
def KeepsValid (s s' : Inodes) : Prop :=
  ∀ j ∈ s'.live, (s'.inodes j).valid = true → j ∈ s.live ∧ (s.inodes j).valid = true

theorem KeepsValid.trans {s'' : Inodes} (h : KeepsValid s s') (h' : KeepsValid s' s'') : KeepsValid s s'' :=
  fun j hj hv => (h' j hj hv).elim (h j)

theorem keepsValid_of_inodes (hin : s'.inodes = s.inodes) (hlive : ∀ j ∈ s'.live, j ∈ s.live) : KeepsValid s s' :=
  fun j hj hv => ⟨hlive j hj, by rwa [hin] at hv⟩

theorem keepsValid_set {x : InodeT} (hx : x.valid = true → (s.inodes i).valid = true) : KeepsValid s (s.set i x) := by
  intro j hj hv
  refine ⟨hj, ?_⟩
  change (Function.update s.inodes i x j).valid = true at hv
  by_cases hji : j = i
  · subst hji
    rw [Function.update_self] at hv
    exact hx hv
  · rwa [Function.update_of_ne hji] at hv

theorem inodeEvict_valid (hok : inodeEvict s = .ok s') : KeepsValid s s' := by
  unfold inodeEvict at hok
  dsimp only at hok
  by_cases h₀ : s.lru.ltail = 0
  · rw [if_pos h₀] at hok
    cases hok
  rw [if_neg h₀] at hok
  by_cases href : (s.inodes s.lru.ltail).refCount ≠ 0
  · rw [if_pos href] at hok
    cases hok
  rw [if_neg href] at hok
  split at hok
  · cases hok
  · rename_i ret table _
    by_cases hret : ret ≠ 0
    · rw [if_pos hret] at hok
      cases hok
    rw [if_neg hret] at hok
    obtain ⟨lru, -, hok⟩ := eq_ok_of_bind hok
    by_cases hlive : s.lru.ltail ∈ s.live
    · rw [if_pos hlive] at hok
      cases hok
      exact keepsValid_of_inodes rfl fun j hj => List.mem_of_mem_erase hj
    · rw [if_neg hlive] at hok
      cases hok

theorem inodeSet_valid {key : UInt64} {ret : ℤ} (hok : inodeSet s key i = .ok (ret, s')) : KeepsValid s s' := by
  unfold inodeSet at hok
  split at hok
  · cases hok
  · cases hok
    exact keepsValid_of_inodes rfl fun _ hj => hj

theorem inodeEvictLoop_valid {key : UInt64} {ret : ℤ} {fuel : ℕ}
    (hok : inodeEvictLoop key i fuel s = .ok (ret, s')) : KeepsValid s s' := by
  induction fuel generalizing s with
  | zero => cases hok
  | succ fuel ih =>
    rw [inodeEvictLoop] at hok
    obtain ⟨s₁, h₁, hok⟩ := eq_ok_of_bind hok
    obtain ⟨⟨ret', s₂⟩, h₂, hok⟩ := eq_ok_of_bind hok
    have hk := (inodeEvict_valid h₁).trans (inodeSet_valid h₂)
    dsimp only at hok
    split_ifs at hok
    · exact hk.trans (ih hok)
    · cases hok
      exact hk

theorem inodeAlloc_valid {device n : ℕ} : KeepsValid s (inodeAlloc s i device n) := by
  intro j hj hv
  change (Function.update s.inodes i _ j).valid = true at hv
  by_cases hji : j = i
  · subst hji
    rw [Function.update_self] at hv
    cases hv
  · rw [Function.update_of_ne hji] at hv
    exact ⟨(List.mem_cons.mp hj).resolve_left hji, hv⟩

theorem inodeGet_valid {ptr device n : ℕ} (hok : inodeGet s ptr device n = .ok (i, s')) : KeepsValid s s' := by
  unfold inodeGet at hok
  split at hok
  · cases hok
  · rename_i inode _
    unfold inodeGetHit at hok
    dsimp only at hok
    have hset : KeepsValid s (s.set inode { s.inodes inode with refCount := (s.inodes inode).refCount + 1 }) :=
      keepsValid_set id
    split_ifs at hok
    · obtain ⟨lru, -, hok⟩ := eq_ok_of_bind hok
      cases hok
      exact hset.trans (keepsValid_of_inodes rfl fun _ hj => hj)
    · cases hok
      exact hset
  · unfold inodeGetMiss at hok
    split_ifs at hok
    obtain ⟨⟨ret, s₁⟩, h₁, hok⟩ := eq_ok_of_bind hok
    have hk := inodeAlloc_valid.trans (inodeSet_valid h₁)
    dsimp only at hok
    split_ifs at hok
    · cases hok
      exact hk
    · obtain ⟨⟨ret', s₂⟩, h₂, hok⟩ := eq_ok_of_bind hok
      dsimp only at hok
      split_ifs at hok
      cases hok
      exact hk.trans (inodeEvictLoop_valid h₂)

theorem inodeRelease_valid : KeepsValid s (inodeRelease s i).2 := by
  have hset : KeepsValid s (s.set i { s.inodes i with refCount := (s.inodes i).refCount - 1 }) := keepsValid_set id
  unfold inodeRelease
  dsimp only
  split_ifs
  · refine (hset.trans (keepsValid_of_inodes ?_ fun _ hj => hj)).trans
      (keepsValid_set fun h => absurd h Bool.false_ne_true)
    rfl
  · exact hset.trans (keepsValid_of_inodes rfl fun _ hj => hj)
  · exact hset

theorem inodeLock_valid {load : ℕ → ℕ → Ext2.Inode} (hok : inodeLock load s i = .ok s') : KeepsValid s s' := by
  unfold inodeLock at hok
  dsimp only at hok
  split_ifs at hok
  · cases hok
    exact keepsValid_of_inodes rfl fun _ hj => hj
  · cases hok
    exact keepsValid_set id

end BulbOS.Inode
