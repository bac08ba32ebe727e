import BulbOS.Dir.Model
import BulbOS.Ext2.Content

/-!
# Directories on the disk

A `DirFile` has the bytes that `ext2_get_iblock` finds behind the direct pointers of an inode.

* `Stored`: the file of an inode;
* **`Stored.readContent`**, **`Stored.writeContent`**: `ext2_read_content` and `ext2_write_content` on the disk do what
  is done to the `DirFile`, and keep the inode one whose blocks are its own.
-/

namespace BulbOS.Dir

open KLib Ext2

variable {s : Fs} {f : Ext2.Inode} {taken : Set ℕ} {table : ℕ} {d d' : DirFile} {m : Mem}

/-- `d` is the file of `f`. -/
structure Stored (s : Fs) (f : Ext2.Inode) (d : DirFile) : Prop where
  size : d.size = f.size
  content : ∀ k < directBytes, d.content k = Ext2.content s f k

/-- **Reading** the whole file. -/
theorem Stored.readContent (h : Stored s f d) (hf : DirectFile s f taken table) (hm : d.readContent = some m)
    (dst : Mem) : ∃ dst' f' s', ext2ReadContent s f dst 0 f.size = .ok (f.size, dst', f', s') ∧
      DirectFile s' f' taken table ∧ Stored s' f' d ∧ ∀ k < d.size, dst' k = m k := by
  unfold DirFile.readContent at hm
  split_ifs at hm with hsmall
  obtain rfl := Option.some.inj hm
  rw [h.size] at hsmall
  obtain ⟨dst', f', s', hread, hf', hsize, hcont, hdst⟩ := hf.read dst (show 0 + f.size ≤ f.size by omega)
    (by rwa [Nat.zero_add])
  refine ⟨dst', f', s', hread, hf', ⟨h.size.trans hsize.symm, fun k hk => ?_⟩, fun k hk => ?_⟩
  · rw [h.content k hk, hcont k hk]
  · rw [h.size] at hk
    rw [hdst k hk, Nat.zero_add, h.content k (hk.trans_le hsmall)]

/-- **Writing**; behind the end of the file nothing is written. -/
theorem Stored.writeContent (h : Stored s f d) (hf : DirectFile s f taken table) {src : Mem} {offset n : ℕ}
    (hd : d.writeContent src offset n = some d') : ∃ ret f' s', ext2WriteContent s f src offset n = .ok (ret, f', s') ∧
      DirectFile s' f' taken table ∧ Stored s' f' d' := by
  unfold DirFile.writeContent at hd
  by_cases hbehind : offset > d.size
  · rw [if_pos hbehind] at hd
    obtain rfl := Option.some.inj hd
    refine ⟨-1, f, s, ?_, hf, h⟩
    rw [ext2WriteContent, if_pos (h.size ▸ hbehind)]
  · rw [if_neg hbehind] at hd
    split_ifs at hd with hsmall
    obtain rfl := Option.some.inj hd
    obtain ⟨f', s', hwrite, hf', hsize, hcont, -⟩ := hf.write src (h.size ▸ Nat.le_of_not_lt hbehind) hsmall
    refine ⟨n, f', s', hwrite, hf', ?_, fun k hk => ?_⟩
    · rw [hsize, ← h.size]
    · rw [hcont k hk, ← h.content k hk]

end BulbOS.Dir
