import BulbOS.Dir.Model
import Mathlib.Data.List.Basic

/-!
# The records of a directory

* `Walk`: stepping through records, each as long as its `size` says;
* `WellFormed`: whole blocks of records; `wellFormed_iff`: the same, with aligned sizes instead of offsets;
* `recEntry_congr`, `recEntry_record`: which bytes a record is read from;
* `WellFormed.last`, `WellFormed.before`: the last record, and those before a change;
* `Walk.split`, `Walk.boundary`: two walks over the same records, and a walk that comes to the start of a block.
-/

namespace BulbOS.Dir

open KLib Ext2

/-! ## Stepping through records -/

/-- The offsets from `i` up to `j`, each a length behind the one before. -/
def Walk (len : ℕ → ℕ) : ℕ → List ℕ → ℕ → Prop
  | i, [], j => i = j
  | i, o :: os, j => o = i ∧ 0 < len i ∧ Walk len (i + len i) os j

instance (len : ℕ → ℕ) : (i : ℕ) → (os : List ℕ) → (j : ℕ) → Decidable (Walk len i os j)
  | i, [], j => inferInstanceAs (Decidable (i = j))
  | i, o :: os, j =>
    have := instDecidableWalk len (i + len i) os j
    inferInstanceAs (Decidable (o = i ∧ 0 < len i ∧ Walk len (i + len i) os j))

variable {len len' : ℕ → ℕ} {i j k o l p r : ℕ} {os : List ℕ}

theorem walk_append {as bs : List ℕ} : Walk len i (as ++ bs) k ↔ ∃ j, Walk len i as j ∧ Walk len j bs k := by
  induction as generalizing i with
  | nil => simp [Walk]
  | cons a as ih => simp only [List.cons_append, Walk, ih, and_assoc, exists_and_left]

theorem Walk.congr (h : Walk len i os j) (hlen : ∀ o ∈ os, len' o = len o) : Walk len' i os j := by
  induction os generalizing i with
  | nil => exact h
  | cons a os ih =>
    obtain ⟨rfl, hpos, hw⟩ := h
    have ha := hlen a List.mem_cons_self
    refine ⟨rfl, ha ▸ hpos, ?_⟩
    rw [ha]
    exact ih hw fun o ho => hlen o (List.mem_cons_of_mem _ ho)

theorem Walk.le (h : Walk len i os j) : i ≤ j := by
  induction os generalizing i with
  | nil => exact Nat.le_of_eq h
  | cons a os ih =>
    have := ih h.2.2
    omega

theorem Walk.mem (h : Walk len i os j) (ho : o ∈ os) : i ≤ o ∧ o + len o ≤ j := by
  induction os generalizing i with
  | nil => cases ho
  | cons a os ih =>
    obtain ⟨rfl, hpos, hw⟩ := h
    rcases List.mem_cons.mp ho with rfl | ho
    · exact ⟨le_rfl, hw.le⟩
    · have := ih hw ho
      omega

theorem Walk.sorted (h : Walk len i os j) : os.Pairwise (· < ·) := by
  induction os generalizing i with
  | nil => exact List.Pairwise.nil
  | cons a os ih =>
    obtain ⟨rfl, hpos, hw⟩ := h
    refine List.pairwise_cons.mpr ⟨fun o ho => ?_, ih hw⟩
    have := (hw.mem ho).1
    omega

theorem Walk.split {os' : List ℕ} (h : Walk len i os j) (h' : Walk len i os' k) (hle : j ≤ k) :
    ∃ rest, os' = os ++ rest ∧ Walk len j rest k := by
  induction os generalizing i os' with
  | nil =>
    obtain rfl : i = j := h
    exact ⟨os', rfl, h'⟩
  | cons a os ih =>
    obtain ⟨rfl, hpos, hw⟩ := h
    cases os' with
    | nil =>
      obtain rfl : a = k := h'
      have := hw.le
      omega
    | cons b os' =>
      obtain ⟨rfl, -, hw'⟩ := h'
      obtain ⟨rest, rfl, hrest⟩ := ih hw hw'
      exact ⟨rest, rfl, hrest⟩

/-- Records that do not cross the end of a block come to the start of the next one. -/
theorem Walk.boundary {q : ℕ} (h : Walk len i os j) (hq : 1024 ∣ q) (hi : i ≤ q) (hj : q ≤ j)
    (hin : ∀ o ∈ os, o % 1024 + len o ≤ 1024) :
    ∃ as bs, os = as ++ bs ∧ Walk len i as q ∧ Walk len q bs j := by
  induction os generalizing i with
  | nil =>
    obtain rfl : i = j := h
    obtain rfl : i = q := by omega
    exact ⟨[], [], rfl, rfl, rfl⟩
  | cons a os ih =>
    by_cases hiq : i = q
    · subst hiq
      exact ⟨[], a :: os, rfl, rfl, h⟩
    · obtain ⟨rfl, hpos, hw⟩ := h
      have ha := hin a List.mem_cons_self
      obtain ⟨as, bs, rfl, has, hbs⟩ := ih hw (by omega) fun o ho => hin o (List.mem_cons_of_mem _ ho)
      exact ⟨a :: as, bs, rfl, ⟨rfl, hpos, has⟩, hbs⟩

theorem Walk.aligned (h : Walk len i os j) (hi : 4 ∣ i) (hj : 4 ∣ j) : (∀ o ∈ os, 4 ∣ o) ↔ ∀ o ∈ os, 4 ∣ len o := by
  induction os generalizing i with
  | nil => simp
  | cons a os ih =>
    obtain ⟨rfl, hpos, hw⟩ := h
    simp only [List.forall_mem_cons]
    constructor
    · rintro ⟨-, hos⟩
      have hnext : 4 ∣ a + len a := by
        cases os with
        | nil =>
          obtain rfl : a + len a = j := hw
          exact hj
        | cons b os => exact hw.1 ▸ hos b List.mem_cons_self
      exact ⟨(Nat.dvd_add_right hi).mp hnext, (ih hw hnext).mp hos⟩
    · rintro ⟨hlen, hos⟩
      exact ⟨hi, (ih hw (Nat.dvd_add hi hlen)).mpr hos⟩

theorem offsetsFrom_walk {m : Mem} {size fuel : ℕ} (h : Walk (recSize m) i os size) (hfuel : size ≤ i + fuel) :
    offsetsFrom m size fuel i = os := by
  induction os generalizing i fuel with
  | nil =>
    obtain rfl : i = size := h
    cases fuel with
    | zero => rfl
    | succ fuel => exact if_neg (lt_irrefl _)
  | cons a os ih =>
    obtain ⟨rfl, hpos, hw⟩ := h
    have := hw.le
    obtain ⟨fuel, rfl⟩ : ∃ f, fuel = f + 1 := ⟨fuel - 1, by omega⟩
    rw [offsetsFrom, if_pos (by omega), ih hw (by omega)]

theorem findLast_walk {m : Mem} {size fuel : ℕ} (h : Walk (recSize m) i os size) (hfuel : size ≤ i + fuel)
    (last : Option ℕ) : findLast m size fuel i last = some (os.getLast?.or last) := by
  induction os generalizing i fuel last with
  | nil =>
    obtain rfl : i = size := h
    cases fuel with
    | zero => exact if_neg (lt_irrefl _)
    | succ fuel => exact if_neg (lt_irrefl _)
  | cons a os ih =>
    obtain ⟨rfl, hpos, hw⟩ := h
    have := hw.le
    obtain ⟨fuel, rfl⟩ : ∃ f, fuel = f + 1 := ⟨fuel - 1, by omega⟩
    rw [findLast, if_pos (by omega), ih hw (by omega), List.getLast?_cons]
    cases os.getLast? <;> rfl

/-! ## Directories -/

/-- Whole direct blocks of records, each in one block, aligned and long enough for its name. -/
structure WellFormed (d : DirFile) : Prop where
  blocks : 1024 ∣ d.size
  limit : d.size ≤ directBytes
  walk : Walk (recSize d.content) 0 d.offsets d.size
  fits : ∀ o ∈ d.offsets, 4 ∣ o ∧ dirEntrySize (recLength d.content o) ≤ recSize d.content o ∧
    o % 1024 + recSize d.content o ≤ 1024

variable {d d' : DirFile} {c c' : Mem} {name : List UInt8}

theorem wellFormed_of_walk (hb : 1024 ∣ d.size) (hl : d.size ≤ directBytes) (hw : Walk (recSize d.content) 0 os d.size)
    (hf : ∀ o ∈ os, 4 ∣ o ∧ dirEntrySize (recLength d.content o) ≤ recSize d.content o ∧
      o % 1024 + recSize d.content o ≤ 1024) : WellFormed d ∧ d.offsets = os := by
  have hos : d.offsets = os := offsetsFrom_walk hw (Nat.le_add_left _ _)
  exact ⟨⟨hb, hl, hos ▸ hw, hos ▸ hf⟩, hos⟩

theorem empty_wellFormed (hd : d.size = 0) : WellFormed d ∧ d.offsets = [] := by
  refine wellFormed_of_walk (hd ▸ dvd_zero _) (by omega) hd.symm fun o ho => ?_
  cases ho

theorem wellFormed_iff : WellFormed d ↔ 1024 ∣ d.size ∧ d.size ≤ directBytes ∧
    Walk (recSize d.content) 0 d.offsets d.size ∧ ∀ o ∈ d.offsets, 4 ∣ recSize d.content o ∧
      dirEntrySize (recLength d.content o) ≤ recSize d.content o ∧ o % 1024 + recSize d.content o ≤ 1024 := by
  constructor
  · intro h
    have hal := (h.walk.aligned (dvd_zero 4) (Nat.dvd_trans (by decide) h.blocks)).mp fun o ho => (h.fits o ho).1
    exact ⟨h.blocks, h.limit, h.walk, fun o ho => ⟨hal o ho, (h.fits o ho).2⟩⟩
  · rintro ⟨hb, hl, hw, hf⟩
    have hal := (hw.aligned (dvd_zero 4) (Nat.dvd_trans (by decide) hb)).mpr fun o ho => (hf o ho).1
    exact ⟨hb, hl, hw, fun o ho => ⟨hal o ho, (hf o ho).2⟩⟩

/-- The bytes of a record less its `size` give its inode and its name. -/
theorem recEntry_congr (h : ∀ x, o ≤ x → x < o + dirEntrySize (recLength c o) → (x < o + 4 ∨ o + 6 ≤ x) → c' x = c x) :
    recLength c' o = recLength c o ∧ recEntry c' o = recEntry c o := by
  unfold dirEntrySize at h
  have hlen : recLength c' o = recLength c o := congrArg UInt8.toNat (h (o + 6) (by omega) (by omega) (by omega))
  refine ⟨hlen, Prod.ext ?_ ?_⟩
  · exact load32_congr fun x h₁ h₂ => h x h₁ (by omega) (.inl h₂)
  · change recName c' o = recName c o
    unfold recName
    rw [hlen]
    exact List.map_congr_left fun k hk => h _ (by omega) (by have := List.mem_range.mp hk; omega) (by omega)

theorem recSize_congr (h : ∀ x, o + 4 ≤ x → x < o + 6 → c' x = c x) : recSize c' o = recSize c o :=
  load16_congr fun x h₁ h₂ => h x h₁ (by omega)

theorem DirFile.writeContent_inside {src : Mem} {offset n : ℕ} (h : offset + n ≤ d.size) (hl : d.size ≤ directBytes) :
    d.writeContent src offset n =
      some ⟨d.size, fun k => if offset ≤ k ∧ k < offset + n then src (k - offset) else d.content k⟩ := by
  rw [DirFile.writeContent, if_neg (by omega), if_pos (h.trans hl), max_eq_left h]

theorem WellFormed.readContent (h : WellFormed d) : d.readContent = some d.content := if_pos h.limit

/-- The name as it is read back: `length` is one byte. -/
def storedName (name : List UInt8) : List UInt8 := name.take (name.length % 256)

theorem recSize_record (n type : ℕ) {size : ℕ} (hsize : size < 2 ^ 16) (name : List UInt8)
    (h : ∀ k < dirEntrySize name.length, c (o + k) = record n size type name k) : recSize c o = size := by
  unfold dirEntrySize at h
  unfold recSize load16
  rw [h 4 (by omega), Nat.add_assoc o 4 1, h (4 + 1) (by omega)]
  simp only [record, Nat.reduceLT, if_false, if_true, Nat.reduceAdd, Nat.reduceSub, UInt8.toNat_ofNat']
  omega

theorem recEntry_record (n size type : ℕ) (name : List UInt8)
    (h : ∀ k < dirEntrySize name.length, c (o + k) = record n size type name k) :
    recLength c o = name.length % 256 ∧ recEntry c o = (u32 n, storedName name) := by
  unfold dirEntrySize at h
  have hlen : recLength c o = name.length % 256 := by
    unfold recLength
    rw [h 6 (by omega)]
    simp [record]
  refine ⟨hlen, Prod.ext ?_ (List.ext_getElem ?_ fun k h₁ h₂ => ?_)⟩
  · have hword : load32 c o = load32 (store32 c o n) o := by
      refine load32_congr fun x h₁ h₂ => ?_
      obtain ⟨k, rfl⟩ := Nat.exists_eq_add_of_le h₁
      rw [store32_inside _ _ (show k < 4 by omega), h k (by omega)]
      exact if_pos (by omega)
    exact hword.trans (load32_store32 c o n)
  · change (recName c o).length = _
    rw [recName, List.length_map, List.length_range, hlen, storedName, List.length_take]
    exact (min_eq_left (Nat.mod_le _ _)).symm
  · have hk : k < name.length := by
      rw [storedName, List.length_take] at h₂
      omega
    simp only [recEntry, recName, storedName, List.getElem_map, List.getElem_range, List.getElem_take]
    rw [Nat.add_assoc, h (8 + k) (by omega)]
    simp only [record, if_neg (show ¬ 8 + k < 4 by omega), if_neg (show ¬ 8 + k < 6 by omega),
      if_neg (show ¬ 8 + k = 6 by omega), if_neg (show ¬ 8 + k = 7 by omega), Nat.add_sub_cancel_left]
    exact List.getD_eq_getElem _ _ hk

theorem storedName_eq (h : name.length < 256) : storedName name = name := by
  rw [storedName, Nat.mod_eq_of_lt h, List.take_length]

theorem names_eq (d : DirFile) : d.names = d.records.map Prod.snd := by
  rw [DirFile.records, List.map_map]
  rfl

/-- The last record of a directory: it ends with the last block. -/
theorem WellFormed.last (h : WellFormed d) (hos : d.offsets = os ++ [l]) :
    Walk (recSize d.content) 0 os l ∧ 4 ∣ l ∧ dirEntrySize (recLength d.content l) ≤ recSize d.content l ∧
      l % 1024 + recSize d.content l ≤ 1024 ∧ l + recSize d.content l = d.size := by
  have hw := h.walk
  rw [hos, walk_append] at hw
  obtain ⟨j, hw, rfl, -, hend⟩ := hw
  obtain ⟨h₁, h₂, h₃⟩ := h.fits l (by rw [hos]; simp)
  exact ⟨hw, h₁, h₂, h₃, hend⟩

/-- Records before `l` are not changed by a write behind `l`. -/
theorem WellFormed.before (h : WellFormed d) (hw : Walk (recSize d.content) 0 os l) (hos : os <+: d.offsets)
    (hc : ∀ x < l, c' x = d.content x) : Walk (recSize c') 0 os l ∧
      (∀ o ∈ os, 4 ∣ o ∧ dirEntrySize (recLength c' o) ≤ recSize c' o ∧ o % 1024 + recSize c' o ≤ 1024) ∧
      os.map (recEntry c') = os.map (recEntry d.content) := by
  have hsame : ∀ o ∈ os, recSize c' o = recSize d.content o ∧ recLength c' o = recLength d.content o ∧
      recEntry c' o = recEntry d.content o := by
    intro o ho
    obtain ⟨-, hfit, -⟩ := h.fits o (hos.subset ho)
    have hend := (hw.mem ho).2
    unfold dirEntrySize at hfit
    refine ⟨recSize_congr fun x h₁ h₂ => hc x (by omega), recEntry_congr fun x h₁ h₂ _ => hc x ?_⟩
    unfold dirEntrySize at h₂
    omega
  refine ⟨hw.congr fun o ho => (hsame o ho).1, fun o ho => ?_, List.map_congr_left fun o ho => (hsame o ho).2.2⟩
  obtain ⟨h₁, h₂, -⟩ := hsame o ho
  rw [h₁, h₂]
  exact h.fits o (hos.subset ho)

theorem align4_add (h : 4 ∣ l) (x : ℕ) : align4 (l + x) = l + align4 x := by
  unfold align4
  omega

theorem le_align4 (x : ℕ) : x ≤ align4 x ∧ align4 x < x + 4 ∧ 4 ∣ align4 x := by
  unfold align4
  omega

/-- A root directory, inode 2, with `.`, `..` and the files `a` and `b`, inodes 12 and 13. -/
def rootDir : DirFile :=
  ⟨1024, fun x => if x < 12 then record 2 12 2 [46] x else if x < 24 then record 2 12 2 [46, 46] (x - 12)
    else if x < 36 then record 12 12 1 [97] (x - 24) else record 13 988 1 [98] (x - 36)⟩

theorem rootDir_wellFormed : WellFormed rootDir ∧ rootDir.offsets = [0, 12, 24, 36] := by
  have hw : Walk (recSize rootDir.content) 0 [0, 12, 24, 36] rootDir.size := by decide +kernel
  exact wellFormed_of_walk (by decide) (by decide) hw (by decide +kernel)

end BulbOS.Dir
