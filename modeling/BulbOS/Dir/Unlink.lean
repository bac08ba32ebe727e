import BulbOS.Dir.Records

/-!
# Removing a record (`ext2_unlink`)

* `unlinkLoop_cons`: the loop of `ext2_unlink` does not come to its end;
* `WellFormed.unlink_last`: the last record is removed;
* `children_sublist`: the child list runs against the order on the disk;
* **`unlink_removes_iff`**: when a record is removed.
-/

namespace BulbOS.Dir

open KLib Ext2

variable {d d' : DirFile} {c c' : Mem} {name : List UInt8} {os : List ℕ} {p r o : ℕ}

/-- Once the loop of `ext2_unlink` is entered, it reads the offset of an entry that does not exist. -/
theorem unlinkLoop_cons (newOffset prev act : ℕ) (buffer : Mem) (entry : ℕ) (entries : List ℕ) :
    unlinkLoop newOffset prev act buffer (entry :: entries) = none := by
  induction entries generalizing newOffset prev act buffer entry with
  | nil => rfl
  | cons next entries ih =>
    unfold unlinkLoop
    exact ih _ _ _ _ _

/-- The entry is the last record, not the first one of its block, and its next sibling the record before. -/
def Child.Last (d : DirFile) (entry : Child) : Prop :=
  match entry.nextSib with
  | none => True
  | some next => [next, entry.offset] <:+ d.offsets ∧ entry.offset % 1024 ≠ 0

instance (d : DirFile) (entry : Child) : Decidable (entry.Last d) := by
  unfold Child.Last
  split <;> infer_instance

/-- What an `ext2_unlink` that returns has done in its buffer: the loop was not entered. -/
theorem unlinkBuffer_eq {entry : Child} {m buffer : Mem} {size : ℕ} (hs : unlinkBuffer m entry = some (buffer, size)) :
    ∃ p, entry.nextSib = some p ∧ size = (entry.offset / 1024 + 1) * 1024 ∧ buffer = store16 (fun k =>
      if entry.offset ≤ k ∧ k < entry.offset + recSize m entry.offset then 0 else m k) (p + 4) (1024 - p % 1024) := by
  obtain ⟨p, hnext, hs⟩ := Option.bind_eq_some_iff.mp hs
  cases hent : entry.entries with
  | cons e es =>
    simp only [hent, unlinkLoop_cons, Option.bind_eq_bind, Option.bind_none] at hs
    cases hs
  | nil =>
    simp only [hent, unlinkLoop, Option.bind_eq_bind, Option.bind_some] at hs
    obtain ⟨hbuffer, hsize⟩ := Prod.mk.inj (Option.some.inj hs)
    exact ⟨p, hnext, hsize.symm, hbuffer.symm⟩

theorem ext2Unlink_eq {entry : Child} {b : Bool} (hd : d.size ≤ directBytes) (hs : ext2Unlink d entry = some (b, d')) :
    b = false ∧ d' = d ∨ b = true ∧ ∃ p, entry.nextSib = some p ∧ d'.size = (entry.offset / 1024 + 1) * 1024 ∧
      ∀ x < d.size, d'.content x = store16 (fun k =>
        if entry.offset ≤ k ∧ k < entry.offset + recSize d.content entry.offset then 0 else d.content k)
          (p + 4) (1024 - p % 1024) x := by
  unfold ext2Unlink at hs
  by_cases h₀ : entry.hardLinksCount = 0
  · rw [if_pos h₀] at hs
    cases hs
  rw [if_neg h₀] at hs
  by_cases hdir : entry.mode &&& 0x4000 ≠ 0 ∧ entry.size ≠ emptyDirSize
  · rw [if_pos hdir] at hs
    obtain ⟨hb, hd⟩ := Prod.mk.inj (Option.some.inj hs)
    exact .inl ⟨hb.symm, hd.symm⟩
  rw [if_neg hdir] at hs
  obtain ⟨m, hm, hs⟩ := Option.bind_eq_some_iff.mp hs
  obtain ⟨⟨buffer, size⟩, hbuffer, hs⟩ := Option.bind_eq_some_iff.mp hs
  obtain ⟨p, hnext, rfl, rfl⟩ := unlinkBuffer_eq hbuffer
  rw [DirFile.readContent, if_pos hd] at hm
  obtain rfl := Option.some.inj hm
  simp only [DirFile.writeContent_inside (Nat.le_of_eq (Nat.zero_add d.size)) hd, Option.bind_eq_bind,
    Option.bind_some] at hs
  obtain ⟨hb, rfl⟩ := Prod.mk.inj (Option.some.inj hs)
  refine .inr ⟨hb.symm, p, hnext, rfl, fun x hx => ?_⟩
  exact if_pos ⟨Nat.zero_le _, by omega⟩

/-- The last record is removed: the one before it, in the same block, takes its place. -/
theorem WellFormed.unlink_last (h : WellFormed d) (hos : os ++ [p, r] = d.offsets) (hr : r % 1024 ≠ 0)
    (hsize : d'.size = (r / 1024 + 1) * 1024)
    (hc : ∀ x < d.size, d'.content x = store16 (fun k => if r ≤ k ∧ k < r + recSize d.content r then 0 else d.content k)
      (p + 4) (1024 - p % 1024) x) :
    WellFormed d' ∧ d'.records = (os ++ [p]).map (recEntry d.content) := by
  have hos' : d.offsets = os ++ [p] ++ [r] := by rw [← hos, List.append_assoc]; rfl
  obtain ⟨hw, -, hfit, hblock, hend⟩ := h.last hos'
  obtain ⟨j, hw, rfl, hpos, hpr⟩ := walk_append.mp hw
  replace hpr : p + recSize d.content p = r := hpr
  obtain ⟨hp, hfitp, hblockp⟩ := h.fits p (by rw [hos']; simp)
  have hb := h.blocks
  unfold dirEntrySize at hfit hfitp
  have hsize' : d'.size = d.size := by omega
  have hc₁ : ∀ x < r, (x < p + 4 ∨ p + 6 ≤ x) → d'.content x = d.content x := by
    intro x hx hout
    rw [hc x (by omega), store16_of_outside _ _ (by omega), if_neg (by omega)]
  obtain ⟨hw', hf', hn'⟩ := h.before hw ⟨[p, r], hos⟩ fun x hx => hc₁ x (by omega) (by omega)
  have hrec : recSize d'.content p = 1024 - p % 1024 := by
    rw [recSize_congr fun x h₁ h₂ => hc x (by omega), recSize, load16_store16]
    omega
  obtain ⟨hlen', hentry'⟩ : recLength d'.content p = recLength d.content p ∧
      recEntry d'.content p = recEntry d.content p := by
    refine recEntry_congr fun x h₁ h₂ hout => hc₁ x ?_ hout
    unfold dirEntrySize at h₂
    omega
  have hwalk : Walk (recSize d'.content) 0 (os ++ [p]) d'.size := by
    refine walk_append.mpr ⟨p, hw', rfl, by omega, ?_⟩
    change p + recSize d'.content p = d'.size
    omega
  obtain ⟨hwf, hoff⟩ := wellFormed_of_walk (hsize' ▸ h.blocks) (hsize' ▸ h.limit) hwalk fun o ho => by
    rcases List.mem_append.mp ho with ho | ho
    · exact hf' o ho
    · rw [List.mem_singleton.mp ho, hrec, hlen', dirEntrySize]
      omega
  refine ⟨hwf, ?_⟩
  rw [DirFile.records, hoff, List.map_append, List.map_append, hn', List.map_singleton, List.map_singleton, hentry']


theorem WellFormed.unlink (h : WellFormed d) {entry : Child} {b : Bool} (hlast : entry.Last d)
    (hs : ext2Unlink d entry = some (b, d')) : WellFormed d' ∧ d'.records.Sublist d.records := by
  rcases ext2Unlink_eq h.limit hs with ⟨-, rfl⟩ | ⟨-, p, hnext, hsize, hc⟩
  · exact ⟨h, List.Sublist.refl _⟩
  rw [Child.Last, hnext] at hlast
  obtain ⟨⟨os, hos⟩, hr⟩ := hlast
  obtain ⟨hwf, hrecords⟩ := h.unlink_last hos hr hsize hc
  refine ⟨hwf, ?_⟩
  rw [hrecords, DirFile.records, ← hos]
  exact (List.Sublist.append_left (List.singleton_sublist.mpr List.mem_cons_self) os).map _

/-! ## Which child can be removed -/

theorem children_sublist (m : Mem) (children os : List ℕ) :
    (os.foldl (addChild m) children).reverse.Sublist (children.reverse ++ os) := by
  induction os generalizing children with
  | nil => simp
  | cons o os ih =>
    rw [List.foldl_cons]
    refine (ih _).trans ?_
    rw [addChild]
    split_ifs
    · exact List.Sublist.append_left (List.sublist_cons_self o os) _
    · exact List.Sublist.append_left (List.sublist_cons_self o os) _
    · rw [List.reverse_cons, List.append_assoc]
      exact List.Sublist.refl _

variable {before after : List ℕ} {mode links size : ℕ}

theorem WellFormed.children (h : WellFormed d) (hc : d.children = before ++ r :: after) :
    r ∈ d.offsets ∧ (∀ c ∈ before, c ∈ d.offsets ∧ r < c) ∧ (∀ c ∈ after, c ∈ d.offsets ∧ c < r) ∧
      after.Pairwise (· > ·) := by
  have hsub : d.children.reverse.Sublist d.offsets := children_sublist d.content [] d.offsets
  have hmem : ∀ c ∈ d.children, c ∈ d.offsets := fun c hc => hsub.subset (List.mem_reverse.mpr hc)
  have hsort : d.children.Pairwise (· > ·) := List.pairwise_reverse.mp (h.walk.sorted.sublist hsub)
  rw [hc] at hmem hsort
  obtain ⟨-, hsort', hbefore⟩ := List.pairwise_append.mp hsort
  obtain ⟨hafter, hsort''⟩ := List.pairwise_cons.mp hsort'
  exact ⟨hmem r (by simp), fun c hc => ⟨hmem c (by simp [hc]), hbefore c hc r (by simp)⟩,
    fun c hc => ⟨hmem c (by simp [hc]), hafter c hc⟩, hsort''⟩

/-- The call reads no `NULL` sibling and returns 0, and the directory has its records less that of the entry. -/
def Removes (d : DirFile) (entry : Child) : Prop :=
  ∃ d', ext2Unlink d entry = some (true, d') ∧ WellFormed d' ∧
    d'.records = (d.offsets.erase entry.offset).map (recEntry d.content)

/-- The entry is the last record, and the one before it in the same block is a child too. -/
theorem WellFormed.removes (h : WellFormed d) (hc : d.children = before ++ r :: after) (hmode : mode &&& 0x4000 = 0)
    (hlinks : links ≠ 0) (hos : d.offsets = os ++ [p, r]) (hp : p ∈ d.children) (hr : r % 1024 ≠ 0) :
    Removes d (childAt mode links size before r after) := by
  obtain ⟨-, hbefore, hafter, hsort⟩ := h.children hc
  have hsorted := h.walk.sorted
  rw [hos] at hsorted
  obtain ⟨-, hpr, hlt⟩ := List.pairwise_append.mp hsorted
  have hpr' : p < r := (List.pairwise_cons.mp hpr).1 r List.mem_cons_self
  have hle : ∀ o ∈ d.offsets, o = r ∨ o ≤ p := by
    intro o ho
    rw [hos, List.mem_append, List.mem_pair] at ho
    rcases ho with ho | rfl | rfl
    · exact .inr (Nat.le_of_lt (hlt o ho p List.mem_cons_self))
    · exact .inr le_rfl
    · exact .inl rfl
  obtain rfl : before = [] := by
    refine List.eq_nil_iff_forall_not_mem.mpr fun c hc => ?_
    obtain ⟨hmem, hgt⟩ := hbefore c hc
    rcases hle c hmem with rfl | hle <;> omega
  have hpafter : p ∈ after := by
    rw [hc, List.nil_append] at hp
    exact (List.mem_cons.mp hp).resolve_left (by omega)
  obtain ⟨x, after, rfl⟩ := List.exists_cons_of_ne_nil (List.ne_nil_of_mem hpafter)
  obtain rfl : x = p := by
    obtain ⟨hmem, hxr⟩ := hafter x List.mem_cons_self
    have hxp := (hle x hmem).resolve_left (by omega)
    rcases List.mem_cons.mp hpafter with rfl | hp'
    · rfl
    · have := (List.pairwise_cons.mp hsort).1 p hp'
      omega
  have hunlink : ∃ d', ext2Unlink d (childAt mode links size [] r (x :: after)) = some (true, d') := by
    unfold ext2Unlink
    rw [if_neg (by exact hlinks), if_neg (by rintro ⟨hdir, -⟩; exact hdir hmode), h.readContent]
    simp only [childAt, unlinkBuffer, unlinkLoop, List.getLast?_nil, List.head?_cons, Option.bind_eq_bind,
      Option.bind_some, DirFile.writeContent_inside (Nat.le_of_eq (Nat.zero_add d.size)) h.limit]
    exact ⟨_, rfl⟩
  obtain ⟨d', hd'⟩ := hunlink
  refine ⟨d', hd', ?_⟩
  have herase : d.offsets.erase r = os ++ [x] := by
    have hnot : r ∉ os := fun hmem => absurd (hlt r hmem r (by simp)) (lt_irrefl r)
    rw [hos, List.erase_append_right _ hnot]
    simp [Nat.ne_of_lt hpr']
  change WellFormed d' ∧ d'.records = (d.offsets.erase r).map (recEntry d.content)
  rw [herase]
  obtain ⟨-, p', hnext, hsize, hcontent⟩ := (ext2Unlink_eq h.limit hd').resolve_left (by rintro ⟨hb, -⟩; cases hb)
  obtain rfl : x = p' := Option.some.inj hnext
  exact h.unlink_last hos.symm hr hsize hcontent

/-- The records of a directory in which a record is zeroed and the one before it reaches to the end of its block. -/
theorem WellFormed.removed (h : WellFormed d) (hp : p ∈ d.offsets) (hr : r ∈ d.offsets) (hpr : p < r)
    (hsize : d'.size = (r / 1024 + 1) * 1024)
    (hc : ∀ x < d.size, d'.content x = store16 (fun k => if r ≤ k ∧ k < r + recSize d.content r then 0 else d.content k)
      (p + 4) (1024 - p % 1024) x) (hwf : WellFormed d') :
    ∃ os, os ++ [p] <+: d.offsets ∧ d'.offsets = os ++ [p] ∧ r % 1024 ≠ 0 := by
  obtain ⟨os, rest, hos⟩ := List.append_of_mem hp
  have hw := h.walk
  rw [hos, walk_append] at hw
  obtain ⟨j, hw, rfl, hpos, -⟩ := hw
  obtain ⟨-, hfitp, hblockp⟩ := h.fits p hp
  obtain ⟨-, hfitr, -⟩ := h.fits r hr
  have hrend := (h.walk.mem hr).2
  unfold dirEntrySize at hfitp hfitr
  have hc₁ : ∀ x < r, (x < p + 4 ∨ p + 6 ≤ x) → d'.content x = d.content x := by
    intro x hx hout
    rw [hc x (by omega), store16_of_outside _ _ (by omega), if_neg (by omega)]
  have hrecp : recSize d'.content p = 1024 - p % 1024 := by
    rw [recSize_congr fun x h₁ h₂ => hc x (by omega), recSize, load16_store16]
    omega
  obtain ⟨hw', -, -⟩ := h.before hw ⟨p :: rest, hos.symm⟩ fun x hx => hc₁ x (by omega) (by omega)
  have hwq : Walk (recSize d'.content) 0 (os ++ [p]) (p + (1024 - p % 1024)) := by
    refine walk_append.mpr ⟨p, hw', rfl, by omega, ?_⟩
    change p + recSize d'.content p = _
    rw [hrecp]
  obtain ⟨rest', hoff, hrest⟩ := hwq.split hwf.walk (by omega)
  rcases Nat.lt_or_ge r (p + (1024 - p % 1024)) with hsame | hlater
  · have hend : p + (1024 - p % 1024) = d'.size := by omega
    refine ⟨os, ⟨rest, by rw [hos, List.append_assoc]; rfl⟩, ?_, by omega⟩
    cases rest' with
    | nil => rw [hoff, List.append_nil]
    | cons y ys =>
      obtain ⟨-, hy, hys⟩ := hrest
      have := hys.le
      omega
  · -- the walk comes to the record that is zeroed
    exfalso
    obtain ⟨as, bs, habs, has, hbs⟩ := h.walk.boundary (q := p + (1024 - p % 1024)) (by omega) (Nat.zero_le _)
      (by omega) fun o ho => (h.fits o ho).2.2
    have hrbs : r ∈ bs := by
      rw [habs] at hr
      refine (List.mem_append.mp hr).resolve_left fun hmem => ?_
      have := (has.mem hmem).2
      omega
    obtain ⟨bs₁, bs₂, hbseq⟩ := List.append_of_mem hrbs
    rw [hbseq] at hbs
    obtain ⟨j, hbs₁, rfl, -⟩ := walk_append.mp hbs
    have hbs₁' : Walk (recSize d'.content) (p + (1024 - p % 1024)) bs₁ r := by
      refine hbs₁.congr fun o ho => recSize_congr fun x h₁ h₂ => ?_
      have hobs := hbs₁.mem ho
      have hfit := (h.fits o (by rw [habs, hbseq]; simp [ho])).2.1
      unfold dirEntrySize at hfit
      exact hc₁ x (by omega) (.inr (by omega))
    obtain ⟨rest'', -, hrest''⟩ := hbs₁'.split hrest (by omega)
    have hzero : recSize d'.content r = 0 := by
      have hbytes : ∀ x, r + 4 ≤ x → x < r + 6 → d'.content x = (fun _ => 0 : Mem) x := by
        intro x h₁ h₂
        rw [hc x (by omega), store16_of_outside _ _ (by omega), if_pos (by omega)]
      rw [recSize_congr hbytes]
      rfl
    cases rest'' with
    | nil =>
      have : r = d'.size := hrest''
      omega
    | cons y ys =>
      have := hrest''.2.1
      omega

/-- **Unlinking** removes the record exactly if it is the last one, the one before it is that of a child too, and
both are in the same block. -/
theorem unlink_removes_iff {d : DirFile} {before after : List ℕ} {r mode links size : ℕ} (h : WellFormed d)
    (hc : d.children = before ++ r :: after) (hmode : mode &&& 0x4000 = 0) (hlinks : links ≠ 0) :
    Removes d (childAt mode links size before r after) ↔
      ∃ os p, d.offsets = os ++ [p, r] ∧ p ∈ d.children ∧ r % 1024 ≠ 0 := by
  constructor
  · rintro ⟨d', hd', hwf, hrec⟩
    obtain ⟨-, p, hnext, hsize, hcontent⟩ := (ext2Unlink_eq h.limit hd').resolve_left (by rintro ⟨hb, -⟩; cases hb)
    obtain ⟨hr, -, hafter, -⟩ := h.children hc
    have hpafter : p ∈ after := List.mem_of_head? hnext
    obtain ⟨hp, hpr⟩ := hafter p hpafter
    obtain ⟨os, ⟨rest, hos⟩, hoff, hne⟩ := h.removed hp hr hpr hsize hcontent hwf
    have hlen : d'.offsets.length + 1 = d.offsets.length := by
      have hl := congrArg List.length hrec
      change _ = ((d.offsets.erase r).map (recEntry d.content)).length at hl
      rw [DirFile.records, List.length_map, List.length_map, List.length_erase_of_mem hr] at hl
      have := List.length_pos_of_mem hr
      omega
    have hone : rest.length = 1 := by
      rw [hoff, ← hos] at hlen
      simp only [List.length_append] at hlen
      omega
    obtain ⟨y, rfl⟩ := List.length_eq_one_iff.mp hone
    obtain rfl : r = y := by
      have hsorted := h.walk.sorted
      rw [← hos, List.append_assoc] at hsorted hr
      have hlt := (List.pairwise_append.mp hsorted).2.2
      rcases List.mem_append.mp hr with hmem | hmem
      · have := hlt r hmem p (by simp)
        omega
      · rcases List.mem_pair.mp hmem with rfl | rfl
        · omega
        · rfl
    refine ⟨os, p, ?_, by rw [hc]; simp [hpafter], hne⟩
    rw [← hos, List.append_assoc]
    rfl
  · rintro ⟨os, p, hos, hp, hr⟩
    exact h.removes hc hmode hlinks hos hp hr

theorem unlink_removes_iff_root : WellFormed rootDir ∧ rootDir.children = [] ++ 36 :: [24] ∧
    Removes rootDir (childAt 0x8000 1 0 [] 36 [24]) := by
  have hc : rootDir.children = [] ++ 36 :: [24] := by
    rw [DirFile.children, rootDir_wellFormed.2]
    decide +kernel
  refine ⟨rootDir_wellFormed.1, hc, (unlink_removes_iff rootDir_wellFormed.1 hc (by decide) (by decide)).mpr
    ⟨[0, 12], 24, rootDir_wellFormed.2, by rw [hc]; simp, by decide⟩⟩

/-- The file `a` is the first child that was added: it has no next sibling. -/
theorem first_child_faults : WellFormed rootDir ∧ rootDir.children = [36] ++ 24 :: [] ∧
    (ext2Unlink rootDir (childAt 0x8000 1 0 [36] 24 [])).isNone ∧
    ¬ Removes rootDir (childAt 0x8000 1 0 [36] 24 []) := by
  have hc : rootDir.children = [36] ++ 24 :: [] := by
    rw [DirFile.children, rootDir_wellFormed.2]
    decide +kernel
  have hnone : (ext2Unlink rootDir (childAt 0x8000 1 0 [36] 24 [])).isNone := by decide +kernel
  refine ⟨rootDir_wellFormed.1, hc, hnone, ?_⟩
  rintro ⟨d', hd', -⟩
  rw [hd'] at hnone
  cases hnone

end BulbOS.Dir
