import BulbOS.Dir.Records

/-!
# Adding a record (`ext2_link`)

* `DirFile.Room`: the new record fits behind the last one;
* `WellFormed.link_last`: what `ext2_link` does then; `WellFormed.link_full`, `WellFormed.link_spill`: otherwise;
* **`link_appends_iff`**: when the record is appended.
-/

namespace BulbOS.Dir

open KLib Ext2

variable {d d' : DirFile} {c c' : Mem} {name : List UInt8} {os : List ℕ} {l o : ℕ}

/-- The new record fits into the last block, behind the last record, which does not fill it. -/
def DirFile.Room (d : DirFile) (name : List UInt8) : Prop :=
  match d.offsets.getLast? with
  | none => 8 + dirEntrySize name.length ≤ 1024
  | some l =>
    align4 (l + dirEntrySize (recLength d.content l)) % 1024 ≠ 0 ∧
    align4 (l + dirEntrySize (recLength d.content l)) % 1024 + dirEntrySize name.length ≤ 1024

theorem WellFormed.link (h : WellFormed d) (n mode : ℕ) (name : List UInt8) :
    ext2Link d n mode name = ext2LinkAt d d.offsets.getLast? n mode name := by
  rw [ext2Link, h.readContent]
  change (findLast d.content d.size d.size 0 none >>= _) = _
  rw [findLast_walk h.walk (Nat.le_add_left _ _), Option.or_none]
  rfl

instance (d : DirFile) (name : List UInt8) : Decidable (d.Room name) := by
  unfold DirFile.Room
  split <;> infer_instance

/-- To a file without records nothing is written: the offset 8 is behind its end. -/
theorem ext2LinkAt_empty (hsize : d.size = 0) (hroom : 8 + dirEntrySize name.length ≤ 1024) (n mode : ℕ) :
    ext2LinkAt d none n mode name = some d := by
  have hstart : align4 (sub32 d.size 0 + dirEntrySize 0) = 8 := by
    rw [hsize, sub32_of_le le_rfl (by decide)]
    rfl
  simp only [ext2LinkAt, Option.map_none, Option.getD_none, hstart]
  rw [if_neg (by omega)]
  exact if_pos (by omega)

/-- `ext2_link` behind the last record `l`, whose name ends before `l + a`. -/
theorem ext2LinkAt_some (hd : d.size ≤ directBytes) (hend : l + recSize d.content l = d.size) (hl : 4 ∣ l) {a : ℕ}
    (ha : align4 (dirEntrySize (recLength d.content l)) = a) (n mode : ℕ) :
    ext2LinkAt d (some l) n mode name =
      if dirEntrySize name.length > 1024 - (l + a) % 1024 then
        DirFile.writeContent { d with size := d.size + 1024 }
          (record n (sub32 1024 (dirEntrySize name.length)) (fileType mode) name) (((l + a) / 1024 + 1) * 1024)
          (dirEntrySize name.length)
      else (d.writeContent (fun k => store16 d.content (l + 4) a (l + k)) l a).bind fun d =>
        d.writeContent (record n (1024 - (l + a) % 1024) (fileType mode) name) (l + a) (dirEntrySize name.length) := by
  have hmax : directBytes < 2 ^ 32 := by decide
  have hstart : sub32 d.size (recSize d.content l) = l := by
    rw [sub32_of_le (by omega) (by omega)]
    omega
  simp only [ext2LinkAt, Option.map_some, Option.getD_some, hstart, align4_add hl, ha, Option.bind_eq_bind]

/-- What `ext2_link` writes: the last record is cut behind its name, and the new one takes the rest. -/
theorem ext2LinkAt_last (hd : d.size ≤ directBytes) (hend : l + recSize d.content l = d.size) (hl : 4 ∣ l) {a : ℕ}
    (ha : align4 (dirEntrySize (recLength d.content l)) = a)
    (h₂ : 1024 - (l + a) % 1024 = d.size - (l + a)) (h₃ : l + a + dirEntrySize name.length ≤ d.size) (n mode : ℕ) :
    ∃ c, ext2LinkAt d (some l) n mode name = some ⟨d.size, c⟩ ∧ (∀ x < l, c x = d.content x) ∧
      (∀ x, l ≤ x → x < l + a → c x = store16 d.content (l + 4) a x) ∧
      ∀ k < dirEntrySize name.length, c (l + a + k) = record n (d.size - (l + a)) (fileType mode) name k := by
  rw [ext2LinkAt_some hd hend hl ha, h₂, if_neg (by omega), DirFile.writeContent_inside (by omega) hd]
  refine ⟨_, DirFile.writeContent_inside (d := ⟨d.size, _⟩) h₃ hd, fun x hx => ?_, fun x hx hx' => ?_, fun k hk => ?_⟩
  · rw [if_neg (by omega)]
    exact if_neg (by omega)
  · rw [if_neg (by omega)]
    exact (if_pos ⟨hx, hx'⟩).trans (by rw [Nat.add_sub_cancel' hx])
  · rw [if_pos (by omega), Nat.add_sub_cancel_left]

theorem WellFormed.link_last (h : WellFormed d) (hos : d.offsets = os ++ [l])
    (h₁ : align4 (l + dirEntrySize (recLength d.content l)) % 1024 ≠ 0)
    (h₂ : align4 (l + dirEntrySize (recLength d.content l)) % 1024 + dirEntrySize name.length ≤ 1024) (n mode : ℕ) :
    ∃ d', ext2LinkAt d (some l) n mode name = some d' ∧ WellFormed d' ∧
      d'.records = d.records ++ [(u32 n, storedName name)] := by
  obtain ⟨hw, hl, hfit, hblock, hend⟩ := h.last hos
  obtain ⟨a, ha⟩ : ∃ a, align4 (dirEntrySize (recLength d.content l)) = a := ⟨_, rfl⟩
  obtain ⟨ha₁, ha₂, ha₃⟩ := le_align4 (dirEntrySize (recLength d.content l))
  rw [ha] at ha₁ ha₂ ha₃
  rw [align4_add hl, ha] at h₁ h₂
  have hb := h.blocks
  have hlen : recLength d.content l < 256 := UInt8.toNat_lt _
  unfold dirEntrySize at ha₁ ha₂ h₂ hfit
  have hrem : 1024 - (l + a) % 1024 = d.size - (l + a) := by omega
  obtain ⟨c, heq, hbefore, hcut, hnew⟩ := ext2LinkAt_last h.limit hend hl ha hrem
    (show l + a + dirEntrySize name.length ≤ d.size by unfold dirEntrySize; omega) n mode
  refine ⟨_, heq, ?_⟩
  obtain ⟨hw', hf', hn'⟩ := h.before hw ⟨[l], hos.symm⟩ hbefore
  have hsize : recSize c l = a := by
    rw [recSize_congr fun x h₁ h₂ => hcut x (by omega) (by omega), recSize, load16_store16]
    omega
  obtain ⟨hlen', hentry'⟩ : recLength c l = recLength d.content l ∧ recEntry c l = recEntry d.content l := by
    refine recEntry_congr fun x h₁ h₂ hout => ?_
    unfold dirEntrySize at h₂
    rw [hcut x (by omega) (by omega), store16_of_outside _ _ (by omega)]
  have hsize' : recSize c (l + a) = d.size - (l + a) := recSize_record n _ (by omega) name hnew
  obtain ⟨hlen'', hentry''⟩ := recEntry_record n _ _ name hnew
  have hwalk : Walk (recSize c) 0 (os ++ [l, l + a]) d.size := by
    refine walk_append.mpr ⟨l, hw', rfl, by omega, ?_, ?_, ?_⟩
    · rw [hsize]
    · rw [hsize, hsize']
      omega
    · change l + recSize c l + recSize c (l + recSize c l) = d.size
      rw [hsize, hsize']
      omega
  obtain ⟨hwf, hoff⟩ := wellFormed_of_walk (d := ⟨d.size, c⟩) h.blocks h.limit hwalk fun o ho => by
    rcases List.mem_append.mp ho with ho | ho
    · exact hf' o ho
    rcases List.mem_pair.mp ho with rfl | rfl
    · dsimp only
      rw [hsize, hlen', dirEntrySize]
      omega
    · dsimp only
      rw [hsize', hlen'', dirEntrySize]
      omega
  refine ⟨hwf, ?_⟩
  rw [DirFile.records, DirFile.records, hoff, hos, List.map_append, List.map_append, hn', List.append_assoc]
  simp [hentry', hentry'']

/-! ## Where it goes wrong -/

/-- The call returns, and the directory has one more record, at its end. -/
def Appends (d : DirFile) (n mode : ℕ) (name : List UInt8) : Prop :=
  ∃ d', ext2Link d n mode name = some d' ∧ WellFormed d' ∧ d'.records = d.records ++ [(n, name)]

theorem length_of_records (h : d'.records = d.records ++ [(n, name)]) : d'.offsets.length = d.offsets.length + 1 := by
  have := congrArg List.length h
  simpa [DirFile.records] using this

/-- The last record fills its block: the new record is written behind the end, and the size is not that of blocks. -/
theorem WellFormed.link_full (h : WellFormed d) (hos : d.offsets = os ++ [l]) (hname : name.length ≤ 255)
    (h₁ : align4 (l + dirEntrySize (recLength d.content l)) % 1024 = 0) {n mode : ℕ}
    (hd' : ext2LinkAt d (some l) n mode name = some d') : ¬ 1024 ∣ d'.size := by
  obtain ⟨hw, hl, hfit, hblock, hend⟩ := h.last hos
  obtain ⟨a, ha⟩ : ∃ a, align4 (dirEntrySize (recLength d.content l)) = a := ⟨_, rfl⟩
  obtain ⟨ha₁, ha₂, ha₃⟩ := le_align4 (dirEntrySize (recLength d.content l))
  rw [ha] at ha₁ ha₂ ha₃
  rw [align4_add hl, ha] at h₁
  have hb := h.blocks
  have hlim := h.limit
  unfold dirEntrySize at ha₁ ha₂ hfit
  have hfull : l + a = d.size := by omega
  rw [ext2LinkAt_some hlim hend hl ha, if_neg (by unfold dirEntrySize; omega),
    DirFile.writeContent_inside (by omega) hlim,
    hfull, Option.bind_some, DirFile.writeContent, if_neg (lt_irrefl _)] at hd'
  split_ifs at hd'
  obtain rfl := Option.some.inj hd'
  unfold dirEntrySize
  dsimp only
  omega

/-- The new record goes to a new block: it ends before the block does. -/
theorem WellFormed.link_spill (h : WellFormed d) (hos : d.offsets = os ++ [l]) (hname : name.length ≤ 255)
    (h₁ : align4 (l + dirEntrySize (recLength d.content l)) % 1024 ≠ 0)
    (h₂ : ¬ align4 (l + dirEntrySize (recLength d.content l)) % 1024 + dirEntrySize name.length ≤ 1024) {n mode : ℕ}
    (hd' : ext2LinkAt d (some l) n mode name = some d') (hwf : WellFormed d') :
    d.offsets.length + 2 ≤ d'.offsets.length := by
  obtain ⟨-, hl, hfit, hblock, hend⟩ := h.last hos
  obtain ⟨a, ha⟩ : ∃ a, align4 (dirEntrySize (recLength d.content l)) = a := ⟨_, rfl⟩
  obtain ⟨ha₁, ha₂, ha₃⟩ := le_align4 (dirEntrySize (recLength d.content l))
  rw [ha] at ha₁ ha₂ ha₃
  rw [align4_add hl, ha] at h₁ h₂
  have hb := h.blocks
  unfold dirEntrySize at ha₁ ha₂ hfit
  have hstart : ((l + a) / 1024 + 1) * 1024 = d.size := by omega
  have hlen : dirEntrySize name.length ≤ 263 := by
    unfold dirEntrySize
    omega
  rw [ext2LinkAt_some h.limit hend hl ha, if_pos (by omega), hstart, DirFile.writeContent,
    if_neg (by dsimp only; omega)]
    at hd'
  split_ifs at hd' with hfit'
  obtain ⟨c, hc⟩ : ∃ c, c = fun k => if d.size ≤ k ∧ k < d.size + dirEntrySize name.length then
    record n (sub32 1024 (dirEntrySize name.length)) (fileType mode) name (k - d.size) else d.content k := ⟨_, rfl⟩
  have hmaxs : max (d.size + 1024) (d.size + dirEntrySize name.length) = d.size + 1024 := by omega
  dsimp only at hd'
  rw [← hc, hmaxs] at hd'
  obtain rfl := Option.some.inj hd'
  have hsame : ∀ x < d.size, c x = d.content x := by
    intro x hx
    rw [hc]
    exact if_neg (by omega)
  obtain ⟨hw', -, -⟩ := h.before h.walk (List.prefix_refl _) hsame
  have hrec : recSize c d.size = 1024 - dirEntrySize name.length := by
    rw [← sub32_of_le (by omega) (by decide)]
    refine recSize_record n (fileType mode) ?_ name fun k hk => ?_
    · rw [sub32_of_le (by omega) (by decide)]
      omega
    · rw [hc]
      dsimp only
      rw [if_pos (by omega), Nat.add_sub_cancel_left]
  obtain ⟨rest, hoff, hrest⟩ := hw'.split hwf.walk (Nat.le_add_right _ _)
  rw [hoff, List.length_append]
  -- a record at the old end, and one behind it
  rcases rest with _ | ⟨x, _ | ⟨y, rest⟩⟩
  · have : d.size = d.size + 1024 := hrest
    omega
  · have : d.size + recSize c d.size = d.size + 1024 := hrest.2.2
    unfold dirEntrySize at hrec
    omega
  · simp

/-- **Linking** appends the record exactly if the directory is not empty and the record fits behind the last one,
which does not fill its block. -/
theorem link_appends_iff {d : DirFile} {n mode : ℕ} {name : List UInt8} (h : WellFormed d) (hn : n < 2 ^ 32)
    (hname : name.length ≤ 255) : Appends d n mode name ↔ d.size ≠ 0 ∧ d.Room name := by
  have hw := h.walk
  unfold Appends DirFile.Room
  rw [h.link]
  rcases List.eq_nil_or_concat d.offsets with hnil | ⟨os, l, hos⟩
  · rw [hnil] at hw ⊢
    have hsize : d.size = 0 := hw.symm
    rw [List.getLast?_nil, ext2LinkAt_empty hsize (by unfold dirEntrySize; omega)]
    simp [hsize]
  · rw [List.concat_eq_append] at hos
    obtain ⟨-, -, hfit, -, hend⟩ := h.last hos
    rw [hos, List.getLast?_concat]
    unfold dirEntrySize at hfit
    constructor
    · rintro ⟨d', hd', hwf, hrec⟩
      have hlen := length_of_records hrec
      have h₁ : align4 (l + dirEntrySize (recLength d.content l)) % 1024 ≠ 0 :=
        fun h₁ => h.link_full hos hname h₁ hd' hwf.blocks
      refine ⟨by omega, h₁, ?_⟩
      by_contra h₂
      have := h.link_spill hos hname h₁ h₂ hd' hwf
      omega
    · rintro ⟨-, h₁, h₂⟩
      obtain ⟨d', hd', hwf, hrec⟩ := h.link_last hos h₁ h₂ n mode
      rw [u32_of_lt hn, storedName_eq (by omega)] at hrec
      exact ⟨d', hd', hwf, hrec⟩

theorem link_appends_iff_root : WellFormed rootDir ∧ rootDir.Room [99] ∧ Appends rootDir 14 0x8000 [99] := by
  have hroom : rootDir.Room [99] := by decide +kernel
  exact ⟨rootDir_wellFormed.1, hroom,
    (link_appends_iff rootDir_wellFormed.1 (by decide) (by decide)).mpr ⟨by decide, hroom⟩⟩

/-- The `.` of a new directory is not written. -/
theorem empty_not_linked : WellFormed ⟨0, fun _ => 0⟩ ∧
    (ext2Link ⟨0, fun _ => 0⟩ 14 0x4000 [46]).map DirFile.size = some 0 ∧
    ¬ Appends ⟨0, fun _ => 0⟩ 14 0x4000 [46] := by
  have hsize : (ext2Link ⟨0, fun _ => 0⟩ 14 0x4000 [46]).map DirFile.size = some 0 := by decide +kernel
  refine ⟨(empty_wellFormed rfl).1, hsize, ?_⟩
  rintro ⟨d', hd', hwf, hrec⟩
  rw [hd', Option.map_some] at hsize
  rw [DirFile.records, (empty_wellFormed (Option.some.inj hsize)).2] at hrec
  cases hrec

end BulbOS.Dir
