import BulbOS.Dir.Link
import BulbOS.Dir.Unlink
import BulbOS.Lib.Run

/-!
# Names in a directory

Nobody looks whether a directory has a record of a name before one is added.

* `DirOp.Careful`: a call that adds a new name, or removes the last record;
* `Distinct`: directories that can be read, with distinct names;
* **`names_unique`**: the names stay distinct as long as no name is added twice.
-/

namespace BulbOS.Dir

open KLib Ext2

variable {d d' : DirFile} {name : List UInt8}

/-! ## The calls -/

inductive DirOp
  | link (old : Option Target) (dir : Option (ℕ × ℕ)) (name : List UInt8)
  | make (dir : Option (ℕ × ℕ)) (name : List UInt8) (n mode : ℕ)
  | open (found oCreat : Bool) (dir : Option (ℕ × ℕ)) (name : List UInt8) (n : ℕ)
  | unlink (dir : Option (ℕ × ℕ)) (name : List UInt8) (entry : Option Child)

def DirOp.step (s : Dirs) : DirOp → Option Dirs
  | .link old dir name => dirLink s old dir name
  | .make dir name n mode => dirMake s dir name n mode
  | .open found oCreat dir name n => fileOpen s found oCreat dir name n
  | .unlink dir name entry => dirUnlink s dir name entry

/-- No record of the directory has the name, and there is room for one. -/
def NewName (d : DirFile) (name : List UInt8) : Prop := storedName name ∉ d.names ∧ d.Room name

/-- A call that adds a record adds a new name, and one that removes a record removes the last one. -/
def DirOp.Careful (s : Dirs) : DirOp → Prop
  | .link (some old) (some dir) name =>
    old.mode &&& 0x8000 = 0 ∨ dir.1 ≠ old.device ∨ NewName (s dir) name
  | .make (some dir) name n _ => NewName (dinodeAlloc s n dir) name
  | .open found oCreat (some dir) name n => (!found && oCreat) = false ∨ NewName (dinodeAlloc s n dir) name
  | .unlink (some dir) name (some entry) =>
    name = [46] ∨ name = [46, 46] ∨ (entry.mode &&& 0x4000 ≠ 0 ∧ entry.size ≠ emptyDirSize) ∨ entry.Last (s dir)
  | _ => True

instance (d : DirFile) (name : List UInt8) : Decidable (NewName d name) :=
  inferInstanceAs (Decidable (storedName name ∉ d.names ∧ d.Room name))

instance (s : Dirs) (op : DirOp) : Decidable (op.Careful s) := by
  unfold DirOp.Careful
  split <;> infer_instance

/-- A call that completes. -/
def NameMove (s : Dirs) (op : DirOp) (s' : Dirs) : Prop := op.Careful s ∧ op.step s = some s'

/-- Every directory can be read, and its names are distinct. -/
def Distinct (s : Dirs) : Prop := ∀ k, WellFormed (s k) ∧ (s k).names.Nodup

variable {s s' : Dirs} {dir : ℕ × ℕ} {n mode : ℕ}

theorem Distinct.update (h : Distinct s) (hd : WellFormed d' ∧ d'.names.Nodup) :
    Distinct (Function.update s dir d') := by
  intro k
  by_cases hk : k = dir
  · rw [hk, Function.update_self]
    exact hd
  · rw [Function.update_of_ne hk]
    exact h k

theorem Distinct.dinodeAlloc (h : Distinct s) (n : ℕ) : Distinct (dinodeAlloc s n) := by
  obtain ⟨hwf, hoff⟩ := empty_wellFormed (d := { s (0, n) with size := 0 }) rfl
  refine h.update ⟨hwf, ?_⟩
  rw [DirFile.names, hoff]
  exact List.nodup_nil

/-- A record of a new name; a directory of size 0 stays as it is. -/
theorem WellFormed.addName (h : WellFormed d) (hroom : d.Room name) (hs : ext2Link d n mode name = some d') :
    WellFormed d' ∧ (d.size = 0 ∧ d' = d ∨ d.size ≠ 0 ∧ d'.names = d.names ++ [storedName name]) := by
  rw [h.link] at hs
  unfold DirFile.Room at hroom
  have hw := h.walk
  rcases List.eq_nil_or_concat d.offsets with hnil | ⟨os, l, hos⟩
  · rw [hnil] at hw hroom hs
    have hsize : d.size = 0 := hw.symm
    rw [List.getLast?_nil, ext2LinkAt_empty hsize hroom] at hs
    obtain rfl := Option.some.inj hs
    exact ⟨h, .inl ⟨hsize, rfl⟩⟩
  · rw [List.concat_eq_append] at hos
    rw [hos, List.getLast?_concat] at hroom hs
    obtain ⟨d₁, hd₁, hwf, hrecords⟩ := h.link_last hos hroom.1 hroom.2 n mode
    obtain rfl := Option.some.inj (hs.symm.trans hd₁)
    obtain ⟨-, -, hfit, -, hend⟩ := h.last hos
    unfold dirEntrySize at hfit
    refine ⟨hwf, .inr ⟨by omega, ?_⟩⟩
    rw [names_eq, hrecords, List.map_append, ← names_eq]
    rfl

theorem Distinct.writeLink (h : Distinct s) (hnew : NewName (s dir) name)
    (hs : writeLink s dir n mode name = some s') : Distinct s' ∧ ∀ k, (s k).size = 0 → (s' k).size = 0 := by
  obtain ⟨d', hd', hs⟩ := Option.bind_eq_some_iff.mp hs
  obtain rfl := Option.some.inj hs
  obtain ⟨hwf, hcase⟩ := (h dir).1.addName hnew.2 hd'
  refine ⟨h.update ⟨hwf, ?_⟩, fun k hk => ?_⟩
  · rcases hcase with ⟨-, rfl⟩ | ⟨-, hnames⟩
    · exact (h dir).2
    · rw [hnames]
      refine List.nodup_append.mpr ⟨(h dir).2, List.pairwise_singleton _ _, fun x hx y hy => ?_⟩
      rw [List.mem_singleton.mp hy]
      rintro rfl
      exact hnew.1 hx
  · by_cases hkd : k = dir
    · subst hkd
      rw [Function.update_self]
      rcases hcase with ⟨-, rfl⟩ | ⟨hne, -⟩
      · exact hk
      · exact absurd hk hne
    · rw [Function.update_of_ne hkd]
      exact hk

theorem Distinct.dirCreate (h : Distinct s) {dir : Option (ℕ × ℕ)}
    (hnew : ∀ k, dir = some k → NewName (Dir.dinodeAlloc s n k) name) (hs : dirCreate s dir name n mode = some s') :
    Distinct s' := by
  obtain ⟨k, rfl, hs⟩ := Option.bind_eq_some_iff.mp hs
  obtain ⟨s₁, h₁, hs⟩ := Option.bind_eq_some_iff.mp hs
  obtain ⟨hd₁, hz₁⟩ := (h.dinodeAlloc n).writeLink (hnew k rfl) h₁
  have hz : (s₁ (0, n)).size = 0 := hz₁ (0, n) (by rw [Dir.dinodeAlloc, Function.update_self])
  by_cases hdir : mode &&& 0x4000 ≠ 0
  · rw [if_pos hdir] at hs
    obtain ⟨s₂, h₂, hs⟩ := Option.bind_eq_some_iff.mp hs
    have hdot : ∀ {d : DirFile}, d.size = 0 → ∀ x ∈ [[46], [46, 46]], NewName d x := by
      intro d hd x hx
      obtain ⟨-, hoff⟩ := empty_wellFormed hd
      refine ⟨by simp [DirFile.names, hoff], ?_⟩
      rw [DirFile.Room, hoff, List.getLast?_nil]
      rcases List.mem_pair.mp hx with rfl | rfl
      · exact (by decide : 8 + dirEntrySize 1 ≤ 1024)
      · exact (by decide : 8 + dirEntrySize 2 ≤ 1024)
    obtain ⟨hd₂, hz₂⟩ := hd₁.writeLink (hdot hz _ List.mem_cons_self) h₂
    exact (hd₂.writeLink (hdot (hz₂ _ hz) _ (by simp)) hs).1
  · rw [if_neg hdir] at hs
    obtain rfl := Option.some.inj hs
    exact hd₁

theorem Distinct.dirLink (h : Distinct s) {old : Option Target} {dir : Option (ℕ × ℕ)}
    (hc : (DirOp.link old dir name).Careful s) (hs : Dir.dirLink s old dir name = some s') : Distinct s' := by
  unfold Dir.dirLink at hs
  obtain _ | old := old
  · exact Option.some.inj hs ▸ h
  by_cases hmode : old.mode &&& 0x8000 = 0
  · simp only [if_pos hmode] at hs
    exact Option.some.inj hs ▸ h
  simp only [if_neg hmode] at hs
  obtain _ | dir := dir
  · exact Option.some.inj hs ▸ h
  by_cases hdev : dir.1 = old.device
  · simp only [if_pos hdev] at hs
    rcases hc with hc | hc | hc
    · exact absurd hc hmode
    · exact absurd hdev hc
    · exact (h.writeLink hc hs).1
  · simp only [if_neg hdev] at hs
    exact Option.some.inj hs ▸ h

theorem Distinct.dirUnlink (h : Distinct s) {dir : Option (ℕ × ℕ)} {entry : Option Child}
    (hc : (DirOp.unlink dir name entry).Careful s) (hs : Dir.dirUnlink s dir name entry = some s') : Distinct s' := by
  unfold Dir.dirUnlink at hs
  obtain _ | dir := dir
  · exact Option.some.inj hs ▸ h
  by_cases hdot : name = [46] ∨ name = [46, 46]
  · simp only [if_pos hdot] at hs
    exact Option.some.inj hs ▸ h
  simp only [if_neg hdot] at hs
  obtain _ | entry := entry
  · exact Option.some.inj hs ▸ h
  obtain ⟨⟨b, d'⟩, hd', hs⟩ := Option.bind_eq_some_iff.mp hs
  obtain rfl := Option.some.inj hs
  refine h.update ?_
  have hd : d' = s dir ∨ entry.Last (s dir) := by
    rcases hc with hc | hc | hc | hc
    · exact absurd (.inl hc) hdot
    · exact absurd (.inr hc) hdot
    · left
      unfold ext2Unlink at hd'
      rw [if_pos hc] at hd'
      split at hd'
      · cases hd'
      · exact (Prod.mk.inj (Option.some.inj hd')).2.symm
    · exact .inr hc
  rcases hd with rfl | hlast
  · exact h dir
  · obtain ⟨hwf, hsub⟩ := (h dir).1.unlink hlast hd'
    refine ⟨hwf, (h dir).2.sublist ?_⟩
    rw [names_eq, names_eq]
    exact hsub.map _

theorem Distinct.step (h : Distinct s) {op : DirOp} (hm : NameMove s op s') : Distinct s' := by
  obtain ⟨hc, hs⟩ := hm
  cases op with
  | link old dir name => exact h.dirLink hc hs
  | make dir name n mode =>
    refine h.dirCreate (fun k hk => ?_) hs
    subst hk
    exact hc
  | «open» found oCreat dir name n =>
    change (if !found && oCreat then Dir.dirCreate s dir name n 0x8000 else some s) = some s' at hs
    by_cases hf : (!found && oCreat) = true
    · rw [if_pos hf] at hs
      refine h.dirCreate (fun k hk => ?_) hs
      subst hk
      rcases hc with hc | hc
      · rw [hf] at hc
        cases hc
      · exact hc
    · rw [if_neg hf] at hs
      exact Option.some.inj hs ▸ h
  | unlink dir name entry => exact h.dirUnlink hc hs

/-- **Names in a directory.** From directories with distinct names, every sequence of careful calls that
complete leads to directories with distinct names. -/
theorem names_unique (h : Distinct s) {ops : List DirOp} (hrun : Run NameMove s ops s') (k : ℕ × ℕ) :
    (s' k).names.Nodup :=
  (hrun.invariant (fun _ _ _ h hm => h.step hm) h k).2

/-- A root directory, inode 2, with `.`, `..` and the file `a`, inode 12. -/
def demoDirs : Dirs := fun k =>
  if k = (0, 2) then
    ⟨1024, fun x => if x < 12 then record 2 12 2 [46] x else if x < 24 then record 2 12 2 [46, 46] (x - 12)
      else record 12 1000 1 [97] (x - 24)⟩
  else ⟨0, fun _ => 0⟩

theorem demoDirs_distinct : Distinct demoDirs := by
  intro k
  by_cases hk : k = (0, 2)
  · subst hk
    have hw : Walk (recSize (demoDirs (0, 2)).content) 0 [0, 12, 24] (demoDirs (0, 2)).size := by decide +kernel
    obtain ⟨hwf, hoff⟩ := wellFormed_of_walk (by decide) (by decide) hw (by decide +kernel)
    refine ⟨hwf, ?_⟩
    rw [DirFile.names, hoff]
    decide +kernel
  · rw [demoDirs, if_neg hk]
    obtain ⟨hwf, hoff⟩ := empty_wellFormed (d := ⟨0, fun _ => 0⟩) rfl
    refine ⟨hwf, ?_⟩
    rw [DirFile.names, hoff]
    exact List.nodup_nil

/-- `dir_link("/a", "/b")` adds a record at offset 36, which `dir_unlink("/b")` removes. -/
theorem names_unique_demo : ∃ s, Run NameMove demoDirs
    [.link (some ⟨0, 12, 0x8000⟩) (some (0, 2)) [98],
      .unlink (some (0, 2)) [98] (some ⟨0x8000, 2, 0, 36, some 24, []⟩)] s ∧ ((s (0, 2)).names).Nodup := by
  have h : (([.link (some ⟨0, 12, 0x8000⟩) (some (0, 2)) [98],
      .unlink (some (0, 2)) [98] (some ⟨0x8000, 2, 0, 36, some 24, []⟩)] : List DirOp).foldlM
      (fun s (op : DirOp) => if op.Careful s then op.step s else none) demoDirs).isSome = true := by decide +kernel
  obtain ⟨s, hs⟩ := Option.isSome_iff_exists.mp h
  have hrun : Run NameMove demoDirs _ s := run_of_foldlM (fun s op s' hstep => by
    split_ifs at hstep with hc
    exact ⟨hc, hstep⟩) hs
  exact ⟨s, hrun, names_unique demoDirs_distinct hrun (0, 2)⟩

/-- `dir_link("/a", "/a")`. -/
theorem name_twice : ∃ s, dirLink demoDirs (some ⟨0, 12, 0x8000⟩) (some (0, 2)) [97] = some s ∧
    (s (0, 2)).names = [[46], [46, 46], [97], [97]] ∧ ¬ (s (0, 2)).names.Nodup := by
  have h : (dirLink demoDirs (some ⟨0, 12, 0x8000⟩) (some (0, 2)) [97]).any
      (fun s => (s (0, 2)).names = [[46], [46, 46], [97], [97]]) = true := by decide +kernel
  obtain ⟨s, hs, hn⟩ := (Option.any_eq_true _ _).mp h
  rw [decide_eq_true_eq] at hn
  exact ⟨s, hs, hn, by rw [hn]; decide⟩

end BulbOS.Dir
