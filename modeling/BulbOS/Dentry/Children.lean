import BulbOS.Dentry.Unique
import BulbOS.Lib.Doubly
import BulbOS.Table.Grow

/-!
# The children of a directory (`dir_add_child`, `dir_remove_child`)

Runs of the two calls on one directory. `dir_remove_child` clears `prev_sib` of the entry before it gives it to the next
child, and takes the path of the entry out of `dir_head.table` only: the table of the directory has it still, and leads
to a dentry that is freed.

* `dirRemoveChild`: the call; `ChildrenAgree`: the child list, its links back and the table are those of the children;
* `linkChild_children`, `linkChild_nextSib`, `linkChild_prevSib`, `linkChild_parent`: what `dir_add_child` changes;
* `ChildrenAgree.add`, `ChildrenAgree.remove`: one call; **`children_agree`**: runs of additions keep the list, and
  runs with a removal do not; `removed_child_cuts_list`: a removal after which another child is lost.
-/

namespace BulbOS.Dentry

open KLib BulbOS.Table BulbOS.Inode

variable {s s' : Dentries} {kids : List ℕ} {dir entry d : ℕ}

/-! ## The calls -/

/-- The first half of `dir_remove_child`: the entry is taken out of the child list. -/
def unlinkChild (s : Dentries) (dir entry : ℕ) : Dentries :=
  let prev := (s.dentries entry).prevSib
  let next := (s.dentries entry).nextSib
  let s := if prev ≠ 0 then s.set prev { s.dentries prev with nextSib := next }
    else s.set dir { s.dentries dir with children := next }
  let s := s.set entry { s.dentries entry with prevSib := 0 }
  let next := (s.dentries entry).nextSib
  let s := if next ≠ 0 then s.set next { s.dentries next with prevSib := (s.dentries entry).prevSib } else s
  s.set entry { s.dentries entry with nextSib := 0 }

/-- The second half: the entry is freed. -/
def freeChild (s : Dentries) (entry : ℕ) : Except Stop Dentries :=
  match htRemove s.table (s.str entry) with
  | none => .error .diverges
  | some (ret, table) =>
    if ret ≠ 0 then .error (.notInHashTable .dentry)
    else do
      let s := { s with
        table := table
        keys := keysRemove s.table s.keys (s.str entry)
        paths := s.paths.erase (s.dentries entry).path }
      let s ← if (s.dentries entry).valid then
          dirReleaseEntries entry (s.live.length + 1) s (s.dentries entry).children
        else .ok s
      let s ← tableFree s (s.dentries entry).table
      return { s with live := s.live.erase entry }

def dirRemoveChild (s : Dentries) (dir entry : ℕ) : Except Stop Dentries :=
  if entry ∉ s.live then .error .notInUse
  else
    let s := unlinkChild s dir entry
    let s := dirRelease s (s.dentries entry).parent
    let s := s.set entry { s.dentries entry with parent := 0 }
    freeChild (dirRelease s entry) entry

/-! ## What `dir_add_child` changes -/

/-- A field of the dentries. -/
def Dentries.field {α : Type} (s : Dentries) (π : DentryT → α) (d : ℕ) : α := π (s.dentries d)

theorem field_set {α : Type} (s : Dentries) (π : DentryT → α) (d : ℕ) (x : DentryT) :
    (s.set d x).field π = Function.update (s.field π) d (π x) := Function.comp_update ..

theorem field_set_same {α : Type} (s : Dentries) (π : DentryT → α) {x : DentryT} (h : π x = s.field π d) :
    (s.set d x).field π = s.field π := by
  rw [field_set, h, Function.update_eq_self]

theorem field_ite_same {α : Type} (s : Dentries) (π : DentryT → α) (c : Prop) [Decidable c] {x : DentryT}
    (h : π x = s.field π d) : (if c then s.set d x else s).field π = s.field π := by
  split_ifs
  · exact field_set_same s π h
  · rfl

theorem linkChild_stages (s : Dentries) (dir entry : ℕ) : ∃ s₁ s₂ s₃ s₄ s₅ s₆ : Dentries,
    s₁ = s.set dir { s.dentries dir with refCount := (s.dentries dir).refCount + 1 } ∧
    s₂ = s₁.set entry { s₁.dentries entry with parent := dir } ∧
    s₃ = (if (s₂.dentries dir).children ≠ 0 then s₂.set (s₂.dentries dir).children
      { s₂.dentries (s₂.dentries dir).children with prevSib := entry } else s₂) ∧
    s₄ = s₃.set entry { s₃.dentries entry with nextSib := (s₃.dentries dir).children } ∧
    s₅ = s₄.set entry { s₄.dentries entry with prevSib := 0 } ∧
    s₆ = s₅.set entry { s₅.dentries entry with refCount := (s₅.dentries entry).refCount + 1 } ∧
    linkChild s dir entry = s₆.set dir { s₆.dentries dir with children := entry } :=
  ⟨_, _, _, _, _, _, rfl, rfl, rfl, rfl, rfl, rfl, rfl⟩

theorem linkChild_children (s : Dentries) (dir entry : ℕ) :
    (linkChild s dir entry).field DentryT.children = Function.update (s.field DentryT.children) dir entry := by
  obtain ⟨s₁, s₂, s₃, s₄, s₅, s₆, h₁, h₂, h₃, h₄, h₅, h₆, h⟩ := linkChild_stages s dir entry
  have e₁ : s₁.field DentryT.children = s.field DentryT.children := h₁ ▸ field_set_same _ _ rfl
  have e₂ : s₂.field DentryT.children = s₁.field DentryT.children := h₂ ▸ field_set_same _ _ rfl
  have e₃ : s₃.field DentryT.children = s₂.field DentryT.children := h₃ ▸ field_ite_same _ _ _ rfl
  have e₄ : s₄.field DentryT.children = s₃.field DentryT.children := h₄ ▸ field_set_same _ _ rfl
  have e₅ : s₅.field DentryT.children = s₄.field DentryT.children := h₅ ▸ field_set_same _ _ rfl
  have e₆ : s₆.field DentryT.children = s₅.field DentryT.children := h₆ ▸ field_set_same _ _ rfl
  rw [h, field_set, e₆, e₅, e₄, e₃, e₂, e₁]

theorem linkChild_parent (s : Dentries) (dir entry : ℕ) :
    (linkChild s dir entry).field DentryT.parent = Function.update (s.field DentryT.parent) entry dir := by
  obtain ⟨s₁, s₂, s₃, s₄, s₅, s₆, h₁, h₂, h₃, h₄, h₅, h₆, h⟩ := linkChild_stages s dir entry
  have e₁ : s₁.field DentryT.parent = s.field DentryT.parent := h₁ ▸ field_set_same _ _ rfl
  have e₂ : s₂.field DentryT.parent = Function.update (s₁.field DentryT.parent) entry dir := h₂ ▸ field_set ..
  have e₃ : s₃.field DentryT.parent = s₂.field DentryT.parent := h₃ ▸ field_ite_same _ _ _ rfl
  have e₄ : s₄.field DentryT.parent = s₃.field DentryT.parent := h₄ ▸ field_set_same _ _ rfl
  have e₅ : s₅.field DentryT.parent = s₄.field DentryT.parent := h₅ ▸ field_set_same _ _ rfl
  have e₆ : s₆.field DentryT.parent = s₅.field DentryT.parent := h₆ ▸ field_set_same _ _ rfl
  have e₇ : (linkChild s dir entry).field DentryT.parent = s₆.field DentryT.parent := h ▸ field_set_same _ _ rfl
  rw [e₇, e₆, e₅, e₄, e₃, e₂, e₁]

/-- The first child, after `dir_add_child` took its references. -/
theorem first_eq {s₁ s₂ : Dentries}
    (h₁ : s₁ = s.set dir { s.dentries dir with refCount := (s.dentries dir).refCount + 1 })
    (h₂ : s₂ = s₁.set entry { s₁.dentries entry with parent := dir }) :
    (s₂.dentries dir).children = (s.dentries dir).children := by
  have e₁ : s₁.field DentryT.children = s.field DentryT.children := h₁ ▸ field_set_same _ _ rfl
  have e₂ : s₂.field DentryT.children = s₁.field DentryT.children := h₂ ▸ field_set_same _ _ rfl
  exact congrFun (e₂.trans e₁) dir

theorem linkChild_nextSib (s : Dentries) (dir entry : ℕ) : (linkChild s dir entry).field DentryT.nextSib =
    Function.update (s.field DentryT.nextSib) entry (s.dentries dir).children := by
  obtain ⟨s₁, s₂, s₃, s₄, s₅, s₆, h₁, h₂, h₃, h₄, h₅, h₆, h⟩ := linkChild_stages s dir entry
  have hfirst : s₃.field DentryT.children = s₂.field DentryT.children := h₃ ▸ field_ite_same _ _ _ rfl
  have e₁ : s₁.field DentryT.nextSib = s.field DentryT.nextSib := h₁ ▸ field_set_same _ _ rfl
  have e₂ : s₂.field DentryT.nextSib = s₁.field DentryT.nextSib := h₂ ▸ field_set_same _ _ rfl
  have e₃ : s₃.field DentryT.nextSib = s₂.field DentryT.nextSib := h₃ ▸ field_ite_same _ _ _ rfl
  have e₄ : s₄.field DentryT.nextSib = Function.update (s₃.field DentryT.nextSib) entry (s₃.dentries dir).children :=
    h₄ ▸ field_set ..
  have e₅ : s₅.field DentryT.nextSib = s₄.field DentryT.nextSib := h₅ ▸ field_set_same _ _ rfl
  have e₆ : s₆.field DentryT.nextSib = s₅.field DentryT.nextSib := h₆ ▸ field_set_same _ _ rfl
  have e₇ : (linkChild s dir entry).field DentryT.nextSib = s₆.field DentryT.nextSib := h ▸ field_set_same _ _ rfl
  rw [e₇, e₆, e₅, e₄, e₃, e₂, e₁]
  exact congrArg _ ((congrFun hfirst dir).trans (first_eq h₁ h₂))

theorem linkChild_prevSib (s : Dentries) (dir entry : ℕ) : (linkChild s dir entry).field DentryT.prevSib =
    Function.update (if (s.dentries dir).children ≠ 0 then
      Function.update (s.field DentryT.prevSib) (s.dentries dir).children entry
      else s.field DentryT.prevSib) entry 0 := by
  obtain ⟨s₁, s₂, s₃, s₄, s₅, s₆, h₁, h₂, h₃, h₄, h₅, h₆, h⟩ := linkChild_stages s dir entry
  have e₁ : s₁.field DentryT.prevSib = s.field DentryT.prevSib := h₁ ▸ field_set_same _ _ rfl
  have e₂ : s₂.field DentryT.prevSib = s₁.field DentryT.prevSib := h₂ ▸ field_set_same _ _ rfl
  have e₃ : s₃.field DentryT.prevSib = if (s.dentries dir).children ≠ 0 then
      Function.update (s₂.field DentryT.prevSib) (s.dentries dir).children entry else s₂.field DentryT.prevSib := by
    rw [h₃, first_eq h₁ h₂]
    split_ifs
    · exact field_set ..
    · rfl
  have e₄ : s₄.field DentryT.prevSib = s₃.field DentryT.prevSib := h₄ ▸ field_set_same _ _ rfl
  have e₅ : s₅.field DentryT.prevSib = Function.update (s₄.field DentryT.prevSib) entry 0 := h₅ ▸ field_set ..
  have e₆ : s₆.field DentryT.prevSib = s₅.field DentryT.prevSib := h₆ ▸ field_set_same _ _ rfl
  have e₇ : (linkChild s dir entry).field DentryT.prevSib = s₆.field DentryT.prevSib := h ▸ field_set_same _ _ rfl
  rw [e₇, e₆, e₅, e₄, e₃, e₂, e₁]

theorem linkChild_table (s : Dentries) (dir entry : ℕ) :
    (linkChild s dir entry).field DentryT.table = s.field DentryT.table ∧
      (linkChild s dir entry).tables = s.tables := by
  obtain ⟨s₁, s₂, s₃, s₄, s₅, s₆, h₁, h₂, h₃, h₄, h₅, h₆, h⟩ := linkChild_stages s dir entry
  have e₁ : s₁.field DentryT.table = s.field DentryT.table := h₁ ▸ field_set_same _ _ rfl
  have e₂ : s₂.field DentryT.table = s₁.field DentryT.table := h₂ ▸ field_set_same _ _ rfl
  have e₃ : s₃.field DentryT.table = s₂.field DentryT.table := h₃ ▸ field_ite_same _ _ _ rfl
  have ht₃ : s₃.tables = s₂.tables := by
    rw [h₃]
    split_ifs <;> rfl
  have e₄ : s₄.field DentryT.table = s₃.field DentryT.table := h₄ ▸ field_set_same _ _ rfl
  have e₅ : s₅.field DentryT.table = s₄.field DentryT.table := h₅ ▸ field_set_same _ _ rfl
  have e₆ : s₆.field DentryT.table = s₅.field DentryT.table := h₆ ▸ field_set_same _ _ rfl
  have e₇ : (linkChild s dir entry).field DentryT.table = s₆.field DentryT.table := h ▸ field_set_same _ _ rfl
  refine ⟨by rw [e₇, e₆, e₅, e₄, e₃, e₂, e₁], ?_⟩
  have ht : (linkChild s dir entry).tables = s₃.tables := by
    rw [h, h₆, h₅, h₄]
    rfl
  rw [ht, ht₃, h₂, h₁]
  rfl

/-- **`dir_add_child`** finds the path in the table of the directory, or stores it there and links the entry. -/
theorem dirAddChild_spec (h : dirAddChild s dir entry = .ok s') :
    (∃ e, htGet (s.tables (s.dentries dir).table) (s.str entry) = some (some e) ∧ s' = s) ∨
      htGet (s.tables (s.dentries dir).table) (s.str entry) = some none ∧ ∃ r t,
        htSet s.fresh (s.tables (s.dentries dir).table) (s.str entry) (some entry) = some (r, t) ∧
        s' = linkChild { s with tables := Function.update s.tables (s.dentries dir).table t } dir entry := by
  unfold dirAddChild at h
  dsimp only at h
  by_cases hdir : dir ∉ s.live
  · rw [if_pos hdir] at h
    cases h
  rw [if_neg hdir] at h
  rcases hget : htGet (s.tables (s.dentries dir).table) (s.str entry) with _ | _ | e
  · rw [hget] at h
    cases h
  · rw [hget] at h
    refine .inr ⟨rfl, ?_⟩
    rcases hset : htSet s.fresh (s.tables (s.dentries dir).table) (s.str entry) (some entry) with _ | ⟨r, t⟩
    · rw [hset] at h
      cases h
    · rw [hset] at h
      cases h
      exact ⟨r, t, rfl, rfl⟩
  · rw [hget] at h
    cases h
    exact .inl ⟨e, rfl, rfl⟩

/-! ## The list and the table -/

/-- The child list of the directory is `kids`, its links back and to the directory are right, and the table of the
directory has exactly the paths of these dentries. -/
structure ChildrenAgree (s : Dentries) (dir : ℕ) (kids : List ℕ) : Prop where
  list : Linked (s.field DentryT.nextSib) 0 (s.dentries dir).children kids
  back : ∀ l₁ p l₂, kids = l₁ ++ p :: l₂ → (s.dentries p).prevSib = lastOr 0 l₁
  parent : ∀ p ∈ kids, (s.dentries p).parent = dir
  total : ∀ k, ∃ r, htGet (s.tables (s.dentries dir).table) k = some r
  table : ∀ k d, htGet (s.tables (s.dentries dir).table) k = some (some d) ↔ d ∈ kids ∧ s.str d = k

/-- The children after an entry is added, the last one first. -/
def addKid (s : Dentries) (kids : List ℕ) (entry : ℕ) : List ℕ :=
  if ∃ p ∈ kids, s.str p = s.str entry then kids else entry :: kids

theorem ChildrenAgree.fresh (h : ChildrenAgree s dir kids) (fresh : ℕ → ℕ → HashEntry (List UInt8) ℕ) :
    ChildrenAgree { s with fresh := fresh } dir kids := ⟨h.list, h.back, h.parent, h.total, h.table⟩

/-- **An entry is added**. -/
theorem ChildrenAgree.add (h : ChildrenAgree s dir kids) (hgrow : Growing (s.tables (s.dentries dir).table))
    (hentry : entry ≠ 0) (hclear : (s.tables (s.dentries dir).table).Overloaded → Clear s.fresh)
    (hadd : dirAddChild s dir entry = .ok s') :
    ChildrenAgree s' dir (addKid s kids entry) ∧ Growing (s'.tables (s'.dentries dir).table) := by
  rcases dirAddChild_spec hadd with ⟨e, hget, rfl⟩ | ⟨hget, r, t, hset, rfl⟩
  · obtain ⟨hmem, hstr⟩ := (h.table _ e).mp hget
    rw [addKid, if_pos ⟨e, hmem, hstr⟩]
    exact ⟨h, hgrow⟩
  have hnew : ¬ ∃ p ∈ kids, s.str p = s.str entry := by
    rintro ⟨p, hp, hstr⟩
    rw [(h.table _ p).mpr ⟨hp, hstr⟩] at hget
    cases hget
  have hmem : entry ∉ kids := fun he => hnew ⟨entry, he, rfl⟩
  rw [addKid, if_neg hnew]
  obtain ⟨hgrow', hself, hother⟩ := hgrow.set hclear hset
  let s₁ : Dentries := { s with tables := Function.update s.tables (s.dentries dir).table t }
  have hchildren : ((linkChild s₁ dir entry).dentries dir).children = entry :=
    (congrFun (linkChild_children s₁ dir entry) dir).trans (Function.update_self ..)
  have htables := linkChild_table s₁ dir entry
  have htable : (linkChild s₁ dir entry).tables ((linkChild s₁ dir entry).dentries dir).table = t := by
    rw [htables.2, show ((linkChild s₁ dir entry).dentries dir).table = (s.dentries dir).table from
      congrFun htables.1 dir]
    exact Function.update_self ..
  have hnext : (linkChild s₁ dir entry).field DentryT.nextSib = _ := linkChild_nextSib s₁ dir entry
  have hprev : (linkChild s₁ dir entry).field DentryT.prevSib = _ := linkChild_prevSib s₁ dir entry
  have hstr : ∀ d, (linkChild s₁ dir entry).str d = s.str d := (same_linkChild s₁ dir entry).str
  refine ⟨⟨?_, fun l₁ p l₂ hsplit => ?_, fun p hp => ?_, fun k => ?_, fun k d => ?_⟩, htable.symm ▸ hgrow'⟩
  · rw [hchildren, linked_cons, hnext, Function.update_self]
    refine ⟨rfl, hentry, h.list.congr fun x hx => Function.update_of_ne ?_ ..⟩
    exact fun e => hmem (e ▸ hx)
  · change (linkChild s₁ dir entry).field DentryT.prevSib p = _
    rw [hprev]
    cases l₁ with
    | nil =>
      obtain rfl : entry = p := (List.cons.inj hsplit).1
      exact Function.update_self ..
    | cons x l₁ =>
      obtain ⟨rfl, hkids⟩ := List.cons.inj hsplit
      have hp : p ∈ kids := hkids ▸ by simp
      have hold := h.back l₁ p l₂ hkids
      have hhead := linked_head h.list
      rw [Function.update_of_ne fun e : p = entry => hmem (e ▸ hp)]
      have hpos : (s₁.dentries dir).children ≠ 0 := by
        intro h₀
        have hnull : kids.head?.getD 0 = 0 := hhead.symm.trans h₀
        cases l₁ with
        | nil =>
          rw [hkids] at hnull
          exact h.list.ne_null hp hnull
        | cons y l₁ =>
          have hy : y ∈ kids := hkids ▸ List.mem_cons_self
          rw [hkids] at hnull
          exact h.list.ne_null hy hnull
      rw [if_pos hpos]
      cases l₁ with
      | nil =>
        have hfirst : (s₁.dentries dir).children = p := by
          rw [hkids] at hhead
          exact hhead
        rw [hfirst, Function.update_self]
        rfl
      | cons y l₁ =>
        have hnodup := h.list.nodup
        have hfirst : (s₁.dentries dir).children = y := by
          rw [hkids] at hhead
          exact hhead
        have hne : p ≠ y := by
          rintro rfl
          rw [hkids] at hnodup
          exact (List.nodup_cons.mp hnodup).1 (by simp)
        rw [hfirst, Function.update_of_ne hne]
        exact hold.trans (by simp [lastOr])
  · change (linkChild s₁ dir entry).field DentryT.parent p = dir
    rw [linkChild_parent]
    by_cases hpe : p = entry
    · rw [hpe, Function.update_self]
    · rw [Function.update_of_ne hpe]
      exact h.parent p ((List.mem_cons.mp hp).resolve_left hpe)
  · rw [htable]
    exact hgrow'.get k
  · rw [htable, hstr, List.mem_cons]
    by_cases hk : k = s.str entry
    · subst hk
      rw [hself, Option.some.injEq, Option.some.injEq]
      constructor
      · rintro rfl
        exact ⟨.inl rfl, rfl⟩
      · rintro ⟨rfl | hd, hsd⟩
        · rfl
        · exact absurd ⟨d, hd, hsd⟩ hnew
    · rw [hother k hk, h.table]
      constructor
      · rintro ⟨hd, hsd⟩
        exact ⟨.inr hd, hsd⟩
      · rintro ⟨rfl | hd, hsd⟩
        · exact absurd hsd.symm hk
        · exact ⟨hd, hsd⟩

/-! ## A removal -/

/-- The tables of directories, which dentry has which, and the paths are the same. -/
structure TablesKept (s s' : Dentries) : Prop where
  tables : s'.tables = s.tables
  table : s'.field DentryT.table = s.field DentryT.table
  valid : s'.field DentryT.valid = s.field DentryT.valid
  str : ∀ d, s'.str d = s.str d

theorem TablesKept.trans {s'' : Dentries} (h : TablesKept s s') (h' : TablesKept s' s'') : TablesKept s s'' :=
  ⟨h'.tables.trans h.tables, h'.table.trans h.table, h'.valid.trans h.valid, fun d => (h'.str d).trans (h.str d)⟩

theorem TablesKept.set {x : DentryT} (h : TablesKept s s') (ht : x.table = (s'.dentries d).table)
    (hv : x.valid = (s'.dentries d).valid) (hi : x.inode = (s'.dentries d).inode)
    (hp : x.path = (s'.dentries d).path) : TablesKept s (s'.set d x) :=
  h.trans ⟨rfl, field_set_same _ _ ht, field_set_same _ _ hv, (same_set hi hp hv).str⟩

theorem TablesKept.refl (s : Dentries) : TablesKept s s := ⟨rfl, rfl, rfl, fun _ => rfl⟩

theorem tablesKept_unlink (s : Dentries) (dir entry : ℕ) : TablesKept s (unlinkChild s dir entry) := by
  unfold unlinkChild
  dsimp only
  refine TablesKept.set ?_ rfl rfl rfl rfl
  have hfirst : TablesKept s (if (s.dentries entry).prevSib ≠ 0 then s.set (s.dentries entry).prevSib
      { s.dentries (s.dentries entry).prevSib with nextSib := (s.dentries entry).nextSib }
      else s.set dir { s.dentries dir with children := (s.dentries entry).nextSib }) := by
    split_ifs
    · exact (TablesKept.refl s).set rfl rfl rfl rfl
    · exact (TablesKept.refl s).set rfl rfl rfl rfl
  generalize (if (s.dentries entry).prevSib ≠ 0 then _ else _) = s₁ at hfirst ⊢
  have hmid : TablesKept s (s₁.set entry { s₁.dentries entry with prevSib := 0 }) := hfirst.set rfl rfl rfl rfl
  generalize s₁.set entry { s₁.dentries entry with prevSib := 0 } = s₂ at hmid ⊢
  split_ifs
  · exact hmid.set rfl rfl rfl rfl
  · exact hmid

theorem tablesKept_release (s : Dentries) (d : ℕ) : TablesKept s (dirRelease s d) := by
  have href : TablesKept s (s.addRef d (-1)) := (TablesKept.refl s).set rfl rfl rfl rfl
  unfold dirRelease
  dsimp only
  split_ifs
  · exact ⟨href.tables, href.table, href.valid, href.str⟩
  · exact href

theorem tablesKept_free (hvalid : (s.dentries entry).valid = false) (h : freeChild s entry = .ok s') :
    TablesKept s s' := by
  unfold freeChild at h
  rcases hrem : htRemove s.table (s.str entry) with _ | ⟨ret, table⟩
  · rw [hrem] at h
    cases h
  · rw [hrem] at h
    dsimp only at h
    by_cases hret : ret ≠ 0
    · rw [if_pos hret] at h
      cases h
    rw [if_neg hret, if_neg (by rw [hvalid]; decide)] at h
    obtain ⟨s₁, h₁, h⟩ := eq_ok_of_bind h
    cases h₁
    obtain ⟨s₂, h₂, h⟩ := eq_ok_of_bind h
    cases h
    obtain ⟨liveTables, rfl⟩ := tableFree_cases h₂
    exact ⟨rfl, rfl, rfl, fun _ => rfl⟩

/-- **`dir_remove_child`** leaves the tables of directories as they are, unless the entry is valid. -/
theorem tablesKept_remove (hvalid : (s.dentries entry).valid = false) (h : dirRemoveChild s dir entry = .ok s') :
    TablesKept s s' := by
  unfold dirRemoveChild at h
  by_cases hlive : entry ∉ s.live
  · rw [if_pos hlive] at h
    cases h
  rw [if_neg hlive] at h
  have hlinks := tablesKept_unlink s dir entry
  dsimp only at h
  generalize unlinkChild s dir entry = s₁ at hlinks h
  have hrefs := hlinks.trans (tablesKept_release s₁ (s₁.dentries entry).parent)
  generalize dirRelease s₁ (s₁.dentries entry).parent = s₂ at hrefs h
  have hparent : TablesKept s (s₂.set entry { s₂.dentries entry with parent := 0 }) := hrefs.set rfl rfl rfl rfl
  have hkept := hparent.trans (tablesKept_release _ entry)
  exact hkept.trans (tablesKept_free ((congrFun hkept.valid entry).trans hvalid) h)

/-- **A removed child** is in the table of the directory. -/
theorem ChildrenAgree.remove (h : ChildrenAgree s dir kids) (hentry : entry ∈ kids)
    (hvalid : (s.dentries entry).valid = false) (hrem : dirRemoveChild s dir entry = .ok s') :
    ¬ ChildrenAgree s' dir (kids.erase entry) := by
  intro h'
  have hkept := tablesKept_remove hvalid hrem
  have hget := (h.table (s.str entry) entry).mpr ⟨hentry, rfl⟩
  have htable : (s'.dentries dir).table = (s.dentries dir).table := congrFun hkept.table dir
  rw [← hkept.tables, ← htable] at hget
  exact h.list.nodup.not_mem_erase ((h'.table _ entry).mp hget).1

/-! ## Runs -/

inductive ChildOp
  /-- `fresh` is what `kmalloc` returns, should the table be resized. -/
  | add (entry : ℕ) (fresh : ℕ → ℕ → HashEntry (List UInt8) ℕ)
  | remove (entry : ℕ)

/-- The cache, and the children that were added and not removed. -/
structure ChildCfg where
  cache : Dentries
  kids : List ℕ

def childStep (dir : ℕ) (c : ChildCfg) : ChildOp → Except Stop ChildCfg
  | .add entry fresh => do
    let s ← dirAddChild { c.cache with fresh := fresh } dir entry
    return ⟨s, addKid c.cache c.kids entry⟩
  | .remove entry => do
    let s ← dirRemoveChild c.cache dir entry
    return ⟨s, c.kids.erase entry⟩

/-- A dentry in use is added, and a child is removed. -/
def ChildOp.Legal (c : ChildCfg) : ChildOp → Prop
  | .add entry _ => entry ∈ c.cache.live
  | .remove entry => entry ∈ c.kids

/-- A call for the directory that returns. -/
def ChildMove (dir : ℕ) (c : ChildCfg) (op : ChildOp) (c' : ChildCfg) : Prop :=
  op.Legal c ∧ childStep dir c op = .ok c'

/-- An entry is added, and the table of the directory is resized into a cleared array only. -/
def ChildOp.Adds (dir : ℕ) (c : ChildCfg) : ChildOp → Prop
  | .add _ fresh => (c.cache.tables (c.cache.dentries dir).table).Overloaded → Clear fresh
  | .remove _ => False

/-- A directory that was just given its table by `ext2_parse_dir`. -/
structure Bare (s : Dentries) (dir : ℕ) : Prop where
  nonnull : 0 ∉ s.live
  valid : ∀ d ∈ s.live, (s.dentries d).valid = false
  children : (s.dentries dir).children = 0
  table : htCreate 20 75 true = some (s.tables (s.dentries dir).table)

/-- What holds as long as nothing is removed. -/
structure Tidy (dir : ℕ) (c : ChildCfg) : Prop where
  nonnull : 0 ∉ c.cache.live
  valid : ∀ d ∈ c.cache.live, (c.cache.dentries d).valid = false
  kids : ∀ d ∈ c.kids, d ∈ c.cache.live

theorem Bare.tidy (h : Bare s dir) : Tidy dir ⟨s, []⟩ := ⟨h.nonnull, h.valid, fun _ hd => absurd hd List.not_mem_nil⟩

theorem Bare.growing (h : Bare s dir) : Growing (s.tables (s.dentries dir).table) := by
  have htable := h.table
  have hcap : htFindPrime (u32 (20 * 100) / 75) = some ⟨29, by decide⟩ := by decide
  refine ⟨htCreate_young htable, htCreate_fits htable (by decide) (by decide), ?_, ?_⟩
  · rw [htCreate, if_neg (by decide), hcap] at htable
    rw [← Option.some.inj htable]
  · rw [htCreate, if_neg (by decide), hcap] at htable
    rw [← Option.some.inj htable]
    decide

theorem Bare.agree (h : Bare s dir) : ChildrenAgree s dir [] := by
  have hgrow := h.growing
  have htable := h.table
  have habs : ∀ k, htGet (s.tables (s.dentries dir).table) k = some none := fun k => by
    refine htGet_absent hgrow.hasEmpty fun i hi => ?_
    have hcap : htFindPrime (u32 (20 * 100) / 75) = some ⟨29, by decide⟩ := by decide
    rw [htCreate, if_neg (by decide), hcap] at htable
    rw [← Option.some.inj htable]
    exact fun hik => by cases hik
  refine ⟨h.children, fun l₁ p l₂ hsplit => absurd hsplit (by simp), fun _ hp => absurd hp List.not_mem_nil,
    fun k => ⟨none, habs k⟩, fun k d => ?_⟩
  rw [habs]
  exact iff_of_false (fun e => by cases e) fun hd => List.not_mem_nil hd.1

theorem Tidy.add {c c' : ChildCfg} {fresh : ℕ → ℕ → HashEntry (List UInt8) ℕ} (h : Tidy dir c)
    (hs : ChildMove dir c (.add entry fresh) c') : Tidy dir c' := by
  obtain ⟨hlive, hs⟩ := hs
  obtain ⟨s', hadd, hs⟩ := eq_ok_of_bind hs
  cases hs
  have hsame := same_addChild hadd
  refine ⟨hsame.live ▸ h.nonnull, fun d hd => (hsame.valid d).trans (h.valid d (hsame.live ▸ hd)), fun d hd => ?_⟩
  rw [hsame.live]
  change d ∈ addKid c.cache c.kids entry at hd
  unfold addKid at hd
  split_ifs at hd
  · exact h.kids d hd
  · rcases List.mem_cons.mp hd with rfl | hd
    · exact hlive
    · exact h.kids d hd

/-- **One addition** keeps the children. -/
theorem childMove_add {c c' : ChildCfg} {op : ChildOp} (h : ChildrenAgree c.cache dir c.kids)
    (hgrow : Growing (c.cache.tables (c.cache.dentries dir).table)) (htidy : Tidy dir c) (hadds : op.Adds dir c)
    (hs : ChildMove dir c op c') :
    ChildrenAgree c'.cache dir c'.kids ∧ Growing (c'.cache.tables (c'.cache.dentries dir).table) ∧ Tidy dir c' := by
  cases op with
  | remove entry => exact hadds.elim
  | add entry fresh =>
    have htidy' := htidy.add hs
    obtain ⟨hlive, hs⟩ := hs
    obtain ⟨s', hadd, hs⟩ := eq_ok_of_bind hs
    cases hs
    have hentry : entry ≠ 0 := fun h₀ => htidy.nonnull (h₀ ▸ hlive)
    obtain ⟨hagree, hgrow'⟩ := (h.fresh fresh).add hgrow hentry hadds hadd
    exact ⟨hagree, hgrow', htidy'⟩

/-- **One removal** does not. -/
theorem childMove_remove {c c' : ChildCfg} (h : ChildrenAgree c.cache dir c.kids) (htidy : Tidy dir c)
    (hs : ChildMove dir c (.remove entry) c') : ¬ ChildrenAgree c'.cache dir c'.kids := by
  obtain ⟨hkid, hs⟩ := hs
  obtain ⟨s', hrem, hs⟩ := eq_ok_of_bind hs
  cases hs
  exact h.remove hkid (htidy.valid entry (htidy.kids entry hkid)) hrem

theorem run_adds {c c' : ChildCfg} {ops : List ChildOp}
    (h : Run (fun c op c' => ChildMove dir c op c' ∧ op.Adds dir c) c ops c')
    (hagree : ChildrenAgree c.cache dir c.kids) (hgrow : Growing (c.cache.tables (c.cache.dentries dir).table))
    (htidy : Tidy dir c) :
    Run (fun c op c' => ChildMove dir c op c' ∧ ChildrenAgree c'.cache dir c'.kids) c ops c' := by
  induction h with
  | nil c => exact .nil c
  | cons hs _ ih =>
    obtain ⟨hagree', hgrow', htidy'⟩ := childMove_add hagree hgrow htidy hs.2 hs.1
    exact .cons ⟨hs.1, hagree'⟩ (ih hagree' hgrow' htidy')

theorem run_agrees {c c' : ChildCfg} {ops : List ChildOp}
    (h : Run (fun c op c' => ChildMove dir c op c' ∧ ChildrenAgree c'.cache dir c'.kids) c ops c')
    (hagree : ChildrenAgree c.cache dir c.kids) (htidy : Tidy dir c) : ∀ entry, ChildOp.remove entry ∉ ops := by
  induction h with
  | nil c => exact fun entry => List.not_mem_nil
  | @cons c₁ c₂ c₃ op ops hs _ ih =>
    cases op with
    | remove entry => exact absurd hs.2 (childMove_remove hagree htidy hs.1)
    | add entry fresh =>
      intro e he
      rcases List.mem_cons.mp he with he | he
      · cases he
      · exact ih hs.2 (htidy.add hs.1) e he

/-- **The child list and the table of a directory**: they are right after every call of a run of additions, if the table
is resized into cleared arrays only; and they are not right after every call if there is a removal in the run. -/
theorem children_agree (h₀ : Bare s dir) {ops : List ChildOp} {c : ChildCfg} :
    (Run (fun c op c' => ChildMove dir c op c' ∧ op.Adds dir c) ⟨s, []⟩ ops c →
      Run (fun c op c' => ChildMove dir c op c' ∧ ChildrenAgree c'.cache dir c'.kids) ⟨s, []⟩ ops c) ∧
    (Run (fun c op c' => ChildMove dir c op c' ∧ ChildrenAgree c'.cache dir c'.kids) ⟨s, []⟩ ops c →
      ∀ entry, ChildOp.remove entry ∉ ops) :=
  ⟨fun h => run_adds h h₀.agree h₀.growing h₀.tidy, fun h => run_agrees h h₀.agree h₀.tidy⟩

/-! ## A directory with three entries -/

/-- The dentries of the root and of `"/a"`, `"/b"` and `"/c"`, which are no children yet. -/
def threeEntries : Except Stop Dentries :=
  match htCreate 50 75 false with
  | none => .error .diverges
  | some table =>
    ([([47], 2), ([47, 97], 12), ([47, 98], 13), ([47, 99], 14)] : List (List UInt8 × ℕ)).foldlM (fun s e => do
      let (path, s) ← newPath s e.1
      let (_, s) ← dirSet s 0 path e.2 0
      return s) { demoCaches with table := table }

/-- A cleared array. -/
def clearedArray : ℕ → ℕ → HashEntry (List UInt8) ℕ := fun _ _ => ⟨[], none, .empty⟩

theorem dirTable_created (h : dirTable s dir = .ok s') (h₀ : (s.dentries dir).table = 0) :
    htCreate 20 75 true = some (s'.tables (s'.dentries dir).table) := by
  unfold dirTable at h
  rw [if_neg (not_not.mpr h₀)] at h
  cases ht : (htCreate 20 75 true : Option (HashTable (List UInt8) ℕ)) with
  | none =>
    rw [ht] at h
    cases h
  | some t =>
    rw [ht] at h
    dsimp only at h
    split_ifs at h
    cases h
    have htable : ((s.pop.set dir { s.dentries dir with table := s.heap 0 }).dentries dir).table = s.heap 0 := by
      rw [set_self]
    change some t = some (Function.update s.tables (s.heap 0) t
      ((s.pop.set dir { s.dentries dir with table := s.heap 0 }).dentries dir).table)
    rw [htable, Function.update_self]

instance (c : ChildCfg) : (op : ChildOp) → Decidable (op.Legal c)
  | .add _ _ => inferInstanceAs (Decidable (_ ∈ _))
  | .remove _ => inferInstanceAs (Decidable (_ ∈ _))

theorem exists_children (ops : List ChildOp) (p : ChildCfg → Bool)
    (h : (threeEntries.toOption.any fun s => decide (0 ∉ s.live ∧ (∀ d ∈ s.live, (s.dentries d).valid = false) ∧
        (s.dentries 102).children = 0 ∧ (s.dentries 102).table = 0) &&
      (dirTable s 102).toOption.any fun s =>
        (ops.foldlM (tryStep ChildOp.Legal (childStep 102)) ⟨s, []⟩).any p) = true) :
    ∃ s c, Bare s 102 ∧ Run (ChildMove 102) ⟨s, []⟩ ops c ∧ p c = true := by
  obtain ⟨s₀, -, hp⟩ := (Option.any_eq_true ..).mp h
  rw [Bool.and_eq_true] at hp
  obtain ⟨hnull, hvalid, hchildren, h₀⟩ := of_decide_eq_true hp.1
  obtain ⟨s, hs, hp⟩ := (Option.any_eq_true ..).mp hp.2
  have hs := eq_ok_of_toOption hs
  have hsame := same_table hs
  have hlinks : (s.dentries 102).children = (s₀.dentries 102).children :=
    congrArg Links.children (congrFun (links_table hs) 102)
  obtain ⟨c, hrun, hp⟩ := exists_run ChildOp.Legal (childStep 102) _ ops p hp
  refine ⟨s, c, ⟨hsame.live ▸ hnull, fun d hd => ?_, hlinks.trans hchildren, dirTable_created hs h₀⟩, hrun, hp⟩
  exact (hsame.valid d).trans (hvalid d (hsame.live ▸ hd))

theorem run_cleared {c c' : ChildCfg} {ops : List ChildOp} (h : Run (ChildMove dir) c ops c')
    (hops : ∀ op ∈ ops, ∃ entry, op = .add entry clearedArray) :
    Run (fun c op c' => ChildMove dir c op c' ∧ op.Adds dir c) c ops c' := by
  induction h with
  | nil c => exact .nil c
  | @cons c₁ c₂ c₃ op ops hs _ ih =>
    obtain ⟨entry, rfl⟩ := hops op List.mem_cons_self
    exact .cons ⟨hs, fun _ _ _ _ => rfl⟩ (ih fun op hop => hops op (List.mem_cons_of_mem _ hop))

/-- `"a"` and `"b"` are added. -/
theorem children_agree_two : ∃ s c, Bare s 102 ∧ c.kids = [108, 105] ∧
    Run (fun c op c' => ChildMove 102 c op c' ∧ ChildrenAgree c'.cache 102 c'.kids) ⟨s, []⟩
      [.add 105 clearedArray, .add 108 clearedArray] c := by
  obtain ⟨s, c, hbare, hrun, hp⟩ := exists_children [.add 105 clearedArray, .add 108 clearedArray]
    (fun c => c.kids = [108, 105]) (by decide +kernel)
  refine ⟨s, c, hbare, of_decide_eq_true hp, (children_agree hbare).1 (run_cleared hrun fun op hop => ?_)⟩
  rcases List.mem_cons.mp hop with rfl | hop
  · exact ⟨105, rfl⟩
  · exact ⟨108, List.mem_singleton.mp hop⟩

/-- **`"b"` is removed, and then `"a"`**: the link of `"a"` back is cleared by the first removal, so that the second one
takes `"a"` for the first child, and `"c"` is lost; the table of the directory has `"b"` still, which is freed. -/
theorem removed_child_cuts_list : ∃ s c, Bare s 102 ∧ Run (ChildMove 102) ⟨s, []⟩
      [.add 105 clearedArray, .add 108 clearedArray, .add 111 clearedArray, .remove 108, .remove 105] c ∧
    c.kids = [111] ∧ 111 ∈ c.cache.live ∧ (c.cache.dentries 102).children = 0 ∧ 108 ∉ c.cache.live ∧
    htGet (c.cache.tables (c.cache.dentries 102).table) [47, 98] = some (some 108) ∧
    ¬ ChildrenAgree c.cache 102 c.kids := by
  obtain ⟨s, c, hbare, hrun, hp⟩ := exists_children
    [.add 105 clearedArray, .add 108 clearedArray, .add 111 clearedArray, .remove 108, .remove 105]
    (fun c => c.kids = [111] ∧ 111 ∈ c.cache.live ∧ (c.cache.dentries 102).children = 0 ∧ 108 ∉ c.cache.live ∧
      htGet (c.cache.tables (c.cache.dentries 102).table) [47, 98] = some (some 108)) (by decide +kernel)
  obtain ⟨hkids, hlive, hchildren, hfreed, hget⟩ := of_decide_eq_true hp
  refine ⟨s, c, hbare, hrun, hkids, hlive, hchildren, hfreed, hget, fun hagree => ?_⟩
  have hmem := ((hagree.table _ 108).mp hget).1
  rw [hkids] at hmem
  exact absurd hmem (by decide)

end BulbOS.Dentry
