import Mathlib.Data.List.Nodup
import Mathlib.Logic.Function.Basic

/-!
# Null-terminated linked lists

The links of a set of cells are a function `next`; `null` ends a list. `Linked next null a l` says
that following `next` from `a` visits exactly the cells of `l` and then meets `null`.

* `Linked.unique`, `Linked.nodup`: a walk is determined by its start, so it meets no cell twice;
* `Linked.congr`, `Linked.update`: links outside the walk do not matter; `Linked.mem_of_eq_off`, `Linked.snoc`;
* `linked_append`: a walk cut in two, with the `Segment` that leads to the second part; `linked_chain_iff`;
* `Lists`: several lists with no cell in common; `Lists.replace` when one of them changes.
-/

namespace KLib

variable {α : Type} {next next' : α → α} {null : α}

/-- Following `next` from `a` visits exactly the cells of `l`, then meets `null`. -/
def Linked (next : α → α) (null : α) : α → List α → Prop
  | a, [] => a = null
  | a, x :: l => a = x ∧ x ≠ null ∧ Linked next null (next x) l

/-- Following `next` from `a` visits exactly the cells of `l` and is then at `b`. -/
def Segment (next : α → α) (null : α) : α → List α → α → Prop
  | a, [], b => a = b
  | a, x :: l, b => a = x ∧ x ≠ null ∧ Segment next null (next x) l b

@[simp] theorem linked_nil {a : α} : Linked next null a [] ↔ a = null := Iff.rfl

@[simp] theorem linked_cons {a x : α} {l : List α} :
    Linked next null a (x :: l) ↔ a = x ∧ x ≠ null ∧ Linked next null (next x) l := Iff.rfl

@[simp] theorem segment_nil {a b : α} : Segment next null a [] b ↔ a = b := Iff.rfl

@[simp] theorem segment_cons {a b x : α} {l : List α} :
    Segment next null a (x :: l) b ↔ a = x ∧ x ≠ null ∧ Segment next null (next x) l b := Iff.rfl

theorem linked_append {a : α} {l l' : List α} : Linked next null a (l ++ l') ↔
    ∃ b, Segment next null a l b ∧ Linked next null b l' := by
  induction l generalizing a with
  | nil => simp
  | cons x l ih => simp only [List.cons_append, linked_cons, segment_cons, ih]; tauto

theorem segment_append {a c : α} {l l' : List α} : Segment next null a (l ++ l') c ↔
    ∃ b, Segment next null a l b ∧ Segment next null b l' c := by
  induction l generalizing a with
  | nil => simp
  | cons x l ih => simp only [List.cons_append, segment_cons, ih]; tauto

theorem Linked.ne_null {a x : α} {l : List α} (h : Linked next null a l) (hx : x ∈ l) :
    x ≠ null := by
  induction l generalizing a with
  | nil => cases hx
  | cons y l ih =>
    rcases List.mem_cons.mp hx with rfl | hx
    · exact h.2.1
    · exact ih h.2.2 hx

theorem Linked.eq_nil {l : List α} (h : Linked next null null l) : l = [] := by
  cases l with
  | nil => rfl
  | cons x l => exact absurd h.1.symm h.2.1

theorem Linked.exists_cons {a : α} {l : List α} (h : Linked next null a l) (ha : a ≠ null) :
    ∃ l', l = a :: l' ∧ Linked next null (next a) l' := by
  cases l with
  | nil => exact absurd h ha
  | cons x l => obtain ⟨rfl, _, h⟩ := h; exact ⟨l, rfl, h⟩

theorem Linked.mem_of_eq_off {a x : α} {l l' : List α} (h : Linked next null a l) (h' : Linked next' null a l')
    (hx : x ∈ l) (hne : ∀ y, y ≠ x → next' y = next y) : x ∈ l' := by
  induction l generalizing a l' with
  | nil => cases hx
  | cons y l ih =>
    obtain ⟨rfl, hy, h⟩ := h
    obtain ⟨r, rfl, hr⟩ := h'.exists_cons hy
    by_cases hxy : a = x
    · exact hxy ▸ List.mem_cons_self
    · rw [hne a hxy] at hr
      exact List.mem_cons_of_mem a (ih h hr ((List.mem_cons.mp hx).resolve_left (Ne.symm hxy)))

theorem Linked.unique {a : α} {l l' : List α} (h : Linked next null a l)
    (h' : Linked next null a l') : l = l' := by
  induction l generalizing a l' with
  | nil => subst h; exact h'.eq_nil.symm
  | cons x l ih =>
    obtain ⟨rfl, hx, h⟩ := h
    obtain ⟨r, rfl, hr⟩ := h'.exists_cons hx
    rw [ih h hr]

theorem Linked.nodup {a : α} {l : List α} (h : Linked next null a l) : l.Nodup := by
  induction l generalizing a with
  | nil => exact List.nodup_nil
  | cons x l ih =>
    obtain ⟨rfl, hx, h⟩ := h
    refine List.nodup_cons.mpr ⟨fun hmem => ?_, ih h⟩
    -- a second visit to `a` would start the whole walk again, so the list would contain itself
    obtain ⟨l₁, l₂, rfl⟩ := List.append_of_mem hmem
    obtain ⟨b, _, h₂⟩ := linked_append.mp h
    obtain ⟨rfl, -, h₂⟩ := h₂
    have := congrArg List.length (h₂.unique h)
    simp at this
    omega

theorem Linked.congr {a : α} {l : List α} (h : Linked next null a l)
    (hn : ∀ x ∈ l, next' x = next x) : Linked next' null a l := by
  induction l generalizing a with
  | nil => exact h
  | cons x l ih =>
    refine ⟨h.1, h.2.1, ?_⟩
    rw [hn x List.mem_cons_self]
    exact ih h.2.2 fun y hy => hn y (List.mem_cons_of_mem _ hy)

theorem Segment.congr {a b : α} {l : List α} (h : Segment next null a l b)
    (hn : ∀ x ∈ l, next' x = next x) : Segment next' null a l b := by
  induction l generalizing a with
  | nil => exact h
  | cons x l ih =>
    refine ⟨h.1, h.2.1, ?_⟩
    rw [hn x List.mem_cons_self]
    exact ih h.2.2 fun y hy => hn y (List.mem_cons_of_mem _ hy)

theorem Linked.update [DecidableEq α] {a x y : α} {l : List α} (h : Linked next null a l)
    (hx : x ∉ l) : Linked (Function.update next x y) null a l :=
  h.congr fun z hz => Function.update_of_ne (fun e => hx (by rwa [← e])) _ _

theorem Segment.update [DecidableEq α] {a b x y : α} {l : List α} (h : Segment next null a l b)
    (hx : x ∉ l) : Segment (Function.update next x y) null a l b :=
  h.congr fun z hz => Function.update_of_ne (fun e => hx (by rwa [← e])) _ _

/-- A cell is appended: the last link is set to it, and its own link ends the list. -/
theorem Linked.snoc [DecidableEq α] {a x e : α} {l : List α} (h : Linked next null a (l ++ [e]))
    (hx : x ∉ l ++ [e]) (hnull : x ≠ null) :
    Linked (Function.update (Function.update next x null) e x) null a (l ++ [e] ++ [x]) := by
  obtain ⟨b, hseg, rfl, he, _⟩ := linked_append.mp h
  have hel : b ∉ l := fun hb => (List.disjoint_of_nodup_append h.nodup) hb List.mem_cons_self
  have hxb : x ≠ b := fun e => hx (e ▸ List.mem_append_right _ List.mem_cons_self)
  rw [List.append_assoc]
  refine linked_append.mpr ⟨b, (hseg.update fun hl => hx (List.mem_append_left _ hl)).update hel, rfl,
    he, ?_⟩
  rw [Function.update_self]
  refine ⟨rfl, hnull, ?_⟩
  rw [Function.update_of_ne hxb, Function.update_self]
  rfl

/-- A chain of `n + 1` cells is the list exactly when it ends after them. -/
theorem linked_chain_iff {f : ℕ → α} {n : ℕ} {l : List α} (hpos : ∀ k < n + 1, f k ≠ null)
    (hnext : ∀ k < n, next (f k) = f (k + 1)) (hlen : l.length = n + 1) :
    Linked next null (f 0) l ↔ l = (List.range (n + 1)).map f ∧ next (f n) = null := by
  induction n generalizing f l with
  | zero =>
    obtain ⟨x, rfl⟩ := List.length_eq_one_iff.mp hlen
    have h0 := hpos 0 Nat.one_pos
    constructor
    · rintro ⟨rfl, -, hnil⟩
      exact ⟨rfl, hnil⟩
    · rintro ⟨he, hnil⟩
      obtain rfl : x = f 0 := List.singleton_injective he
      exact ⟨rfl, h0, hnil⟩
  | succ n ih =>
    obtain ⟨x, l, rfl⟩ := List.exists_cons_of_length_eq_add_one hlen
    have hrest := ih (f := fun k => f (k + 1)) (l := l) (fun k hk => hpos (k + 1) (by omega))
      (fun k hk => hnext (k + 1) (by omega)) (Nat.succ.inj hlen)
    have h01 := hnext 0 (Nat.succ_pos n)
    rw [List.range_succ_eq_map, List.map_cons, List.map_map, List.cons.injEq, and_assoc]
    constructor
    · rintro ⟨rfl, -, hl⟩
      rw [h01] at hl
      exact ⟨rfl, hrest.mp hl⟩
    · rintro ⟨rfl, hl⟩
      refine ⟨rfl, hpos 0 (Nat.succ_pos _), ?_⟩
      rw [h01]
      exact hrest.mpr hl

/-! ## Several lists -/

variable {ι : Type} {head : ι → α} {list : ι → List α}

/-- Lists with different heads that share the links and have no cell in common. -/
structure Lists (next : α → α) (null : α) (head : ι → α) (list : ι → List α) : Prop where
  linked : ∀ i, Linked next null (head i) (list i)
  apart : ∀ i j x, x ∈ list i → x ∈ list j → i = j

theorem Lists.congr (h : Lists next null head list) (hn : ∀ i, ∀ x ∈ list i, next' x = next x) :
    Lists next' null head list :=
  ⟨fun i => (h.linked i).congr (hn i), h.apart⟩

theorem Lists.update [DecidableEq α] (h : Lists next null head list) {x y : α} (hx : ∀ i, x ∉ list i) :
    Lists (Function.update next x y) null head list :=
  ⟨fun i => (h.linked i).update (hx i), h.apart⟩

/-- **One list is replaced** by one that has only cells of its own and cells that were on no list. -/
theorem Lists.replace [DecidableEq ι] (h : Lists next null head list) {i : ι} {a : α} {l : List α}
    (hl : Linked next' null a l) (hn : ∀ j, j ≠ i → ∀ x ∈ list j, next' x = next x)
    (hnew : ∀ x ∈ l, x ∈ list i ∨ ∀ j, x ∉ list j) :
    Lists next' null (Function.update head i a) (Function.update list i l) := by
  refine ⟨fun j => ?_, fun j k x hj hk => ?_⟩
  · by_cases hj : j = i
    · subst hj
      rwa [Function.update_self, Function.update_self]
    · rw [Function.update_of_ne hj, Function.update_of_ne hj]
      exact (h.linked j).congr (hn j hj)
  · -- a cell of the new list is on no other list
    have hother : ∀ j, j ≠ i → x ∈ list j → x ∉ l := fun j hj hx hxl => by
      rcases hnew x hxl with hxi | hnone
      · exact hj (h.apart j i x hx hxi)
      · exact hnone j hx
    by_cases hji : j = i
    · by_cases hki : k = i
      · exact hji.trans hki.symm
      · rw [hji, Function.update_self] at hj
        rw [Function.update_of_ne hki] at hk
        exact absurd hj (hother k hki hk)
    · rw [Function.update_of_ne hji] at hj
      by_cases hki : k = i
      · rw [hki, Function.update_self] at hk
        exact absurd hk (hother j hji hj)
      · rw [Function.update_of_ne hki] at hk
        exact h.apart j k x hj hk

end KLib
