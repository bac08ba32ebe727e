import BulbOS.Lib.Linked

/-!
# Doubly linked lists

* `Doubly next prev null head tail l`: following `next` from `head` visits `l`, following `prev` from
  `tail` visits `l` backwards;
* `Doubly.prev_eq`, `Doubly.next_eq`: the neighbours of a cell;
* **`Doubly.remove`**: a cell is cut out; **`Doubly.push`**: a cell is put in front.
-/

namespace KLib

variable {α : Type} {next next' prev prev' : α → α} {null head tail p b : α} {l l₁ l₂ : List α}

/-- Following `next` from `head` and `prev` from `tail` visits `l` in the two directions. -/
structure Doubly (next prev : α → α) (null head tail : α) (l : List α) : Prop where
  forth : Linked next null head l
  back : Linked prev null tail l.reverse

theorem Doubly.symm (h : Doubly next prev null head tail l) : Doubly prev next null tail head l.reverse :=
  ⟨h.back, by rw [List.reverse_reverse]; exact h.forth⟩

theorem Doubly.ne_null (h : Doubly next prev null head tail l) (hp : p ∈ l) : p ≠ null :=
  h.forth.ne_null hp

/-- The last of `l`, or `null`. -/
def lastOr (null : α) (l : List α) : α := l.getLast?.getD null

@[simp] theorem lastOr_nil : lastOr null [] = null := rfl

@[simp] theorem lastOr_concat : lastOr null (l ++ [b]) = b := by simp [lastOr]

theorem lastOr_append (h : l₂ ≠ []) : lastOr null (l₁ ++ l₂) = lastOr null l₂ := by
  rw [lastOr, List.getLast?_append_of_ne_nil l₁ h, lastOr]

theorem lastOr_mem (h : l ≠ []) : lastOr null l ∈ l := by
  rw [lastOr, List.getLast?_eq_getLast_of_ne_nil h]
  exact List.getLast_mem h

theorem linked_head (h : Linked next null head l) : head = l.head?.getD null := by
  cases l with
  | nil => exact h
  | cons x l => exact h.1

theorem Doubly.next_eq (h : Doubly next prev null head tail (l₁ ++ p :: l₂)) :
    next p = l₂.head?.getD null := by
  obtain ⟨_, _, _, _, ht⟩ := linked_append.mp h.forth
  exact linked_head ht

theorem Doubly.prev_eq (h : Doubly next prev null head tail (l₁ ++ p :: l₂)) :
    prev p = lastOr null l₁ := by
  have hs := h.symm
  rw [List.reverse_append, List.reverse_cons, List.append_assoc, List.singleton_append] at hs
  rw [hs.next_eq, List.head?_reverse]
  rfl

theorem Doubly.head_eq (h : Doubly next prev null head tail l) : head = l.head?.getD null :=
  linked_head h.forth

theorem Doubly.tail_eq (h : Doubly next prev null head tail l) : tail = lastOr null l := by
  rw [h.symm.head_eq, List.head?_reverse]
  rfl

/-- Cut `p` out of a list: the link of the cell before it skips it. -/
theorem Linked.cut [DecidableEq α] {a : α} (h : Linked next null a (l₁ ++ p :: l₂))
    (hn : ∀ x ∈ l₁ ++ l₂, next' x = if x = lastOr null l₁ then next p else next x) :
    Linked next' null (if p = a then next p else a) (l₁ ++ l₂) := by
  have hnd := h.nodup
  rcases List.eq_nil_or_concat l₁ with rfl | ⟨l, b, rfl⟩
  · obtain ⟨rfl, _, ht⟩ := h
    rw [if_pos rfl]
    refine ht.congr fun x hx => (hn x hx).trans (if_neg ?_)
    exact ht.ne_null hx
  · rw [List.concat_eq_append] at *
    rw [lastOr_concat] at hn
    obtain ⟨c, hseg, rfl, _, ht⟩ := linked_append.mp h
    obtain ⟨d, hseg', hd, hnull, hc⟩ := segment_append.mp hseg
    have hc' : next b = c := hc
    subst hc'
    have hmem : b ∈ l ++ [b] := List.mem_append_right _ List.mem_cons_self
    have hd' := List.disjoint_of_nodup_append hnd
    have hbl : b ∉ l := fun hb =>
      List.disjoint_of_nodup_append (List.nodup_append.mp hnd).1 hb List.mem_cons_self
    have hb₂ : b ∉ l₂ := fun hb => hd' hmem (List.mem_cons_of_mem _ hb)
    have ha : next b ≠ a := by
      rintro rfl
      refine hd' ?_ List.mem_cons_self
      rw [linked_head h, List.append_assoc]
      cases l <;> simp
    rw [if_neg ha, List.append_assoc]
    refine linked_append.mpr ⟨d, hseg'.congr fun x hx => ?_, hd, hnull, ?_⟩
    · rw [hn x (List.mem_append_left _ (List.mem_append_left _ hx)), if_neg]
      exact fun e => hbl (e ▸ hx)
    · rw [hn b (List.mem_append_left _ hmem), if_pos rfl]
      refine ht.congr fun x hx => ?_
      rw [hn x (List.mem_append_right _ hx), if_neg]
      exact fun e => hb₂ (e ▸ hx)

/-- **A cell is cut out**: its neighbours are linked with each other. -/
theorem Doubly.remove [DecidableEq α] (h : Doubly next prev null head tail (l₁ ++ p :: l₂))
    (hn : ∀ x ∈ l₁ ++ l₂, next' x = if x = prev p then next p else next x)
    (hp : ∀ x ∈ l₁ ++ l₂, prev' x = if x = next p then prev p else prev x) :
    Doubly next' prev' null (if p = head then next p else head) (if p = tail then prev p else tail)
      (l₁ ++ l₂) := by
  refine ⟨h.forth.cut fun x hx => ?_, ?_⟩
  · rw [hn x hx, h.prev_eq]
  · have hb := h.back
    rw [List.reverse_append, List.reverse_cons, List.append_assoc, List.singleton_append] at hb
    rw [List.reverse_append]
    refine hb.cut fun x hx => ?_
    rw [hp x (by rw [← List.reverse_append, List.mem_reverse] at hx; exact hx), h.next_eq, lastOr,
      List.getLast?_reverse]

/-- **A cell is put in front** whose `prev` is `null` already. -/
theorem Doubly.push [DecidableEq α] (h : Doubly next prev null head tail l) (hmem : p ∉ l)
    (hnull : p ≠ null) (hprev : prev p = null) (hn : ∀ x ∈ l, next' x = next x) (hnp : next' p = head)
    (hp : ∀ x ∈ p :: l, prev' x = if x = head then p else prev x) :
    Doubly next' prev' null p (if head = null then p else tail) (p :: l) := by
  refine ⟨⟨rfl, hnull, ?_⟩, ?_⟩
  · rw [hnp]
    exact h.forth.congr hn
  have hpp : prev' p = null := by
    rw [hp p List.mem_cons_self, if_neg, hprev]
    rintro rfl
    cases l with
    | nil => exact hnull h.forth
    | cons x l => exact hmem (h.forth.1 ▸ List.mem_cons_self)
  cases l with
  | nil =>
    have h₀ : head = null := h.forth
    rw [if_pos h₀]
    exact ⟨rfl, hnull, hpp⟩
  | cons x l =>
    obtain ⟨rfl, hx, _⟩ := h.forth
    have hb := h.back
    have hnd := h.forth.nodup
    rw [if_neg hx, List.reverse_cons]
    rw [List.reverse_cons] at hb ⊢
    obtain ⟨c, hseg, rfl, _, _⟩ := linked_append.mp hb
    rw [List.append_assoc]
    refine linked_append.mpr ⟨c, hseg.congr fun y hy => ?_, rfl, hx, ?_⟩
    · rw [List.mem_reverse] at hy
      rw [hp y (List.mem_cons_of_mem _ (List.mem_cons_of_mem _ hy)), if_neg]
      exact fun e => (List.nodup_cons.mp hnd).1 (e ▸ hy)
    · rw [hp c (List.mem_cons_of_mem _ List.mem_cons_self), if_pos rfl]
      exact ⟨rfl, hnull, hpp⟩

end KLib
