import BulbOS.Bio.Cells
import BulbOS.Lib.Doubly

/-!
# The list of unreferenced buffers

* `linkTo`: the cells after a store to a link, which may be a store through `NULL`;
* `Unlinking`, **`bioRemove_spec`**: `bio_remove` cuts a buffer out of the list, unless it is alone
  there;
* **`pushFront_spec`**: `bio_release` puts a buffer in front, if its `prev` is `NULL`.
-/

namespace BulbOS.Bio

open KLib BulbOS.Task BulbOS.Sem BulbOS.Table

variable {s s' : BioState} {live : Set ℕ} {c c' : ℕ → Cell} {p q x v : ℕ} {f g : Field}
  {l l₁ l₂ : List ℕ}

/-- The cells after a store to a link of `q`. -/
def linkTo (c : ℕ → Cell) (q : ℕ) (f : Field) (v : ℕ) : ℕ → Cell :=
  if q = 0 then c else Function.update c q ((c q).setField f v)

theorem linkTo_field (hx : x ≠ 0) :
    (linkTo c q f v x).field g = if x = q ∧ g = f then v else (c x).field g := by
  unfold linkTo
  by_cases hq : q = 0
  · rw [if_pos hq, if_neg fun e => hx (e.1.trans hq)]
  · rw [if_neg hq]
    by_cases hxq : x = q
    · subst hxq
      rw [Function.update_self, setField_field]
      by_cases hg : g = f
      · rw [hg, Function.update_self, if_pos ⟨rfl, rfl⟩]
      · rw [Function.update_of_ne hg, if_neg fun e => hg e.2]
    · rw [Function.update_of_ne hxq, if_neg fun e => hxq e.1]

theorem linkTo_self (hx : x ≠ 0) :
    (linkTo c q f v x).field f = if x = q then v else (c x).field f := by
  rw [linkTo_field hx]
  simp only [and_true]

theorem linkTo_other (hx : x ≠ 0) (hg : g ≠ f) : (linkTo c q f v x).field g = (c x).field g := by
  rw [linkTo_field hx, if_neg fun e => hg e.2]

theorem linkTo_sem : (linkTo c q f v x).sem = (c x).sem := by
  unfold linkTo
  split_ifs
  · rfl
  · by_cases hxq : x = q
    · subst hxq
      rw [Function.update_self]
      rfl
    · rw [Function.update_of_ne hxq]

theorem linkTo_data : (linkTo c q f v x).data = (c x).data := by
  unfold linkTo
  split_ifs
  · rfl
  · by_cases hxq : x = q
    · subst hxq
      rw [Function.update_self]
      rfl
    · rw [Function.update_of_ne hxq]

theorem Rep.setLink {m : Mem} {allocated : List (ℕ × ℕ)} (h : Rep m allocated live c)
    (hq : q ∈ live ∨ q = 0) (hf : ¬ f.Fixed) (hv : v < 2 ^ 32) :
    Rep (store32 m (q + f.offset) v) allocated live (linkTo c q f v) := by
  unfold linkTo
  rcases hq with hq | rfl
  · have := h.set hq hf v
    rw [u32_of_lt hv] at this
    rwa [if_neg (h.ne_zero hq)]
  · exact h.setNull f v

/-- `s` and `c` differ from `s₀` and `c₀` by links and the ends of the list. -/
structure SameButLinks (s₀ s : BioState) (c₀ c : ℕ → Cell) : Prop where
  table : s.table = s₀.table
  mutex : s.mutex = s₀.mutex
  disk : s.disk = s₀.disk
  allocated : s.allocated = s₀.allocated
  field : ∀ x ≠ 0, ∀ f, f ≠ .next → f ≠ .prev → (c x).field f = (c₀ x).field f
  sem : ∀ x, (c x).sem = (c₀ x).sem
  data : ∀ x, (c x).data = (c₀ x).data

/-- While a buffer between `pr` and `nx` is cut out, only these two have changed links. -/
structure Unlinking (live : Set ℕ) (nx pr : ℕ) (s₀ s : BioState) (c₀ c : ℕ → Cell) : Prop where
  rep : Rep s.mem s.allocated live c
  same : SameButLinks s₀ s c₀ c
  next : ∀ x ≠ 0, x ≠ pr → (c x).field .next = (c₀ x).field .next
  prev : ∀ x ≠ 0, x ≠ nx → (c x).field .prev = (c₀ x).field .prev
  null : s.nullLink = true → s₀.nullLink = true ∨ nx = 0 ∨ pr = 0

variable {nx pr : ℕ} {s₀ : BioState} {c₀ : ℕ → Cell}

theorem SameButLinks.linkTo (h : SameButLinks s₀ s c₀ c) (hs : s' = s.setLink q f v)
    (hf : f = .next ∨ f = .prev) : SameButLinks s₀ s' c₀ (linkTo c q f v) := by
  subst hs
  refine ⟨h.table, h.mutex, h.disk, h.allocated, fun x hx g h₁ h₂ => ?_,
    fun x => linkTo_sem.trans (h.sem x), fun x => linkTo_data.trans (h.data x)⟩
  have hg : g ≠ f := by
    rcases hf with rfl | rfl
    exacts [h₁, h₂]
  rw [linkTo_other hx hg]
  exact h.field x hx g h₁ h₂

theorem not_fixed (hf : f = .next ∨ f = .prev) : ¬ f.Fixed := by
  rcases hf with rfl | rfl <;> simp [Field.Fixed]

theorem Unlinking.setNext (h : Unlinking live nx pr s₀ s c₀ c) (hpr : pr ∈ live ∨ pr = 0)
    (hv : v < 2 ^ 32) : Unlinking live nx pr s₀ (s.setLink pr .next v) c₀ (linkTo c pr .next v) := by
  refine ⟨h.rep.setLink hpr (not_fixed (.inl rfl)) hv, h.same.linkTo rfl (.inl rfl), fun x hx hxp => ?_,
    fun x hx hxn => ?_, fun hn => ?_⟩
  · rw [linkTo_self hx, if_neg hxp]
    exact h.next x hx hxp
  · rw [linkTo_other hx (by decide)]
    exact h.prev x hx hxn
  · rcases Bool.or_eq_true_iff.mp hn with hn | hn
    · exact h.null hn
    · exact .inr (.inr (of_decide_eq_true hn))

theorem Unlinking.setPrev (h : Unlinking live nx pr s₀ s c₀ c) (hnx : nx ∈ live ∨ nx = 0)
    (hv : v < 2 ^ 32) : Unlinking live nx pr s₀ (s.setLink nx .prev v) c₀ (linkTo c nx .prev v) := by
  refine ⟨h.rep.setLink hnx (not_fixed (.inr rfl)) hv, h.same.linkTo rfl (.inr rfl), fun x hx hxp => ?_,
    fun x hx hxn => ?_, fun hn => ?_⟩
  · rw [linkTo_other hx (by decide)]
    exact h.next x hx hxp
  · rw [linkTo_self hx, if_neg hxn]
    exact h.prev x hx hxn
  · rcases Bool.or_eq_true_iff.mp hn with hn | hn
    · exact h.null hn
    · exact .inr (.inl (of_decide_eq_true hn))

/-- What `bio_remove` is about: a live buffer between two others or the ends. -/
structure Between (live : Set ℕ) (c : ℕ → Cell) (nx p pr : ℕ) : Prop where
  self : p ∈ live
  next : (c p).field .next = nx
  prev : (c p).field .prev = pr
  nextLive : nx ∈ live ∨ nx = 0
  prevLive : pr ∈ live ∨ pr = 0
  ne_next : p ≠ nx
  ne_prev : p ≠ pr

section Steps

variable (hb : Between live c₀ nx p pr) (h : Unlinking live nx pr s₀ s c₀ c)
include hb h

theorem Unlinking.get_next : s.get p .next = nx :=
  (h.rep.field hb.self _).trans ((h.next p (h.rep.ne_zero hb.self) hb.ne_prev).trans hb.next)

theorem Unlinking.get_prev : s.get p .prev = pr :=
  (h.rep.field hb.self _).trans ((h.prev p (h.rep.ne_zero hb.self) hb.ne_next).trans hb.prev)

theorem Unlinking.next_lt : nx < 2 ^ 32 := by
  rw [← h.get_next hb]
  exact load32_lt _ _

theorem Unlinking.prev_lt : pr < 2 ^ 32 := by
  rw [← h.get_prev hb]
  exact load32_lt _ _

theorem Unlinking.head : ∃ c', Unlinking live nx pr s₀ (unlinkHead s p) c₀ c' ∧
    (unlinkHead s p).lhead = (if p = s.lhead then nx else s.lhead) ∧
    (unlinkHead s p).ltail = s.ltail := by
  rw [unlinkHead]
  by_cases hp : p = s.lhead
  · rw [if_pos hp, if_pos hp, h.get_next hb]
    let s₁ : BioState := { s with lhead := nx }
    have h₁ : Unlinking live nx pr s₀ s₁ c₀ c := ⟨h.rep, ⟨h.same.table, h.same.mutex, h.same.disk,
      h.same.allocated, h.same.field, h.same.sem, h.same.data⟩, h.next, h.prev, h.null⟩
    have hg : s₁.get p .next = nx := h₁.get_next hb
    refine ⟨linkTo c nx .prev 0, ?_, rfl, rfl⟩
    change Unlinking live nx pr s₀ (s₁.setLink (s₁.get p .next) .prev 0) c₀ _
    rw [hg]
    exact h₁.setPrev hb.nextLive (by decide)
  · rw [if_neg hp, if_neg hp]
    exact ⟨c, h, rfl, rfl⟩

theorem Unlinking.tail : ∃ c', Unlinking live nx pr s₀ (unlinkTail s p) c₀ c' ∧
    (unlinkTail s p).lhead = s.lhead ∧
    (unlinkTail s p).ltail = if p = s.ltail then pr else s.ltail := by
  rw [unlinkTail]
  by_cases hp : p = s.ltail
  · rw [if_pos hp, if_pos hp, h.get_prev hb]
    let s₁ : BioState := { s with ltail := pr }
    have h₁ : Unlinking live nx pr s₀ s₁ c₀ c := ⟨h.rep, ⟨h.same.table, h.same.mutex, h.same.disk,
      h.same.allocated, h.same.field, h.same.sem, h.same.data⟩, h.next, h.prev, h.null⟩
    have hg : s₁.get p .prev = pr := h₁.get_prev hb
    refine ⟨linkTo c pr .next 0, ?_, rfl, rfl⟩
    change Unlinking live nx pr s₀ (s₁.setLink (s₁.get p .prev) .next 0) c₀ _
    rw [hg]
    exact h₁.setNext hb.prevLive (by decide)
  · rw [if_neg hp, if_neg hp]
    exact ⟨c, h, rfl, rfl⟩

/-- The third `if` is always taken: the first two have moved the ends past the buffer. -/
theorem Unlinking.middle (hh : p ≠ s.lhead) (ht : p ≠ s.ltail) :
    ∃ c', Unlinking live nx pr s₀ (unlinkMiddle s p) c₀ c' ∧
      (unlinkMiddle s p).lhead = s.lhead ∧ (unlinkMiddle s p).ltail = s.ltail ∧
      (∀ x ≠ 0, (c' x).field .next = if x = pr then nx else (c₀ x).field .next) ∧
      ∀ x ≠ 0, (c' x).field .prev = if x = nx then pr else (c₀ x).field .prev := by
  have h₁ := h.setNext hb.prevLive (h.next_lt hb)
  have h₂ := h₁.setPrev hb.nextLive (h.prev_lt hb)
  have he : unlinkMiddle s p = (s.setLink pr .next nx).setLink nx .prev pr := by
    rw [unlinkMiddle, if_pos ⟨ht, hh⟩, h.get_next hb, h.get_prev hb]
    dsimp only
    rw [h₁.get_next hb, h₁.get_prev hb]
  rw [he]
  refine ⟨linkTo (linkTo c pr .next nx) nx .prev pr, h₂, rfl, rfl, fun x hx => ?_, fun x hx => ?_⟩
  · rw [linkTo_other hx (by decide), linkTo_self hx]
    split_ifs with hxp
    exacts [rfl, h.next x hx hxp]
  · rw [linkTo_self hx]
    split_ifs with hxn
    exacts [rfl, h₁.prev x hx hxn]

end Steps

/-- The list from `lhead` to `ltail` is `l`. -/
def LruList (s : BioState) (c : ℕ → Cell) (l : List ℕ) : Prop :=
  Doubly (fun x => (c x).field .next) (fun x => (c x).field .prev) 0 s.lhead s.ltail l

theorem LruList.between (hl : LruList s c (l₁ ++ p :: l₂)) (hlive : ∀ x ∈ l₁ ++ p :: l₂, x ∈ live) :
    Between live c (l₂.head?.getD 0) p (lastOr 0 l₁) := by
  have hnd := hl.forth.nodup
  have hp : p ∈ l₁ ++ p :: l₂ := List.mem_append_right _ List.mem_cons_self
  have hp₀ : p ≠ 0 := hl.ne_null hp
  refine ⟨hlive p hp, hl.next_eq, hl.prev_eq, ?_, ?_, ?_, ?_⟩
  · cases l₂ with
    | nil => exact .inr rfl
    | cons y l₂ =>
      exact .inl (hlive y (List.mem_append_right _ (List.mem_cons_of_mem _ List.mem_cons_self)))
  · rcases List.eq_nil_or_concat l₁ with rfl | ⟨l, y, rfl⟩
    · exact .inr rfl
    · rw [List.concat_eq_append, lastOr_concat]
      exact .inl (hlive y (by simp))
  · cases l₂ with
    | nil => exact hp₀
    | cons y l₂ =>
      rintro rfl
      exact (List.nodup_cons.mp (List.nodup_append.mp hnd).2.1).1 List.mem_cons_self
  · rcases List.eq_nil_or_concat l₁ with rfl | ⟨l, y, rfl⟩
    · exact hp₀
    · rw [List.concat_eq_append, lastOr_concat]
      rintro rfl
      exact List.disjoint_of_nodup_append hnd (by simp) List.mem_cons_self

/-- The ends of the list are found by the neighbours of the buffer being none. -/
theorem LruList.alone_iff (hl : LruList s c (l₁ ++ p :: l₂)) :
    (l₂.head?.getD 0 = 0 ↔ l₂ = []) ∧ (lastOr 0 l₁ = 0 ↔ l₁ = []) := by
  constructor
  · cases l₂ with
    | nil => simp
    | cons y l₂ =>
      have : y ≠ 0 := hl.ne_null (List.mem_append_right _ (List.mem_cons_of_mem _ List.mem_cons_self))
      simp [this]
  · rcases List.eq_nil_or_concat l₁ with rfl | ⟨l, y, rfl⟩
    · simp
    · have : y ≠ 0 := hl.ne_null (by simp)
      simp [this]

/-- **`bio_remove`** cuts a buffer out of the list, unless it is alone there. -/
theorem bioRemove_spec (hrep : Rep s.mem s.allocated live c) (hl : LruList s c (l₁ ++ p :: l₂))
    (hlive : ∀ x ∈ l₁ ++ p :: l₂, x ∈ live) :
    l₁ = [] ∧ l₂ = [] ∧ bioRemove s p = .error .notPartOfList ∨
      ∃ s' c', bioRemove s p = .ok s' ∧ Rep s'.mem s'.allocated live c' ∧ LruList s' c' (l₁ ++ l₂) ∧
        SameButLinks s s' c c' ∧ (s'.nullLink = true → s.nullLink = true ∨ l₂ = [] ∨ l₁ = []) := by
  have hb := hl.between hlive
  obtain ⟨hnx, hpr⟩ := hl.alone_iff
  have h₀ : Unlinking live (l₂.head?.getD 0) (lastOr 0 l₁) s s c c :=
    ⟨hrep, ⟨rfl, rfl, rfl, rfl, fun _ _ _ _ _ => rfl, fun _ => rfl, fun _ => rfl⟩, fun _ _ _ => rfl,
      fun _ _ _ => rfl, .inl⟩
  have hgn := h₀.get_next hb
  have hgp := h₀.get_prev hb
  by_cases halone : l₁ = [] ∧ l₂ = []
  · refine .inl ⟨halone.1, halone.2, ?_⟩
    rw [bioRemove, if_pos ⟨hgn.trans (hnx.mpr halone.2), hgp.trans (hpr.mpr halone.1)⟩]
  right
  obtain ⟨c₁, h₁, hh₁, ht₁⟩ := h₀.head hb
  obtain ⟨c₂, h₂, hh₂, ht₂⟩ := h₁.tail hb
  have hhead : p ≠ (unlinkTail (unlinkHead s p) p).lhead := by
    rw [hh₂, hh₁]
    split_ifs with e
    exacts [hb.ne_next, e]
  have htail : p ≠ (unlinkTail (unlinkHead s p) p).ltail := by
    rw [ht₂, ht₁]
    split_ifs with e
    exacts [hb.ne_prev, e]
  obtain ⟨c₃, h₃, hh₃, ht₃, hn₃, hp₃⟩ := h₂.middle hb hhead htail
  have hne : ∀ x ∈ l₁ ++ l₂, x ≠ 0 := fun x hx =>
    hl.ne_null (by rw [List.mem_append] at hx ⊢; exact hx.imp_right (List.mem_cons_of_mem _))
  have hlist : s.lhead ≠ 0 := by
    rw [hl.head_eq]
    cases l₁ with
    | nil => exact hl.ne_null List.mem_cons_self
    | cons y l₁ => exact hl.ne_null List.mem_cons_self
  refine ⟨_, c₃, ?_, h₃.rep, ?_, h₃.same, fun hn => (h₃.null hn).imp_right (Or.imp hnx.mp hpr.mp)⟩
  · rw [bioRemove, if_neg, if_neg fun e => hlist e.1]
    rw [hgn, hgp, hnx, hpr]
    exact fun e => halone ⟨e.2, e.1⟩
  · unfold LruList
    rw [hh₃, hh₂, hh₁, ht₃, ht₂, ht₁]
    have hn : ∀ x ∈ l₁ ++ l₂, (c₃ x).field .next =
        if x = (c p).field .prev then (c p).field .next else (c x).field .next :=
      fun x hx => by rw [hn₃ x (hne x hx), hb.next, hb.prev]
    have hp : ∀ x ∈ l₁ ++ l₂, (c₃ x).field .prev =
        if x = (c p).field .next then (c p).field .prev else (c x).field .prev :=
      fun x hx => by rw [hp₃ x (hne x hx), hb.next, hb.prev]
    have := hl.remove hn hp
    rwa [hb.next, hb.prev] at this

/-- **The list part of `bio_release`** puts a buffer in front whose `prev` is `NULL`. -/
theorem pushFront_spec (hrep : Rep s.mem s.allocated live c) (hl : LruList s c l)
    (hlive : ∀ x ∈ l, x ∈ live) (hp : p ∈ live) (hpl : p ∉ l) (hprev : (c p).field .prev = 0) :
    ∃ c', Rep (pushFront s p).mem (pushFront s p).allocated live c' ∧
      LruList (pushFront s p) c' (p :: l) ∧ SameButLinks s (pushFront s p) c c' ∧
      (pushFront s p).nullLink = s.nullLink := by
  have hp₀ := hrep.ne_zero hp
  have hplt := hrep.lt hp
  have hhead : s.lhead ∈ live ∨ s.lhead = 0 := by
    cases l with
    | nil => exact .inr hl.forth
    | cons y l => exact .inl (hlive _ (hl.forth.1 ▸ List.mem_cons_self))
  have hlt : s.lhead < 2 ^ 32 := by
    rcases hhead with h | h
    · exact hrep.lt h
    · omega
  let c₁ := linkTo c s.lhead .prev p
  have hsame : SameButLinks s s c c :=
    ⟨rfl, rfl, rfl, rfl, fun _ _ _ _ _ => rfl, fun _ => rfl, fun _ => rfl⟩
  -- the store to `lhead->prev` happens only when the list is not empty
  obtain ⟨s₁, he, hm₁, hh₁, ht₁, hn₁, hsame₁⟩ : ∃ s₁, (if s.lhead = 0 then { s with ltail := p } else
      s.set s.lhead .prev p) = s₁ ∧ Rep s₁.mem s₁.allocated live c₁ ∧ s₁.lhead = s.lhead ∧
      s₁.ltail = (if s.lhead = 0 then p else s.ltail) ∧ s₁.nullLink = s.nullLink ∧
      SameButLinks s s₁ c c₁ := by
    by_cases h₀ : s.lhead = 0
    · have hc : c₁ = c := if_pos h₀
      rw [if_pos h₀, if_pos h₀, hc]
      exact ⟨_, rfl, hrep, rfl, rfl, rfl, ⟨rfl, rfl, rfl, rfl, hsame.field, hsame.sem,
        hsame.data⟩⟩
    · rw [if_neg h₀, if_neg h₀]
      have := hsame.linkTo (q := s.lhead) (f := .prev) (v := p) rfl (.inr rfl)
      exact ⟨_, rfl, hrep.setLink hhead (not_fixed (.inr rfl)) hplt, rfl, rfl, rfl,
        ⟨this.table, this.mutex, this.disk, this.allocated, this.field, this.sem, this.data⟩⟩
  have hrep₂ := hm₁.setLink (.inl hp) (not_fixed (.inl rfl)) (hh₁ ▸ hlt : s₁.lhead < 2 ^ 32)
  have hsame₂ := hsame₁.linkTo (q := p) (f := .next) (v := s₁.lhead) rfl (.inl rfl)
  have hpush : pushFront s p = { s₁.set p .next s₁.lhead with lhead := p } := by
    unfold pushFront
    rw [he]
  rw [hpush]
  refine ⟨linkTo c₁ p .next s₁.lhead, hrep₂, ?_, ⟨hsame₂.table, hsame₂.mutex, hsame₂.disk,
    hsame₂.allocated, hsame₂.field, hsame₂.sem, hsame₂.data⟩, hn₁⟩
  have hne : ∀ x ∈ l, x ≠ 0 := fun x hx => hl.ne_null hx
  have hnext : ∀ x ∈ l, (linkTo c₁ p .next s₁.lhead x).field .next = (c x).field .next := fun x hx => by
    have hxp : x ≠ p := fun e => hpl (e ▸ hx)
    rw [linkTo_self (hne x hx), if_neg hxp, linkTo_other (hne x hx) (by decide)]
  have hnextp : (linkTo c₁ p .next s₁.lhead p).field .next = s.lhead := by
    rw [linkTo_self hp₀, if_pos rfl, hh₁]
  have hback : ∀ x ∈ p :: l, (linkTo c₁ p .next s₁.lhead x).field .prev =
      if x = s.lhead then p else (c x).field .prev := fun x hx => by
    have hx₀ : x ≠ 0 := by
      rcases List.mem_cons.mp hx with rfl | hx
      exacts [hp₀, hne x hx]
    rw [linkTo_other hx₀ (by decide), linkTo_self hx₀]
  have := hl.push hpl hp₀ hprev hnext hnextp hback
  unfold LruList
  change Doubly _ _ 0 p s₁.ltail _
  rwa [ht₁]

end BulbOS.Bio
