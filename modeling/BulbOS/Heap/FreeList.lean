import BulbOS.Heap.Model
import BulbOS.Lib.Linked
import Mathlib.Data.List.Sort
import Mathlib.Tactic.Linarith

/-!
# The free list in memory

`FreeNodes m a L` says that the nodes met from address `a` are those of `L`, a list of pairs
(address, size). Each loop of the allocator is specified against an operation on such lists:

* `vmmGetNode_spec`: the first node larger than the request;
* `vmmSortedInsert_spec`: `List.orderedInsert` by address, after the head;
* `vmmMergeFreeBlock_spec`: `mergeNodes`, which joins every node with the ones right behind it;
* `FreeNodes.snoc`: linking a new node behind the last one, found by `vmmLastNode_spec`.

Each specification says which bytes may have changed: only those of the nodes' headers.
-/

namespace BulbOS.Heap

open KLib

variable {m m' : Mem} {a : ℕ} {p q x : ℕ × ℕ} {L L' : List (ℕ × ℕ)}

@[simp] theorem nodeSize_setSize (m : Mem) (a v : ℕ) : nodeSize (setSize m a v) a = u32 v :=
  load32_store32 m a v

@[simp] theorem nodeNext_setNext (m : Mem) (a v : ℕ) : nodeNext (setNext m a v) a = u32 v :=
  load32_store32 m (a + 4) v

@[simp] theorem nodeNext_setSize_self (m : Mem) (a v : ℕ) :
    nodeNext (setSize m a v) a = nodeNext m a := load32_store32_of_disjoint m v (by omega)

@[simp] theorem nodeSize_setNext_self (m : Mem) (a v : ℕ) :
    nodeSize (setNext m a v) a = nodeSize m a := load32_store32_of_disjoint m v (by omega)

@[simp] theorem u32_nodeNext (m : Mem) (a : ℕ) : u32 (nodeNext m a) = nodeNext m a :=
  u32_of_lt (load32_lt m (a + 4))

theorem setSize_of_outside (m : Mem) {a b : ℕ} (v : ℕ) (h : b < a ∨ a + 8 ≤ b) :
    setSize m a v b = m b := store32_of_outside m v (by omega)

theorem setNext_of_outside (m : Mem) {a b : ℕ} (v : ℕ) (h : b < a ∨ a + 8 ≤ b) :
    setNext m a v b = m b := store32_of_outside m v (by omega)

theorem nodeSize_congr (h : ∀ b, a ≤ b → b < a + 8 → m' b = m b) : nodeSize m' a = nodeSize m a :=
  load32_congr fun b _ _ => h b (by omega) (by omega)

theorem nodeNext_congr (h : ∀ b, a ≤ b → b < a + 8 → m' b = m b) : nodeNext m' a = nodeNext m a :=
  load32_congr fun b _ _ => h b (by omega) (by omega)

/-! ## Lists of nodes -/

/-- The bytes a free node takes, its header included. -/
def nodeSpan (p : ℕ × ℕ) : ℕ × ℕ := (p.1, p.1 + sizeofNode + p.2)

/-- The nodes are sorted by address and do not overlap. -/
def Sorted (L : List (ℕ × ℕ)) : Prop := L.Pairwise fun p q => p.1 + sizeofNode + p.2 ≤ q.1

/-- The nodes are sorted by address and no two of them touch. -/
def Apart (L : List (ℕ × ℕ)) : Prop := L.Pairwise fun p q => p.1 + sizeofNode + p.2 < q.1

theorem Apart.sorted (h : Apart L) : Sorted L := h.imp fun h => h.le

/-- Join each node with the nodes right behind it. -/
def mergeNodes : ℕ × ℕ → List (ℕ × ℕ) → List (ℕ × ℕ)
  | p, [] => [p]
  | p, q :: L =>
    if p.1 + p.2 + sizeofNode = q.1 then mergeNodes (p.1, p.2 + q.2 + sizeofNode) L
    else p :: mergeNodes q L

theorem mergeNodes_ge (h : Sorted (p :: L)) : ∀ r ∈ mergeNodes p L, p.1 ≤ r.1 := by
  induction L generalizing p with
  | nil => intro r hr; rw [mergeNodes, List.mem_singleton] at hr; rw [hr]
  | cons q L ih =>
    obtain ⟨h₁, h₂⟩ := List.pairwise_cons.mp h
    rw [mergeNodes]
    split_ifs with hc
    · refine ih (p := (p.1, _)) (List.pairwise_cons.mpr ⟨fun r hr => ?_, h₂.of_cons⟩)
      have := (List.pairwise_cons.mp h₂).1 r hr
      simp only [sizeofNode] at this hc ⊢
      omega
    · intro r hr
      rcases List.mem_cons.mp hr with rfl | hr
      · exact le_rfl
      · have := h₁ q List.mem_cons_self
        exact le_trans (by omega) (ih h₂ r hr)

theorem sorted_merge_step (h : Sorted (p :: q :: L)) (hc : p.1 + p.2 + sizeofNode = q.1) :
    Sorted ((p.1, p.2 + q.2 + sizeofNode) :: L) := by
  obtain ⟨_, h₂⟩ := List.pairwise_cons.mp h
  obtain ⟨h₃, h₄⟩ := List.pairwise_cons.mp h₂
  refine List.pairwise_cons.mpr ⟨fun r hr => ?_, h₄⟩
  have := h₃ r hr
  simp only [sizeofNode] at this hc ⊢
  omega

/-- **Merging a sorted list leaves no two nodes that touch.** -/
theorem mergeNodes_apart (h : Sorted (p :: L)) : Apart (mergeNodes p L) := by
  induction L generalizing p with
  | nil => exact List.pairwise_singleton _ _
  | cons q L ih =>
    rw [mergeNodes]
    split_ifs with hc
    · exact ih (sorted_merge_step h hc)
    · obtain ⟨h₁, h₂⟩ := List.pairwise_cons.mp h
      refine List.pairwise_cons.mpr ⟨fun r hr => ?_, ih h₂⟩
      have hq := h₁ q List.mem_cons_self
      have hr := mergeNodes_ge h₂ r hr
      omega

theorem countP_mergeNodes (p : ℕ × ℕ) (L : List (ℕ × ℕ)) (y : ℕ) :
    ((mergeNodes p L).map nodeSpan).countP (fun g => g.1 ≤ y ∧ y < g.2) =
      ((p :: L).map nodeSpan).countP (fun g => g.1 ≤ y ∧ y < g.2) := by
  induction L generalizing p with
  | nil => rfl
  | cons q L ih =>
    rw [mergeNodes]
    split_ifs with hc
    · rw [ih]
      simp only [List.map_cons, List.countP_cons, nodeSpan, decide_eq_true_eq, sizeofNode] at hc ⊢
      split_ifs <;> omega
    · rw [List.map_cons, List.countP_cons, ih]
      simp only [List.map_cons, List.countP_cons]

/-- A node that overlaps no other goes where the order by address puts it. -/
theorem sorted_insert (h : Sorted (p :: L)) (hp : p.1 ≤ x.1)
    (hd : ∀ r ∈ p :: L, r.1 + sizeofNode + r.2 ≤ x.1 ∨ x.1 + sizeofNode + x.2 ≤ r.1) :
    Sorted (p :: L.orderedInsert (fun r r' => r.1 < r'.1) x) := by
  have hpx : p.1 + sizeofNode + p.2 ≤ x.1 := by
    have := hd p List.mem_cons_self
    simp only [sizeofNode] at this ⊢
    omega
  obtain ⟨h₁, h₂⟩ := List.pairwise_cons.mp h
  induction L generalizing p with
  | nil => exact List.pairwise_cons.mpr ⟨by simpa using hpx, List.pairwise_singleton _ _⟩
  | cons q L ih =>
    rw [List.orderedInsert]
    have hqd := hd q (by simp)
    obtain ⟨h₃, h₄⟩ := List.pairwise_cons.mp h₂
    split_ifs with hc
    · have hxq : x.1 + sizeofNode + x.2 ≤ q.1 := by
        simp only [sizeofNode] at hqd ⊢
        omega
      refine List.pairwise_cons.mpr ⟨fun r hr => ?_, List.pairwise_cons.mpr ⟨fun r hr => ?_, h₂⟩⟩
      · rcases List.mem_cons.mp hr with rfl | hr
        · exact hpx
        · exact h₁ r hr
      · rcases List.mem_cons.mp hr with rfl | hr
        · exact hxq
        · have := h₃ r hr
          omega
    · refine List.pairwise_cons.mpr ⟨fun r hr => ?_, ?_⟩
      · rcases List.mem_cons.mp hr with rfl | hr
        · exact h₁ _ List.mem_cons_self
        · rcases List.mem_cons.mp ((List.perm_orderedInsert _ x L).mem_iff.mp hr) with rfl | hr
          · exact hpx
          · exact h₁ r (List.mem_cons_of_mem _ hr)
      · refine ih h₂ (by omega) (fun r hr => hd r (List.mem_cons_of_mem _ hr)) ?_ h₃ h₄
        simp only [sizeofNode] at hqd ⊢
        omega

theorem length_of_sorted {B : ℕ} (h : Sorted (p :: L)) (hB : ∀ r ∈ p :: L, r.1 < B) :
    (p :: L).length ≤ B - p.1 := by
  induction L generalizing p with
  | nil => have := hB p (by simp); simp; omega
  | cons q L ih =>
    obtain ⟨h₁, h₂⟩ := List.pairwise_cons.mp h
    have hq := h₁ q List.mem_cons_self
    have := ih h₂ fun r hr => hB r (List.mem_cons_of_mem _ hr)
    have hqB := hB q (by simp)
    simp only [List.length_cons, sizeofNode] at this hq ⊢
    omega

/-! ## Lists of nodes in memory -/

/-- The nodes met from address `a` are those of `L`. -/
def FreeNodes (m : Mem) (a : ℕ) (L : List (ℕ × ℕ)) : Prop :=
  Linked (nodeNext m) 0 a (L.map Prod.fst) ∧ ∀ p ∈ L, nodeSize m p.1 = p.2

theorem freeNodes_nil : FreeNodes m a [] ↔ a = 0 := by simp [FreeNodes]

theorem freeNodes_cons : FreeNodes m a (p :: L) ↔
    a = p.1 ∧ p.1 ≠ 0 ∧ nodeSize m p.1 = p.2 ∧ FreeNodes m (nodeNext m p.1) L := by
  simp only [FreeNodes, List.map_cons, linked_cons, List.forall_mem_cons]
  tauto

theorem FreeNodes.congr (h : FreeNodes m a L)
    (hm : ∀ p ∈ L, ∀ b, p.1 ≤ b → b < p.1 + 8 → m' b = m b) : FreeNodes m' a L := by
  refine ⟨h.1.congr fun b hb => ?_, fun p hp => ?_⟩
  · obtain ⟨p, hp, rfl⟩ := List.mem_map.mp hb
    exact nodeNext_congr (hm p hp)
  · rw [nodeSize_congr (hm p hp), h.2 p hp]

theorem FreeNodes.pos (h : FreeNodes m a L) (hp : p ∈ L) : p.1 ≠ 0 :=
  h.1.ne_null (List.mem_map_of_mem hp)

/-- **First fit.** -/
theorem vmmGetNode_spec {fuel : ℕ} (h : FreeNodes m a L) (hf : L.length < fuel) (prev size : ℕ) :
    ∃ prev', vmmGetNode m fuel a prev size =
      some (((L.find? fun p => size < p.2).map Prod.fst).getD 0, prev') := by
  induction L generalizing a fuel prev with
  | nil =>
    rw [freeNodes_nil] at h
    obtain ⟨f, rfl⟩ : ∃ f, fuel = f + 1 := ⟨fuel - 1, by simp at hf; omega⟩
    exact ⟨prev, by simp [vmmGetNode, h]⟩
  | cons p L ih =>
    obtain ⟨rfl, h₀, hs, h⟩ := freeNodes_cons.mp h
    obtain ⟨f, rfl⟩ : ∃ f, fuel = f + 1 := ⟨fuel - 1, by omega⟩
    rw [vmmGetNode, if_neg h₀, hs]
    by_cases hc : size < p.2
    · rw [if_pos hc]
      exact ⟨prev, by simp [hc]⟩
    · rw [if_neg hc]
      obtain ⟨prev', e⟩ := ih h (by simpa using hf) p.1
      exact ⟨prev', by simp [e, hc]⟩

theorem vmmLastNode_spec {fuel : ℕ} (h : FreeNodes m a (L ++ [p])) (hf : L.length < fuel) :
    vmmLastNode m fuel a = some p.1 := by
  induction L generalizing a fuel with
  | nil =>
    obtain ⟨rfl, _, _, h⟩ := freeNodes_cons.mp h
    obtain ⟨f, rfl⟩ : ∃ f, fuel = f + 1 := ⟨fuel - 1, by simp at hf; omega⟩
    rw [vmmLastNode, if_pos (freeNodes_nil.mp h)]
  | cons q L ih =>
    obtain ⟨rfl, _, _, h⟩ := freeNodes_cons.mp h
    obtain ⟨f, rfl⟩ : ∃ f, fuel = f + 1 := ⟨fuel - 1, by omega⟩
    have hne : nodeNext m q.1 ≠ 0 := by
      intro e
      rw [e] at h
      simpa using h.1.eq_nil
    rw [vmmLastNode, if_neg hne]
    exact ih h (by simpa using hf)

theorem FreeNodes.snoc (h : FreeNodes m a (L ++ [p])) (hq : q.1 ≠ 0) (hlt : q.1 < 2 ^ 32)
    (hs : nodeSize m q.1 = q.2) (hn : nodeNext m q.1 = 0) (hsep : (L ++ [p, q]).Pairwise
      fun r r' => r.1 + 8 ≤ r'.1) : FreeNodes (setNext m p.1 q.1) a (L ++ [p, q]) := by
  induction L generalizing a with
  | nil =>
    obtain ⟨rfl, h₀, hp, h⟩ := freeNodes_cons.mp h
    have hpq : p.1 + 8 ≤ q.1 := by simpa using hsep
    refine freeNodes_cons.mpr ⟨rfl, h₀, by rw [nodeSize_setNext_self, hp], ?_⟩
    rw [nodeNext_setNext, u32_of_lt hlt]
    have hc : ∀ b, q.1 ≤ b → b < q.1 + 8 → setNext m p.1 q.1 b = m b :=
      fun b _ _ => setNext_of_outside m _ (by omega)
    refine freeNodes_cons.mpr ⟨rfl, hq, by rw [nodeSize_congr hc, hs], ?_⟩
    rw [nodeNext_congr hc, hn, freeNodes_nil]
  | cons r L ih =>
    obtain ⟨rfl, h₀, hr, h⟩ := freeNodes_cons.mp h
    obtain ⟨h₁, h₂⟩ := List.pairwise_cons.mp hsep
    have hrp : r.1 + 8 ≤ p.1 := h₁ p (by simp)
    have hc : ∀ b, r.1 ≤ b → b < r.1 + 8 → setNext m p.1 q.1 b = m b :=
      fun b _ _ => setNext_of_outside m _ (by omega)
    refine freeNodes_cons.mpr ⟨rfl, h₀, by rw [nodeSize_congr hc, hr], ?_⟩
    rw [nodeNext_congr hc]
    exact ih h h₂

theorem FreeNodes.insert_after (h : FreeNodes m p.1 (p :: L)) (hx : x.1 ≠ 0) (hlt : x.1 < 2 ^ 32)
    (hs : nodeSize m x.1 = x.2) (hd : ∀ r ∈ p :: L, r.1 + 8 ≤ x.1 ∨ x.1 + 8 ≤ r.1)
    (hp : ∀ r ∈ L, p.1 + 8 ≤ r.1) :
    FreeNodes (setNext (setNext m p.1 x.1) x.1 (nodeNext m p.1)) p.1 (p :: x :: L) := by
  obtain ⟨-, h₀, hps, h⟩ := freeNodes_cons.mp h
  have hpx := hd p (by simp)
  have hcp : ∀ b, p.1 ≤ b → b < p.1 + 8 → setNext (setNext m p.1 x.1) x.1 (nodeNext m p.1) b =
      setNext m p.1 x.1 b := fun b _ _ => setNext_of_outside _ _ (by omega)
  have hcx : ∀ b, x.1 ≤ b → b < x.1 + 8 → setNext m p.1 x.1 b = m b :=
    fun b _ _ => setNext_of_outside _ _ (by omega)
  refine freeNodes_cons.mpr ⟨rfl, h₀, ?_, ?_⟩
  · rw [nodeSize_congr hcp, nodeSize_setNext_self, hps]
  · rw [nodeNext_congr hcp, nodeNext_setNext, u32_of_lt hlt]
    refine freeNodes_cons.mpr ⟨rfl, hx, ?_, ?_⟩
    · rw [nodeSize_setNext_self, nodeSize_congr hcx, hs]
    · rw [nodeNext_setNext, u32_nodeNext]
      refine h.congr fun r hr b _ _ => ?_
      have := hp r hr
      have := hd r (List.mem_cons_of_mem _ hr)
      rw [setNext_of_outside _ _ (by omega), setNext_of_outside _ _ (by omega)]

/-- **Sorted insertion.** -/
theorem vmmSortedInsert_spec {fuel : ℕ} (h : FreeNodes m p.1 (p :: L)) (hf : L.length < fuel)
    (hx : x.1 ≠ 0) (hlt : x.1 < 2 ^ 32) (hs : nodeSize m x.1 = x.2)
    (hd : ∀ r ∈ p :: L, r.1 + 8 ≤ x.1 ∨ x.1 + 8 ≤ r.1)
    (hsep : (p :: L).Pairwise fun r r' => r.1 + 8 ≤ r'.1) :
    ∃ m', vmmSortedInsert m fuel p.1 x.1 = some m' ∧
      FreeNodes m' p.1 (p :: L.orderedInsert (fun r r' => r.1 < r'.1) x) ∧
      ∀ b, (∀ r ∈ x :: p :: L, b < r.1 ∨ r.1 + 8 ≤ b) → m' b = m b := by
  obtain ⟨f, rfl⟩ : ∃ f, fuel = f + 1 := ⟨fuel - 1, by omega⟩
  have hins := h.insert_after hx hlt hs hd (List.pairwise_cons.mp hsep).1
  have hfr : ∀ b, (∀ r ∈ x :: p :: L, b < r.1 ∨ r.1 + 8 ≤ b) →
      setNext (setNext m p.1 x.1) x.1 (nodeNext m p.1) b = m b := fun b hb => by
    rw [setNext_of_outside _ _ (hb x (by simp)), setNext_of_outside _ _ (hb p (by simp))]
  induction L generalizing p f with
  | nil =>
    have hn : nodeNext m p.1 = 0 := freeNodes_nil.mp (freeNodes_cons.mp h).2.2.2
    exact ⟨_, by rw [vmmSortedInsert, if_neg (by simp [hn])], hins, hfr⟩
  | cons q L ih =>
    obtain ⟨-, h₀, hp, h⟩ := freeNodes_cons.mp h
    have hq : nodeNext m p.1 = q.1 := (freeNodes_cons.mp h).1
    have hq₀ : q.1 ≠ 0 := (freeNodes_cons.mp h).2.1
    rw [hq] at h
    have hpx := hd p (by simp)
    obtain ⟨h₁, h₂⟩ := List.pairwise_cons.mp hsep
    rw [vmmSortedInsert, hq, List.orderedInsert]
    by_cases hc : x.1 < q.1
    · rw [if_neg (by omega), if_pos hc, ← hq]
      exact ⟨_, rfl, hins, hfr⟩
    · rw [if_pos ⟨hq₀, by omega⟩, if_neg hc]
      have hd' : ∀ r ∈ q :: L, r.1 + 8 ≤ x.1 ∨ x.1 + 8 ≤ r.1 :=
        fun r hr => hd r (List.mem_cons_of_mem _ hr)
      obtain ⟨g, rfl⟩ : ∃ g, f = g + 1 := ⟨f - 1, by simp at hf; omega⟩
      obtain ⟨m', e, hm', hfr'⟩ := ih h hd' h₂ g (by simp at hf ⊢; omega)
        (h.insert_after hx hlt hs hd' (List.pairwise_cons.mp h₂).1) fun b hb => by
          rw [setNext_of_outside _ _ (hb x (by simp)), setNext_of_outside _ _ (hb q (by simp))]
      have hcp : ∀ b, p.1 ≤ b → b < p.1 + 8 → m' b = m b := by
        intro b hb₁ hb₂
        refine hfr' b fun r hr => ?_
        rcases List.mem_cons.mp hr with rfl | hr
        · omega
        · have := h₁ r hr
          omega
      refine ⟨m', e, freeNodes_cons.mpr ⟨rfl, h₀, by rw [nodeSize_congr hcp, hp], ?_⟩, ?_⟩
      · rw [nodeNext_congr hcp, hq]
        exact hm'
      · intro b hb
        refine hfr' b fun r hr => hb r ?_
        rcases List.mem_cons.mp hr with rfl | hr
        · exact List.mem_cons_self
        · exact List.mem_cons_of_mem _ (List.mem_cons_of_mem _ hr)

/-- **Merging in memory.** -/
theorem vmmMergeFreeBlock_spec {fuel : ℕ} (h : FreeNodes m p.1 (p :: L)) (hf : L.length < fuel)
    (hs : Sorted (p :: L)) (hB : ∀ r ∈ p :: L, r.1 + sizeofNode + r.2 < 2 ^ 32) :
    ∃ m', vmmMergeFreeBlock fuel m p.1 = some m' ∧ FreeNodes m' p.1 (mergeNodes p L) ∧
      ∀ b, (∀ r ∈ p :: L, b < r.1 ∨ r.1 + 8 ≤ b) → m' b = m b := by
  induction L generalizing p m fuel with
  | nil =>
    obtain ⟨f, rfl⟩ : ∃ f, fuel = f + 1 := ⟨fuel - 1, by simp at hf; omega⟩
    have hn : nodeNext m p.1 = 0 := freeNodes_nil.mp (freeNodes_cons.mp h).2.2.2
    exact ⟨m, by rw [vmmMergeFreeBlock, if_pos hn], h, fun _ _ => rfl⟩
  | cons q L ih =>
    obtain ⟨f, rfl⟩ : ∃ f, fuel = f + 1 := ⟨fuel - 1, by omega⟩
    obtain ⟨-, h₀, hp, h⟩ := freeNodes_cons.mp h
    obtain ⟨hq, hq₀, hqs, h'⟩ := freeNodes_cons.mp h
    have hpB := hB p (by simp)
    have hqB := hB q (by simp)
    obtain ⟨h₁, h₂⟩ := List.pairwise_cons.mp hs
    have hpq := h₁ q List.mem_cons_self
    simp only [sizeofNode] at hpB hqB hpq
    rw [vmmMergeFreeBlock, if_neg (by rw [hq]; exact hq₀), hq, hp, hqs, mergeNodes,
      u32_of_lt (by simp only [sizeofNode]; omega)]
    by_cases hc : p.1 + p.2 + sizeofNode = q.1
    · simp only [if_pos hc, nodeNext_setSize_self, hq]
      have hc' := hc
      simp only [sizeofNode] at hc'
      -- the next field of the swallowed node is read after the size has been stored
      have hnq : nodeNext (setSize m p.1 (u32 (p.2 + q.2 + sizeofNode))) q.1 = nodeNext m q.1 :=
        nodeNext_congr fun b _ _ => setSize_of_outside _ _ (by omega)
      rw [hnq]
      have hfr : ∀ b, b < p.1 ∨ p.1 + 8 ≤ b →
          setNext (setSize m p.1 (u32 (p.2 + q.2 + sizeofNode))) p.1 (nodeNext m q.1) b = m b :=
        fun b hb => by rw [setNext_of_outside _ _ hb, setSize_of_outside _ _ hb]
      have hstep := sorted_merge_step hs hc
      obtain ⟨m', e, hm', hfr'⟩ := ih (p := (p.1, p.2 + q.2 + sizeofNode))
        (m := setNext (setSize m p.1 (u32 (p.2 + q.2 + sizeofNode))) p.1 (nodeNext m q.1))
        (freeNodes_cons.mpr ⟨rfl, h₀, by
          rw [nodeSize_setNext_self, nodeSize_setSize]
          rw [u32_of_lt (u32_lt _), u32_of_lt (by simp only [sizeofNode]; omega)], by
          rw [nodeNext_setNext, u32_nodeNext]
          refine h'.congr fun r hr b _ _ => hfr b ?_
          have := (List.pairwise_cons.mp hstep).1 r hr
          simp only [sizeofNode] at this
          omega⟩)
        (show _ < f by simp at hf; omega) hstep fun r hr => by
          rcases List.mem_cons.mp hr with rfl | hr
          · simp only [sizeofNode]; omega
          · exact hB r (by simp [hr])
      refine ⟨m', e, hm', fun b hb => ?_⟩
      rw [hfr' b fun r hr => ?_, hfr b (hb p (by simp))]
      rcases List.mem_cons.mp hr with rfl | hr
      · exact hb p (by simp)
      · exact hb r (by simp [hr])
    · rw [if_neg hc, if_neg hc]
      rw [hq] at h
      obtain ⟨m', e, hm', hfr⟩ := ih h (by simpa using hf) h₂
        fun r hr => hB r (List.mem_cons_of_mem _ hr)
      have hcp : ∀ b, p.1 ≤ b → b < p.1 + 8 → m' b = m b := by
        intro b hb₁ hb₂
        refine hfr b fun r hr => ?_
        have := h₁ r hr
        simp only [sizeofNode] at this
        omega
      refine ⟨m', e, freeNodes_cons.mpr ⟨rfl, h₀, by rw [nodeSize_congr hcp, hp], ?_⟩, ?_⟩
      · rw [nodeNext_congr hcp, hq]
        exact hm'
      · exact fun b hb => hfr b fun r hr => hb r (List.mem_cons_of_mem _ hr)

end BulbOS.Heap
