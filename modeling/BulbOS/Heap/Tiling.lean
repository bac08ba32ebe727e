import BulbOS.Heap.FreeList
import BulbOS.Lib.Run
import BulbOS.Lib.Tiling

/-!
# The list heap is tiled

Over every run of `kmalloc`, `kfree` and writes of the block owners, the free nodes and the live
blocks tile the heap. `HeapInv s L live` is the invariant: `L` is the free list as pairs
(address, size), `live` the blocks handed out as pairs (pointer, bytes asked for).

* one lemma for each operation: `HeapInv.take`, `HeapInv.enlarge`, `HeapInv.listAlloc`,
  `HeapInv.kfree`, `HeapInv.write`.
-/

namespace BulbOS.Heap

open KLib

variable {s s' : Vmm} {L live : List (ℕ × ℕ)} {b p : ℕ × ℕ}

/-- The bytes of a live block, its size header included. -/
def liveSpan (b : ℕ × ℕ) : ℕ × ℕ := (b.1 - sizeofSizeT, b.1 + b.2)

theorem tiles_merge {R : List (ℕ × ℕ)} {lo hi : ℕ} (h : Tiles ((p :: L).map nodeSpan ++ R) lo hi) :
    Tiles ((mergeNodes p L).map nodeSpan ++ R) lo hi := fun y => by
  rw [List.countP_append, countP_mergeNodes, ← List.countP_append]
  exact h y

/-- The free nodes, sorted by address, and the live blocks tile the heap. -/
structure HeapShape (s : Vmm) (L live : List (ℕ × ℕ)) : Prop where
  nodes : FreeNodes s.mem s.kheapHead L
  sorted : Sorted L
  head : s.kheapHead = s.kheapStart
  start_pos : 0 < s.kheapStart
  start_lt : s.kheapStart < s.kheapEnd
  end_le : s.kheapEnd ≤ s.kheapStackStart
  stack : s.kheapStackEnd + pageFrameSize ≤ s.kheapStackStart
  stack_lt : s.kheapStackStart < 2 ^ 32
  header : ∀ b ∈ live, 4 ≤ b.1 ∧ 0 < b.2 ∧ load32 s.mem (b.1 - 4) = b.2 + 4
  tiles : Tiles (L.map nodeSpan ++ live.map liveSpan) s.kheapStart s.kheapEnd

/-- The heap invariant: moreover no two free nodes touch. -/
structure HeapInv (s : Vmm) (L live : List (ℕ × ℕ)) : Prop extends HeapShape s L live where
  apart : Apart L

/-- Between two states the bytes of the live blocks, their headers included, and the page heap stay. -/
structure Keeps (live : List (ℕ × ℕ)) (s s' : Vmm) : Prop where
  mem : ∀ b ∈ live, ∀ y, b.1 - 4 ≤ y → y < b.1 + b.2 → s'.mem y = s.mem y
  start : s'.kheapStart = s.kheapStart
  last : s'.kheapStackLast = s.kheapStackLast
  stackStart : s'.kheapStackStart = s.kheapStackStart
  stackEnd : s'.kheapStackEnd = s.kheapStackEnd

theorem Keeps.refl (live : List (ℕ × ℕ)) (s : Vmm) : Keeps live s s :=
  ⟨fun _ _ _ _ _ => rfl, rfl, rfl, rfl, rfl⟩

theorem Keeps.trans {s'' : Vmm} (h : Keeps live s s') (h' : Keeps live s' s'') : Keeps live s s'' where
  mem b hb y h₁ h₂ := (h'.mem b hb y h₁ h₂).trans (h.mem b hb y h₁ h₂)
  start := h'.start.trans h.start
  last := h'.last.trans h.last
  stackStart := h'.stackStart.trans h.stackStart
  stackEnd := h'.stackEnd.trans h.stackEnd

namespace HeapShape

theorem exists_head (h : HeapShape s L live) : ∃ k L', L = (s.kheapStart, k) :: L' := by
  have hn := h.nodes
  have hpos := h.start_pos
  rw [h.head] at hn
  cases L with
  | nil => rw [freeNodes_nil] at hn; omega
  | cons q L => exact ⟨q.2, L, by rw [(freeNodes_cons.mp hn).1]⟩

theorem span_lt (h : HeapShape s L live) :
    ∀ g ∈ L.map nodeSpan ++ live.map liveSpan, g.1 < g.2 := by
  intro g hg
  rcases List.mem_append.mp hg with hg | hg
  · obtain ⟨p, _, rfl⟩ := List.mem_map.mp hg
    simp only [nodeSpan, sizeofNode]; omega
  · obtain ⟨b, hb, rfl⟩ := List.mem_map.mp hg
    have := h.header b hb
    simp only [liveSpan, sizeofSizeT]; omega

theorem node_bounds (h : HeapShape s L live) (hp : p ∈ L) :
    s.kheapStart ≤ p.1 ∧ p.1 + 8 + p.2 ≤ s.kheapEnd := by
  have hg : nodeSpan p ∈ L.map nodeSpan ++ live.map liveSpan :=
    List.mem_append_left _ (List.mem_map_of_mem hp)
  simpa [nodeSpan, sizeofNode] using h.tiles.bounds hg (h.span_lt _ hg)

theorem live_bounds (h : HeapShape s L live) (hb : b ∈ live) :
    s.kheapStart ≤ b.1 - 4 ∧ b.1 + b.2 ≤ s.kheapEnd := by
  have hg : liveSpan b ∈ L.map nodeSpan ++ live.map liveSpan :=
    List.mem_append_right _ (List.mem_map_of_mem hb)
  simpa [liveSpan, sizeofSizeT] using h.tiles.bounds hg (h.span_lt _ hg)

theorem node_live_disjoint (h : HeapShape s L live) (hp : p ∈ L) (hb : b ∈ live) :
    p.1 + 8 + p.2 ≤ b.1 - 4 ∨ b.1 + b.2 ≤ p.1 :=
  (List.pairwise_append.mp (h.tiles.pairwise h.span_lt)).2.2 _ (List.mem_map_of_mem hp) _
    (List.mem_map_of_mem hb)

theorem perm_live (hb : b ∈ live) : (L.map nodeSpan ++ live.map liveSpan).Perm
    (liveSpan b :: (L.map nodeSpan ++ (live.erase b).map liveSpan)) :=
  (((List.perm_cons_erase hb).map liveSpan).append_left _).trans List.perm_middle

theorem live_disjoint (h : HeapShape s L live) (hb : b ∈ live) {b' : ℕ × ℕ}
    (hb' : b' ∈ live.erase b) : b.1 + b.2 ≤ b'.1 - 4 ∨ b'.1 + b'.2 ≤ b.1 - 4 := by
  have hp := perm_live (L := L) hb
  have hmem := List.mem_append_right (L.map nodeSpan) (List.mem_map_of_mem (f := liveSpan) hb')
  exact (h.tiles.perm hp).disjoint_head hmem (h.span_lt _ (hp.mem_iff.mpr List.mem_cons_self))
    (h.span_lt _ (hp.mem_iff.mpr (List.mem_cons_of_mem _ hmem)))

theorem length_lt (h : HeapShape s L live) : L.length < s.listFuel := by
  obtain ⟨k, L', rfl⟩ := h.exists_head
  have := length_of_sorted h.sorted fun r hr => by
    have := h.node_bounds hr
    exact (by omega : r.1 < s.kheapEnd)
  unfold Vmm.listFuel
  omega

theorem node_sep (h : HeapShape s L live) : L.Pairwise fun r r' => r.1 + 8 ≤ r'.1 :=
  h.sorted.imp fun hr => by simp only [sizeofNode] at hr; omega

/-- **Merging.** -/
theorem merge (h : HeapShape s L live) :
    ∃ m L', vmmMergeFreeBlock s.listFuel s.mem s.kheapHead = some m ∧
      HeapInv { s with mem := m } L' live ∧ Keeps live s { s with mem := m } := by
  have hend := h.end_le
  have hlt := h.stack_lt
  have hlen := h.length_lt
  obtain ⟨k, L', rfl⟩ := h.exists_head
  obtain ⟨m, hm, hn, hfr⟩ := vmmMergeFreeBlock_spec (h.head ▸ h.nodes)
    (show _ < s.listFuel by simp only [List.length_cons] at hlen; omega) h.sorted fun r hr => by
      have := h.node_bounds hr
      simp only [sizeofNode]; omega
  have hkeep : ∀ b ∈ live, ∀ y, b.1 - 4 ≤ y → y < b.1 + b.2 → m y = s.mem y := by
    intro b hb y h₁ h₂
    refine hfr y fun r hr => ?_
    have := h.node_live_disjoint hr hb
    omega
  refine ⟨m, mergeNodes (s.kheapStart, k) L', by rw [h.head]; exact hm, ?_, hkeep, rfl, rfl, rfl, rfl⟩
  refine ⟨⟨by rw [h.head]; exact hn, (mergeNodes_apart h.sorted).sorted, h.head, h.start_pos,
    h.start_lt, h.end_le, h.stack, h.stack_lt, fun b hb => ?_, tiles_merge h.tiles⟩,
    mergeNodes_apart h.sorted⟩
  have hh := h.header b hb
  refine ⟨hh.1, hh.2.1, ?_⟩
  rw [← hh.2.2]
  exact load32_congr fun y _ _ => hkeep b hb y (by omega) (by omega)

end HeapShape

/-! ## The operations -/

theorem find_node (L : List (ℕ × ℕ)) (size : ℕ) :
    ((L.find? fun p => size < p.2).map Prod.fst).getD 0 = 0 ∨
      ∃ k, (((L.find? fun p => size < p.2).map Prod.fst).getD 0, k) ∈ L ∧ size < k := by
  cases hf : L.find? fun p => size < p.2 with
  | none => exact Or.inl rfl
  | some p =>
    have := List.find?_some hf
    exact Or.inr ⟨p.2, List.mem_of_find?_eq_some hf, by simpa using this⟩

namespace HeapInv

/-- Only the bytes of the free nodes and the size headers matter to the invariant. -/
theorem congr_mem (h : HeapInv s L live) {m : Mem}
    (hn : ∀ p ∈ L, ∀ y, p.1 ≤ y → y < p.1 + 8 → m y = s.mem y)
    (hl : ∀ b ∈ live, ∀ y, b.1 - 4 ≤ y → y < b.1 → m y = s.mem y) :
    HeapInv { s with mem := m } L live where
  nodes := h.nodes.congr hn
  sorted := h.sorted
  apart := h.apart
  head := h.head
  start_pos := h.start_pos
  start_lt := h.start_lt
  end_le := h.end_le
  stack := h.stack
  stack_lt := h.stack_lt
  header b hb := by
    have hh := h.header b hb
    refine ⟨hh.1, hh.2.1, ?_⟩
    rw [← hh.2.2]
    exact load32_congr fun y _ _ => hl b hb y (by omega) (by omega)
  tiles := h.tiles

/-- **The owner of a block writes into it.** -/
theorem write (h : HeapInv s L live) (hb : b ∈ live) {i : ℕ} (hi : i < b.2) (v : UInt8) :
    HeapInv { s with mem := Function.update s.mem (b.1 + i) v } L live := by
  have hh := h.header b hb
  refine h.congr_mem (fun p hp y _ _ => ?_) (fun b' hb' y _ _ => ?_)
  · have := h.node_live_disjoint hp hb
    exact Function.update_of_ne (by omega) _ _
  · refine Function.update_of_ne ?_ _ _
    by_cases hbb : b' = b
    · subst hbb; omega
    · have := h.live_disjoint hb ((List.mem_erase_of_ne hbb).mpr hb')
      omega

theorem vmmTakeNode_eq {a k size : ℕ} (hsz : nodeSize s.mem a = k) (hk : size < k)
    (hlt : a + 8 + (k - size) + 4 < 2 ^ 32) (prev : ℕ) : vmmTakeNode s a prev size =
      (a + 8 + (k - size) + 4, { s with mem := store32 (setSize s.mem a (k - size)) (a + 8 + (k - size)) size }) := by
  have hsub : nodeSize (setSize s.mem a (k - size)) a = k - size := by
    rw [nodeSize_setSize, u32_of_lt (by omega)]
  have hk32 : k < 2 ^ 32 := hsz ▸ load32_lt _ _
  unfold vmmTakeNode vmmNodeRetAddr
  rw [hsz, sub32_of_le hk.le hk32]
  simp only [hsub, sizeofNode, sizeofSizeT]
  rw [if_neg (by omega), u32_of_lt (show a + 8 + (k - size) < 2 ^ 32 by omega), u32_of_lt hlt]

/-- **Taking a block from the end of a node.** -/
theorem take (h : HeapInv s L live) {a k n : ℕ} (ha : (a, k) ∈ L) (hk : n + 4 < k) (hn : 0 < n)
    (prev : ℕ) : ∃ ptr s' L', vmmTakeNode s a prev (n + 4) = (ptr, s') ∧ ptr ≠ 0 ∧
      HeapInv s' L' ((ptr, n) :: live) ∧ Keeps live s s' ∧ s'.kheapEnd = s.kheapEnd := by
  have hab := h.node_bounds ha
  have hend := h.end_le
  have hlt := h.stack_lt
  simp only at hab
  have hsz : nodeSize s.mem a = k := h.nodes.2 _ ha
  set m₁ := setSize s.mem a (k - (n + 4)) with hm₁
  set hdr := a + 8 + (k - (n + 4)) with hhdr
  have hsz₁ : nodeSize m₁ a = k - (n + 4) := by rw [hm₁, nodeSize_setSize, u32_of_lt (by omega)]
  have htake : vmmTakeNode s a prev (n + 4) =
      (hdr + 4, { s with mem := store32 m₁ hdr (n + 4) }) :=
    vmmTakeNode_eq hsz hk (by omega) prev
  -- outside the node's own size field and the new header nothing changes
  have hfr : ∀ y, (y < a ∨ a + 4 ≤ y) → (y < hdr ∨ hdr + 4 ≤ y) →
      store32 m₁ hdr (n + 4) y = s.mem y := fun y h₁ h₂ => by
    rw [store32_of_outside _ _ h₂, hm₁]
    exact store32_of_outside _ _ h₁
  obtain ⟨L₁, L₂, rfl⟩ := List.append_of_mem ha
  have hsep := h.apart.sorted
  obtain ⟨hs₁, hs₂, hs₁₂⟩ := List.pairwise_append.mp hsep
  have hother : ∀ p ∈ L₁ ++ L₂, p.1 + 8 + p.2 ≤ a ∨ a + 8 + k ≤ p.1 := by
    intro p hp
    rcases List.mem_append.mp hp with hp | hp
    · exact Or.inl (hs₁₂ p hp _ List.mem_cons_self)
    · exact Or.inr ((List.pairwise_cons.mp hs₂).1 p hp)
  have hsub : ∀ p ∈ L₁ ++ (a, k - (n + 4)) :: L₂, p = (a, k - (n + 4)) ∨ p ∈ L₁ ++ L₂ := by
    intro p hp
    simp only [List.mem_append, List.mem_cons] at hp ⊢
    tauto
  have hkeep : ∀ b ∈ live, ∀ y, b.1 - 4 ≤ y → y < b.1 + b.2 → store32 m₁ hdr (n + 4) y = s.mem y := by
    intro b hb y h₁ h₂
    have hd := h.node_live_disjoint ha hb
    simp only at hd
    exact hfr y (by omega) (by omega)
  refine ⟨hdr + 4, _, L₁ ++ (a, k - (n + 4)) :: L₂, htake, by omega, ?_, ⟨hkeep, rfl, rfl, rfl, rfl⟩, rfl⟩
  have hap' : Apart (L₁ ++ (a, k - (n + 4)) :: L₂) := by
    have hap := h.apart
    unfold Apart at hap ⊢
    rw [List.pairwise_append] at hap ⊢
    obtain ⟨h₁, h₂, h₃⟩ := hap
    obtain ⟨h₄, h₅⟩ := List.pairwise_cons.mp h₂
    refine ⟨h₁, List.pairwise_cons.mpr ⟨fun q hq => ?_, h₅⟩, fun q hq r hr => ?_⟩
    · have := h₄ q hq
      simp only [sizeofNode] at this ⊢
      omega
    · rcases List.mem_cons.mp hr with rfl | hr
      · exact h₃ q hq (a, k) List.mem_cons_self
      · exact h₃ q hq r (List.mem_cons_of_mem _ hr)
  refine ⟨⟨⟨?_, fun p hp => ?_⟩, hap'.sorted, h.head, h.start_pos, h.start_lt, h.end_le, h.stack,
    h.stack_lt, ?_, ?_⟩, hap'⟩
  · have := h.nodes.1
    simp only [List.map_append, List.map_cons] at this ⊢
    refine this.congr fun c hc => load32_congr fun y _ _ => ?_
    simp only [List.mem_append, List.mem_map, List.mem_cons] at hc
    have hc' : c = a ∨ ∃ p ∈ L₁ ++ L₂, p.1 = c := by
      simp only [List.mem_append]
      rcases hc with ⟨p, hp, rfl⟩ | rfl | ⟨p, hp, rfl⟩
      · exact Or.inr ⟨p, Or.inl hp, rfl⟩
      · exact Or.inl rfl
      · exact Or.inr ⟨p, Or.inr hp, rfl⟩
    rcases hc' with rfl | ⟨p, hp, rfl⟩
    · exact hfr y (by omega) (by omega)
    · have := hother p hp
      exact hfr y (by omega) (by omega)
  · rcases hsub p hp with rfl | hp
    · rw [← hsz₁]
      exact load32_store32_of_disjoint _ _ (by omega)
    · have := hother p hp
      rw [nodeSize_congr fun y _ _ => hfr y (by omega) (by omega)]
      exact h.nodes.2 p (by simp only [List.mem_append, List.mem_cons] at hp ⊢; tauto)
  · intro b hb
    rcases List.mem_cons.mp hb with rfl | hb
    · refine ⟨by simp, hn, ?_⟩
      simp only [Nat.add_sub_cancel]
      rw [load32_store32, u32_of_lt (by omega)]
    · have hh := h.header b hb
      refine ⟨hh.1, hh.2.1, ?_⟩
      rw [← hh.2.2]
      exact load32_congr fun y _ _ => hkeep b hb y (by omega) (by omega)
  · have hp₁ : ((L₁ ++ (a, k) :: L₂).map nodeSpan ++ live.map liveSpan).Perm
        ((a, a + 8 + k) :: (L₁.map nodeSpan ++ (L₂.map nodeSpan ++ live.map liveSpan))) := by
      simp only [List.map_append, List.map_cons, List.append_assoc, List.cons_append, nodeSpan,
        sizeofNode]
      exact List.perm_middle
    have hcut := (tiles_split (b := hdr) (by omega) (by omega)).mpr (h.tiles.perm hp₁)
    refine hcut.perm ?_
    have e₁ : liveSpan (hdr + 4, n) = (hdr, a + 8 + k) := by
      simp only [liveSpan, sizeofSizeT, Prod.mk.injEq]; omega
    have e₂ : nodeSpan (a, k - (n + 4)) = (a, hdr) := by
      simp only [nodeSpan, sizeofNode, hhdr]
    simp only [List.map_append, List.map_cons, List.append_assoc, List.cons_append, e₁, e₂]
    refine List.Perm.trans (List.Perm.cons _ ?_) List.perm_middle.symm
    exact List.perm_middle.symm.trans (List.perm_middle.symm.append_left _)

/-- **Enlarging the heap by a page.** -/
theorem enlarge (h : HeapInv s L live) (hroom : s.kheapEnd ≤ s.kheapStackEnd) (prev size : ℕ) :
    ∃ node prev' s' L', vmmEnlarge s prev size = some (node, prev', s') ∧ HeapInv s' L' live ∧
      (node = 0 ∨ ∃ k, (node, k) ∈ L' ∧ size < k) ∧ s'.kheapEnd = s.kheapEnd + pageFrameSize ∧
      Keeps live s s' := by
  have hst := h.stack
  have hlt := h.stack_lt
  have hstart := h.start_lt
  have hlen := h.length_lt
  simp only [pageFrameSize] at hst
  set e := s.kheapEnd with he
  set m₀ := setNext (setSize s.mem e (pageFrameSize - sizeofNode)) e 0 with hm₀
  have hfr₀ : ∀ y, y < e → m₀ y = s.mem y := fun y hy => by
    rw [hm₀, setNext_of_outside _ _ (by omega), setSize_of_outside _ _ (by omega)]
  have hsz : nodeSize m₀ e = 4088 := by rw [hm₀, nodeSize_setNext_self, nodeSize_setSize]; rfl
  have hnx : nodeNext m₀ e = 0 := by rw [hm₀, nodeNext_setNext]; rfl
  have hn₀ : FreeNodes m₀ s.kheapHead L := h.nodes.congr fun p hp y _ _ => by
    have := h.node_bounds hp
    exact hfr₀ y (by omega)
  obtain ⟨k, L', rfl⟩ := h.exists_head
  -- the new page becomes the last node of the list, then the list is merged
  set q := ((s.kheapStart, k) :: L').getLast (by simp) with hq
  have hqmem : q ∈ (s.kheapStart, k) :: L' := List.getLast_mem _
  have hinit : (s.kheapStart, k) :: L' = ((s.kheapStart, k) :: L').dropLast ++ [q] :=
    (List.dropLast_append_getLast (by simp)).symm
  have hlast : vmmLastNode m₀ s.listFuel s.kheapHead = some q.1 := by
    rw [hinit] at hn₀
    refine vmmLastNode_spec hn₀ ?_
    rw [List.length_dropLast]
    omega
  have hsorted : Sorted ((s.kheapStart, k) :: L' ++ [(e, 4088)]) := by
    refine List.pairwise_append.mpr ⟨h.apart.sorted, List.pairwise_singleton _ _, fun p hp r hr => ?_⟩
    rw [List.mem_singleton.mp hr]
    exact (h.node_bounds hp).2
  have hn₁ : FreeNodes (setNext m₀ q.1 e) s.kheapHead ((s.kheapStart, k) :: (L' ++ [(e, 4088)])) := by
    have hpair : (((s.kheapStart, k) :: L').dropLast ++ [q, (e, 4088)]).Pairwise
        fun r r' => r.1 + 8 ≤ r'.1 := by
      rw [show ((s.kheapStart, k) :: L').dropLast ++ [q, (e, 4088)] =
        (s.kheapStart, k) :: L' ++ [(e, 4088)] by rw [hinit]; simp]
      exact hsorted.imp fun hr => by simp only [sizeofNode] at hr; omega
    have := FreeNodes.snoc (q := (e, 4088)) (hinit ▸ hn₀) (by simp; omega) (by simp; omega) hsz hnx
      hpair
    rwa [show ((s.kheapStart, k) :: L').dropLast ++ [q, (e, 4088)] =
      (s.kheapStart, k) :: (L' ++ [(e, 4088)]) by
        rw [← List.cons_append]; conv_rhs => rw [hinit]
        simp] at this
  set s₁ : Vmm := { s with mem := setNext m₀ q.1 e, kheapEnd := u32 (e + pageFrameSize) } with hs₁
  have hend : s₁.kheapEnd = e + 4096 := u32_of_lt (by simp only [pageFrameSize]; omega)
  have hkeep : Keeps live s s₁ := by
    refine ⟨fun b hb y h₁ h₂ => ?_, rfl, rfl, rfl, rfl⟩
    have hbb := h.live_bounds hb
    have hqb := h.node_live_disjoint hqmem hb
    change setNext m₀ q.1 e y = s.mem y
    rw [setNext_of_outside _ _ (by omega), hfr₀ y (by omega)]
  have hshape : HeapShape s₁ ((s.kheapStart, k) :: (L' ++ [(e, 4088)])) live := by
    refine ⟨hn₁, hsorted, h.head, h.start_pos, ?_, ?_, h.stack, h.stack_lt, fun b hb => ?_, ?_⟩
    · change s.kheapStart < s₁.kheapEnd
      omega
    · change s₁.kheapEnd ≤ s.kheapStackStart
      omega
    · have hh := h.header b hb
      refine ⟨hh.1, hh.2.1, ?_⟩
      rw [← hh.2.2]
      exact load32_congr fun y _ _ => hkeep.mem b hb y (by omega) (by omega)
    · change Tiles _ s.kheapStart s₁.kheapEnd
      rw [hend]
      refine (h.tiles.extend hstart.le (show _ ≤ e + 4096 by omega)).perm ?_
      rw [show (s.kheapStart, k) :: (L' ++ [(e, 4088)]) = ((s.kheapStart, k) :: L') ++ [(e, 4088)]
        from rfl, List.map_append, List.append_assoc]
      exact List.perm_middle.symm
  obtain ⟨m₂, L₂, hm₂, hinv, hkeep₂⟩ := hshape.merge
  obtain ⟨prev', hget⟩ := vmmGetNode_spec hinv.nodes hinv.length_lt prev size
  refine ⟨((L₂.find? fun p => size < p.2).map Prod.fst).getD 0, prev', _, L₂, ?_, hinv, ?_, hend,
    hkeep.trans hkeep₂⟩
  · simp only [vmmEnlarge, ← he, ← hm₀, hlast, Option.bind_eq_bind, Option.bind_some]
    rw [← hs₁, hm₂]
    simp only [Option.bind_some]
    exact hget ▸ rfl
  · exact find_node L₂ size

theorem findNode {fuel node size : ℕ} (h : HeapInv s L live)
    (hf : s.kheapStackEnd + 1 - s.kheapEnd ≤ fuel * pageFrameSize)
    (hnode : node = 0 ∨ ∃ k, (node, k) ∈ L ∧ size < k) (prev : ℕ) :
    ∃ node' prev' s' L', vmmFindNode fuel s node prev size = some (node', prev', s') ∧
      HeapInv s' L' live ∧ (node' = 0 ∨ ∃ k, (node', k) ∈ L' ∧ size < k) ∧ Keeps live s s' := by
  induction fuel generalizing s L node prev with
  | zero =>
    unfold vmmFindNode
    by_cases h₀ : node ≠ 0
    · exact ⟨node, prev, s, L, by rw [if_pos h₀], h, hnode, .refl _ _⟩
    · exact ⟨0, prev, s, L, by rw [if_neg h₀, if_pos (by omega)], h, Or.inl rfl, .refl _ _⟩
  | succ fuel ih =>
    unfold vmmFindNode
    by_cases h₀ : node ≠ 0
    · exact ⟨node, prev, s, L, by rw [if_pos h₀], h, hnode, .refl _ _⟩
    · rw [if_neg h₀]
      by_cases hroom : s.kheapEnd > s.kheapStackEnd
      · exact ⟨0, prev, s, L, by rw [if_pos hroom], h, Or.inl rfl, .refl _ _⟩
      · rw [if_neg hroom]
        have hf' : s.kheapStackEnd + 1 - (s.kheapEnd + pageFrameSize) ≤ fuel * pageFrameSize := by
          clear hnode
          rw [Nat.succ_mul] at hf
          omega
        obtain ⟨n', p', s', L', he, hinv, hn', hend, hkeep⟩ := h.enlarge (by omega) prev size
        simp only [he, Option.bind_eq_bind, Option.bind_some]
        obtain ⟨n₂, p₂, s₂, L₂, e₂, hinv₂, hn₂, hkeep₂⟩ :=
          ih hinv (by rw [hend, hkeep.stackEnd]; exact hf') hn' p'
        exact ⟨n₂, p₂, s₂, L₂, e₂, hinv₂, hn₂, hkeep.trans hkeep₂⟩

/-- **The list allocator.** -/
theorem listAlloc (h : HeapInv s L live) {n : ℕ} (hn : 0 < n) (hlt : n + 4 < 2 ^ 32) :
    ∃ ptr s' L', vmmListAlloc s n = some (ptr, s') ∧
      HeapInv s' L' (if ptr = 0 then live else (ptr, n) :: live) ∧ Keeps live s s' := by
  obtain ⟨prev, hget⟩ := vmmGetNode_spec h.nodes h.length_lt 0 (n + 4)
  obtain ⟨node, prev', s', L', hfind, hinv, hnode, hkeep⟩ := h.findNode
    (show _ ≤ s.growFuel * pageFrameSize by simp only [Vmm.growFuel, pageFrameSize]; omega)
    (find_node L (n + 4)) prev
  unfold vmmListAlloc
  simp only [sizeofSizeT, u32_of_lt hlt, hget, hfind, Option.bind_eq_bind, Option.bind_some]
  by_cases h₀ : node = 0
  · exact ⟨0, s', L', by rw [if_pos h₀]; rfl, by rw [if_pos rfl]; exact hinv, hkeep⟩
  · obtain ⟨k, hk, hlt⟩ := hnode.resolve_left h₀
    obtain ⟨ptr, s'', L'', ht, hptr, hinv', hkeep', _⟩ := hinv.take hk hlt hn prev'
    exact ⟨ptr, s'', L'', by rw [if_neg h₀, ht]; rfl, by rw [if_neg hptr]; exact hinv', hkeep.trans hkeep'⟩

/-- **Freeing a live block** that is large enough to become a node. -/
theorem free (h : HeapInv s L live) (hb : b ∈ live) (hsize : 4 ≤ b.2) (frame : ℕ) :
    ∃ s' L', kfree frame s b.1 = some s' ∧ HeapInv s' L' (live.erase b) ∧ Keeps (live.erase b) s s' ∧
      s'.kheapEnd = s.kheapEnd := by
  have hh := h.header b hb
  have hbb := h.live_bounds hb
  have hend := h.end_le
  have hlt := h.stack_lt
  have hpos := h.start_pos
  have hlen := h.length_lt
  set x : ℕ × ℕ := (b.1 - 4, b.2 - 4) with hx
  set m₁ := setSize s.mem x.1 x.2 with hm₁
  have hfr₁ : ∀ y, y < x.1 ∨ x.1 + 8 ≤ y → m₁ y = s.mem y :=
    fun y hy => setSize_of_outside _ _ hy
  obtain ⟨k, L', rfl⟩ := h.exists_head
  have hd : ∀ r ∈ (s.kheapStart, k) :: L', r.1 + sizeofNode + r.2 ≤ x.1 ∨
      x.1 + sizeofNode + x.2 ≤ r.1 := by
    intro r hr
    have := h.node_live_disjoint hr hb
    simp only [hx, sizeofNode]
    omega
  have hn₁ : FreeNodes m₁ s.kheapStart ((s.kheapStart, k) :: L') := by
    have hn := h.nodes
    rw [h.head] at hn
    refine hn.congr fun r hr y _ _ => hfr₁ y ?_
    have := hd r hr
    simp only [sizeofNode] at this
    omega
  have hx₁ : nodeSize m₁ x.1 = x.2 := by
    rw [hm₁, nodeSize_setSize, u32_of_lt (by simp only [hx]; omega)]
  obtain ⟨m₂, hm₂, hn₂, hfr₂⟩ := vmmSortedInsert_spec (x := x) hn₁
    (show _ < s.listFuel by simp only [List.length_cons] at hlen; omega) (by simp only [hx]; omega)
    (by simp only [hx]; omega) hx₁ (fun r hr => by
      have := hd r hr
      simp only [sizeofNode] at this
      omega) h.node_sep
  have hkeep : Keeps (live.erase b) s { s with mem := m₂ } := by
    refine ⟨fun b' hb' y h₁ h₂ => ?_, rfl, rfl, rfl, rfl⟩
    have hdis := h.live_disjoint hb hb'
    change m₂ y = s.mem y
    rw [hfr₂ y fun r hr => ?_, hfr₁ y (by simp only [hx]; omega)]
    rcases List.mem_cons.mp hr with rfl | hr
    · simp only [hx]; omega
    · have := h.node_live_disjoint hr (List.mem_of_mem_erase hb')
      omega
  have hshape : HeapShape { s with mem := m₂ }
      ((s.kheapStart, k) :: L'.orderedInsert (fun r r' => r.1 < r'.1) x) (live.erase b) := by
    refine ⟨?_, sorted_insert h.sorted hbb.1 hd, h.head, h.start_pos, h.start_lt, h.end_le, h.stack,
      h.stack_lt, fun b' hb' => ?_, ?_⟩
    · change FreeNodes m₂ s.kheapHead _
      rw [h.head]
      exact hn₂
    · have hh' := h.header b' (List.mem_of_mem_erase hb')
      refine ⟨hh'.1, hh'.2.1, ?_⟩
      rw [← hh'.2.2]
      exact load32_congr fun y _ _ => hkeep.mem b' hb' y (by omega) (by omega)
    · have hspan : nodeSpan x = liveSpan b := by
        simp only [nodeSpan, liveSpan, hx, sizeofNode, sizeofSizeT, Prod.mk.injEq, true_and]
        omega
      refine (h.tiles.perm (HeapShape.perm_live hb)).perm ?_
      rw [← hspan, List.map_cons, List.map_cons]
      refine (List.Perm.swap _ _ _).trans (List.Perm.cons _ ?_)
      exact ((List.perm_orderedInsert _ x L').symm.map nodeSpan).append_right _
  obtain ⟨m₃, L₃, hm₃, hinv, hkeep₃⟩ := hshape.merge
  refine ⟨_, L₃, ?_, hinv, hkeep.trans hkeep₃, rfl⟩
  unfold kfree
  rw [if_neg (by omega), if_neg (by omega)]
  have hsz : nodeSize s.mem (b.1 - 4) = b.2 + 4 := hh.2.2
  simp only [sizeofSizeT, sub32_of_le hh.1 (show b.1 < 2 ^ 32 by omega), hsz, sizeofNode,
    sub32_of_le (show 8 ≤ b.2 + 4 by omega) (show b.2 + 4 < 2 ^ 32 by omega)]
  rw [show b.2 + 4 - 8 = x.2 by simp only [hx]; omega, show b.1 - 4 = x.1 from rfl, ← hm₁, h.head, hm₂]
  simp only [Option.bind_eq_bind, Option.bind_some]
  rw [h.head] at hm₃
  exact hm₃ ▸ rfl

end HeapInv

end BulbOS.Heap
