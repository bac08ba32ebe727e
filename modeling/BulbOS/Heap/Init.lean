import BulbOS.Heap.Run

/-!
# The heaps after `vmm_init`

`vmm_init` takes eight bytes from the list heap for the first node of the page stack.

* `HeapInv.listAlloc_fits`: a request that fits a free node takes no page;
* `HeapInv.popNode`, `blockAlloc_fresh`: a page from the page stack and a fresh page;
* **`vmmInit_spec`**: the list heap, the page heap and the node.
-/

namespace BulbOS.Heap

open KLib

variable {s : Vmm} {L live : List (ℕ × ℕ)}

namespace HeapInv

theorem listAlloc_fits (h : HeapInv s L live) {n : ℕ} (hn : 0 < n) (hlt : n + 4 < 2 ^ 32)
    (hfit : ∃ p ∈ L, n + 4 < p.2) : ∃ ptr s' L', vmmListAlloc s n = some (ptr, s') ∧ ptr ≠ 0 ∧
      HeapInv s' L' ((ptr, n) :: live) ∧ Keeps live s s' ∧ s'.kheapEnd = s.kheapEnd := by
  obtain ⟨prev, hget⟩ := vmmGetNode_spec h.nodes h.length_lt 0 (n + 4)
  obtain ⟨p, hp⟩ : ∃ p, L.find? (fun p => n + 4 < p.2) = some p := by
    rw [← Option.isSome_iff_exists, List.find?_isSome]
    simpa using hfit
  have hmem := List.mem_of_find?_eq_some hp
  have hsize : n + 4 < p.2 := by simpa using List.find?_some hp
  have hpos := h.nodes.pos hmem
  rw [hp] at hget
  obtain ⟨ptr, s', L', htake, hptr, hinv, hkeep, hend⟩ := h.take hmem hsize hn prev
  refine ⟨ptr, s', L', ?_, hptr, hinv, hkeep, hend⟩
  unfold vmmListAlloc
  simp only [sizeofSizeT, u32_of_lt hlt, hget, Option.bind_eq_bind, Option.bind_some, Option.map_some,
    Option.getD_some]
  unfold vmmFindNode
  rw [if_pos hpos]
  simp only [Option.bind_some, if_neg hpos, htake]
  rfl

/-- The top of the page stack does not matter to the list heap. -/
theorem setLast (h : HeapInv s L live) (last : ℕ) : HeapInv { s with kheapStackLast := last } L live :=
  ⟨⟨h.nodes, h.sorted, h.head, h.start_pos, h.start_lt, h.end_le, h.stack, h.stack_lt, h.header, h.tiles⟩,
    h.apart⟩

theorem store (h : HeapInv s L live) {b : ℕ × ℕ} (hb : b ∈ live) {i : ℕ} (hi : i + 4 ≤ b.2) (v : ℕ) :
    HeapInv { s with mem := store32 s.mem (b.1 + i) v } L live := by
  have hh := h.header b hb
  refine h.congr_mem (fun p hp y _ _ => ?_) (fun b' hb' y _ _ => ?_)
  · have := h.node_live_disjoint hp hb
    exact store32_of_outside _ _ (by omega)
  · refine store32_of_outside _ _ ?_
    by_cases hbb : b' = b
    · subst hbb
      omega
    · have := h.live_disjoint hb ((List.mem_erase_of_ne hbb).mpr hb')
      omega

/-- **A page from the page stack**, whose top node is a block of the list heap. -/
theorem popNode (h : HeapInv s L live) {n : ℕ} (hn : (n, 8) ∈ live) (hlast : s.kheapStackLast = n) (h₀ : n ≠ 0)
    (hroom : s.kheapEnd ≤ s.kheapStackEnd) (frame : ℕ) : ∃ s' L',
      vmmBlockAlloc frame s = some (nodeSize s.mem n, s') ∧ HeapInv s' L' (live.erase (n, 8)) ∧
      Keeps (live.erase (n, 8)) { s with kheapStackLast := nodeNext s.mem n } s' ∧ s'.kheapEnd = s.kheapEnd := by
  obtain ⟨s', L', hfree, hinv, hkeep, hend⟩ := (h.setLast (nodeNext s.mem n)).free hn (show 4 ≤ 8 by decide) frame
  refine ⟨s', L', ?_, hinv, hkeep, hend⟩
  unfold vmmBlockAlloc
  rw [if_neg (by omega), hlast, if_pos h₀]
  simp only [hfree, Option.bind_eq_bind, Option.bind_some]
  rfl

theorem lower (h : HeapInv s L live) {t : ℕ} (ht : t ≤ s.kheapStackEnd) :
    HeapInv { s with kheapStackEnd := t } L live :=
  ⟨⟨h.nodes, h.sorted, h.head, h.start_pos, h.start_lt, h.end_le, by have := h.stack; dsimp only; omega, h.stack_lt,
    h.header, h.tiles⟩, h.apart⟩

end HeapInv

/-- **A fresh page.** -/
theorem blockAlloc_fresh (hlast : s.kheapStackLast = 0) (hroom : s.kheapEnd ≤ s.kheapStackEnd)
    (hlow : pageFrameSize ≤ s.kheapStackEnd) (hhigh : s.kheapStackEnd < 2 ^ 32) (frame : ℕ) :
    ∃ t, t + 4096 = s.kheapStackEnd ∧ vmmBlockAlloc frame s = some (t, { s with kheapStackEnd := t }) := by
  have ht : sub32 s.kheapStackEnd pageFrameSize + 4096 = s.kheapStackEnd := by
    rw [sub32_of_le hlow hhigh]
    exact Nat.sub_add_cancel hlow
  refine ⟨_, ht, ?_⟩
  unfold vmmBlockAlloc
  rw [if_neg (by omega), if_neg (by simp [hlast])]

/-- A page is what `vmm_block_alloc` returns, if it returns one. -/
theorem kmalloc_page {frame ptr : ℕ} {s' : Vmm} (h : vmmBlockAlloc frame s = some (ptr, s')) (hptr : ptr ≠ 0) :
    kmalloc frame s pageFrameSize = some (ptr, s') := by
  rw [kmalloc, if_neg (by decide), if_pos rfl, h]
  exact if_pos hptr

/-- The state `vmm_init` leaves, with the node at `n`. -/
structure Initial (s : Vmm) (L : List (ℕ × ℕ)) (n : ℕ) : Prop where
  heap : HeapInv s L [(n, 8)]
  node : n ≠ 0
  last : s.kheapStackLast = n
  page : nodeSize s.mem n = kheapBlockStart
  next : nodeNext s.mem n = 0
  start : s.kheapStart = kheapListStart
  listEnd : s.kheapEnd = kheapListStart + pageFrameSize
  stackEnd : s.kheapStackEnd = kheapBlockStart
  stackStart : s.kheapStackStart = kheapBlockStart + pageFrameSize

/-- **`vmm_init`.** -/
theorem vmmInit_spec (frame : ℕ) (s : Vmm) : ∃ s₁ L n, vmmInit frame s = some s₁ ∧ Initial s₁ L n := by
  obtain ⟨n, s', L', halloc, hn, hinv, hkeep, hend⟩ :=
    (heapInv_boot s).listAlloc_fits (show 0 < 8 by decide) (by decide) ⟨_, List.mem_singleton_self _, by decide⟩
  have hstackEnd : s'.kheapStackEnd = kheapBlockStart := hkeep.stackEnd
  have hk : kmalloc frame (heapBoot s).vmm sizeofNode = some (n, s') := by
    rw [kmalloc, if_neg (by decide), if_neg (by decide)]
    exact halloc
  have hinit : vmmInit frame s = some { s' with
      kheapStackLast := n
      mem := setNext (setSize s'.mem n s'.kheapStackEnd) n 0 } := by
    rw [vmmInit, vmmKheapStackInit]
    change (kmalloc frame (heapBoot s).vmm sizeofNode >>= _) = _
    rw [hk]
    rfl
  have hmem : (n, 8) ∈ (n, 8) :: (heapBoot s).live := List.mem_cons_self
  have h₁ : HeapInv { s' with mem := setSize s'.mem n s'.kheapStackEnd } L' [(n, 8)] :=
    hinv.store hmem (show 0 + 4 ≤ 8 by decide) _
  have h₂ : HeapInv { s' with mem := setNext (setSize s'.mem n s'.kheapStackEnd) n 0 } L' [(n, 8)] :=
    h₁.store List.mem_cons_self (show 4 + 4 ≤ 8 by decide) 0
  refine ⟨_, L', n, hinit, h₂.setLast n, hn, rfl, ?_, ?_, hkeep.start, hend, hstackEnd, ?_⟩
  · change nodeSize (setNext (setSize s'.mem n s'.kheapStackEnd) n 0) n = _
    rw [nodeSize_setNext_self, nodeSize_setSize, hstackEnd]
    exact u32_of_lt (by decide)
  · change nodeNext (setNext (setSize s'.mem n s'.kheapStackEnd) n 0) n = _
    rw [nodeNext_setNext]
    rfl
  · exact hkeep.stackStart.trans (u32_of_lt (by decide))

end BulbOS.Heap
