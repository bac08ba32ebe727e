import BulbOS.Heap.Tiling

/-!
# Runs of the list heap

A run starts from the heap `vmm_kheap_list_init` leaves, with the page heap placed as `vmm_init`
places it, and performs calls of `kmalloc` and `kfree` and writes of the owners into their blocks.

* `HeapTiling`: free nodes and live blocks tile the heap, read off the memory alone;
* `heapInv_boot`, `HeapInv.heapStep`: the invariant at the start and over a step;
* **`kheap_tiled`**: every state of every run is tiled, and every call returns.
-/

namespace BulbOS.Heap

open KLib

/-- The allocator together with the blocks handed out and not yet freed. -/
structure HeapCfg where
  vmm : Vmm
  live : List (ℕ × ℕ)

/-- A call of the allocator, or a byte the owner of the block at `p` stores at offset `i`. -/
inductive HeapOp
  | kmalloc (frame n : ℕ)
  | kfree (frame p : ℕ)
  | write (p i : ℕ) (v : UInt8)

/-- Requests the list allocator serves, and pointers that are live. -/
def HeapOp.Legal (c : HeapCfg) : HeapOp → Prop
  | .kmalloc _ n => 4 ≤ n ∧ n < 2 ^ 28 ∧ n ≠ pageFrameSize
  | .kfree _ p => ∃ b ∈ c.live, b.1 = p
  | .write p i _ => ∃ b ∈ c.live, b.1 = p ∧ i < b.2

instance (c : HeapCfg) (op : HeapOp) : Decidable (op.Legal c) := by
  cases op <;> unfold HeapOp.Legal <;> infer_instance

def heapStep (c : HeapCfg) : HeapOp → Option HeapCfg
  | .kmalloc frame n => do
    let (ptr, s) ← kmalloc frame c.vmm n
    return ⟨s, if ptr = 0 then c.live else (ptr, n) :: c.live⟩
  | .kfree frame p => do
    let b ← c.live.find? fun b => b.1 = p
    let s ← kfree frame c.vmm p
    return ⟨s, c.live.erase b⟩
  | .write p i v => some { c with vmm := { c.vmm with mem := Function.update c.vmm.mem (p + i) v } }

/-- A legal call and the state it returns in. -/
def HeapMove (c : HeapCfg) (op : HeapOp) (c' : HeapCfg) : Prop :=
  op.Legal c ∧ heapStep c op = some c'

/-- The heap at boot, whatever the memory holds. -/
def heapBoot (s : Vmm) : HeapCfg :=
  ⟨vmmKheapStackPlace (vmmKheapListInit s kheapListStart) kheapBlockStart, []⟩

/-- The spans of the free nodes and of the live blocks. -/
def heapSpans (s : Vmm) (live : List (ℕ × ℕ)) (nodes : List ℕ) : List (ℕ × ℕ) :=
  nodes.map (fun a => (a, a + sizeofNode + nodeSize s.mem a)) ++ live.map liveSpan

/-- **The heap is tiled.** `nodes` is the free list, read by following `next` from `kheap_head`. -/
structure HeapTiling (s : Vmm) (live : List (ℕ × ℕ)) (nodes : List ℕ) : Prop where
  walk : Linked (nodeNext s.mem) 0 s.kheapHead nodes
  sorted : nodes.Pairwise (· < ·)
  apart : nodes.Pairwise fun a a' => a + sizeofNode + nodeSize s.mem a ≠ a'
  header : ∀ b ∈ live, load32 s.mem (b.1 - sizeofSizeT) = b.2 + sizeofSizeT
  disjoint : (heapSpans s live nodes).Pairwise fun g g' => g.2 ≤ g'.1 ∨ g'.2 ≤ g.1
  cover : ∀ y, s.kheapStart ≤ y ∧ y < s.kheapEnd ↔ ∃ g ∈ heapSpans s live nodes, g.1 ≤ y ∧ y < g.2
  head : s.kheapHead = s.kheapStart

variable {s : Vmm} {L live : List (ℕ × ℕ)} {c c' : HeapCfg}

theorem HeapInv.heapSpans_eq (h : HeapInv s L live) :
    heapSpans s live (L.map Prod.fst) = L.map nodeSpan ++ live.map liveSpan := by
  unfold heapSpans
  rw [List.map_map]
  congr 1
  refine List.map_congr_left fun p hp => ?_
  simp only [Function.comp_apply, h.nodes.2 p hp, nodeSpan]

theorem HeapInv.tiling (h : HeapInv s L live) : HeapTiling s live (L.map Prod.fst) where
  walk := h.nodes.1
  sorted := List.pairwise_map.mpr (h.node_sep.imp fun hr => by omega)
  apart := List.pairwise_map.mpr <| h.apart.imp_of_mem fun {p q} hp _ hpq => by
    rw [h.nodes.2 p hp]; omega
  header b hb := (h.header b hb).2.2
  disjoint := by rw [h.heapSpans_eq]; exact h.tiles.pairwise h.span_lt
  cover y := by rw [h.heapSpans_eq]; exact h.tiles.mem_iff y
  head := h.head

theorem heapInv_boot (s : Vmm) :
    HeapInv (heapBoot s).vmm [(kheapListStart, pageFrameSize - sizeofNode)] (heapBoot s).live := by
  have hn : FreeNodes (heapBoot s).vmm.mem kheapListStart
      [(kheapListStart, pageFrameSize - sizeofNode)] := by
    refine freeNodes_cons.mpr ⟨rfl, by decide, ?_, ?_⟩
    · change nodeSize (setNext _ _ _) _ = _
      rw [nodeSize_setNext_self, nodeSize_setSize]
      rfl
    · change FreeNodes _ (nodeNext (setNext _ _ _) _) []
      rw [nodeNext_setNext]
      exact freeNodes_nil.mpr rfl
  refine ⟨⟨hn, List.pairwise_singleton _ _, rfl, ?_, ?_, ?_, ?_, ?_, List.forall_mem_nil _, ?_⟩,
    List.pairwise_singleton _ _⟩
  · change 0 < kheapListStart
    decide
  · change kheapListStart < u32 (kheapListStart + pageFrameSize)
    decide
  · change u32 (kheapListStart + pageFrameSize) ≤ u32 (kheapBlockStart + pageFrameSize)
    decide
  · change kheapBlockStart + pageFrameSize ≤ u32 (kheapBlockStart + pageFrameSize)
    decide
  · change u32 (kheapBlockStart + pageFrameSize) < 2 ^ 32
    decide
  · exact tiles_singleton _ _

/-- **One step.** A legal call returns and keeps the invariant. -/
theorem HeapInv.heapStep (h : HeapInv c.vmm L c.live) (hsize : ∀ b ∈ c.live, 4 ≤ b.2) {op : HeapOp}
    (hop : op.Legal c) : ∃ c' L', heapStep c op = some c' ∧ HeapInv c'.vmm L' c'.live ∧
      ∀ b ∈ c'.live, 4 ≤ b.2 := by
  cases op with
  | kmalloc frame n =>
    obtain ⟨h₁, h₂, h₃⟩ := hop
    obtain ⟨ptr, s', L', e, hinv, _⟩ := h.listAlloc (show 0 < n by omega) (by omega)
    have hk : kmalloc frame c.vmm n = some (ptr, s') := by
      rw [kmalloc, if_neg (by omega), if_neg h₃, e]
    refine ⟨_, L', by simp only [Heap.heapStep, hk]; rfl, hinv, fun b hb => ?_⟩
    dsimp only at hb
    split_ifs at hb
    · exact hsize b hb
    · rcases List.mem_cons.mp hb with rfl | hb
      · exact h₁
      · exact hsize b hb
  | kfree frame p =>
    obtain ⟨b, hb⟩ : ∃ b, c.live.find? (fun b => b.1 = p) = some b := by
      rw [← Option.isSome_iff_exists, List.find?_isSome]
      simpa [HeapOp.Legal] using hop
    have hbp : b.1 = p := by simpa using List.find?_some hb
    have hmem := List.mem_of_find?_eq_some hb
    obtain ⟨s', L', e, hinv, _⟩ := h.free hmem (hsize b hmem) frame
    rw [hbp] at e
    exact ⟨_, L', by simp only [Heap.heapStep, hb, e]; rfl, hinv, fun b' hb' => hsize b' (List.mem_of_mem_erase hb')⟩
  | write p i v =>
    obtain ⟨b, hb, rfl, hi⟩ := hop
    exact ⟨_, L, rfl, h.write hb hi v, hsize⟩

theorem heapInv_run (s : Vmm) {ops : List HeapOp} (h : Run HeapMove (heapBoot s) ops c) :
    ∃ L, HeapInv c.vmm L c.live ∧ ∀ b ∈ c.live, 4 ≤ b.2 := by
  refine h.invariant (I := fun c => ∃ L, HeapInv c.vmm L c.live ∧ ∀ b ∈ c.live, 4 ≤ b.2) ?_
    ⟨_, heapInv_boot s, List.forall_mem_nil _⟩
  rintro c op c' ⟨L, hinv, hsize⟩ ⟨hop, e⟩
  obtain ⟨c₁, L', e', hinv'⟩ := hinv.heapStep hsize hop
  rw [e, Option.some.injEq] at e'
  exact ⟨L', e' ▸ hinv'⟩

/-- **Kernel heap tiling.** After every run the free nodes and the live blocks are pairwise disjoint
and cover the heap, the free list is sorted without neighbours and starts at `kheap_start`; and
whatever legal call comes next returns. -/
theorem kheap_tiled (s : Vmm) {ops : List HeapOp} {c : HeapCfg}
    (h : Run HeapMove (heapBoot s) ops c) :
    (∃ nodes, HeapTiling c.vmm c.live nodes) ∧ ∀ op, HeapOp.Legal c op → ∃ c', heapStep c op = some c' := by
  obtain ⟨L, hinv, hsize⟩ := heapInv_run s h
  refine ⟨⟨_, hinv.tiling⟩, fun op hop => ?_⟩
  obtain ⟨c', _, e, _⟩ := hinv.heapStep hsize hop
  exact ⟨c', e⟩

/-- Perform the calls in order; `none` if one is not legal or does not return. -/
def heapExec (c : HeapCfg) (ops : List HeapOp) : Option HeapCfg :=
  ops.foldlM (fun c op => if op.Legal c then heapStep c op else none) c

theorem run_of_heapExec {ops : List HeapOp} (h : heapExec c ops = some c') : Run HeapMove c ops c' := by
  refine run_of_foldlM (fun c op c' e => ?_) h
  by_cases hop : op.Legal c
  · rw [if_pos hop] at e; exact ⟨hop, e⟩
  · rw [if_neg hop] at e; cases e

/-- Memory holding zeros. -/
def zeroVmm : Vmm := ⟨fun _ => 0, 0, 0, 0, 0, 0, 0⟩

/-- Two blocks of the boot page, a byte written into the second, and the first one freed. -/
def demoOps : List HeapOp := [.kmalloc 0 8, .kmalloc 0 100, .write 0xD0000F90 99 7, .kfree 0 0xD0000FF8]

theorem kheap_tiled_demo : ∃ c, Run HeapMove (heapBoot zeroVmm) demoOps c ∧
    c.live = [(0xD0000F90, 100)] ∧ ∃ nodes, HeapTiling c.vmm c.live nodes := by
  have hl : (heapExec (heapBoot zeroVmm) demoOps).map HeapCfg.live = some [(0xD0000F90, 100)] := by decide +kernel
  obtain ⟨c, hc, hlive⟩ := Option.map_eq_some_iff.mp hl
  have hrun := run_of_heapExec hc
  exact ⟨c, hrun, hlive, (kheap_tiled zeroVmm hrun).1⟩

end BulbOS.Heap
