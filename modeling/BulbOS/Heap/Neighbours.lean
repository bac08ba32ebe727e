import BulbOS.Heap.Init

/-!
# What `kfree` writes

`kfree` makes a node of eight bytes out of a block: the four bytes of its header and the first four bytes
of its contents. A run of `kmalloc` and `kfree` starts from `vmm_init`; the block of the page stack node is
live until `vmm_block_alloc` frees it.

* `BlockOp.Legal`: what callers may do; `BlockOp.Fits`: requests without overflow, and frees of blocks of
  four bytes and more;
* `BlocksInv.step`: the list heap keeps its invariant over a call;
* **`kfree_keeps_neighbours`**: in every state of such a run, what `kfree` changes and leaves.
-/

namespace BulbOS.Heap

open KLib

/-- A call of `kmalloc` or `kfree`, or a byte that the owner of a block writes into it. -/
inductive BlockOp
  | kmalloc (frame n : ℕ)
  | kfree (frame p : ℕ)
  | write (p i : ℕ) (v : UInt8)

/-- Requests of at least a byte; pointers of the list allocator that are live. The block at the top of the
page stack belongs to the page heap. -/
def BlockOp.Legal (c : HeapCfg) : BlockOp → Prop
  | .kmalloc _ n => 1 ≤ n
  | .kfree _ p => p ≠ c.vmm.kheapStackLast ∧ ∃ b ∈ c.live, b.1 = p
  | .write p i _ => p ≠ c.vmm.kheapStackLast ∧ ∃ b ∈ c.live, b.1 = p ∧ i < b.2

/-- A request does not overflow; a block that is freed has at least four bytes. -/
def BlockOp.Fits (c : HeapCfg) : BlockOp → Prop
  | .kmalloc _ n => n + sizeofSizeT < 2 ^ 32
  | .kfree _ p => ∀ b ∈ c.live, b.1 = p → 4 ≤ b.2
  | .write _ _ _ => True

/-- The blocks of the list allocator after a request: one more, unless the page heap has served it, and
without the node of the page that was popped. -/
def liveAfter (frame : ℕ) (c : HeapCfg) (n ptr : ℕ) : List (ℕ × ℕ) :=
  if n = pageFrameSize ∧ (vmmBlockAlloc frame c.vmm).any (fun r => r.1 ≠ 0) then
    c.live.erase (c.vmm.kheapStackLast, sizeofNode)
  else if ptr = 0 then c.live
  else (ptr, n) :: c.live

def blockStep (c : HeapCfg) : BlockOp → Option HeapCfg
  | .kmalloc frame n => do
    let (ptr, s) ← kmalloc frame c.vmm n
    return ⟨s, liveAfter frame c n ptr⟩
  | .kfree frame p => do
    let b ← c.live.find? fun b => b.1 = p
    let s ← kfree frame c.vmm p
    return ⟨s, c.live.erase b⟩
  | .write p i v => some { c with vmm := { c.vmm with mem := Function.update c.vmm.mem (p + i) v } }

/-- The list heap is tiled, and the page stack is empty or has the one node of `vmm_init`. -/
structure BlocksInv (c : HeapCfg) (L : List (ℕ × ℕ)) : Prop where
  heap : HeapInv c.vmm L c.live
  start : c.vmm.kheapStart = kheapListStart
  stack : c.vmm.kheapStackLast = 0 ∨ (c.vmm.kheapStackLast, 8) ∈ c.live ∧ c.vmm.kheapStackLast ≠ 0 ∧
    nodeSize c.vmm.mem c.vmm.kheapStackLast = kheapBlockStart ∧ nodeNext c.vmm.mem c.vmm.kheapStackLast = 0

variable {c c' : HeapCfg} {L : List (ℕ × ℕ)}

/-- What keeps the bytes of the blocks keeps the node of the page stack. -/
theorem BlocksInv.keeps (h : BlocksInv c L) {s : Vmm} {kept live L' : List (ℕ × ℕ)} (hinv : HeapInv s L' live)
    (hkeep : Keeps kept c.vmm s) (hkept : (c.vmm.kheapStackLast, 8) ∈ c.live → (c.vmm.kheapStackLast, 8) ∈ kept)
    (hlive : ∀ b ∈ kept, b ∈ live) : BlocksInv ⟨s, live⟩ L' := by
  refine ⟨hinv, hkeep.start.trans h.start, ?_⟩
  dsimp only
  rw [hkeep.last]
  rcases h.stack with hz | ⟨hl, h₀, hsize, hnext⟩
  · exact .inl hz
  · have hbytes := hkeep.mem _ (hkept hl)
    dsimp only at hbytes
    refine .inr ⟨hlive _ (hkept hl), h₀, ?_, ?_⟩
    · rw [nodeSize_congr fun y _ _ => hbytes y (by omega) (by omega)]
      exact hsize
    · rw [nodeNext_congr fun y _ _ => hbytes y (by omega) (by omega)]
      exact hnext

theorem BlocksInv.listAlloc (h : BlocksInv c L) {n : ℕ} (hn : 0 < n) (hlt : n + 4 < 2 ^ 32) :
    ∃ ptr s L', vmmListAlloc c.vmm n = some (ptr, s) ∧
      BlocksInv ⟨s, if ptr = 0 then c.live else (ptr, n) :: c.live⟩ L' := by
  obtain ⟨ptr, s, L', halloc, hinv, hkeep⟩ := h.heap.listAlloc hn hlt
  refine ⟨ptr, s, L', halloc, h.keeps hinv hkeep id fun b hb => ?_⟩
  split_ifs
  · exact hb
  · exact List.mem_cons_of_mem _ hb

theorem BlocksInv.blockAlloc (h : BlocksInv c L) (hroom : c.vmm.kheapEnd ≤ c.vmm.kheapStackEnd) (frame : ℕ) :
    ∃ ptr s L', vmmBlockAlloc frame c.vmm = some (ptr, s) ∧ ptr ≠ 0 ∧
      BlocksInv ⟨s, c.live.erase (c.vmm.kheapStackLast, sizeofNode)⟩ L' := by
  have hstart := h.start
  have hlist := h.heap.start_lt
  have hstack := h.heap.stack
  have hlt := h.heap.stack_lt
  unfold kheapListStart at hstart
  rcases h.stack with hz | ⟨hl, h₀, hsize, hnext⟩
  · obtain ⟨t, ht, hfresh⟩ := blockAlloc_fresh hz hroom (by unfold pageFrameSize; omega) (by omega) frame
    have hnot : (c.vmm.kheapStackLast, sizeofNode) ∉ c.live := by
      intro hmem
      have := (h.heap.header _ hmem).1
      rw [hz] at this
      exact absurd this (by decide)
    refine ⟨t, _, L, hfresh, by omega, ?_⟩
    rw [List.erase_of_not_mem hnot]
    exact ⟨h.heap.lower (by omega), h.start, .inl hz⟩
  · obtain ⟨s, L', hpop, hinv, hkeep, _⟩ := h.heap.popNode hl rfl h₀ hroom frame
    refine ⟨_, s, L', hpop, by rw [hsize]; decide, hinv, hkeep.start.trans h.start, .inl ?_⟩
    rw [show s.kheapStackLast = nodeNext c.vmm.mem c.vmm.kheapStackLast from hkeep.last]
    exact hnext

/-- **`kmalloc`.** -/
theorem BlocksInv.kmalloc (h : BlocksInv c L) {n : ℕ} (hn : 0 < n) (hlt : n + 4 < 2 ^ 32) (frame : ℕ) :
    ∃ c' L', blockStep c (.kmalloc frame n) = some c' ∧ BlocksInv c' L' := by
  by_cases hpage : n = pageFrameSize
  · by_cases hroom : c.vmm.kheapEnd ≤ c.vmm.kheapStackEnd
    · obtain ⟨ptr, s, L', hblock, hptr, hinv⟩ := h.blockAlloc hroom frame
      refine ⟨⟨s, liveAfter frame c n ptr⟩, L', ?_, ?_⟩
      · rw [blockStep, hpage, kmalloc_page hblock hptr]
        rfl
      · rw [liveAfter, if_pos ⟨hpage, by simp [hblock, hptr]⟩]
        exact hinv
    · have hfull : vmmBlockAlloc frame c.vmm = some (0, c.vmm) := by
        rw [vmmBlockAlloc, if_pos (by omega)]
      obtain ⟨ptr, s, L', halloc, hinv⟩ := h.listAlloc hn hlt
      refine ⟨⟨s, liveAfter frame c n ptr⟩, L', ?_, ?_⟩
      · have hk : Heap.kmalloc frame c.vmm n = some (ptr, s) := by
          rw [Heap.kmalloc, if_neg (by omega), if_pos hpage, hfull, ← halloc]
          rfl
        rw [blockStep, hk]
        rfl
      · rw [liveAfter, if_neg (by simp [hfull])]
        exact hinv
  · obtain ⟨ptr, s, L', halloc, hinv⟩ := h.listAlloc hn hlt
    refine ⟨⟨s, liveAfter frame c n ptr⟩, L', ?_, ?_⟩
    · have hk : Heap.kmalloc frame c.vmm n = some (ptr, s) := by
        rw [Heap.kmalloc, if_neg (by omega), if_neg hpage, halloc]
      rw [blockStep, hk]
      rfl
    · rw [liveAfter, if_neg (fun hp => hpage hp.1)]
      exact hinv

/-- **`kfree`** of a block that is not the node of the page stack. -/
theorem BlocksInv.kfree (h : BlocksInv c L) {b : ℕ × ℕ} (hb : b ∈ c.live) (hsize : 4 ≤ b.2)
    (hlast : b.1 ≠ c.vmm.kheapStackLast) (frame : ℕ) :
    ∃ s L', Heap.kfree frame c.vmm b.1 = some s ∧ BlocksInv ⟨s, c.live.erase b⟩ L' := by
  obtain ⟨s, L', hfree, hinv, hkeep, _⟩ := h.heap.free hb hsize frame
  refine ⟨s, L', hfree, h.keeps hinv hkeep (fun hl => ?_) fun b hb => hb⟩
  refine (List.mem_erase_of_ne ?_).mpr hl
  rintro rfl
  exact hlast rfl

/-- **One step.** -/
theorem BlocksInv.step (h : BlocksInv c L) {op : BlockOp} (hlegal : op.Legal c) (hfits : op.Fits c) :
    ∃ c' L', blockStep c op = some c' ∧ BlocksInv c' L' := by
  cases op with
  | kmalloc frame n => exact h.kmalloc hlegal hfits frame
  | kfree frame p =>
    obtain ⟨hlast, hlive⟩ := hlegal
    obtain ⟨b, hb⟩ : ∃ b, c.live.find? (fun b => b.1 = p) = some b := by
      rw [← Option.isSome_iff_exists, List.find?_isSome]
      simpa using hlive
    have hbp : b.1 = p := by simpa using List.find?_some hb
    have hmem := List.mem_of_find?_eq_some hb
    obtain ⟨s, L', hfree, hinv⟩ := h.kfree hmem (hfits b hmem hbp) (by rw [hbp]; exact hlast) frame
    rw [hbp] at hfree
    exact ⟨_, L', by simp only [blockStep, hb, hfree]; rfl, hinv⟩
  | write p i v =>
    obtain ⟨hlast, b, hb, rfl, hi⟩ := hlegal
    refine ⟨_, L, rfl, h.heap.write hb hi v, h.start, ?_⟩
    rcases h.stack with hz | ⟨hl, h₀, hsize, hnext⟩
    · exact .inl hz
    · have hne : (c.vmm.kheapStackLast, 8) ≠ b := by
        rintro rfl
        exact hlast rfl
      have hdis := h.heap.live_disjoint hb ((List.mem_erase_of_ne hne).mpr hl)
      have hhead := h.heap.header b hb
      have hbytes : ∀ y, c.vmm.kheapStackLast ≤ y → y < c.vmm.kheapStackLast + 8 →
          Function.update c.vmm.mem (b.1 + i) v y = c.vmm.mem y := by
        intro y h₁ h₂
        refine Function.update_of_ne ?_ _ _
        dsimp only at hdis
        omega
      refine .inr ⟨hl, h₀, ?_, ?_⟩
      · exact (nodeSize_congr hbytes).trans hsize
      · exact (nodeNext_congr hbytes).trans hnext

theorem Initial.blocks {s₁ : Vmm} {n : ℕ} (hini : Initial s₁ L n) :
    BlocksInv ⟨s₁, [(s₁.kheapStackLast, sizeofNode)]⟩ L := by
  rw [hini.last]
  refine ⟨hini.heap, hini.start, .inr ?_⟩
  dsimp only
  rw [hini.last]
  exact ⟨List.mem_singleton_self _, hini.node, hini.page, hini.next⟩

/-- **Neighbours.** In every run of `kmalloc` and `kfree` from `vmm_init` in which no request overflows and
every block that is freed has at least four bytes: `kfree` of a block of at least four bytes changes no byte
of another live block, and the sizes of the free nodes are the numbers of free bytes behind them. -/
theorem kfree_keeps_neighbours {frame : ℕ} {s s₁ : Vmm} (hinit : vmmInit frame s = some s₁) {ops : List BlockOp}
    {c : HeapCfg} (hrun : Run (fun c op c' => BlockOp.Legal c op ∧ op.Fits c ∧ blockStep c op = some c')
      ⟨s₁, [(s₁.kheapStackLast, sizeofNode)]⟩ ops c) {b : ℕ × ℕ} (hb : b ∈ c.live) (hsize : 4 ≤ b.2) (frame' : ℕ) :
    ∃ s', kfree frame' c.vmm b.1 = some s' ∧
      (∀ b' ∈ c.live.erase b, ∀ y, b'.1 - sizeofSizeT ≤ y → y < b'.1 + b'.2 → s'.mem y = c.vmm.mem y) ∧
      ∃ nodes, HeapTiling s' (c.live.erase b) nodes := by
  obtain ⟨s₁', L, n, hinit', hini⟩ := vmmInit_spec frame s
  rw [hinit] at hinit'
  cases hinit'
  obtain ⟨L', hinv⟩ : ∃ L, BlocksInv c L := by
    refine hrun.invariant (I := fun c => ∃ L, BlocksInv c L) ?_ ⟨L, hini.blocks⟩
    rintro c op c' ⟨L, hinv⟩ ⟨hlegal, hfits, hstep⟩
    obtain ⟨c₁, L', hstep', hinv'⟩ := hinv.step hlegal hfits
    rw [hstep, Option.some.injEq] at hstep'
    exact ⟨L', hstep' ▸ hinv'⟩
  obtain ⟨s', L'', hfree, hinv', hkeep, _⟩ := hinv.heap.free hb hsize frame'
  exact ⟨s', hfree, hkeep.mem, _, hinv'.tiling⟩

instance (c : HeapCfg) (op : BlockOp) : Decidable (op.Legal c ∧ op.Fits c) := by
  cases op <;> unfold BlockOp.Legal BlockOp.Fits <;> infer_instance

/-- Perform the calls in order; `none` if one does not meet the conditions or does not return. -/
def blockExec (c : HeapCfg) (ops : List BlockOp) : Option HeapCfg :=
  ops.foldlM (fun c op => if op.Legal c ∧ op.Fits c then blockStep c op else none) c

theorem run_of_blockExec {ops : List BlockOp} (h : blockExec c ops = some c') :
    Run (fun c op c' => BlockOp.Legal c op ∧ op.Fits c ∧ blockStep c op = some c') c ops c' := by
  refine run_of_foldlM (fun c op c' e => ?_) h
  by_cases hop : op.Legal c ∧ op.Fits c
  · rw [if_pos hop] at e
    exact ⟨hop.1, hop.2, e⟩
  · rw [if_neg hop] at e
    cases e

/-- A block of 2 bytes and one of 100 bytes, of which the second is freed. -/
theorem kfree_keeps_neighbours_demo : ∃ s₁ c, vmmInit 0 zeroVmm = some s₁ ∧
    Run (fun c op c' => BlockOp.Legal c op ∧ op.Fits c ∧ blockStep c op = some c')
      ⟨s₁, [(s₁.kheapStackLast, sizeofNode)]⟩ [.kmalloc 0 2, .kmalloc 0 100] c ∧
    (0xD0000F8A, 100) ∈ c.live ∧ ∃ s', kfree 0 c.vmm 0xD0000F8A = some s' ∧
      ∃ nodes, HeapTiling s' (c.live.erase (0xD0000F8A, 100)) nodes := by
  obtain ⟨s₁, _, _, hinit, _⟩ := vmmInit_spec 0 zeroVmm
  have heval : ((vmmInit 0 zeroVmm).bind fun s₁ => blockExec ⟨s₁, [(s₁.kheapStackLast, sizeofNode)]⟩
      [.kmalloc 0 2, .kmalloc 0 100]).any (fun c => (0xD0000F8A, 100) ∈ c.live) = true := by decide +kernel
  rw [hinit, Option.bind_some] at heval
  obtain ⟨c, hc, hlive⟩ := (Option.any_eq_true _ _).mp heval
  have hrun := run_of_blockExec hc
  have hmem : (0xD0000F8A, 100) ∈ c.live := by simpa using hlive
  obtain ⟨s', hfree, _, htiles⟩ := kfree_keeps_neighbours hinit hrun hmem (by decide) 0
  exact ⟨s₁, c, hinit, hrun, hmem, s', hfree, htiles⟩

/-- A block of 2 bytes is taken and freed: the header of its neighbour, the node of the page stack, is
overwritten. -/
theorem small_kfree_hits_header : ∃ s₁ p s₂ s₃, vmmInit 0 zeroVmm = some s₁ ∧ kmalloc 0 s₁ 2 = some (p, s₂) ∧
    kfree 0 s₂ p = some s₃ ∧ load32 s₂.mem (s₁.kheapStackLast - sizeofSizeT) = 12 ∧
    load32 s₃.mem (s₁.kheapStackLast - sizeofSizeT) = 0 := by
  have heval : ((vmmInit 0 zeroVmm).bind fun s₁ => (kmalloc 0 s₁ 2).bind fun r => (kfree 0 r.2 r.1).map fun s₃ =>
      (load32 r.2.mem (s₁.kheapStackLast - sizeofSizeT), load32 s₃.mem (s₁.kheapStackLast - sizeofSizeT))) =
      some (12, 0) := by decide +kernel
  obtain ⟨s₁, hinit, heval⟩ := Option.bind_eq_some_iff.mp heval
  obtain ⟨⟨p, s₂⟩, hmalloc, heval⟩ := Option.bind_eq_some_iff.mp heval
  obtain ⟨s₃, hfree, heval⟩ := Option.map_eq_some_iff.mp heval
  exact ⟨s₁, p, s₂, s₃, hinit, hmalloc, hfree, congrArg Prod.fst heval, congrArg Prod.snd heval⟩

end BulbOS.Heap
