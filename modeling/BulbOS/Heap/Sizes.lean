import BulbOS.Heap.Neighbours
import BulbOS.Heap.Regions

/-!
# The sizes that `kmalloc` honours

`vmm_list_alloc` adds four bytes for the header to the size it is asked for, in 32 bits: from `2 ^ 32 - 4`
bytes on, the request becomes one of 0 to 3 bytes, header included. A page comes from the page heap, or from
the list heap when the two have met.

* `HasRoom`, `Honours`: what a call owes its caller;
* `HeapInv.listAlloc_wrapped`: a request that wraps is served if any node is larger than what is left of it,
  or if a page is left;
* **`kmalloc_honours_iff`**: in every state of every run, a request is honoured exactly when it does not wrap,
  or nothing is left to serve it with;
* `kmalloc_wraps`: after boot `kmalloc(2 ^ 32 - 1)` returns a block whose header says 3.
-/

namespace BulbOS.Heap

open KLib

variable {s s' : Vmm} {L live : List (ℕ × ℕ)} {c : HeapCfg} {n frame ptr : ℕ}

/-- The block at `ptr` has `n` bytes: up to its end in the list heap, which its header tells, or in a page of
the page heap. -/
def HasRoom (s : Vmm) (ptr n : ℕ) : Prop :=
  (s.kheapStart + sizeofSizeT ≤ ptr ∧ ptr + n ≤ ptr - sizeofSizeT + load32 s.mem (ptr - sizeofSizeT) ∧
      ptr - sizeofSizeT + load32 s.mem (ptr - sizeofSizeT) ≤ s.kheapEnd) ∨
    s.kheapStackEnd ≤ ptr ∧ n ≤ pageFrameSize ∧ ptr + pageFrameSize ≤ s.kheapStackStart

/-- `kmalloc(n)` returns `NULL`, or a block with `n` bytes. -/
def Honours (c : HeapCfg) (frame n : ℕ) : Prop :=
  ∃ ptr s', kmalloc frame c.vmm n = some (ptr, s') ∧ (ptr ≠ 0 → HasRoom s' ptr n)

/-- No free node has more than `size` bytes, and no page is left. -/
def Exhausted (s : Vmm) (size : ℕ) : Prop :=
  (∀ nodes, Linked (nodeNext s.mem) 0 s.kheapHead nodes → ∀ a ∈ nodes, nodeSize s.mem a ≤ size) ∧
    s.kheapStackEnd < s.kheapEnd

theorem HeapInv.exhausted_iff (h : HeapInv s L live) (size : ℕ) :
    Exhausted s size ↔ (∀ p ∈ L, p.2 ≤ size) ∧ s.kheapStackEnd < s.kheapEnd := by
  refine and_congr_left fun _ => ⟨fun hall p hp => ?_, fun hall nodes hnodes a ha => ?_⟩
  · rw [← h.nodes.2 p hp]
    exact hall _ h.nodes.1 p.1 (List.mem_map_of_mem hp)
  · rw [hnodes.unique h.nodes.1] at ha
    obtain ⟨p, hp, rfl⟩ := List.mem_map.mp ha
    rw [h.nodes.2 p hp]
    exact hall p hp

/-! ## Requests that wrap -/

/-- **The last page** is part of a free node, if no block reaches into it. -/
theorem HeapInv.exists_page (h : HeapInv s L live) {e : ℕ} (hend : s.kheapEnd = e + 4096) (hstart : s.kheapStart ≤ e)
    (hlive : ∀ b ∈ live, b.1 + b.2 ≤ e) : ∃ p ∈ L, 4088 ≤ p.2 := by
  have hspan : ∀ y, e ≤ y → y < s.kheapEnd → ∃ p ∈ L, p.1 ≤ y ∧ y < p.1 + 8 + p.2 := by
    intro y hy hye
    obtain ⟨g, hg, h₁, h₂⟩ := (h.tiles.mem_iff y).mp ⟨by omega, hye⟩
    rcases List.mem_append.mp hg with hg | hg
    · obtain ⟨p, hp, rfl⟩ := List.mem_map.mp hg
      exact ⟨p, hp, h₁, h₂⟩
    · obtain ⟨b, hb, rfl⟩ := List.mem_map.mp hg
      have := hlive b hb
      simp only [liveSpan] at h₂
      omega
  obtain ⟨p, hp, h₁, h₂⟩ := hspan (e + 4095) (by omega) (by omega)
  refine ⟨p, hp, ?_⟩
  have hle : p.1 ≤ e := by
    by_contra hlt
    -- the byte before the node belongs to another node, but no two nodes touch
    obtain ⟨q, hq, h₃, h₄⟩ := hspan (p.1 - 1) (by omega) (by omega)
    have hne : q ≠ p := by
      rintro rfl
      omega
    have hap := List.Pairwise.forall_of_forall_of_flip
      (R := fun a b : ℕ × ℕ => a ≠ b → a.1 + 8 + a.2 < b.1 ∨ b.1 + 8 + b.2 < a.1)
      (fun _ _ hne => absurd rfl hne) (h.apart.imp fun hlt _ => .inl hlt) (h.apart.imp fun hlt _ => .inr hlt)
    have := hap hq hp hne
    omega
  omega

theorem HeapInv.findNode_ne_zero (h : HeapInv s L live) {fuel size prev node' prev' : ℕ} (hsize : size < 4088)
    (hroom : s.kheapEnd ≤ s.kheapStackEnd) (hfind : vmmFindNode fuel s 0 prev size = some (node', prev', s')) :
    node' ≠ 0 := by
  obtain ⟨node₁, prev₁, s₁, L₁, he, hinv, -, hend, hkeep⟩ := h.enlarge hroom prev size
  cases fuel with
  | zero =>
    rw [vmmFindNode, if_neg (not_not.mpr rfl), if_neg (Nat.not_lt.mpr hroom)] at hfind
    cases hfind
  | succ fuel =>
    rw [vmmFindNode, if_neg (not_not.mpr rfl), if_neg (Nat.not_lt.mpr hroom)] at hfind
    simp only [he, Option.bind_eq_bind, Option.bind_some] at hfind
    have hnode : node₁ ≠ 0 := by
      unfold vmmEnlarge at he
      simp only [Option.bind_eq_bind, Option.bind_eq_some_iff] at he
      obtain ⟨tmp, _, m, _, ⟨n₁, p₁⟩, hget, he⟩ := he
      obtain ⟨rfl, rfl, rfl⟩ : n₁ = node₁ ∧ p₁ = prev₁ ∧ _ = s₁ := by simpa using he
      obtain ⟨prev₂, hget'⟩ := vmmGetNode_spec hinv.nodes hinv.length_lt prev size
      obtain ⟨p, hp, hbig⟩ := hinv.exists_page hend (by rw [hkeep.start]; exact h.start_lt.le)
        fun b hb => (h.live_bounds hb).2
      obtain ⟨q, hq⟩ : ∃ q, L₁.find? (fun p => size < p.2) = some q := by
        rw [← Option.isSome_iff_exists, List.find?_isSome]
        exact ⟨p, hp, by simpa using hsize.trans_le hbig⟩
      rw [hq] at hget'
      have heq := Option.some.inj (hget.symm.trans hget')
      rw [(Prod.mk.inj heq).1]
      exact hinv.nodes.pos (List.mem_of_find?_eq_some hq)
    cases fuel with
    | zero =>
      rw [vmmFindNode, if_pos hnode] at hfind
      cases hfind
      exact hnode
    | succ fuel =>
      rw [vmmFindNode, if_pos hnode] at hfind
      cases hfind
      exact hnode

/-- **A request that wraps.** -/
theorem HeapInv.listAlloc_wrapped (h : HeapInv s L live) (hstack : s.kheapStackStart + 4 < 2 ^ 32)
    (hwrap : 2 ^ 32 ≤ n + 4) (hlt : n < 2 ^ 32) : ∃ ptr s', vmmListAlloc s n = some (ptr, s') ∧
      (ptr = 0 ↔ Exhausted s (n + 4 - 2 ^ 32)) ∧ (ptr ≠ 0 → load32 s'.mem (ptr - 4) = n + 4 - 2 ^ 32 ∧
        ∃ s₁ L' p, HeapInv s₁ L' live ∧ s₁.kheapStackStart = s.kheapStackStart ∧ p ∈ L' ∧
          ptr + (n + 4 - 2 ^ 32) = p.1 + 8 + p.2 + 4) := by
  obtain ⟨size, hsize⟩ : ∃ size, size = n + 4 - 2 ^ 32 := ⟨_, rfl⟩
  have hu : u32 (n + 4) = size := by
    unfold u32
    omega
  obtain ⟨prev, hget⟩ := vmmGetNode_spec h.nodes h.length_lt 0 size
  obtain ⟨node', prev', s', L', hfind, hinv, hnode, hkeep⟩ := h.findNode
    (show _ ≤ s.growFuel * pageFrameSize by simp only [Vmm.growFuel, pageFrameSize]; omega)
    (find_node L size) prev
  have hfull : node' = 0 ↔ Exhausted s size := by
    rw [h.exhausted_iff]
    cases hf : L.find? fun p => size < p.2 with
    | none =>
      have hsmall : ∀ p ∈ L, p.2 ≤ size := fun p hp => by
        have := List.find?_eq_none.mp hf p hp
        simpa using this
      rw [hf] at hfind
      refine ⟨fun h₀ => ⟨hsmall, ?_⟩, fun hex => ?_⟩
      · by_contra hroom
        exact h.findNode_ne_zero (by omega) (Nat.le_of_not_lt hroom) hfind h₀
      · change vmmFindNode _ s 0 prev size = _ at hfind
        unfold vmmFindNode at hfind
        rw [if_neg (not_not.mpr rfl), if_pos hex.2] at hfind
        cases hfind
        rfl
    | some p =>
      have hp := List.mem_of_find?_eq_some hf
      have hlt' : size < p.2 := by simpa using List.find?_some hf
      have hp₀ := h.nodes.pos hp
      rw [hf] at hfind
      change vmmFindNode _ s p.1 prev size = _ at hfind
      unfold vmmFindNode at hfind
      rw [if_pos hp₀] at hfind
      cases hfind
      exact ⟨fun h₀ => absurd h₀ hp₀, fun hex => absurd (hex.1 p hp) (Nat.not_le.mpr hlt')⟩
  rw [← hsize]
  unfold vmmListAlloc
  simp only [sizeofSizeT, hu, hget, hfind, Option.bind_eq_bind, Option.bind_some]
  by_cases h₀ : node' = 0
  · exact ⟨0, s', by rw [if_pos h₀]; rfl, ⟨fun _ => hfull.mp h₀, fun _ => rfl⟩, fun hne => absurd rfl hne⟩
  · obtain ⟨k, hk, hlt'⟩ := hnode.resolve_left h₀
    have hb := hinv.node_bounds hk
    have hend := hinv.end_le
    have hstart := hkeep.stackStart
    dsimp only at hb
    have htake := vmmTakeNode_eq (hinv.nodes.2 _ hk) hlt' (by dsimp only; omega) prev'
    refine ⟨_, _, by rw [if_neg h₀, htake]; rfl, ⟨fun hz => ?_, fun hex => absurd (hfull.mpr hex) h₀⟩, fun _ => ?_⟩
    · dsimp only at hz
      omega
    · dsimp only
      refine ⟨?_, s', L', _, hinv, hstart, hk, by dsimp only; omega⟩
      rw [Nat.add_sub_cancel, load32_store32, u32_of_lt (by omega)]

/-! ## The page heap stays where it is -/

theorem vmmFindNode_stackStart {fuel node prev size node' prev' : ℕ}
    (h : vmmFindNode fuel s node prev size = some (node', prev', s')) : s'.kheapStackStart = s.kheapStackStart := by
  induction fuel generalizing s node prev with
  | zero =>
    unfold vmmFindNode at h
    split_ifs at h <;> cases h <;> rfl
  | succ fuel ih =>
    unfold vmmFindNode at h
    by_cases h₀ : node ≠ 0
    · rw [if_pos h₀] at h
      cases h
      rfl
    rw [if_neg h₀] at h
    by_cases hfull : s.kheapEnd > s.kheapStackEnd
    · rw [if_pos hfull] at h
      cases h
      rfl
    rw [if_neg hfull] at h
    obtain ⟨⟨node₁, prev₁, s₁⟩, he, h⟩ := Option.bind_eq_some_iff.mp h
    unfold vmmEnlarge at he
    simp only [Option.bind_eq_bind, Option.bind_eq_some_iff] at he
    obtain ⟨tmp, _, m, _, ⟨n₁, p₁⟩, _, he⟩ := he
    cases he
    exact (ih h).trans rfl

theorem vmmListAlloc_stackStart {size : ℕ} (h : vmmListAlloc s size = some (ptr, s')) :
    s'.kheapStackStart = s.kheapStackStart := by
  unfold vmmListAlloc at h
  simp only [Option.bind_eq_bind, Option.bind_eq_some_iff] at h
  obtain ⟨⟨node, prev⟩, _, ⟨node', prev', s₁⟩, hfind, h⟩ := h
  have hs := vmmFindNode_stackStart hfind
  dsimp only at h
  by_cases h₀ : node' = 0
  · rw [if_pos h₀] at h
    cases h
    exact hs
  · rw [if_neg h₀] at h
    obtain ⟨ptr', m, htake⟩ := vmmTakeNode_mem s₁ node' prev' (u32 (size + sizeofSizeT))
    rw [htake] at h
    cases h
    exact hs

theorem kfree_stackStart (h : kfree frame s ptr = some s') : s'.kheapStackStart = s.kheapStackStart := by
  unfold kfree at h
  by_cases hout : ptr < s.kheapStart ∨ ptr ≥ s.kheapStackStart
  · rw [if_pos hout] at h
    cases h
    rfl
  rw [if_neg hout] at h
  by_cases hpage : ptr > s.kheapEnd
  · rw [if_pos hpage] at h
    simp only [Option.bind_eq_bind, Option.bind_eq_some_iff] at h
    obtain ⟨⟨ptr', s₁⟩, halloc, h⟩ := h
    cases h
    exact (vmmListAlloc_stackStart halloc :)
  · rw [if_neg hpage] at h
    simp only [Option.bind_eq_bind, Option.bind_eq_some_iff] at h
    obtain ⟨m₁, _, m₂, _, h⟩ := h
    cases h
    rfl

theorem vmmBlockAlloc_stackStart (h : vmmBlockAlloc frame s = some (ptr, s')) :
    s'.kheapStackStart = s.kheapStackStart := by
  unfold vmmBlockAlloc at h
  by_cases hfull : s.kheapStackEnd < s.kheapEnd
  · rw [if_pos hfull] at h
    cases h
    rfl
  rw [if_neg hfull] at h
  by_cases hlast : s.kheapStackLast ≠ 0
  · rw [if_pos hlast] at h
    simp only [Option.bind_eq_bind, Option.bind_eq_some_iff] at h
    obtain ⟨s₁, hfree, h⟩ := h
    cases h
    exact (kfree_stackStart hfree).trans rfl
  · rw [if_neg hlast] at h
    obtain ⟨_, rfl⟩ := Prod.mk.inj (Option.some.inj h)
    rfl

theorem kmalloc_stackStart (h : kmalloc frame s n = some (ptr, s')) : s'.kheapStackStart = s.kheapStackStart := by
  unfold kmalloc at h
  by_cases h₀ : n = 0
  · rw [if_pos h₀] at h
    cases h
    rfl
  rw [if_neg h₀] at h
  by_cases hpage : n = pageFrameSize
  · rw [if_pos hpage] at h
    simp only [Option.bind_eq_bind, Option.bind_eq_some_iff] at h
    obtain ⟨⟨ptr₁, s₁⟩, hblock, h⟩ := h
    have hs := vmmBlockAlloc_stackStart hblock
    dsimp only at h
    by_cases hptr : ptr₁ ≠ 0
    · rw [if_pos hptr] at h
      cases h
      exact hs
    · rw [if_neg hptr] at h
      exact (vmmListAlloc_stackStart h).trans hs
  · rw [if_neg hpage] at h
    exact vmmListAlloc_stackStart h

theorem blockStep_stackStart {c' : HeapCfg} {op : BlockOp} (h : blockStep c op = some c') :
    c'.vmm.kheapStackStart = c.vmm.kheapStackStart := by
  cases op with
  | kmalloc frame n =>
    obtain ⟨⟨ptr, s⟩, hk, h⟩ := Option.bind_eq_some_iff.mp h
    cases h
    exact (kmalloc_stackStart hk :)
  | kfree frame p =>
    obtain ⟨b, _, h⟩ := Option.bind_eq_some_iff.mp h
    obtain ⟨s, hk, h⟩ := Option.bind_eq_some_iff.mp h
    cases h
    exact (kfree_stackStart hk :)
  | write p i v =>
    cases h
    rfl

/-! ## Requests that do not wrap -/

theorem HeapInv.hasRoom (h : HeapInv s L ((ptr, n) :: live)) : HasRoom s ptr n := by
  obtain ⟨h₄, -, hhead⟩ := h.header _ List.mem_cons_self
  obtain ⟨hlo, hhi⟩ := h.live_bounds List.mem_cons_self
  dsimp only at h₄ hhead hlo hhi
  refine .inl ?_
  simp only [sizeofSizeT, hhead]
  omega

theorem BlocksInv.listHonours (h : BlocksInv c L) (hn : 0 < n) (hlt : n + 4 < 2 ^ 32) :
    ∃ ptr s', vmmListAlloc c.vmm n = some (ptr, s') ∧ (ptr ≠ 0 → HasRoom s' ptr n) := by
  obtain ⟨ptr, s', L', halloc, hinv, -⟩ := h.heap.listAlloc hn hlt
  refine ⟨ptr, s', halloc, fun hptr => ?_⟩
  rw [if_neg hptr] at hinv
  exact hinv.hasRoom

/-- A page of the page heap: the next one below `kheap_stack_end`, or one above. -/
theorem BlocksInv.page (h : BlocksInv c L) (hstack : c.vmm.kheapStackStart = kheapBlockStart + pageFrameSize)
    (hroom : c.vmm.kheapEnd ≤ c.vmm.kheapStackEnd) (frame : ℕ) : ∃ ptr s', vmmBlockAlloc frame c.vmm = some (ptr, s') ∧
      ptr ≠ 0 ∧ c.vmm.kheapStackEnd ≤ ptr + pageFrameSize ∧ s'.kheapStackEnd ≤ ptr ∧
      ptr + pageFrameSize ≤ s'.kheapStackStart := by
  have hle := h.heap.stack
  have hstart := h.start
  have hlist := h.heap.start_lt
  simp only [kheapBlockStart, pageFrameSize] at hstack hle
  unfold kheapListStart at hstart
  rcases h.stack with hz | ⟨hl, h₀, hsize, -⟩
  · obtain ⟨t, ht, hfresh⟩ := blockAlloc_fresh hz hroom (by unfold pageFrameSize; omega) (by omega) frame
    refine ⟨t, _, hfresh, by omega, ht.ge, le_rfl, ?_⟩
    simp only [pageFrameSize]
    omega
  · obtain ⟨s', L', hpop, hinv, hkeep, -⟩ := h.heap.popNode hl rfl h₀ hroom frame
    have hend : s'.kheapStackEnd = c.vmm.kheapStackEnd := hkeep.stackEnd
    have htop : s'.kheapStackStart = c.vmm.kheapStackStart := hkeep.stackStart
    rw [hsize] at hpop
    refine ⟨_, s', hpop, by decide, ?_, ?_, ?_⟩
    · unfold kheapBlockStart
      omega
    · rw [hend]
      unfold kheapBlockStart
      omega
    · rw [htop]
      unfold kheapBlockStart pageFrameSize
      omega

theorem BlocksInv.honours (h : BlocksInv c L) (hstack : c.vmm.kheapStackStart = kheapBlockStart + pageFrameSize)
    (hn : 0 < n) (hlt : n + 4 < 2 ^ 32) (frame : ℕ) : Honours c frame n := by
  unfold Honours Heap.kmalloc
  rw [if_neg hn.ne']
  by_cases hpage : n = pageFrameSize
  · rw [if_pos hpage]
    by_cases hroom : c.vmm.kheapEnd ≤ c.vmm.kheapStackEnd
    · obtain ⟨ptr, s', hblock, hptr, -, hlow, htop⟩ := h.page hstack hroom frame
      refine ⟨ptr, s', ?_, fun _ => .inr ⟨hlow, hpage.le, htop⟩⟩
      rw [hblock]
      exact if_pos hptr
    · have hfull : vmmBlockAlloc frame c.vmm = some (0, c.vmm) := by
        rw [vmmBlockAlloc, if_pos (by omega)]
      obtain ⟨ptr, s', halloc, hgood⟩ := h.listHonours hn hlt
      exact ⟨ptr, s', by rw [hfull, ← halloc]; rfl, hgood⟩
  · rw [if_neg hpage]
    exact h.listHonours hn hlt

theorem BlocksInv.honours_wrapped (h : BlocksInv c L) (hstack : c.vmm.kheapStackStart = kheapBlockStart + pageFrameSize)
    (hwrap : 2 ^ 32 ≤ n + 4) (hlt : n < 2 ^ 32) (frame : ℕ) :
    Honours c frame n ↔ Exhausted c.vmm (n + 4 - 2 ^ 32) := by
  have hfit : c.vmm.kheapStackStart + 4 < 2 ^ 32 := by
    rw [hstack]
    decide
  obtain ⟨ptr, s', halloc, hnull, hhead⟩ := h.heap.listAlloc_wrapped hfit hwrap hlt
  have hk : Heap.kmalloc frame c.vmm n = some (ptr, s') := by
    unfold Heap.kmalloc
    rw [if_neg (by omega), if_neg (by unfold pageFrameSize; omega), halloc]
  rw [← hnull]
  refine ⟨?_, fun h₀ => ⟨ptr, s', hk, fun hne => absurd h₀ hne⟩⟩
  rintro ⟨ptr₁, s₁, hk₁, hroom⟩
  obtain ⟨rfl, rfl⟩ := Prod.mk.inj (Option.some.inj (hk.symm.trans hk₁))
  by_contra hne
  rcases hroom hne with ⟨-, hsize, -⟩ | ⟨-, hpage, -⟩
  · simp only [sizeofSizeT, (hhead hne).1] at hsize
    omega
  · unfold pageFrameSize at hpage
    omega

theorem blockStep_ends {c' : HeapCfg} {op : BlockOp} (hends : Ends c.vmm.ends) (h : blockStep c op = some c') :
    Ends c'.vmm.ends := by
  cases op with
  | kmalloc frame n =>
    obtain ⟨⟨ptr, s⟩, hk, h⟩ := Option.bind_eq_some_iff.mp h
    cases h
    exact hends.run (kmalloc_grows hends hk)
  | kfree frame p =>
    obtain ⟨b, _, h⟩ := Option.bind_eq_some_iff.mp h
    obtain ⟨s, hk, h⟩ := Option.bind_eq_some_iff.mp h
    cases h
    exact hends.run (kfree_grows hends hk)
  | write p i v =>
    cases h
    exact hends

/-- **A run** keeps both heaps. -/
theorem blocksInv_run {s₁ : Vmm} (hinit : vmmInit frame s = some s₁) {ops : List BlockOp}
    (hrun : Run (fun c op c' => BlockOp.Legal c op ∧ op.Fits c ∧ blockStep c op = some c')
      ⟨s₁, [(s₁.kheapStackLast, sizeofNode)]⟩ ops c) : ∃ L, BlocksInv c L ∧
      c.vmm.kheapStackStart = kheapBlockStart + pageFrameSize ∧ Ends c.vmm.ends := by
  obtain ⟨s₁', L, m, hinit', hini⟩ := vmmInit_spec frame s
  obtain rfl := Option.some.inj (hinit.symm.trans hinit')
  have hends : Ends s₁.ends := by
    rw [hini.ends]
    exact ⟨by decide, by decide, by decide, by decide, by decide, by decide⟩
  refine hrun.invariant (I := fun c => ∃ L, BlocksInv c L ∧
    c.vmm.kheapStackStart = kheapBlockStart + pageFrameSize ∧ Ends c.vmm.ends) ?_
      ⟨L, hini.blocks, hini.stackStart, hends⟩
  rintro c op c' ⟨L, hinv, hstack, hends⟩ ⟨hlegal, hfits, hstep⟩
  obtain ⟨c₁, L', hstep', hinv'⟩ := hinv.step hlegal hfits
  obtain rfl := Option.some.inj (hstep.symm.trans hstep')
  exact ⟨L', hinv', (blockStep_stackStart hstep).trans hstack, blockStep_ends hends hstep⟩

/-- **The sizes that are honoured.** In every run of `kmalloc` and `kfree` from `vmm_init` in which no request
wraps and every block that is freed has at least four bytes: `kmalloc(n)` returns `NULL` or a block with `n`
bytes, exactly when `n + 4` does not wrap or nothing is left. -/
theorem kmalloc_honours_iff {s₁ : Vmm} (hinit : vmmInit frame s = some s₁) {ops : List BlockOp}
    (hrun : Run (fun c op c' => BlockOp.Legal c op ∧ op.Fits c ∧ blockStep c op = some c')
      ⟨s₁, [(s₁.kheapStackLast, sizeofNode)]⟩ ops c) (hn : 1 ≤ n) (hlt : n < 2 ^ 32) (frame' : ℕ) :
    Honours c frame' n ↔ n + sizeofSizeT < 2 ^ 32 ∨ Exhausted c.vmm (n + sizeofSizeT - 2 ^ 32) := by
  obtain ⟨L, hinv, hstack, -⟩ := blocksInv_run hinit hrun
  unfold sizeofSizeT
  by_cases hwrap : n + 4 < 2 ^ 32
  · exact iff_of_true (hinv.honours hstack hn hwrap frame') (.inl hwrap)
  · rw [hinv.honours_wrapped hstack (Nat.le_of_not_lt hwrap) hlt]
    exact (or_iff_right hwrap).symm

/-- After two requests, of which the first block is freed. -/
theorem kmalloc_honours_iff_demo : ∃ s₁ c, vmmInit 0 zeroVmm = some s₁ ∧
    Run (fun c op c' => BlockOp.Legal c op ∧ op.Fits c ∧ blockStep c op = some c')
      ⟨s₁, [(s₁.kheapStackLast, sizeofNode)]⟩ [.kmalloc 0 100, .kmalloc 0 200, .kfree 0 0xD0000F90] c ∧
    (Honours c 0 50 ↔ 50 + sizeofSizeT < 2 ^ 32 ∨ Exhausted c.vmm (50 + sizeofSizeT - 2 ^ 32)) := by
  obtain ⟨s₁, _, _, hinit, _⟩ := vmmInit_spec 0 zeroVmm
  have heval : ((vmmInit 0 zeroVmm).bind fun s₁ => blockExec ⟨s₁, [(s₁.kheapStackLast, sizeofNode)]⟩
      [.kmalloc 0 100, .kmalloc 0 200, .kfree 0 0xD0000F90]).isSome = true := by decide +kernel
  rw [hinit, Option.bind_some] at heval
  obtain ⟨c, hc⟩ := Option.isSome_iff_exists.mp heval
  have hrun := run_of_blockExec hc
  exact ⟨s₁, c, hinit, hrun, kmalloc_honours_iff hinit hrun (by decide) (by decide) 0⟩

/-- **`kmalloc(2 ^ 32 - 1)`** after boot returns a block of three bytes, header included. -/
theorem kmalloc_wraps : ∃ s₁, vmmInit 0 zeroVmm = some s₁ ∧
    ¬ Honours ⟨s₁, [(s₁.kheapStackLast, sizeofNode)]⟩ 0 (2 ^ 32 - 1) := by
  have heval : ((vmmInit 0 zeroVmm).bind fun s₁ => (kmalloc 0 s₁ (2 ^ 32 - 1)).map fun r =>
      (r.1, load32 r.2.mem (r.1 - sizeofSizeT))) = some (0xD0000FF5, 3) := by decide +kernel
  obtain ⟨s₁, hinit, heval⟩ := Option.bind_eq_some_iff.mp heval
  refine ⟨s₁, hinit, ?_⟩
  rintro ⟨ptr, s', hk, hroom⟩
  rw [hk, Option.map_some, Option.some.injEq, Prod.mk.injEq] at heval
  obtain ⟨hptr, hhead⟩ : ptr = 0xD0000FF5 ∧ load32 s'.mem (ptr - sizeofSizeT) = 3 := heval
  rcases hroom (by rw [hptr]; decide) with ⟨-, hsize, -⟩ | ⟨-, hpage, -⟩
  · rw [hhead] at hsize
    omega
  · exact absurd hpage (by decide)

end BulbOS.Heap
