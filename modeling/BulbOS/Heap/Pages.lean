import BulbOS.Heap.Init

/-!
# The stack of free pages

`vmm_block_alloc` pops a node of the list at `kheap_stack_last` and frees the node, or takes a fresh page.
`kfree` of a page takes four bytes from the list heap, drops them, and pushes a node that lies in its own
stack frame. A run has calls of the two for pages, and changes of memory outside the list heap: frames that
have returned are used again.

* `StackOk`: every node is a block of the list heap that was taken for it, and every such block is a node;
  the next page is the one freed last or a fresh one;
* `PagesInv.step`: without frees, one node at the start and then fresh pages;
* **`page_stack_ok`**: runs without frees, and the first free.
-/

namespace BulbOS.Heap

open KLib

/-- The allocators; the blocks of the list heap taken for nodes; the pages that are allocated, those that are
free again, the last one first, and all pages ever handed out. -/
structure PageCfg where
  vmm : Vmm
  live : List ℕ
  pages : List ℕ
  freed : List ℕ
  given : List ℕ

/-- A call of `kmalloc(4096)` or `kfree`, with the address of its frame, or other code that runs. -/
inductive PageOp
  | kmalloc (frame : ℕ)
  | kfree (frame p : ℕ)
  | clobber (m : Mem)

def PageOp.isFree : PageOp → Bool
  | .kfree _ _ => true
  | _ => false

/-- A page that is freed is allocated; frames and other code lie outside the list heap. -/
def PageOp.Legal (c : PageCfg) : PageOp → Prop
  | .kmalloc _ => True
  | .kfree frame p => p ∈ c.pages ∧ 0 < frame ∧ frame + sizeofNode ≤ 2 ^ 32 ∧
    (frame + sizeofNode ≤ c.vmm.kheapStart ∨ c.vmm.kheapEnd ≤ frame)
  | .clobber m => ∀ y, c.vmm.kheapStart ≤ y → y < c.vmm.kheapEnd → m y = c.vmm.mem y

/-- The blocks taken for nodes after `kfree` of `ptr`. -/
def liveFreed (s : Vmm) (ptr : ℕ) (live : List ℕ) : List ℕ :=
  if ptr < s.kheapStart ∨ ptr ≥ s.kheapStackStart then live
  else if ptr > s.kheapEnd then
    match vmmListAlloc s sizeofSizeT with
    | none => live
    | some (q, _) => q :: live
  else live.erase ptr

/-- The blocks taken for nodes after `vmm_block_alloc`, which frees the node it pops. -/
def livePopped (s : Vmm) (live : List ℕ) : List ℕ :=
  if s.kheapStackEnd < s.kheapEnd ∨ s.kheapStackLast = 0 then live
  else liveFreed { s with kheapStackLast := nodeNext s.mem s.kheapStackLast } s.kheapStackLast live

def pageStep (c : PageCfg) : PageOp → Option PageCfg
  | .kmalloc frame => do
    let (ptr, s) ← kmalloc frame c.vmm pageFrameSize
    if ptr = 0 then return { c with vmm := s, live := livePopped c.vmm c.live }
    return ⟨s, livePopped c.vmm c.live, ptr :: c.pages,
      if c.freed.head? = some ptr then c.freed.tail else c.freed, ptr :: c.given⟩
  | .kfree frame p => do
    let s ← kfree frame c.vmm p
    return ⟨s, liveFreed c.vmm p c.live, c.pages.erase p, p :: c.freed, c.given⟩
  | .clobber m => some { c with vmm := { c.vmm with mem := m } }

/-- **The stack of free pages is correct.** -/
structure StackOk (c : PageCfg) : Prop where
  nodes : ∃ ns, Linked (nodeNext c.vmm.mem) 0 c.vmm.kheapStackLast ns ∧ ns.Perm c.live
  next : ∀ frame, ∃ ptr s, kmalloc frame c.vmm pageFrameSize = some (ptr, s) ∧
    (ptr = 0 ∧ c.vmm.kheapStackEnd < c.vmm.kheapEnd ∨
      ptr ≠ 0 ∧ ptr ∉ c.pages ∧ (c.freed.head? = some ptr ∨ ptr ∉ c.given))

/-- `vmm_init` has taken a block for the node of the first page. -/
def pageBoot (s : Vmm) : PageCfg := ⟨s, [s.kheapStackLast], [], [], []⟩

variable {s : Vmm} {L live : List (ℕ × ℕ)} {c c' : PageCfg}

/-! ## The list heap -/

theorem HeapInv.single (h : HeapInv s L []) : ∃ k, (s.kheapStart, k) ∈ L ∧ s.kheapStart + 8 + k = s.kheapEnd := by
  obtain ⟨k, L', rfl⟩ := h.exists_head
  refine ⟨k, List.mem_cons_self, ?_⟩
  have hbound := (h.node_bounds List.mem_cons_self).2
  dsimp only at hbound
  by_contra hne
  -- the byte behind the first node belongs to another node, but no two nodes touch
  obtain ⟨g, hg, h₁, h₂⟩ := (h.tiles.mem_iff (s.kheapStart + 8 + k)).mp ⟨by omega, by omega⟩
  simp only [List.map_nil, List.append_nil, List.mem_map] at hg
  obtain ⟨r, hr, rfl⟩ := hg
  rcases List.mem_cons.mp hr with rfl | hr
  · simp only [nodeSpan, sizeofNode] at h₂
    omega
  · have hap := (List.pairwise_cons.mp h.apart).1 r hr
    simp only [nodeSpan, sizeofNode] at h₁ hap
    omega

theorem HeapInv.listAlloc_full (h : HeapInv s L live) {n : ℕ} (hlt : n + 4 < 2 ^ 32)
    (hfull : s.kheapStackEnd < s.kheapEnd) (hbig : ∀ p ∈ L, p.2 ≤ n + 4) : vmmListAlloc s n = some (0, s) := by
  obtain ⟨prev, hget⟩ := vmmGetNode_spec h.nodes h.length_lt 0 (n + 4)
  have hnone : L.find? (fun p => n + 4 < p.2) = none := by
    rw [List.find?_eq_none]
    intro p hp
    have := hbig p hp
    simp only [decide_eq_true_eq]
    omega
  rw [hnone] at hget
  unfold vmmListAlloc
  simp only [sizeofSizeT, u32_of_lt hlt, hget, Option.bind_eq_bind, Option.bind_some, Option.map_none,
    Option.getD_none]
  unfold vmmFindNode
  rw [if_neg (by simp), if_pos hfull]
  rfl

/-! ## Runs without frees -/

/-- The page stack holds the node of `vmm_init`, or it is empty and fresh pages are taken. -/
structure PagesInv (c : PageCfg) : Prop where
  start : c.vmm.kheapStart = kheapListStart
  listEnd : c.vmm.kheapEnd = kheapListStart + pageFrameSize
  stackStart : c.vmm.kheapStackStart = kheapBlockStart + pageFrameSize
  low : kheapListStart ≤ c.vmm.kheapStackEnd
  high : c.vmm.kheapStackEnd ≤ kheapBlockStart
  pages : ∀ p ∈ c.pages, p ∈ c.given
  given : ∀ p ∈ c.given, c.vmm.kheapStackEnd ≤ p ∧ p ≤ kheapBlockStart
  stack : (∃ L, HeapInv c.vmm L [] ∧ c.vmm.kheapStackLast = 0 ∧ c.live = []) ∨
    ∃ L n, Initial c.vmm L n ∧ c.live = [n] ∧ c.given = []

theorem PagesInv.nodes (h : PagesInv c) :
    ∃ ns, Linked (nodeNext c.vmm.mem) 0 c.vmm.kheapStackLast ns ∧ ns.Perm c.live := by
  rcases h.stack with ⟨L, _, hlast, hlive⟩ | ⟨L, n, hini, hlive, _⟩
  · exact ⟨[], hlast, by rw [hlive]⟩
  · exact ⟨[n], ⟨hini.last, hini.node, hini.next⟩, by rw [hlive]⟩

/-- What a call of `kmalloc(4096)` returns, and the state after it. -/
theorem PagesInv.kmalloc (h : PagesInv c) (frame : ℕ) : ∃ ptr s, kmalloc frame c.vmm pageFrameSize = some (ptr, s) ∧
    (ptr = 0 ∧ c.vmm.kheapStackEnd < c.vmm.kheapEnd ∧ s = c.vmm ∧ livePopped c.vmm c.live = c.live ∨
      ptr ≠ 0 ∧ ptr ∉ c.given ∧ ∀ freed, PagesInv ⟨s, livePopped c.vmm c.live, ptr :: c.pages, freed,
        ptr :: c.given⟩) := by
  have hlow := h.low
  have hhigh := h.high
  have hend := h.listEnd
  simp only [kheapListStart, kheapBlockStart, pageFrameSize] at hlow hhigh hend
  rcases h.stack with ⟨L, hinv, hlast, hlive⟩ | ⟨L, n, hini, hlive, hgiven⟩
  · have hpop : livePopped c.vmm c.live = c.live := if_pos (.inr hlast)
    by_cases hroom : c.vmm.kheapEnd ≤ c.vmm.kheapStackEnd
    · obtain ⟨t, ht, hfresh⟩ := blockAlloc_fresh hlast hroom (by unfold pageFrameSize; omega) (by omega) frame
      refine ⟨t, _, kmalloc_page hfresh (by omega), .inr ⟨by omega, fun hmem => ?_, fun freed => ?_⟩⟩
      · have := (h.given t hmem).1
        omega
      · rw [hpop]
        refine ⟨h.start, h.listEnd, h.stackStart, ?_, ?_, ?_, ?_, .inl ⟨L, hinv.lower (by omega), hlast, hlive⟩⟩
        · dsimp only [kheapListStart]
          omega
        · dsimp only [kheapBlockStart]
          omega
        · intro p hp
          rcases List.mem_cons.mp hp with rfl | hp
          · exact List.mem_cons_self
          · exact List.mem_cons_of_mem _ (h.pages p hp)
        · intro p hp
          rcases List.mem_cons.mp hp with rfl | hp
          · dsimp only [kheapBlockStart]
            omega
          · have := h.given p hp
            dsimp only
            omega
    · have hblock : vmmBlockAlloc frame c.vmm = some (0, c.vmm) := by
        rw [vmmBlockAlloc, if_pos (by omega)]
      have hlist : vmmListAlloc c.vmm pageFrameSize = some (0, c.vmm) := by
        refine hinv.listAlloc_full (by decide) (by omega) fun p hp => ?_
        have hb := hinv.node_bounds hp
        have hs := h.start
        dsimp only [kheapListStart, pageFrameSize] at hs ⊢
        omega
      refine ⟨0, c.vmm, ?_, .inl ⟨rfl, by omega, rfl, hpop⟩⟩
      rw [Heap.kmalloc, if_neg (by decide), if_pos rfl, hblock]
      exact hlist
  · have hstack := hini.stackEnd
    have hbounds := hini.heap.live_bounds (List.mem_singleton_self _)
    have hle := hini.heap.end_le
    dsimp only at hbounds
    obtain ⟨s, L', hpop, hinv, hkeep, hend'⟩ := hini.heap.popNode (List.mem_singleton_self _) hini.last hini.node
      (by rw [hstack, h.listEnd]; decide) frame
    rw [hini.page] at hpop
    have hlive' : livePopped c.vmm c.live = [] := by
      rw [livePopped, if_neg (by rw [hini.last, hstack, h.listEnd]; simp [hini.node]; decide), liveFreed, hini.last,
        if_neg (by dsimp only; omega), if_neg (by dsimp only; omega), hlive, List.erase_cons_head]
    refine ⟨_, s, kmalloc_page hpop (by decide), .inr ⟨by decide, by rw [hgiven]; simp, fun freed => ?_⟩⟩
    rw [hlive', hgiven]
    refine ⟨hkeep.start.trans h.start, hend'.trans h.listEnd, hkeep.stackStart.trans h.stackStart, ?_, ?_, ?_, ?_,
      .inl ⟨L', ?_, ?_, rfl⟩⟩
    · rw [hkeep.stackEnd]
      exact h.low
    · rw [hkeep.stackEnd]
      exact h.high
    · intro p hp
      rcases List.mem_cons.mp hp with rfl | hp
      · exact List.mem_cons_self
      · have := h.pages p hp
        rw [hgiven] at this
        cases this
    · intro p hp
      rw [List.mem_singleton.mp hp]
      dsimp only
      rw [hkeep.stackEnd]
      exact ⟨h.high, le_rfl⟩
    · rwa [List.erase_cons_head] at hinv
    · rw [show s.kheapStackLast = nodeNext c.vmm.mem n from hkeep.last]
      exact hini.next

theorem PagesInv.stackOk (h : PagesInv c) : StackOk c := by
  refine ⟨h.nodes, fun frame => ?_⟩
  obtain ⟨ptr, s, hk, ⟨hz, hfull, _⟩ | ⟨hptr, hfresh, _⟩⟩ := h.kmalloc frame
  · exact ⟨ptr, s, hk, .inl ⟨hz, hfull⟩⟩
  · exact ⟨ptr, s, hk, .inr ⟨hptr, fun hp => hfresh (h.pages _ hp), .inr hfresh⟩⟩

theorem PagesInv.clobber (h : PagesInv c) {m : Mem}
    (hm : ∀ y, c.vmm.kheapStart ≤ y → y < c.vmm.kheapEnd → m y = c.vmm.mem y) :
    PagesInv { c with vmm := { c.vmm with mem := m } } := by
  have hheap : ∀ {L live}, HeapInv c.vmm L live → HeapInv { c.vmm with mem := m } L live := by
    intro L live hinv
    refine hinv.congr_mem (fun p hp y h₁ h₂ => hm y ?_ ?_) (fun b hb y h₁ h₂ => hm y ?_ ?_)
    · exact (hinv.node_bounds hp).1.trans h₁
    · have := hinv.node_bounds hp
      omega
    · have := hinv.live_bounds hb
      omega
    · have := hinv.live_bounds hb
      omega
  refine ⟨h.start, h.listEnd, h.stackStart, h.low, h.high, h.pages, h.given, ?_⟩
  rcases h.stack with ⟨L, hinv, hlast, hlive⟩ | ⟨L, n, hini, hlive, hgiven⟩
  · exact .inl ⟨L, hheap hinv, hlast, hlive⟩
  · have hbounds := hini.heap.live_bounds (List.mem_singleton_self _)
    dsimp only at hbounds
    have hbytes : ∀ y, n ≤ y → y < n + 8 → m y = c.vmm.mem y := fun y _ _ => hm y (by omega) (by omega)
    exact .inr ⟨L, n, ⟨hheap hini.heap, hini.node, hini.last, (nodeSize_congr hbytes).trans hini.page,
      (nodeNext_congr hbytes).trans hini.next, hini.start, hini.listEnd, hini.stackEnd, hini.stackStart⟩, hlive, hgiven⟩

/-- **One step** that is not a free. -/
theorem PagesInv.step (h : PagesInv c) {op : PageOp} (hlegal : op.Legal c) (hop : op.isFree = false)
    (hstep : pageStep c op = some c') : PagesInv c' := by
  cases op with
  | kmalloc frame =>
    obtain ⟨ptr, s, hk, ⟨rfl, _, rfl, hpop⟩ | ⟨hptr, _, hinv⟩⟩ := h.kmalloc frame
    · simp only [pageStep, hk, Option.bind_eq_bind, Option.bind_some, if_true, hpop] at hstep
      cases hstep
      exact h
    · simp only [pageStep, hk, Option.bind_eq_bind, Option.bind_some, if_neg hptr] at hstep
      cases hstep
      exact hinv _
  | kfree frame p => cases hop
  | clobber m =>
    cases hstep
    exact h.clobber hlegal

/-- After a page above the list heap is freed, the top of the stack is no block of the list heap. -/
theorem PagesInv.first_free (h : PagesInv c) {frame p : ℕ} (hlegal : (PageOp.kfree frame p).Legal c)
    (hp : c.vmm.kheapEnd < p) (hstep : pageStep c (.kfree frame p) = some c') : ¬ StackOk c' := by
  obtain ⟨hpage, hframe, hword, hout⟩ := hlegal
  have hgiven := h.given p (h.pages p hpage)
  rcases h.stack with ⟨L, hinv, hlast, hlive⟩ | ⟨L, n, _, _, hnone⟩
  · obtain ⟨k, hk, hsize⟩ := hinv.single
    have hs := h.start
    have he := h.listEnd
    have hss := h.stackStart
    dsimp only [pageFrameSize] at he hss
    obtain ⟨q, s₁, L₁, halloc, hq, hinv₁, hkeep, hend⟩ := hinv.listAlloc_fits (show 0 < sizeofSizeT by decide)
      (by decide) ⟨_, hk, by dsimp only [sizeofSizeT]; omega⟩
    have hbounds := hinv₁.live_bounds List.mem_cons_self
    rw [hkeep.start, hend] at hbounds
    dsimp only [sizeofSizeT] at hbounds
    have hout' : ¬ (p < c.vmm.kheapStart ∨ p ≥ c.vmm.kheapStackStart) := by omega
    have hlive' : liveFreed c.vmm p c.live = [q] := by
      rw [liveFreed, if_neg hout', if_pos hp, halloc, hlive]
    simp only [pageStep, kfree, if_neg hout', if_pos hp, halloc, Option.bind_eq_bind, Option.bind_some, hlive'] at hstep
    cases hstep
    rintro ⟨⟨ns, hlinked, hperm⟩, _⟩
    dsimp only at hlinked hperm
    cases ns with
    | nil => exact absurd hlinked (by simpa using hframe.ne')
    | cons x ns =>
      have hx : frame = x := hlinked.1
      have hmem : frame = q := by
        have := hperm.mem_iff.mp (show frame ∈ x :: ns by rw [hx]; exact List.mem_cons_self)
        simpa using this
      dsimp only [sizeofNode] at hout hword
      omega
  · have := h.pages p hpage
    rw [hnone] at this
    cases this

/-- **The page stack.** It is correct in every state of a run from `vmm_init` without frees; the first page
above the list heap that is freed breaks it. -/
theorem page_stack_ok {frame : ℕ} {s s₁ : Vmm} (hinit : vmmInit frame s = some s₁) {ops : List PageOp} {c : PageCfg}
    (hrun : Run (fun c op c' => PageOp.Legal c op ∧ pageStep c op = some c') (pageBoot s₁) ops c)
    (hops : ∀ op ∈ ops, op.isFree = false) :
    StackOk c ∧ ∀ frame p c', (PageOp.kfree frame p).Legal c → c.vmm.kheapEnd < p →
      pageStep c (.kfree frame p) = some c' → ¬ StackOk c' := by
  obtain ⟨s₁', L, n, hinit', hini⟩ := vmmInit_spec frame s
  rw [hinit] at hinit'
  cases hinit'
  have hboot : PagesInv (pageBoot s₁) := by
    refine ⟨hini.start, hini.listEnd, hini.stackStart, ?_, ?_, by simp [pageBoot], by simp [pageBoot],
      .inr ⟨L, n, hini, by rw [pageBoot, hini.last], rfl⟩⟩
    · rw [show (pageBoot s₁).vmm.kheapStackEnd = kheapBlockStart from hini.stackEnd]
      decide
    · exact hini.stackEnd.le
  have hinv : PagesInv c := by
    clear hinit hini
    generalize pageBoot s₁ = c₀ at hrun hboot
    induction hrun with
    | nil c => exact hboot
    | cons hstep t ih =>
      exact ih (fun op hop => hops op (List.mem_cons_of_mem _ hop))
        (hboot.step hstep.1 (hops _ List.mem_cons_self) hstep.2)
  exact ⟨hinv.stackOk, fun frame p c' hlegal hp hstep => hinv.first_free hlegal hp hstep⟩

/-- A call that is allowed, by evaluation. -/
def pageCall (c : PageCfg) : PageOp → Option PageCfg
  | .kmalloc frame => pageStep c (.kmalloc frame)
  | .kfree frame p =>
    if p ∈ c.pages ∧ 0 < frame ∧ frame + sizeofNode ≤ 2 ^ 32 ∧
      (frame + sizeofNode ≤ c.vmm.kheapStart ∨ c.vmm.kheapEnd ≤ frame) then pageStep c (.kfree frame p) else none
  | .clobber _ => none

theorem run_of_pageCall {ops : List PageOp} (h : ops.foldlM pageCall c = some c') :
    Run (fun c op c' => PageOp.Legal c op ∧ pageStep c op = some c') c ops c' := by
  refine run_of_foldlM (fun c op c' e => ?_) h
  cases op with
  | kmalloc frame => exact ⟨trivial, e⟩
  | kfree frame p =>
    rw [pageCall] at e
    by_cases hlegal : (PageOp.kfree frame p).Legal c
    · exact ⟨hlegal, (if_pos hlegal).symm.trans e⟩
    · exact absurd ((if_neg hlegal).symm.trans e) (by simp)
  | clobber m => cases e

theorem page_stack_ok_demo : ∃ s₁ c, vmmInit 0 zeroVmm = some s₁ ∧
    Run (fun c op c' => PageOp.Legal c op ∧ pageStep c op = some c') (pageBoot s₁) [.kmalloc 0, .kmalloc 0] c ∧
    c.pages = [0xDFFFE000, 0xDFFFF000] ∧ StackOk c := by
  obtain ⟨s₁, _, _, hinit, _⟩ := vmmInit_spec 0 zeroVmm
  have heval : ((vmmInit 0 zeroVmm).bind fun s₁ => ([.kmalloc 0, .kmalloc 0] : List PageOp).foldlM pageCall
      (pageBoot s₁)).any (fun c => c.pages = [0xDFFFE000, 0xDFFFF000]) = true := by decide +kernel
  rw [hinit, Option.bind_some] at heval
  obtain ⟨c, hc, hpages⟩ := (Option.any_eq_true _ _).mp heval
  have hrun := run_of_pageCall hc
  exact ⟨s₁, c, hinit, hrun, by simpa using hpages, (page_stack_ok hinit hrun (by decide)).1⟩

/-- Two pages are freed from the same frame: the node of the first is overwritten by that of the second, which
points to itself, and the second page is handed out again and again. -/
theorem page_handed_out_twice : ∃ s₁ c ptr s, vmmInit 0 zeroVmm = some s₁ ∧
    Run (fun c op c' => PageOp.Legal c op ∧ pageStep c op = some c') (pageBoot s₁)
      [.kmalloc 0, .kmalloc 0, .kfree 0x1000 0xDFFFF000, .kfree 0x1000 0xDFFFE000, .kmalloc 0] c ∧
    kmalloc 0 c.vmm pageFrameSize = some (ptr, s) ∧ ptr ≠ 0 ∧ ptr ∈ c.pages ∧ ¬ StackOk c := by
  obtain ⟨s₁, _, _, hinit, _⟩ := vmmInit_spec 0 zeroVmm
  have heval : ((vmmInit 0 zeroVmm).bind fun s₁ => ([.kmalloc 0, .kmalloc 0, .kfree 0x1000 0xDFFFF000,
      .kfree 0x1000 0xDFFFE000, .kmalloc 0] : List PageOp).foldlM pageCall (pageBoot s₁)).any
      (fun c => (kmalloc 0 c.vmm pageFrameSize).any fun r => r.1 != 0 && decide (r.1 ∈ c.pages)) = true := by
    decide +kernel
  rw [hinit, Option.bind_some] at heval
  obtain ⟨c, hc, hany⟩ := (Option.any_eq_true _ _).mp heval
  obtain ⟨⟨ptr, s⟩, hk, hptr⟩ := (Option.any_eq_true _ _).mp hany
  simp only [Bool.and_eq_true, bne_iff_ne, decide_eq_true_eq] at hptr
  refine ⟨s₁, c, ptr, s, hinit, run_of_pageCall hc, hk, hptr.1, hptr.2, fun hok => ?_⟩
  obtain ⟨ptr', s', hk', hnext⟩ := hok.next 0
  rw [hk] at hk'
  cases hk'
  rcases hnext with ⟨hz, _⟩ | ⟨_, hnot, _⟩
  · exact hptr.1 hz
  · exact hnot hptr.2

end BulbOS.Heap
