import BulbOS.Heap.Init

/-!
# The two heaps

The list heap grows up from `kheap_start` and the page heap down from `kheap_stack_start`, a page at a
time. Both allocators look whether the heaps overlap before they take a page, not after.

* `kmallocGrows`, `kfreeGrows`: the two ends whenever a call takes a page, in order;
* `kmalloc_grows`, `kfree_grows`: what a call does to the ends, whatever the memory holds;
* `apart_iff`: the heaps stay apart as long as no page is taken when the ends are equal;
* **`heaps_apart_iff`**: the same for every run from `vmm_init`.
-/

namespace BulbOS.Heap

open KLib

/-! ## Pages taken -/

/-- The pages that `vmmFindNode` takes: `kheap_end` and `kheap_stack_end` before each of them. -/
def findNodeGrows : ℕ → Vmm → ℕ → ℕ → ℕ → List (ℕ × ℕ)
  | fuel, s, node, prev, size =>
    if node ≠ 0 then []
    else if s.kheapEnd > s.kheapStackEnd then []
    else match fuel with
      | 0 => []
      | fuel + 1 =>
        (s.kheapEnd, s.kheapStackEnd) :: match vmmEnlarge s prev size with
          | none => []
          | some (node, prev, s) => findNodeGrows fuel s node prev size

def listAllocGrows (s : Vmm) (size : ℕ) : List (ℕ × ℕ) :=
  match vmmGetNode s.mem s.listFuel s.kheapHead 0 (u32 (size + sizeofSizeT)) with
  | none => []
  | some (node, prev) => findNodeGrows s.growFuel s node prev (u32 (size + sizeofSizeT))

def kfreeGrows (s : Vmm) (ptr : ℕ) : List (ℕ × ℕ) :=
  if ptr < s.kheapStart ∨ ptr ≥ s.kheapStackStart then []
  else if ptr > s.kheapEnd then listAllocGrows s sizeofSizeT
  else []

def blockAllocGrows (s : Vmm) : List (ℕ × ℕ) :=
  if s.kheapStackEnd < s.kheapEnd then []
  else if s.kheapStackLast ≠ 0 then
    kfreeGrows { s with kheapStackLast := nodeNext s.mem s.kheapStackLast } s.kheapStackLast
  else [(s.kheapEnd, s.kheapStackEnd)]

def kmallocGrows (frame : ℕ) (s : Vmm) (size : ℕ) : List (ℕ × ℕ) :=
  if size = 0 then []
  else if size = pageFrameSize then
    match vmmBlockAlloc frame s with
    | none => []
    | some (ptr, s') => blockAllocGrows s ++ if ptr ≠ 0 then [] else listAllocGrows s' size
  else listAllocGrows s size

/-! ## The ends -/

/-- One of the allocators takes a page. -/
def Growth (p g p' : ℕ × ℕ) : Prop :=
  g = p ∧ p.1 ≤ p.2 ∧ (p' = (p.1 + 4096, p.2) ∨ p' = (p.1, p.2 - 4096))

/-- Where the ends can be: whole pages between `KHEAP_LIST_START` and `KHEAP_BLOCK_START`. -/
structure Ends (p : ℕ × ℕ) : Prop where
  listPages : 4096 ∣ p.1
  stackPages : 4096 ∣ p.2
  listLow : 0xD0001000 ≤ p.1
  listHigh : p.1 ≤ 0xE0000000
  stackLow : 0xD0000000 ≤ p.2
  stackHigh : p.2 ≤ 0xDFFFF000

variable {p g p' : ℕ × ℕ} {gs : List (ℕ × ℕ)} {s s' : Vmm}

theorem Ends.growth (h : Ends p) (hg : Growth p g p') : Ends p' := by
  obtain ⟨_, hle, rfl | rfl⟩ := hg <;>
  · obtain ⟨h₁, h₂, h₃, h₄, h₅, h₆⟩ := h
    constructor <;> dsimp only at * <;> omega

theorem Ends.run (h : Ends p) (hrun : Run Growth p gs p') : Ends p' :=
  hrun.invariant (fun _ _ _ h hg => h.growth hg) h

theorem overlap_run (hrun : Run Growth p gs p') (h : p.2 < p.1) : p' = p := by
  cases hrun with
  | nil => rfl
  | cons hg _ => have := hg.2.1; omega

/-- **The ends stay in order** as long as no page is taken when they are equal. -/
theorem apart_iff (hrun : Run Growth p gs p') (hends : Ends p) (h : p.1 ≤ p.2) :
    p'.1 ≤ p'.2 ↔ ∀ g ∈ gs, g.1 ≠ g.2 := by
  induction hrun with
  | nil p => simp [h]
  | @cons p p₂ p₃ g gs hg t ih =>
    have hends' := hends.growth hg
    obtain ⟨hg, hle, hp⟩ := hg
    subst hg
    by_cases heq : g.1 = g.2
    · have hover : p₂.2 < p₂.1 := by
        have hlow := hends.listLow
        rcases hp with rfl | rfl <;> dsimp only <;> omega
      rw [overlap_run t hover]
      simp only [List.forall_mem_cons, heq, ne_eq, not_true_eq_false, false_and, iff_false]
      omega
    · have hapart : p₂.1 ≤ p₂.2 := by
        have h₁ := hends.listPages
        have h₂ := hends.stackPages
        rcases hp with rfl | rfl <;> dsimp only <;> omega
      rw [ih hends' hapart, List.forall_mem_cons]
      simp [heq]

/-- The ends of the two heaps. -/
def Vmm.ends (s : Vmm) : ℕ × ℕ := (s.kheapEnd, s.kheapStackEnd)

/-! ## The calls -/

theorem vmmEnlarge_ends {prev size node prev' : ℕ} (h : vmmEnlarge s prev size = some (node, prev', s')) :
    s'.ends = (u32 (s.kheapEnd + 4096), s.kheapStackEnd) := by
  unfold vmmEnlarge at h
  simp only [Option.bind_eq_bind, Option.bind_eq_some_iff] at h
  obtain ⟨tmp, _, m, _, ⟨node₁, prev₁⟩, _, h⟩ := h
  cases h
  rfl

theorem findNode_grows {fuel node prev size node' prev' : ℕ} (hends : Ends s.ends)
    (h : vmmFindNode fuel s node prev size = some (node', prev', s')) :
    Run Growth s.ends (findNodeGrows fuel s node prev size) s'.ends := by
  induction fuel generalizing s node prev with
  | zero =>
    unfold vmmFindNode at h
    unfold findNodeGrows
    split_ifs at h ⊢ <;> cases h <;> exact .nil _
  | succ fuel ih =>
    unfold vmmFindNode at h
    unfold findNodeGrows
    by_cases h₀ : node ≠ 0
    · rw [if_pos h₀] at h ⊢
      cases h
      exact .nil _
    rw [if_neg h₀] at h ⊢
    by_cases hfull : s.kheapEnd > s.kheapStackEnd
    · rw [if_pos hfull] at h ⊢
      cases h
      exact .nil _
    rw [if_neg hfull] at h ⊢
    cases hen : vmmEnlarge s prev size with
    | none =>
      rw [hen] at h
      cases h
    | some r =>
      obtain ⟨node₁, prev₁, s₁⟩ := r
      rw [hen] at h
      have hstep : Growth s.ends s.ends s₁.ends := by
        refine ⟨rfl, by exact Nat.le_of_not_lt hfull, .inl ?_⟩
        have hhigh := hends.listHigh
        rw [vmmEnlarge_ends hen, u32_of_lt (by dsimp only [Vmm.ends] at hhigh; omega)]
        rfl
      exact .cons hstep (ih (hends.growth hstep) h)

theorem vmmTakeNode_mem (s : Vmm) (node prev size : ℕ) :
    ∃ ptr m, vmmTakeNode s node prev size = (ptr, { s with mem := m }) := by
  unfold vmmTakeNode
  by_cases h : prev ≠ 0 ∧ nodeSize (setSize s.mem node (sub32 (nodeSize s.mem node) size)) node = 0
  · exact ⟨_, _, if_pos h⟩
  · exact ⟨_, _, if_neg h⟩

theorem listAlloc_grows {size ptr : ℕ} (hends : Ends s.ends) (h : vmmListAlloc s size = some (ptr, s')) :
    Run Growth s.ends (listAllocGrows s size) s'.ends := by
  unfold vmmListAlloc at h
  simp only [Option.bind_eq_bind, Option.bind_eq_some_iff] at h
  obtain ⟨⟨node, prev⟩, hget, ⟨node', prev', s₁⟩, hfind, h⟩ := h
  unfold listAllocGrows
  rw [hget]
  have hrun := findNode_grows hends hfind
  dsimp only at h
  split_ifs at h
  · cases h
    exact hrun
  · obtain ⟨ptr', m, htake⟩ := vmmTakeNode_mem s₁ node' prev' (u32 (size + sizeofSizeT))
    rw [htake] at h
    cases h
    exact hrun

theorem kfree_grows {frame ptr : ℕ} (hends : Ends s.ends) (h : kfree frame s ptr = some s') :
    Run Growth s.ends (kfreeGrows s ptr) s'.ends := by
  unfold kfree at h
  unfold kfreeGrows
  by_cases hout : ptr < s.kheapStart ∨ ptr ≥ s.kheapStackStart
  · rw [if_pos hout] at h ⊢
    cases h
    exact .nil _
  rw [if_neg hout] at h ⊢
  by_cases hpage : ptr > s.kheapEnd
  · rw [if_pos hpage] at h ⊢
    simp only [Option.bind_eq_bind, Option.bind_eq_some_iff] at h
    obtain ⟨⟨ptr', s₁⟩, halloc, h⟩ := h
    cases h
    exact (listAlloc_grows hends halloc : Run Growth s.ends _ s₁.ends)
  · rw [if_neg hpage] at h ⊢
    simp only [Option.bind_eq_bind, Option.bind_eq_some_iff] at h
    obtain ⟨m₁, _, m₂, _, h⟩ := h
    cases h
    exact .nil _

theorem blockAlloc_grows {frame ptr : ℕ} (hends : Ends s.ends) (h : vmmBlockAlloc frame s = some (ptr, s')) :
    Run Growth s.ends (blockAllocGrows s) s'.ends := by
  unfold vmmBlockAlloc at h
  unfold blockAllocGrows
  by_cases hfull : s.kheapStackEnd < s.kheapEnd
  · rw [if_pos hfull] at h ⊢
    cases h
    exact .nil _
  rw [if_neg hfull] at h ⊢
  by_cases hlast : s.kheapStackLast ≠ 0
  · rw [if_pos hlast] at h ⊢
    simp only [Option.bind_eq_bind, Option.bind_eq_some_iff] at h
    obtain ⟨s₁, hfree, h⟩ := h
    cases h
    exact kfree_grows (s := { s with kheapStackLast := nodeNext s.mem s.kheapStackLast }) hends hfree
  · rw [if_neg hlast] at h ⊢
    obtain ⟨_, rfl⟩ := Prod.mk.inj (Option.some.inj h)
    refine .single ⟨rfl, Nat.le_of_not_lt hfull, .inr ?_⟩
    have h₁ := hends.stackLow
    have h₂ := hends.stackHigh
    dsimp only [Vmm.ends] at h₁ h₂ ⊢
    rw [sub32_of_le (by unfold pageFrameSize; omega) (by omega), pageFrameSize]

theorem kmalloc_grows {frame size ptr : ℕ} (hends : Ends s.ends) (h : kmalloc frame s size = some (ptr, s')) :
    Run Growth s.ends (kmallocGrows frame s size) s'.ends := by
  unfold kmalloc at h
  unfold kmallocGrows
  by_cases h₀ : size = 0
  · rw [if_pos h₀] at h ⊢
    cases h
    exact .nil _
  rw [if_neg h₀] at h ⊢
  by_cases hpage : size = pageFrameSize
  · rw [if_pos hpage] at h ⊢
    simp only [Option.bind_eq_bind, Option.bind_eq_some_iff] at h
    obtain ⟨⟨ptr₁, s₁⟩, hblock, h⟩ := h
    have hrun := blockAlloc_grows hends hblock
    rw [hblock]
    dsimp only at h ⊢
    split_ifs at h ⊢
    · cases h
      exact hrun.append (.nil _)
    · exact hrun.append (listAlloc_grows (hends.run hrun) h)
  · rw [if_neg hpage] at h ⊢
    exact listAlloc_grows hends h

/-! ## Runs -/

/-- A call, or anything that is written to memory between two calls. -/
inductive VmmOp
  | kmalloc (frame n : ℕ)
  | kfree (frame p : ℕ)
  | write (m : Mem)

/-- The allocators and the pages taken so far. -/
structure Grown where
  vmm : Vmm
  grows : List (ℕ × ℕ)

def VmmOp.step (c : Grown) : VmmOp → Option Grown
  | .kmalloc frame n => do
    let (_, s) ← Heap.kmalloc frame c.vmm n
    return ⟨s, c.grows ++ kmallocGrows frame c.vmm n⟩
  | .kfree frame p => do
    let s ← Heap.kfree frame c.vmm p
    return ⟨s, c.grows ++ kfreeGrows c.vmm p⟩
  | .write m => some { c with vmm := { c.vmm with mem := m } }

theorem VmmOp.step_grows {c c' : Grown} {op : VmmOp} (hends : Ends c.vmm.ends) (h : op.step c = some c') :
    ∃ gs, c'.grows = c.grows ++ gs ∧ Run Growth c.vmm.ends gs c'.vmm.ends := by
  cases op with
  | kmalloc frame n =>
    simp only [VmmOp.step, Option.bind_eq_bind, Option.bind_eq_some_iff] at h
    obtain ⟨⟨ptr, s⟩, hk, h⟩ := h
    cases h
    exact ⟨_, rfl, kmalloc_grows hends hk⟩
  | kfree frame p =>
    simp only [VmmOp.step, Option.bind_eq_bind, Option.bind_eq_some_iff] at h
    obtain ⟨s, hk, h⟩ := h
    cases h
    exact ⟨_, rfl, kfree_grows hends hk⟩
  | write m =>
    cases h
    exact ⟨[], (List.append_nil _).symm, .nil _⟩

theorem Initial.ends {L : List (ℕ × ℕ)} {n : ℕ} (h : Initial s L n) : s.ends = (0xD0001000, 0xDFFFF000) := by
  unfold Vmm.ends
  rw [h.listEnd, h.stackEnd]
  rfl

/-- **The two heaps.** After every run of `kmalloc` and `kfree` from `vmm_init`, the heaps are disjoint
exactly when no page was taken while `kheap_end` was equal to `kheap_stack_end`. -/
theorem heaps_apart_iff {frame : ℕ} {s s₁ : Vmm} (hinit : vmmInit frame s = some s₁) {ops : List VmmOp} {c : Grown}
    (hrun : Run (fun c op c' => VmmOp.step c op = some c') ⟨s₁, []⟩ ops c) :
    c.vmm.kheapEnd ≤ c.vmm.kheapStackEnd ↔ ∀ g ∈ c.grows, g.1 ≠ g.2 := by
  obtain ⟨s₁', L, n, hinit', hini⟩ := vmmInit_spec frame s
  rw [hinit] at hinit'
  cases hinit'
  have hends : Ends s₁.ends := by
    rw [hini.ends]
    exact ⟨by decide, by decide, by decide, by decide, by decide, by decide⟩
  have hgrown : Run Growth s₁.ends c.grows c.vmm.ends := by
    refine hrun.invariant (I := fun c => Run Growth s₁.ends c.grows c.vmm.ends) ?_ (.nil _)
    intro c op c' hc hstep
    obtain ⟨gs, hgs, hgrow⟩ := VmmOp.step_grows (hends.run hc) hstep
    rw [hgs]
    exact hc.append hgrow
  refine apart_iff hgrown hends ?_
  rw [hini.ends]
  decide

theorem fresh_pages {c : Grown} (hlast : c.vmm.kheapStackLast = 0) (hlow : 8192 ≤ c.vmm.kheapEnd)
    (hhigh : c.vmm.kheapStackEnd < 2 ^ 32) {k : ℕ} (hk : c.vmm.kheapEnd + 4096 * k ≤ c.vmm.kheapStackEnd + 4096) :
    ∃ c' t, Run (fun c op c' => VmmOp.step c op = some c') c (List.replicate k (.kmalloc 0 4096)) c' ∧
      c'.vmm = { c.vmm with kheapStackEnd := t } ∧ t + 4096 * k = c.vmm.kheapStackEnd := by
  induction k with
  | zero => exact ⟨c, _, .nil c, rfl, rfl⟩
  | succ k ih =>
    simp only [Nat.mul_succ, ← Nat.add_assoc] at hk ⊢
    obtain ⟨c₁, t₁, hrun, hc₁, ht₁⟩ := ih (by omega)
    have hstack : c₁.vmm.kheapStackEnd = t₁ := by rw [hc₁]
    have hlist : c₁.vmm.kheapEnd = c.vmm.kheapEnd := by rw [hc₁]
    obtain ⟨t, ht, hblock⟩ := blockAlloc_fresh (s := c₁.vmm) (by rw [hc₁]; exact hlast)
      (by rw [hstack, hlist]; omega) (by rw [hstack, pageFrameSize]; omega) (by rw [hstack]; omega) 0
    rw [hstack] at ht
    have hmalloc := kmalloc_page hblock (by omega)
    rw [hc₁] at hmalloc
    rw [List.replicate_succ']
    refine ⟨⟨_, c₁.grows ++ kmallocGrows 0 c₁.vmm 4096⟩, t, hrun.snoc ?_, rfl, by omega⟩
    rw [VmmOp.step]
    change (kmalloc 0 c₁.vmm pageFrameSize >>= _) = _
    rw [hc₁, hmalloc]
    rfl

/-- Requests for a page; the first page is the one on the page stack. -/
theorem pages_run {i k : ℕ} (hi : i = k + 1) (hk : k ≤ 65535) : ∃ s₁ c, vmmInit 0 zeroVmm = some s₁ ∧
    Run (fun c op c' => VmmOp.step c op = some c') ⟨s₁, []⟩ (List.replicate i (.kmalloc 0 4096)) c ∧
    c.vmm.kheapEnd = 0xD0001000 ∧ c.vmm.kheapStackEnd + 4096 * k = 0xDFFFF000 := by
  subst hi
  obtain ⟨s₁, L, n, hinit, h⟩ := vmmInit_spec 0 zeroVmm
  obtain ⟨s₂, L₂, hpop, _, hkeep, hend⟩ := h.heap.popNode (List.mem_singleton_self _) h.last h.node
    (by rw [h.listEnd, h.stackEnd]; decide) 0
  rw [h.page] at hpop
  let c₂ : Grown := ⟨s₂, kmallocGrows 0 s₁ 4096⟩
  have hstep : VmmOp.step ⟨s₁, []⟩ (.kmalloc 0 4096) = some c₂ := by
    rw [VmmOp.step]
    change (kmalloc 0 s₁ pageFrameSize >>= _) = _
    rw [kmalloc_page hpop (by decide)]
    rfl
  have hlast : c₂.vmm.kheapStackLast = 0 := by
    rw [show c₂.vmm.kheapStackLast = nodeNext s₁.mem n from hkeep.last]
    exact h.next
  have hlist : c₂.vmm.kheapEnd = 0xD0001000 := by
    rw [show c₂.vmm.kheapEnd = s₁.kheapEnd from hend, h.listEnd]
    rfl
  have hstack : c₂.vmm.kheapStackEnd = 0xDFFFF000 := by
    rw [show c₂.vmm.kheapStackEnd = s₁.kheapStackEnd from hkeep.stackEnd, h.stackEnd]
    rfl
  obtain ⟨c, t, hrun, hc, ht⟩ := fresh_pages (c := c₂) hlast (by omega) (by omega) (show _ + 4096 * k ≤ _ by omega)
  refine ⟨s₁, c, hinit, .cons hstep hrun, ?_, ?_⟩
  · rw [hc]
    exact hlist
  · rw [hc]
    exact ht.trans hstack

theorem heaps_apart_iff_demo : ∃ s₁ c, vmmInit 0 zeroVmm = some s₁ ∧
    Run (fun c op c' => VmmOp.step c op = some c') ⟨s₁, []⟩ (List.replicate 3 (.kmalloc 0 4096)) c ∧
    c.vmm.kheapEnd ≤ c.vmm.kheapStackEnd ∧ ∀ g ∈ c.grows, g.1 ≠ g.2 := by
  obtain ⟨s₁, c, hinit, hrun, hlist, hstack⟩ := pages_run (i := 3) (k := 2) rfl (by decide)
  have hapart : c.vmm.kheapEnd ≤ c.vmm.kheapStackEnd := by omega
  exact ⟨s₁, c, hinit, hrun, hapart, (heaps_apart_iff hinit hrun).mp hapart⟩

/-- After 65536 requests for a page, the last page lies in the list heap. -/
theorem page_in_list_heap : ∃ s₁ c, vmmInit 0 zeroVmm = some s₁ ∧
    Run (fun c op c' => VmmOp.step c op = some c') ⟨s₁, []⟩ (List.replicate 65536 (.kmalloc 0 4096)) c ∧
    ¬ c.vmm.kheapEnd ≤ c.vmm.kheapStackEnd := by
  obtain ⟨s₁, c, hinit, hrun, hlist, hstack⟩ := pages_run (i := 65536) (k := 65535) (by decide) (by decide)
  exact ⟨s₁, c, hinit, hrun, by omega⟩

end BulbOS.Heap
