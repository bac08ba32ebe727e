import BulbOS.Heap.Sizes
import BulbOS.Queue.Model

/-!
# The blocks of a queue

`queue_init` asks `kmalloc` for the `queue_t` and then for the array.

* `Grants`: `kmalloc` returns two blocks;
* `HeapInv.node_end`: between a free node and a block behind it there is nothing, or a block;
* **`grants_blocks`**, **`grants_wrapped`**: where the blocks are, when the request for the array is served with its
  size and when the header makes it wrap around.
-/

namespace BulbOS

open KLib

namespace Heap

variable {s : Vmm} {L live : List (ℕ × ℕ)}

/-- A free node ends where a block begins, or a block of a byte or more is between the two. -/
theorem HeapInv.node_end (h : HeapInv s L live) {p b : ℕ × ℕ} (hp : p ∈ L) (hb : b ∈ live) :
    p.1 + 8 + p.2 = b.1 - 4 ∨ p.1 + 8 + p.2 + 5 ≤ b.1 - 4 ∨ b.1 + b.2 ≤ p.1 := by
  have hpb := h.node_live_disjoint hp hb
  have hbounds := h.live_bounds hb
  have hnode := h.node_bounds hp
  have hsize := (h.header b hb).2.1
  by_cases hgap : p.1 + 8 + p.2 < b.1 - 4
  · obtain ⟨g, hg, hlo, hhi⟩ := (h.tiles.mem_iff (p.1 + 8 + p.2)).mp ⟨by omega, by omega⟩
    rcases List.mem_append.mp hg with hg | hg
    · -- no two nodes touch
      obtain ⟨q, hq, rfl⟩ := List.mem_map.mp hg
      simp only [nodeSpan, sizeofNode] at hlo hhi
      have hne : q ≠ p := by
        rintro rfl
        omega
      have hap := List.Pairwise.forall_of_forall_of_flip
        (R := fun a b : ℕ × ℕ => a ≠ b → a.1 + 8 + a.2 < b.1 ∨ b.1 + 8 + b.2 < a.1)
        (fun _ _ hne => absurd rfl hne) (h.apart.imp fun hlt _ => .inl hlt) (h.apart.imp fun hlt _ => .inr hlt)
      have := hap hq hp hne
      omega
    · obtain ⟨d, hd, rfl⟩ := List.mem_map.mp hg
      simp only [liveSpan, sizeofSizeT] at hlo hhi
      have hpd := h.node_live_disjoint hp hd
      have hdsize := h.header d hd
      have hne : d ≠ b := by
        rintro rfl
        omega
      have hdb := h.live_disjoint hb ((List.mem_erase_of_ne hne).mpr hd)
      omega
  · omega

end Heap

namespace Queue

open Heap

variable {frame capacity queue array : ℕ} {c : HeapCfg} {L : List (ℕ × ℕ)} {s₂ s₃ : Vmm}

/-- What `queue_init` gets from `kmalloc`: two blocks that are not `NULL`; if the array is a page, then the heaps do not
touch. -/
structure Grants (frame : ℕ) (s : Vmm) (capacity queue : ℕ) (s₂ : Vmm) (array : ℕ) (s₃ : Vmm) : Prop where
  queue_eq : kmalloc frame s sizeofQueue = some (queue, s₂)
  queue_ne : queue ≠ 0
  array_eq : kmalloc frame s₂ (arrayBytes capacity) = some (array, s₃)
  array_ne : array ≠ 0
  page : arrayBytes capacity = pageFrameSize → s₂.kheapEnd ≠ s₂.kheapStackEnd

/-- A `queue_t` at `queue` and `bytes` bytes at `array` lie in the address space, and apart. -/
structure Blocks (queue array bytes : ℕ) : Prop where
  queue_pos : 4 ≤ queue
  queue_end : queue + sizeofQueue ≤ 2 ^ 32
  array_end : array + bytes ≤ 2 ^ 32
  disjoint : array + bytes ≤ queue ∨ queue + sizeofQueue ≤ array

theorem Blocks.shorter {n k : ℕ} (h : Blocks queue array n) (hk : k ≤ n) : Blocks queue array k where
  queue_pos := h.queue_pos
  queue_end := h.queue_end
  array_end := (Nat.add_le_add_left hk array).trans h.array_end
  disjoint := h.disjoint.imp_left (Nat.add_le_add_left hk array).trans

theorem Grants.queueInit_eq {s : Vmm} (h : Grants frame s capacity queue s₂ array s₃) :
    queueInit frame s capacity = some (queue, { s₃ with mem := queueFields s₃.mem queue array capacity }) := by
  simp only [queueInit, h.queue_eq, h.array_eq, Option.bind_eq_bind, Option.bind_some]
  rfl

theorem Grants.bytes_ne {s : Vmm} (h : Grants frame s capacity queue s₂ array s₃) : arrayBytes capacity ≠ 0 := by
  intro hz
  have hk := h.array_eq
  rw [kmalloc, if_pos hz] at hk
  exact h.array_ne (Prod.mk.inj (Option.some.inj hk)).1.symm

/-- After the first call the `queue_t` is a block of the list heap. -/
theorem Grants.queue_live (h : Grants frame c.vmm capacity queue s₂ array s₃) (hinv : BlocksInv c L)
    (hstack : c.vmm.kheapStackStart = kheapBlockStart + pageFrameSize) (hends : Ends c.vmm.ends) :
    ∃ L', BlocksInv ⟨s₂, (queue, sizeofQueue) :: c.live⟩ L' ∧
      s₂.kheapStackStart = kheapBlockStart + pageFrameSize ∧ Ends s₂.ends := by
  obtain ⟨ptr, s, L', halloc, hinv'⟩ := hinv.listAlloc (show 0 < sizeofQueue by decide) (by decide)
  have hk := h.queue_eq
  rw [kmalloc, if_neg (by decide), if_neg (by decide), halloc] at hk
  obtain ⟨rfl, rfl⟩ := Prod.mk.inj (Option.some.inj hk)
  rw [if_neg h.queue_ne] at hinv'
  exact ⟨L', hinv', (kmalloc_stackStart h.queue_eq).trans hstack, hends.run (kmalloc_grows hends h.queue_eq)⟩

/-- **The blocks**, when the header of the array does not make its size wrap around. -/
theorem grants_blocks (h : Grants frame c.vmm capacity queue s₂ array s₃) (hinv : BlocksInv c L)
    (hstack : c.vmm.kheapStackStart = kheapBlockStart + pageFrameSize) (hends : Ends c.vmm.ends)
    (hwrap : arrayBytes capacity + 4 < 2 ^ 32) : Blocks queue array (arrayBytes capacity) := by
  obtain ⟨L₂, hinv₂, hstack₂, hends₂⟩ := h.queue_live hinv hstack hends
  have hqueue := hinv₂.heap.live_bounds List.mem_cons_self
  have hstart := hinv₂.heap.start_pos
  have hhead := (hinv₂.heap.header _ List.mem_cons_self).1
  have hend := hinv₂.heap.end_le
  have htop := hinv₂.heap.stack_lt
  dsimp only at hqueue hstart hhead hend htop
  have hbytes := h.bytes_ne
  -- a block of the list heap
  have hlist : ∀ s, vmmListAlloc s₂ (arrayBytes capacity) = some (array, s) →
    Blocks queue array (arrayBytes capacity) := by
    intro s hs
    obtain ⟨ptr, s', L', halloc, hinv', -⟩ := hinv₂.heap.listAlloc (Nat.pos_of_ne_zero hbytes) hwrap
    obtain ⟨rfl, rfl⟩ := Prod.mk.inj (Option.some.inj (hs.symm.trans halloc))
    rw [if_neg h.array_ne] at hinv'
    have harray := hinv'.live_bounds List.mem_cons_self
    have hkept : (queue, sizeofQueue) ∈
        ((array, arrayBytes capacity) :: (queue, sizeofQueue) :: c.live).erase (array, arrayBytes capacity) := by
      rw [List.erase_cons_head]
      exact List.mem_cons_self
    have hdis := hinv'.live_disjoint List.mem_cons_self hkept
    have hend' := hinv'.end_le
    have hlt := hinv'.stack_lt
    dsimp only at harray hdis
    exact ⟨by omega, by omega, by omega, by omega⟩
  by_cases hpage : arrayBytes capacity = pageFrameSize
  · have hk := h.array_eq
    rw [kmalloc, if_neg hbytes, if_pos hpage] at hk
    by_cases hroom : s₂.kheapEnd ≤ s₂.kheapStackEnd
    · -- the page is above the list heap
      obtain ⟨ptr, s, hblock, hptr, hnext, -, hpageEnd⟩ := hinv₂.page hstack₂ hroom frame
      rw [hblock] at hk
      obtain ⟨rfl, rfl⟩ : ptr = array ∧ s = s₃ := by simpa [hptr] using hk
      have hmeet := h.page hpage
      have hlistPages : 4096 ∣ s₂.kheapEnd := hends₂.listPages
      have hstackPages : 4096 ∣ s₂.kheapStackEnd := hends₂.stackPages
      have hstart₃ := vmmBlockAlloc_stackStart hblock
      rw [hpage]
      dsimp only at hnext hstart₃
      unfold pageFrameSize at hnext hpageEnd ⊢
      exact ⟨by omega, by omega, by omega, by omega⟩
    · have hfull : vmmBlockAlloc frame s₂ = some (0, s₂) := by
        rw [vmmBlockAlloc, if_pos (by omega)]
      rw [hfull] at hk
      exact hlist _ (by simpa using hk)
  · have hk := h.array_eq
    rw [kmalloc, if_neg hbytes, if_neg hpage] at hk
    exact hlist _ hk

/-- **The blocks**, when the header makes the size of the array wrap around to 0: the array begins behind the header
that ends a free node. -/
theorem grants_wrapped (h : Grants frame c.vmm capacity queue s₂ array s₃) (hinv : BlocksInv c L)
    (hstack : c.vmm.kheapStackStart = kheapBlockStart + pageFrameSize) (hends : Ends c.vmm.ends)
    (hwrap : arrayBytes capacity + 4 = 2 ^ 32) :
    array = queue ∧ queue + sizeofQueue ≤ 2 ^ 32 ∨ Blocks queue array 4 := by
  obtain ⟨L₂, hinv₂, hstack₂, hends₂⟩ := h.queue_live hinv hstack hends
  have hqueue := hinv₂.heap.live_bounds List.mem_cons_self
  have hhead := (hinv₂.heap.header _ List.mem_cons_self).1
  have hfit : s₂.kheapStackStart + 8 < 2 ^ 32 := by
    rw [hstack₂]
    decide
  obtain ⟨ptr, s', halloc, -, hplace⟩ := hinv₂.heap.listAlloc_wrapped
    (show s₂.kheapStackStart + 4 < 2 ^ 32 by omega) hwrap.ge (by omega)
  have hk := h.array_eq
  rw [kmalloc, if_neg (by omega), if_neg (by unfold pageFrameSize; omega), halloc] at hk
  obtain ⟨rfl, rfl⟩ := Prod.mk.inj (Option.some.inj hk)
  obtain ⟨-, s₁, L₁, p, hinv₁, hstart₁, hp, hptr⟩ := hplace h.array_ne
  have hnode := hinv₁.node_bounds hp
  have hend := hinv₁.end_le
  have hqueue := hinv₁.live_bounds List.mem_cons_self
  dsimp only at hqueue hhead hstart₁
  rcases hinv₁.node_end hp List.mem_cons_self with hnext | hbefore | hbehind
  · dsimp only at hnext
    exact .inl ⟨by omega, by omega⟩
  · refine .inr ⟨by omega, by omega, by omega, .inl ?_⟩
    dsimp only at hbefore
    omega
  · refine .inr ⟨by omega, by omega, by omega, .inr ?_⟩
    dsimp only at hbehind
    omega

end Queue

end BulbOS
