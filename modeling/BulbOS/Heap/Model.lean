import BulbOS.Lib.Bytes

/-!
# The kernel heap allocators (`kernel/memory/vmm.c`)

Free memory of the list heap is a linked list of in-band nodes `{ size, next }`; an allocated block
carries its size in the four bytes before the pointer. All of it lives in one byte memory, so the
model reads and writes the same bytes as the code. `NULL` is address `0`.

Every loop that walks the free list gets `listFuel` steps, more than the nodes that fit in the heap;
`none` is a walk that does not end. `page_get_pt_entry` is taken to map the page it is asked for.
-/

namespace BulbOS.Heap

open KLib

/-- `PAGE_FRAME_SIZE`. -/
def pageFrameSize : ℕ := 4096

/-- `KHEAP_LIST_START`. -/
def kheapListStart : ℕ := 0xD0000000

/-- `KHEAP_BLOCK_START`. -/
def kheapBlockStart : ℕ := 0xE0000000 - 0x1000

/-- `sizeof(node_t)`. -/
def sizeofNode : ℕ := 8

/-- `sizeof(size_t)`. -/
def sizeofSizeT : ℕ := 4

/-- The memory and the static variables of `vmm.c`. -/
structure Vmm where
  mem : Mem
  kheapHead : ℕ
  kheapStart : ℕ
  kheapEnd : ℕ
  kheapStackLast : ℕ
  kheapStackStart : ℕ
  kheapStackEnd : ℕ

/-- `node->size`, the same field as `node->addr`. -/
def nodeSize (m : Mem) (node : ℕ) : ℕ := load32 m node

/-- `node->next`. -/
def nodeNext (m : Mem) (node : ℕ) : ℕ := load32 m (node + 4)

/-- `node->size = v`. -/
def setSize (m : Mem) (node v : ℕ) : Mem := store32 m node v

/-- `node->next = v`. -/
def setNext (m : Mem) (node v : ℕ) : Mem := store32 m (node + 4) v

/-- Nodes do not overlap, so the heap holds fewer of them than bytes. -/
def Vmm.listFuel (s : Vmm) : ℕ := s.kheapEnd - s.kheapStart + 1

def vmmKheapListInit (s : Vmm) (heapStart : ℕ) : Vmm :=
  { s with
    kheapStart := heapStart
    kheapEnd := u32 (heapStart + pageFrameSize)
    kheapHead := heapStart
    mem := setNext (setSize s.mem heapStart (pageFrameSize - sizeofNode)) heapStart 0 }

def vmmNodeRetAddr (m : Mem) (kheapNode : ℕ) : ℕ := u32 (kheapNode + sizeofNode + nodeSize m kheapNode)

def vmmSortedInsert (m : Mem) : ℕ → ℕ → ℕ → Option Mem
  | 0, _, _ => none
  | fuel + 1, head, inserted =>
    if nodeNext m head ≠ 0 ∧ ¬ nodeNext m head > inserted then
      vmmSortedInsert m fuel (nodeNext m head) inserted
    else
      some (setNext (setNext m head inserted) inserted (nodeNext m head))

def vmmMergeFreeBlock : ℕ → Mem → ℕ → Option Mem
  | 0, _, _ => none
  | fuel + 1, m, node =>
    if nodeNext m node = 0 then some m
    else if u32 (node + nodeSize m node + sizeofNode) = nodeNext m node then
      let m' := setSize m node (u32 (nodeSize m node + nodeSize m (nodeNext m node) + sizeofNode))
      vmmMergeFreeBlock fuel (setNext m' node (nodeNext m' (nodeNext m' node))) node
    else vmmMergeFreeBlock fuel m (nodeNext m node)

/-- Returns the node and the final value of `*prev`. -/
def vmmGetNode (m : Mem) : ℕ → ℕ → ℕ → ℕ → Option (ℕ × ℕ)
  | 0, _, _, _ => none
  | fuel + 1, node, prev, size =>
    if node = 0 then some (0, prev)
    else if nodeSize m node > size then some (node, prev)
    else vmmGetNode m fuel (nodeNext m node) node size

/-- `for (; tmp->next; tmp = tmp->next);` -/
def vmmLastNode (m : Mem) : ℕ → ℕ → Option ℕ
  | 0, _ => none
  | fuel + 1, tmp => if nodeNext m tmp = 0 then some tmp else vmmLastNode m fuel (nodeNext m tmp)

/-- One round of the loop that enlarges the heap by a page. -/
def vmmEnlarge (s : Vmm) (prev size : ℕ) : Option (ℕ × ℕ × Vmm) := do
  let m := setNext (setSize s.mem s.kheapEnd (pageFrameSize - sizeofNode)) s.kheapEnd 0
  let tmp ← vmmLastNode m s.listFuel s.kheapHead
  let s := { s with mem := setNext m tmp s.kheapEnd, kheapEnd := u32 (s.kheapEnd + pageFrameSize) }
  let m ← vmmMergeFreeBlock s.listFuel s.mem s.kheapHead
  let (node, prev) ← vmmGetNode m s.listFuel s.kheapHead prev size
  return (node, prev, { s with mem := m })

/-- `while (!node)`: the node that serves the request, `0` when the heap meets the page heap. -/
def vmmFindNode : ℕ → Vmm → ℕ → ℕ → ℕ → Option (ℕ × ℕ × Vmm)
  | fuel, s, node, prev, size =>
    if node ≠ 0 then some (node, prev, s)
    else if s.kheapEnd > s.kheapStackEnd then some (0, prev, s)
    else match fuel with
      | 0 => none
      | fuel + 1 => do
        let (node, prev, s) ← vmmEnlarge s prev size
        vmmFindNode fuel s node prev size

/-- Pages left before `kheap_end` passes `kheap_stack_end`. -/
def Vmm.growFuel (s : Vmm) : ℕ := (s.kheapStackEnd + 1 - s.kheapEnd) / pageFrameSize + 1

/-- Take `size` bytes from the end of `node`, or the whole node when nothing is left of it. -/
def vmmTakeNode (s : Vmm) (node prev size : ℕ) : ℕ × Vmm :=
  let m := setSize s.mem node (sub32 (nodeSize s.mem node) size)
  let sizePtr := vmmNodeRetAddr m node
  if prev ≠ 0 ∧ nodeSize m node = 0 then
    let sizePtr := sub32 sizePtr sizeofNode
    let m := setNext m prev (nodeNext m node)
    (u32 (sizePtr + sizeofSizeT), { s with mem := store32 m sizePtr (u32 (size + sizeofNode)) })
  else (u32 (sizePtr + sizeofSizeT), { s with mem := store32 m sizePtr size })

def vmmListAlloc (s : Vmm) (size : ℕ) : Option (ℕ × Vmm) := do
  let size := u32 (size + sizeofSizeT)
  let (node, prev) ← vmmGetNode s.mem s.listFuel s.kheapHead 0 size
  let (node, prev, s) ← vmmFindNode s.growFuel s node prev size
  if node = 0 then return (0, s) else return vmmTakeNode s node prev size

/-- `frame` is the address of the compound literal on the stack of the call. The node request is
`sizeof(sizeof(node_t))`, which `kmalloc` passes on to the list allocator. -/
def kfree (frame : ℕ) (s : Vmm) (ptr : ℕ) : Option Vmm :=
  if ptr < s.kheapStart ∨ ptr ≥ s.kheapStackStart then some s
  else if ptr > s.kheapEnd then do
    let page := ptr / pageFrameSize * pageFrameSize
    let (_, s) ← vmmListAlloc s sizeofSizeT
    let m := setNext (setSize s.mem frame page) frame s.kheapStackLast
    return { s with mem := m, kheapStackLast := frame }
  else do
    let node := sub32 ptr sizeofSizeT
    let m := setSize s.mem node (sub32 (nodeSize s.mem node) sizeofNode)
    let m ← vmmSortedInsert m s.listFuel s.kheapHead node
    let m ← vmmMergeFreeBlock s.listFuel m s.kheapHead
    return { s with mem := m }

def vmmBlockAlloc (frame : ℕ) (s : Vmm) : Option (ℕ × Vmm) :=
  if s.kheapStackEnd < s.kheapEnd then some (0, s)
  else if s.kheapStackLast ≠ 0 then do
    let tmp := s.kheapStackLast
    let s := { s with kheapStackLast := nodeNext s.mem tmp }
    let addr := nodeSize s.mem tmp
    let s ← kfree frame s tmp
    return (addr, s)
  else
    let s := { s with kheapStackEnd := sub32 s.kheapStackEnd pageFrameSize }
    some (s.kheapStackEnd, s)

def kmalloc (frame : ℕ) (s : Vmm) (size : ℕ) : Option (ℕ × Vmm) :=
  if size = 0 then some (0, s)
  else if size = pageFrameSize then do
    let (ptr, s) ← vmmBlockAlloc frame s
    if ptr ≠ 0 then return (ptr, s) else vmmListAlloc s size
  else vmmListAlloc s size

/-- The assignments of `vmm_kheap_stack_init` before its `kmalloc`. -/
def vmmKheapStackPlace (s : Vmm) (heapStackStart : ℕ) : Vmm :=
  { s with kheapStackStart := u32 (heapStackStart + pageFrameSize), kheapStackEnd := heapStackStart }

def vmmKheapStackInit (frame : ℕ) (s : Vmm) (heapStackStart : ℕ) : Option Vmm := do
  let s := vmmKheapStackPlace s heapStackStart
  let (last, s) ← kmalloc frame s sizeofNode
  return { s with
    kheapStackLast := last
    mem := setNext (setSize s.mem last s.kheapStackEnd) last 0 }

def vmmInit (frame : ℕ) (s : Vmm) : Option Vmm :=
  vmmKheapStackInit frame (vmmKheapListInit s kheapListStart) kheapBlockStart

end BulbOS.Heap
