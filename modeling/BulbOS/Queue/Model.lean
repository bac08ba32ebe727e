import BulbOS.Heap.Model
import BulbOS.Keyboard.Model
import Mathlib.Order.Basic

/-!
# A queue in memory (`utils/queue.c`)

`Keyboard.Queue` is a `queue_t` with the array that it points to. Here both are blocks of the kernel heap: the fields
`queue`, `capacity`, `size` and `head` are words at 0, 4, 8 and 12, and so is every `void*`.

* `queueInit`, `queuePush`, `queuePop`, `queueTop`: the code;
* `Agrees`: a sequence of calls goes as on a list of at most `capacity` values;
* `Fields`: the four fields, and what a store does to them.
-/

namespace BulbOS.Queue

open KLib

/-- `sizeof(queue_t)`. -/
def sizeofQueue : ℕ := 16

/-- `sizeof(void*) * capacity`, in 32 bits. -/
def arrayBytes (capacity : ℕ) : ℕ := u32 (4 * capacity)

/-- The assignments of `queue_init`. -/
def queueFields (m : Mem) (queue array capacity : ℕ) : Mem :=
  let m := store32 m queue array
  let m := store32 m (queue + 4) capacity
  let m := store32 m (queue + 8) 0
  store32 m (queue + 12) 0

/-- `frame` is the one that `kmalloc` hands on to `kfree`. Neither pointer is compared with `NULL`. -/
def queueInit (frame : ℕ) (s : Heap.Vmm) (capacity : ℕ) : Option (ℕ × Heap.Vmm) := do
  let (queue, s) ← Heap.kmalloc frame s sizeofQueue
  let (array, s) ← Heap.kmalloc frame s (arrayBytes capacity)
  return (queue, { s with mem := queueFields s.mem queue array capacity })

/-- The result and the memory. -/
def queuePush (m : Mem) (queue value : ℕ) : Int × Mem :=
  let size := load32 m (queue + 8)
  if u32 (size + 1) > load32 m (queue + 4) then (-1, m)
  else
    let idx := u32 (load32 m (queue + 12) + size) % load32 m (queue + 4)
    let m := store32 m (queue + 8) (size + 1)
    (0, store32 m (u32 (load32 m queue + 4 * idx)) value)

def queuePop (m : Mem) (queue : ℕ) : Mem :=
  let size := load32 m (queue + 8)
  if size = 0 then m
  else
    let m := store32 m (queue + 8) (size - 1)
    store32 m (queue + 12) (u32 (load32 m (queue + 12) + 1) % load32 m (queue + 4))

def queueTop (m : Mem) (queue : ℕ) : ℕ := load32 m (u32 (load32 m queue + 4 * load32 m (queue + 12)))

/-! ## A bounded list -/

inductive QueueOp
  | push (value : UInt32)
  | pop
  | top

/-- The calls go as on the list `l`: `queue_push` appends and returns 0, or returns -1 and changes nothing when `l` has
`capacity` values; `queue_pop` drops the first value; `queue_top` returns it, if there is one. -/
def Agrees (capacity queue : ℕ) : Mem → List UInt32 → List QueueOp → Prop
  | _, _, [] => True
  | m, l, .push value :: ops =>
    if l.length < capacity then
      (queuePush m queue value.toNat).1 = 0 ∧ Agrees capacity queue (queuePush m queue value.toNat).2 (l ++ [value]) ops
    else queuePush m queue value.toNat = (-1, m) ∧ Agrees capacity queue m l ops
  | m, l, .pop :: ops =>
    (l = [] → queuePop m queue = m) ∧ Agrees capacity queue (queuePop m queue) l.tail ops
  | m, l, .top :: ops => (∀ x ∈ l.head?, queueTop m queue = x.toNat) ∧ Agrees capacity queue m l ops

/-! ## The fields -/

structure Fields (m : Mem) (queue array capacity size head : ℕ) : Prop where
  array_eq : load32 m queue = array
  capacity_eq : load32 m (queue + 4) = capacity
  size_eq : load32 m (queue + 8) = size
  head_eq : load32 m (queue + 12) = head

variable {m : Mem} {queue array capacity size head : ℕ}

theorem fields_init (ha : array < 2 ^ 32) (hc : capacity < 2 ^ 32) :
    Fields (queueFields m queue array capacity) queue array capacity 0 0 where
  array_eq := by
    rw [queueFields, load32_store32_of_disjoint _ _ (by omega), load32_store32_of_disjoint _ _ (by omega),
      load32_store32_of_disjoint _ _ (by omega), load32_store32, u32_of_lt ha]
  capacity_eq := by
    rw [queueFields, load32_store32_of_disjoint _ _ (by omega), load32_store32_of_disjoint _ _ (by omega),
      load32_store32, u32_of_lt hc]
  size_eq := by
    rw [queueFields, load32_store32_of_disjoint _ _ (by omega), load32_store32]
    rfl
  head_eq := load32_store32 ..

theorem Fields.store_array (h : Fields m queue array capacity size head) {v : ℕ} (hv : v < 2 ^ 32) :
    Fields (store32 m queue v) queue v capacity size head where
  array_eq := by rw [load32_store32, u32_of_lt hv]
  capacity_eq := by rw [load32_store32_of_disjoint _ _ (by omega), h.capacity_eq]
  size_eq := by rw [load32_store32_of_disjoint _ _ (by omega), h.size_eq]
  head_eq := by rw [load32_store32_of_disjoint _ _ (by omega), h.head_eq]

theorem Fields.store_size (h : Fields m queue array capacity size head) {v : ℕ} (hv : v < 2 ^ 32) :
    Fields (store32 m (queue + 8) v) queue array capacity v head where
  array_eq := by rw [load32_store32_of_disjoint _ _ (by omega), h.array_eq]
  capacity_eq := by rw [load32_store32_of_disjoint _ _ (by omega), h.capacity_eq]
  size_eq := by rw [load32_store32, u32_of_lt hv]
  head_eq := by rw [load32_store32_of_disjoint _ _ (by omega), h.head_eq]

theorem Fields.store_head (h : Fields m queue array capacity size head) {v : ℕ} (hv : v < 2 ^ 32) :
    Fields (store32 m (queue + 12) v) queue array capacity size v where
  array_eq := by rw [load32_store32_of_disjoint _ _ (by omega), h.array_eq]
  capacity_eq := by rw [load32_store32_of_disjoint _ _ (by omega), h.capacity_eq]
  size_eq := by rw [load32_store32_of_disjoint _ _ (by omega), h.size_eq]
  head_eq := by rw [load32_store32, u32_of_lt hv]

theorem Fields.store_outside (h : Fields m queue array capacity size head) {a : ℕ} (v : ℕ)
    (ha : a + 4 ≤ queue ∨ queue + sizeofQueue ≤ a) : Fields (store32 m a v) queue array capacity size head := by
  unfold sizeofQueue at ha
  constructor
  · rw [load32_store32_of_disjoint _ _ (by omega), h.array_eq]
  · rw [load32_store32_of_disjoint _ _ (by omega), h.capacity_eq]
  · rw [load32_store32_of_disjoint _ _ (by omega), h.size_eq]
  · rw [load32_store32_of_disjoint _ _ (by omega), h.head_eq]

/-! ## The calls on the fields -/

/-- **`queue_push`** when there is room. -/
theorem Fields.push (h : Fields m queue array capacity size head) (hroom : size < capacity)
    (hcap : capacity < 2 ^ 31) (hhead : head < capacity) (v : ℕ) : queuePush m queue v =
      (0, store32 (store32 m (queue + 8) (size + 1)) (u32 (array + 4 * ((head + size) % capacity))) v) := by
  have harray : load32 (store32 m (queue + 8) (size + 1)) queue = array := by
    rw [load32_store32_of_disjoint _ _ (by omega), h.array_eq]
  have hidx : u32 (head + size) = head + size := u32_of_lt (by omega)
  rw [queuePush]
  dsimp only
  rw [h.capacity_eq, h.size_eq, h.head_eq, hidx, u32_of_lt (by omega), if_neg (by omega), harray]

theorem Fields.push_full (h : Fields m queue array capacity capacity head) (hcap : capacity < 2 ^ 31) (v : ℕ) :
    queuePush m queue v = (-1, m) := by
  rw [queuePush]
  dsimp only
  rw [h.capacity_eq, h.size_eq, u32_of_lt (by omega), if_pos (by omega)]

theorem Fields.pop_empty (h : Fields m queue array capacity 0 head) : queuePop m queue = m := by
  rw [queuePop]
  dsimp only
  rw [h.size_eq, if_pos rfl]

theorem Fields.pop (h : Fields m queue array capacity size head) (hsize : 0 < size) (hcap : capacity < 2 ^ 31)
    (hhead : head < capacity) : queuePop m queue =
      store32 (store32 m (queue + 8) (size - 1)) (queue + 12) ((head + 1) % capacity) := by
  rw [queuePop]
  dsimp only
  rw [h.size_eq, if_neg (by omega), load32_store32_of_disjoint _ _ (by omega),
    load32_store32_of_disjoint _ _ (by omega), h.head_eq, h.capacity_eq, u32_of_lt (by omega)]

theorem Fields.top (h : Fields m queue array capacity size head) :
    queueTop m queue = load32 m (u32 (array + 4 * head)) := by
  rw [queueTop, h.array_eq, h.head_eq]

end BulbOS.Queue
