import BulbOS.Lib.Circular
import BulbOS.Queue.Blocks

/-!
# The queue is a bounded list

* `Fifo`: a `Keyboard.Queue` holds the values of a list; `Fifo.push`, `Fifo.pop`, `Fifo.top`: the calls on it;
* `Stored`: a queue in memory is a `Keyboard.Queue`; `Stored.push`, `Stored.pop`: and the calls keep that, as long as
  the array has all its words;
* `Stored.agrees`: then every sequence of calls goes as on the list;
* `Fields.overrun`: the words of a shorter array reach the field `queue`;
* **`queue_fifo_iff`**: the capacities for which a queue from `queue_init` is a bounded list.
-/

namespace BulbOS.Queue

open KLib

/-! ## The array -/

/-- The queue holds `l`. -/
structure Fifo (queue : Keyboard.Queue) (l : List ℕ) : Prop where
  head : queue.head < queue.capacity
  size : queue.size = l.length
  le : l.length ≤ queue.capacity
  contents : circular queue.queue queue.capacity queue.head queue.size = l

section Array

variable {q : Keyboard.Queue} {l : List ℕ}

theorem fifo_init {capacity : ℕ} (h : 0 < capacity) (mem : ℕ → ℕ) : Fifo (Keyboard.queueInit capacity mem) [] :=
  ⟨h, rfl, Nat.zero_le _, rfl⟩

theorem queuePush_room (h : q.size < q.capacity) (v : ℕ) : Keyboard.queuePush q v = (0, { q with
    size := q.size + 1
    queue := Function.update q.queue ((q.head + q.size) % q.capacity) v }) :=
  if_neg (by omega)

theorem Fifo.push (h : Fifo q l) (hroom : l.length < q.capacity) (v : ℕ) :
    Fifo (Keyboard.queuePush q v).2 (l ++ [v]) := by
  have hsize := h.size
  have hlen : (l ++ [v]).length = l.length + 1 := List.length_append
  rw [queuePush_room (by omega)]
  refine ⟨h.head, by rw [hlen, ← hsize], by rw [hlen]; exact hroom, ?_⟩
  dsimp only
  rw [circular_push (by omega), h.contents]

theorem Fifo.first {x : ℕ} (h : Fifo q (x :: l)) :
    q.queue q.head = x ∧ circular q.queue q.capacity ((q.head + 1) % q.capacity) l.length = l := by
  have hc := h.contents
  rw [h.size, List.length_cons, circular_pop h.head, List.cons.injEq] at hc
  exact hc

theorem Fifo.pop {x : ℕ} (h : Fifo q (x :: l)) : Fifo (Keyboard.queuePop q) l := by
  have hsize : q.size = l.length + 1 := h.size
  have hle : l.length + 1 ≤ q.capacity := h.le
  have hpop : Keyboard.queuePop q = { q with size := q.size - 1, head := (q.head + 1) % q.capacity } :=
    if_neg (by omega)
  have hpred : q.size - 1 = l.length := by omega
  rw [hpop, hpred]
  exact ⟨Nat.mod_lt _ (by omega), rfl, (Nat.le_succ _).trans hle, h.first.2⟩

theorem Fifo.top {x : ℕ} (h : Fifo q (x :: l)) : Keyboard.queueTop q = x := h.first.1

end Array

/-! ## The memory -/

/-- The queue at `queue`, with its array at `array`, is `q`. -/
structure Stored (m : Mem) (queue array : ℕ) (q : Keyboard.Queue) : Prop where
  fields : Fields m queue array q.capacity q.size q.head
  cells : ∀ i < q.capacity, load32 m (array + 4 * i) = q.queue i

variable {m : Mem} {queue array capacity size head : ℕ} {q : Keyboard.Queue}

theorem Blocks.cell (h : Blocks queue array (4 * capacity)) {i : ℕ} (hi : i < capacity) :
    array + 4 * i + 4 ≤ 2 ^ 32 ∧ (array + 4 * i + 4 ≤ queue ∨ queue + sizeofQueue ≤ array + 4 * i) := by
  have hend := h.array_end
  have hdisj := h.disjoint
  omega

theorem Blocks.capacity_lt (h : Blocks queue array (4 * capacity)) : capacity < 2 ^ 31 := by
  have hend := h.array_end
  omega

theorem stored_init (h : Blocks queue array (4 * capacity)) (hpos : 0 < capacity) (m : Mem) :
    Stored (queueFields m queue array capacity) queue array
      (Keyboard.queueInit capacity fun i => load32 (queueFields m queue array capacity) (array + 4 * i)) := by
  have hend := h.array_end
  exact ⟨fields_init (by omega) (h.capacity_lt.trans (by decide)), fun _ _ => rfl⟩

theorem Stored.store_cell (h : Stored m queue array q) (hb : Blocks queue array (4 * q.capacity))
    {idx : ℕ} (hidx : idx < q.capacity) {v : ℕ} (hv : v < 2 ^ 32) :
    Stored (store32 m (u32 (array + 4 * idx)) v) queue array { q with queue := Function.update q.queue idx v } := by
  obtain ⟨hend, hcell⟩ := hb.cell hidx
  rw [u32_of_lt (by omega)]
  refine ⟨h.fields.store_outside v hcell, fun i hi => ?_⟩
  by_cases hii : i = idx
  · subst hii
    rw [load32_store32, u32_of_lt hv]
    exact (Function.update_self i v q.queue).symm
  · rw [load32_store32_of_disjoint _ _ (by omega), h.cells i hi]
    exact (Function.update_of_ne hii v q.queue).symm

theorem Blocks.load_cell (hb : Blocks queue array (4 * capacity)) {i : ℕ} (hi : i < capacity)
    {k : ℕ} (hk : k + 4 ≤ sizeofQueue) (v : ℕ) :
    load32 (store32 m (queue + k) v) (array + 4 * i) = load32 m (array + 4 * i) := by
  obtain ⟨-, hcell⟩ := hb.cell hi
  exact load32_store32_of_disjoint _ _ (by omega)

/-- **`queue_push`** on the memory is `queue_push` on the array. -/
theorem Stored.push (h : Stored m queue array q) (hb : Blocks queue array (4 * q.capacity))
    (hhead : q.head < q.capacity) (hroom : q.size < q.capacity) {v : ℕ} (hv : v < 2 ^ 32) :
    (queuePush m queue v).1 = 0 ∧ Stored (queuePush m queue v).2 queue array (Keyboard.queuePush q v).2 := by
  have hc := hb.capacity_lt
  rw [h.fields.push hroom hc hhead, queuePush_room hroom]
  have hsucc : q.size + 1 < 2 ^ 32 := by omega
  have hidx : (q.head + q.size) % q.capacity < q.capacity := Nat.mod_lt _ (by omega)
  have hsize : Stored (store32 m (queue + 8) (q.size + 1)) queue array { q with size := q.size + 1 } :=
    ⟨h.fields.store_size hsucc, fun i hi => (hb.load_cell hi (by decide) _).trans (h.cells i hi)⟩
  exact ⟨rfl, hsize.store_cell hb hidx hv⟩

/-- **`queue_pop`** on the memory is `queue_pop` on the array. -/
theorem Stored.pop (h : Stored m queue array q) (hb : Blocks queue array (4 * q.capacity))
    (hhead : q.head < q.capacity) (hsize : 0 < q.size) (hle : q.size ≤ q.capacity) :
    Stored (queuePop m queue) queue array (Keyboard.queuePop q) := by
  have hpop : Keyboard.queuePop q = { q with size := q.size - 1, head := (q.head + 1) % q.capacity } :=
    if_neg (by omega)
  have hc := hb.capacity_lt
  have hmod : (q.head + 1) % q.capacity < q.capacity := Nat.mod_lt _ (by omega)
  have hpred : q.size - 1 < 2 ^ 32 := by omega
  rw [h.fields.pop hsize (by omega) hhead, hpop]
  refine ⟨(h.fields.store_size hpred).store_head (by omega), fun i hi => ?_⟩
  rw [hb.load_cell hi (by decide), hb.load_cell hi (by decide)]
  exact h.cells i hi

theorem Stored.top (h : Stored m queue array q) (hb : Blocks queue array (4 * q.capacity))
    (hhead : q.head < q.capacity) : queueTop m queue = Keyboard.queueTop q := by
  obtain ⟨hend, -⟩ := hb.cell hhead
  rw [h.fields.top, u32_of_lt (by omega), h.cells _ hhead]
  rfl

/-! ## Sequences of calls -/

/-- **A queue with all its words** goes as the list. -/
theorem Stored.agrees (hb : Blocks queue array (4 * capacity)) (ops : List QueueOp) {l : List UInt32}
    (h : Stored m queue array q) (hl : Fifo q (l.map UInt32.toNat)) (hq : q.capacity = capacity) :
    Agrees capacity queue m l ops := by
  induction ops generalizing m q l with
  | nil => trivial
  | cons op ops ih =>
    subst hq
    have hsize : q.size = l.length := hl.size.trans (List.length_map _)
    have hle : q.size ≤ q.capacity := hl.size ▸ hl.le
    cases op with
    | push value =>
      rw [Agrees]
      by_cases hroom : l.length < q.capacity
      · rw [if_pos hroom]
        obtain ⟨hret, hstored⟩ := h.push hb hl.head (by omega) value.toNat_lt
        have hfifo := hl.push (by rwa [List.length_map]) value.toNat
        rw [queuePush_room (by omega)] at hstored hfifo
        exact ⟨hret, ih hstored (by rwa [List.map_append]) rfl⟩
      · rw [if_neg hroom]
        have hfull : Fields m queue array q.capacity q.capacity q.head :=
          (show q.size = q.capacity by omega) ▸ h.fields
        exact ⟨hfull.push_full hb.capacity_lt _, ih h hl rfl⟩
    | pop =>
      cases l with
      | nil =>
        have hzero : q.size = 0 := hsize
        have hempty : Fields m queue array q.capacity 0 q.head := hzero ▸ h.fields
        rw [Agrees, hempty.pop_empty]
        exact ⟨fun _ => rfl, ih h hl rfl⟩
      | cons x l =>
        have hpos : 0 < q.size := hsize ▸ Nat.succ_pos _
        have hstored := h.pop hb hl.head hpos hle
        have hcap : (Keyboard.queuePop q).capacity = q.capacity := by
          rw [Keyboard.queuePop, if_neg (Nat.ne_of_gt hpos)]
        exact ⟨fun hnil => absurd hnil (List.cons_ne_nil x l), ih hstored hl.pop hcap⟩
    | top =>
      refine ⟨fun x hx => ?_, ih h hl rfl⟩
      cases l with
      | nil => cases hx
      | cons y l =>
        obtain rfl := Option.some.inj hx
        exact (h.top hb hl.head).trans hl.top

/-! ## Arrays that are too short -/

/-- The word of the array at `i`. -/
def cellAddr (array i : ℕ) : ℕ := u32 (array + 4 * i)

/-- How many words of the array end before the field `queue`. -/
def cellsBefore (queue array : ℕ) : ℕ := sub32 queue array / 4

/-- Another address with the same upper bytes. -/
def beside (array : ℕ) : ℕ := if array % 2 = 0 then array + 1 else array - 1

/-- The value that makes `beside array` of the field `queue`, when its word is pushed. -/
def besideWord (queue array : ℕ) : UInt32 := UInt32.ofNat (beside array * 2 ^ (8 * (sub32 queue array % 4)))

namespace Blocks

variable (h : Blocks queue array 4)
include h

theorem cellsBefore_pos : 1 ≤ cellsBefore queue array ∧ cellsBefore queue array + 1 < 2 ^ 30 := by
  obtain ⟨h₁, h₂, h₃, h₄⟩ := h
  unfold cellsBefore sub32
  unfold sizeofQueue at h₂ h₄
  omega

theorem cell_queue {i : ℕ} (hi : i < cellsBefore queue array) :
    cellAddr array i + 4 ≤ queue ∨ queue + sizeofQueue ≤ cellAddr array i := by
  obtain ⟨h₁, h₂, h₃, h₄⟩ := h
  unfold cellsBefore sub32 at hi
  unfold cellAddr u32
  unfold sizeofQueue at h₂ h₄ ⊢
  omega

theorem cell_first {i : ℕ} (hpos : 1 ≤ i) (hi : i ≤ cellsBefore queue array) :
    cellAddr array i + 4 ≤ array ∨ array + 4 ≤ cellAddr array i := by
  obtain ⟨h₁, h₂, h₃, h₄⟩ := h
  unfold cellsBefore sub32 at hi
  unfold cellAddr u32
  unfold sizeofQueue at h₂ h₄
  omega

theorem cell_last : cellAddr array (cellsBefore queue array) = queue - sub32 queue array % 4 := by
  obtain ⟨h₁, h₂, h₃, h₄⟩ := h
  unfold cellsBefore cellAddr u32 sub32
  unfold sizeofQueue at h₂ h₄
  omega

end Blocks

theorem load32_beside {a : ℕ} (h : load32 m a = 255) : load32 m (beside a) ≠ 255 := by
  have h₀ := (m a).toNat_lt
  have h₁ := (m (a + 1)).toNat_lt
  have h₂ := (m (a + 2)).toNat_lt
  have h₃ := (m (a + 3)).toNat_lt
  unfold load32 at h
  unfold beside
  split_ifs with heven
  · have h₄ := (m (a + 1 + 3)).toNat_lt
    unfold load32
    rw [show a + 1 + 1 = a + 2 from rfl, show a + 1 + 2 = a + 3 from rfl]
    omega
  · have hprev : a - 1 + 1 = a := by omega
    unfold load32
    rw [hprev]
    omega

theorem besideWord_spec (hq : 4 ≤ queue) (ha : array < 2 ^ 32 - 1) (hfield : load32 m queue = array) :
    load32 (store32 m (queue - sub32 queue array % 4) (besideWord queue array).toNat) queue = beside array := by
  have hr : sub32 queue array % 4 < 4 := Nat.mod_lt _ (by decide)
  rw [load32_store32_before m hr (by omega) (besideWord queue array).toNat_lt, hfield, besideWord, UInt32.toNat_ofNat']
  generalize sub32 queue array % 4 = r at hr
  unfold beside
  obtain rfl | rfl | rfl | rfl : r = 0 ∨ r = 1 ∨ r = 2 ∨ r = 3 := by omega
  all_goals
    simp only [Nat.reduceMul, Nat.reduceSub, Nat.reducePow]
    split_ifs <;> omega

theorem Fields.pushes (hb : Blocks queue array 4) (hcap : capacity < 2 ^ 31) {rest : List QueueOp} {n : ℕ}
    (h : Fields m queue array capacity size 0) (hfirst : 0 < size → load32 m array = 255)
    (hn : size + n ≤ cellsBefore queue array) (hroom : size + n < capacity)
    (hagrees : Agrees capacity queue m (List.replicate size 255) (List.replicate n (.push 255) ++ rest)) :
    ∃ m', Fields m' queue array capacity (size + n) 0 ∧ (0 < size + n → load32 m' array = 255) ∧
      Agrees capacity queue m' (List.replicate (size + n) 255) rest := by
  induction n generalizing m size with
  | zero => exact ⟨m, h, hfirst, hagrees⟩
  | succ n ih =>
    have hpush := h.push (by omega) hcap (by omega) (255 : UInt32).toNat
    rw [Nat.zero_add, Nat.mod_eq_of_lt (by omega : size < capacity)] at hpush
    rw [List.replicate_succ, List.cons_append, Agrees, if_pos (by rw [List.length_replicate]; omega), hpush,
      ← List.replicate_succ'] at hagrees
    obtain ⟨-, hrest⟩ := hagrees
    have hsize := h.store_size (v := size + 1) (by omega)
    have hfields := hsize.store_outside (a := cellAddr array size) (255 : UInt32).toNat (hb.cell_queue (by omega))
    have hend := hb.array_end
    have hfirst' : load32 (store32 (store32 m (queue + 8) (size + 1)) (cellAddr array size)
      (255 : UInt32).toNat) array =
        255 := by
      by_cases hz : size = 0
      · subst hz
        rw [cellAddr, Nat.mul_zero, Nat.add_zero array, u32_of_lt (by omega), load32_store32]
        rfl
      · have hdis := hb.disjoint
        have hcell := hb.cell_first (show 1 ≤ size by omega) (by omega)
        unfold sizeofQueue at hdis
        rw [load32_store32_of_disjoint _ _ hcell.symm, load32_store32_of_disjoint _ _ (by omega)]
        exact hfirst (by omega)
    obtain ⟨m', hm', hm₁, hm₂⟩ := ih hfields (fun _ => hfirst') (by omega) (by omega) hrest
    rw [show size + 1 + n = size + (n + 1) by omega] at hm' hm₁ hm₂
    exact ⟨m', hm', hm₁, hm₂⟩

/-- **The words behind a shorter array** are those of the queue: when the push that reaches the field `queue` moves it
by one byte, `queue_top` does not read the first value any more. -/
theorem Fields.overrun (hb : Blocks queue array 4) (hcap : capacity < 2 ^ 31)
    (hroom : cellsBefore queue array < capacity)
    (h : Fields m queue array capacity 0 0) : ¬ Agrees capacity queue m []
      (List.replicate (cellsBefore queue array) (.push 255) ++ [.push (besideWord queue array), .top]) := by
  intro hagrees
  obtain ⟨hone, -⟩ := hb.cellsBefore_pos
  obtain ⟨m', hfields, hfirst, hrest⟩ := h.pushes hb hcap (fun hlt => absurd hlt (Nat.lt_irrefl 0)) (by omega)
    (by omega) hagrees
  rw [Nat.zero_add] at hfields hfirst hrest
  have hpush := hfields.push hroom hcap (by omega) (besideWord queue array).toNat
  rw [Nat.zero_add, Nat.mod_eq_of_lt hroom, ← cellAddr, hb.cell_last] at hpush
  rw [Agrees, if_pos (by rwa [List.length_replicate]), hpush] at hrest
  obtain ⟨-, htop, -⟩ := hrest
  have hq := hb.queue_pos
  have hend := hb.array_end
  have hdis := hb.disjoint
  unfold sizeofQueue at hdis
  have hsize := hfields.store_size (v := cellsBefore queue array + 1) (by omega)
  have hfield := besideWord_spec hq (by omega) hsize.array_eq
  have hcell := hb.cell_first hone le_rfl
  rw [hb.cell_last] at hcell
  set v := (besideWord queue array).toNat
  set w := store32 (store32 m' (queue + 8) (cellsBefore queue array + 1)) (queue - sub32 queue array % 4) v
  have hhead : load32 w (queue + 12) = 0 := by
    rw [load32_store32_of_disjoint _ _ (by omega), hsize.head_eq]
  have hfirst' : load32 w array = 255 := by
    rw [load32_store32_of_disjoint _ _ hcell.symm, load32_store32_of_disjoint _ _ (by omega)]
    exact hfirst hone
  have hbeside : beside array < 2 ^ 32 := by
    unfold beside
    split_ifs <;> omega
  have hread : queueTop w queue = load32 w (beside array) := by
    rw [queueTop, hfield, hhead, Nat.mul_zero, Nat.add_zero, u32_of_lt hbeside]
  refine load32_beside hfirst' ?_
  rw [← hread]
  refine htop 255 ?_
  obtain ⟨n, hn⟩ : ∃ n, cellsBefore queue array = n + 1 := ⟨_, (Nat.sub_add_cancel hone).symm⟩
  rw [hn, List.replicate_succ]
  rfl

theorem Fields.overrun_self (h : Fields m queue queue capacity 0 0) (hpos : 0 < capacity) (hcap : capacity < 2 ^ 31)
    (hq : queue + sizeofQueue ≤ 2 ^ 32) :
    ¬ Agrees capacity queue m [] [.push (UInt32.ofNat (queue + 12)), .top] := by
  unfold sizeofQueue at hq
  have hv : (UInt32.ofNat (queue + 12)).toNat = queue + 12 :=
    UInt32.toNat_ofNat_of_lt (show queue + 12 < 2 ^ 32 by omega)
  have hpush := h.push hpos hcap hpos (queue + 12)
  rw [Nat.zero_add, Nat.zero_mod, Nat.mul_zero, Nat.add_zero queue, u32_of_lt (by omega)] at hpush
  intro hagrees
  rw [Agrees, if_pos (show ([] : List UInt32).length < capacity from hpos), hv, hpush] at hagrees
  obtain ⟨-, htop, -⟩ := hagrees
  -- `head` is read as the first value
  have hfields := (h.store_size (v := 1) (by omega)).store_array (v := queue + 12) (by omega)
  rw [hfields.top, Nat.mul_zero, Nat.add_zero, u32_of_lt (by omega), hfields.head_eq] at htop
  have := htop _ rfl
  omega

/-! ## Queues from `queue_init` -/

/-- **A request that wraps around** gets a block that is too short. -/
theorem not_agrees_of_wrap {frame : ℕ} {s₂ s₃ : Heap.Vmm} {c : Heap.HeapCfg} {L : List (ℕ × ℕ)}
    (hgrants : Grants frame c.vmm capacity queue s₂ array s₃) (hinv : Heap.BlocksInv c L)
    (hstack : c.vmm.kheapStackStart = Heap.kheapBlockStart + Heap.pageFrameSize) (hends : Heap.Ends c.vmm.ends)
    (hwrap : 2 ^ 30 ≤ capacity + 1) (hcap : capacity < 2 ^ 31) (m : Mem) :
    ∃ ops, ¬ Agrees capacity queue (queueFields m queue array capacity) [] ops := by
  have hne := hgrants.bytes_ne
  obtain ⟨k, hk⟩ : ∃ k, arrayBytes capacity = 4 * k ∧ k < 2 ^ 30 := ⟨capacity % 2 ^ 30, by unfold arrayBytes u32; omega⟩
  have hplace : array = queue ∧ queue + sizeofQueue ≤ 2 ^ 32 ∨ Blocks queue array 4 := by
    by_cases hheader : arrayBytes capacity + 4 < 2 ^ 32
    · exact .inr ((grants_blocks hgrants hinv hstack hends hheader).shorter (by omega))
    · exact grants_wrapped hgrants hinv hstack hends (by omega)
  rcases hplace with ⟨rfl, hend⟩ | hb
  · unfold sizeofQueue at hend
    exact ⟨_, (fields_init (by omega) (by omega)).overrun_self (by omega) hcap hend⟩
  · have hend := hb.array_end
    obtain ⟨-, hcells⟩ := hb.cellsBefore_pos
    exact ⟨_, (fields_init (by omega) (by omega)).overrun hb hcap (by omega)⟩

/-- **The queue is a bounded list** for every sequence of calls, in every state of the heap in which `kmalloc` gives
`queue_init` two blocks, exactly when the request for the array does not wrap around. -/
theorem queue_fifo_iff {frame frame' : ℕ} {s s₁ s₂ s₃ : Heap.Vmm} (hinit : Heap.vmmInit frame s = some s₁)
    {ops : List Heap.BlockOp} {c : Heap.HeapCfg}
    (hrun : Run (fun c op c' => Heap.BlockOp.Legal c op ∧ op.Fits c ∧ Heap.blockStep c op = some c')
      ⟨s₁, [(s₁.kheapStackLast, Heap.sizeofNode)]⟩ ops c) (hpos : 1 ≤ capacity) (hcap : capacity < 2 ^ 31)
    (hgrants : Grants frame' c.vmm capacity queue s₂ array s₃) :
    (∃ s', queueInit frame' c.vmm capacity = some (queue, s') ∧ ∀ ops, Agrees capacity queue s'.mem [] ops) ↔
      capacity + 1 < 2 ^ 30 := by
  obtain ⟨L, hinv, hstack, hends⟩ := Heap.blocksInv_run hinit hrun
  have hiff : (∃ s', queueInit frame' c.vmm capacity = some (queue, s') ∧ ∀ ops, Agrees capacity queue s'.mem [] ops) ↔
      ∀ ops, Agrees capacity queue (queueFields s₃.mem queue array capacity) [] ops := by
    rw [hgrants.queueInit_eq]
    refine ⟨?_, fun h => ⟨_, rfl, h⟩⟩
    rintro ⟨s', hs', h⟩
    obtain ⟨-, rfl⟩ := Prod.mk.inj (Option.some.inj hs')
    exact h
  rw [hiff]
  constructor
  · intro h
    by_contra hnot
    obtain ⟨ops, hops⟩ := not_agrees_of_wrap hgrants hinv hstack hends (Nat.le_of_not_lt hnot) hcap s₃.mem
    exact hops (h ops)
  · intro hlt
    have hbytes : arrayBytes capacity = 4 * capacity := u32_of_lt (by omega)
    have hb := grants_blocks hgrants hinv hstack hends (by omega)
    rw [hbytes] at hb
    exact fun ops => (stored_init hb hpos _).agrees hb ops (fifo_init hpos _) rfl

/-- The pointers that `queue_init` gets. -/
def grantedTo (frame : ℕ) (s : Heap.Vmm) (capacity : ℕ) : Option (ℕ × ℕ) :=
  (Heap.kmalloc frame s sizeofQueue).bind fun r =>
    (Heap.kmalloc frame r.2 (arrayBytes capacity)).map fun r' => (r.1, r'.1)

theorem grants_of_grantedTo {frame : ℕ} {s : Heap.Vmm} (h : grantedTo frame s capacity = some (queue, array))
    (hq : queue ≠ 0) (ha : array ≠ 0) (hpage : arrayBytes capacity ≠ Heap.pageFrameSize) :
    ∃ s₂ s₃, Grants frame s capacity queue s₂ array s₃ := by
  obtain ⟨⟨q, s₂⟩, hqueue, h⟩ := Option.bind_eq_some_iff.mp h
  obtain ⟨⟨a, s₃⟩, harray, h⟩ := Option.map_eq_some_iff.mp h
  obtain ⟨rfl, rfl⟩ := Prod.mk.inj h
  exact ⟨s₂, s₃, hqueue, hq, harray, ha, fun hbytes => absurd hbytes hpage⟩

/-- The queue of the keyboard, after a block was taken and freed. -/
theorem queue_fifo_iff_keyboard : ∃ s₁ c s₂ s₃, Heap.vmmInit 0 Heap.zeroVmm = some s₁ ∧
    Run (fun c op c' => Heap.BlockOp.Legal c op ∧ op.Fits c ∧ Heap.blockStep c op = some c')
      ⟨s₁, [(s₁.kheapStackLast, Heap.sizeofNode)]⟩ [.kmalloc 0 100, .kmalloc 0 200, .kfree 0 0xD0000F90] c ∧
    Grants 0 c.vmm 15 0xD0000EB0 s₂ 0xD0000E70 s₃ ∧
    ((∃ s', queueInit 0 c.vmm 15 = some (0xD0000EB0, s') ∧ ∀ ops, Agrees 15 0xD0000EB0 s'.mem [] ops) ↔
      15 + 1 < 2 ^ 30) := by
  obtain ⟨s₁, _, _, hinit, _⟩ := Heap.vmmInit_spec 0 Heap.zeroVmm
  have heval : ((Heap.vmmInit 0 Heap.zeroVmm).bind fun s₁ =>
      Heap.blockExec ⟨s₁, [(s₁.kheapStackLast, Heap.sizeofNode)]⟩
        [.kmalloc 0 100, .kmalloc 0 200, .kfree 0 0xD0000F90]).any
      (fun c => grantedTo 0 c.vmm 15 = some (0xD0000EB0, 0xD0000E70)) = true := by decide +kernel
  rw [hinit, Option.bind_some] at heval
  obtain ⟨c, hc, hgranted⟩ := (Option.any_eq_true _ _).mp heval
  have hrun := Heap.run_of_blockExec hc
  obtain ⟨s₂, s₃, hgrants⟩ := grants_of_grantedTo (of_decide_eq_true hgranted) (by decide) (by decide) (by decide)
  exact ⟨s₁, c, s₂, s₃, hinit, hrun, hgrants, queue_fifo_iff hinit hrun (by decide) (by decide) hgrants⟩

/-- A capacity of 2^30 + 1: `kmalloc` is asked for four bytes, the third push writes the field `queue`. -/
theorem queue_overrun : ∃ s₁ s', Heap.vmmInit 0 Heap.zeroVmm = some s₁ ∧
    queueInit 0 s₁ (2 ^ 30 + 1) = some (0xD0000FE4, s') ∧
    ¬ Agrees (2 ^ 30 + 1) 0xD0000FE4 s'.mem [] [.push 255, .push 255, .push 0xD0000FDD, .top] := by
  obtain ⟨s₁, _, _, hinit, _⟩ := Heap.vmmInit_spec 0 Heap.zeroVmm
  have heval : ((Heap.vmmInit 0 Heap.zeroVmm).bind fun s₁ => grantedTo 0 s₁ (2 ^ 30 + 1)) =
      some (0xD0000FE4, 0xD0000FDC) := by decide +kernel
  rw [hinit, Option.bind_some] at heval
  obtain ⟨s₂, s₃, hgrants⟩ := grants_of_grantedTo heval (by decide) (by decide) (by decide)
  have hb : Blocks 0xD0000FE4 0xD0000FDC 4 := ⟨by decide, by decide, by decide, by decide⟩
  refine ⟨s₁, _, hinit, hgrants.queueInit_eq, ?_⟩
  exact (fields_init (by decide) (by decide)).overrun hb (by decide) (by decide)

end BulbOS.Queue
