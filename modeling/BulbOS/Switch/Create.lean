import BulbOS.Switch.Context

/-!
# New tasks (`task_create_new`, `task_kernel_create_new`, `task_user_create_new`)

The words that the three functions store, in order: the structure of the task and a first frame on its stack.

* `NewTask`, `taskCreate`: the stores; `storeAll_outside`, `load32_storeAll`: what a sequence of stores leaves;
* `taskCreate_outside`: only the structure and the stack are written;
* **`taskCreate_framed`**: the frame, over which there are the function of the task and `task_terminate`.
-/

namespace BulbOS.Switch

open KLib KLib.X86

variable {owner : ℕ → Option Owner} {m : Mem} {a v x : ℕ}

/-- The addresses and values of `task_create_new` and its callers; a user task gets two open files. -/
structure NewTask where
  task : ℕ
  pid : ℕ
  stack : ℕ
  esp0 : ℕ
  func : ℕ
  init : ℕ
  terminate : ℕ
  pageDir : ℕ
  name : ℕ × ℕ
  files : Option (ℕ × ℕ)

/-- `PAGE_LAST_DWORD`. -/
def pageLastDword : ℕ := (4096 - 1) / 4

/-- `task->ebp`, a pointer to a word. -/
def NewTask.ebp (n : NewTask) : ℕ := n.stack + 4 * pageLastDword

/-- The words that `task_create_new` stores first. -/
def NewTask.head (n : NewTask) : List (ℕ × ℕ) := [(n.task, n.pid), (n.task + 0xC, n.ebp)]

/-- The words on the stack; `task_kernel_create_new` and `task_user_create_new` replace the third one. -/
def NewTask.words (n : NewTask) : List (ℕ × ℕ) :=
  [(n.ebp, n.terminate), (n.ebp - 4, n.func), (n.ebp - 8, 0), (n.ebp - 12, n.ebp), (n.ebp - 16, 0), (n.ebp - 20, 0),
    (n.ebp - 24, 0)]

/-- The other fields; `esp0` is no pointer, so that it is moved by bytes. -/
def NewTask.fields (n : NewTask) : List (ℕ × ℕ) :=
  [(n.task + ESP, n.ebp - 24), (n.task + ESP0, n.esp0 + pageLastDword), (n.task + PAGE_DIR, 0), (n.task + STATE, 0),
    (n.task + 0x60, 0), (n.task + 0x64, 0), (n.task + 0x68, 0), (n.task + 0x6C, 0), (n.task + 0x1C, 0),
    (n.task + NEXT, 0), (n.task + 0x70, n.name.1), (n.task + 0x74, n.name.2)]

/-- The stores of the callers. -/
def NewTask.rest (n : NewTask) : List (ℕ × ℕ) :=
  (n.files.toList.flatMap fun f => [(n.task + 0x20, f.1), (n.task + 0x24, f.2)]) ++
    [(n.ebp - 8, n.init), (n.task + PAGE_DIR, n.pageDir)]

def storeAll (m : Mem) (l : List (ℕ × ℕ)) : Mem := l.foldl (fun m p => store32 m p.1 p.2) m

/-- `task_kernel_create_new` or `task_user_create_new`. -/
def taskCreate (m : Mem) (n : NewTask) : Mem := storeAll m (n.head ++ n.words ++ n.fields ++ n.rest)

theorem storeAll_outside {l : List (ℕ × ℕ)} (h : ∀ p ∈ l, x < p.1 ∨ p.1 + 4 ≤ x) : storeAll m l x = m x := by
  induction l generalizing m with
  | nil => rfl
  | cons p l ih =>
    obtain ⟨hp, hl⟩ := List.forall_mem_cons.mp h
    exact (ih hl).trans (store32_of_outside m p.2 hp)

theorem load32_storeAll {l l' : List (ℕ × ℕ)} (h : ∀ p ∈ l', a + 4 ≤ p.1 ∨ p.1 + 4 ≤ a) :
    load32 (storeAll m (l ++ (a, v) :: l')) a = u32 v := by
  have hsplit : storeAll m (l ++ (a, v) :: l') = storeAll (store32 (storeAll m l) a v) l' := by
    unfold storeAll
    rw [List.foldl_append, List.foldl_cons]
  have hsame : load32 (storeAll (store32 (storeAll m l) a v) l') a = load32 (store32 (storeAll m l) a v) a :=
    load32_congr fun x h₁ h₂ => storeAll_outside fun p hp => by have := h p hp; omega
  rw [hsplit, hsame, load32_store32]

/-- The structure and the stack are apart, and the values are words. -/
structure NewTask.Fits (n : NewTask) : Prop where
  task_lt : n.task + 0x78 ≤ 2 ^ 32
  stack_lt : n.stack + 4096 ≤ 2 ^ 32
  apart : n.task + 0x78 ≤ n.stack ∨ n.stack + 4096 ≤ n.task
  func : n.func < 2 ^ 32
  init : n.init < 2 ^ 32
  terminate : n.terminate < 2 ^ 32
  pageDir : n.pageDir < 2 ^ 32

variable {n : NewTask}

theorem mem_rest {p : ℕ × ℕ} (hp : p ∈ n.rest) :
    p.1 = n.task + 0x20 ∨ p.1 = n.task + 0x24 ∨ p.1 = n.ebp - 8 ∨ p.1 = n.task + PAGE_DIR := by
  unfold NewTask.rest at hp
  cases hf : n.files with
  | none =>
    rw [hf] at hp
    simp only [Option.toList_none, List.flatMap_nil, List.nil_append, List.mem_cons, List.not_mem_nil, or_false] at hp
    rcases hp with rfl | rfl <;> simp
  | some f =>
    rw [hf] at hp
    simp only [Option.toList_some, List.flatMap_cons, List.flatMap_nil, List.append_nil, List.cons_append,
      List.nil_append, List.mem_cons, List.not_mem_nil, or_false] at hp
    rcases hp with rfl | rfl | rfl | rfl <;> simp

theorem fields_apart (h : n.Fits) {p : ℕ × ℕ} (hp : p ∈ n.fields) : n.task ≤ p.1 ∧ p.1 + 4 ≤ n.task + 0x78 := by
  simp only [NewTask.fields, List.mem_cons, List.not_mem_nil, or_false] at hp
  unfold ESP ESP0 PAGE_DIR STATE NEXT at hp
  have := h.task_lt
  rcases hp with rfl | rfl | rfl | rfl | rfl | rfl | rfl | rfl | rfl | rfl | rfl | rfl <;> constructor <;>
    dsimp only <;> omega

theorem taskCreate_outside (h : n.Fits) (h₁ : x < n.task ∨ n.task + 0x78 ≤ x) (h₂ : x < n.stack ∨ n.stack + 4096 ≤ x) :
    taskCreate m n x = m x := by
  have hebp : n.ebp = n.stack + 4092 := rfl
  refine storeAll_outside fun p hp => ?_
  rcases List.mem_append.mp hp with hp | hp
  · rcases List.mem_append.mp hp with hp | hp
    · simp only [NewTask.head, NewTask.words, List.cons_append, List.nil_append, List.mem_cons, List.not_mem_nil,
        or_false] at hp
      rcases hp with rfl | rfl | rfl | rfl | rfl | rfl | rfl | rfl | rfl <;> dsimp only <;> omega
    · have := fields_apart h hp
      omega
  · have hrest := mem_rest hp
    unfold PAGE_DIR at hrest
    omega

theorem taskCreate_word (h : n.Fits) {l l' : List (ℕ × ℕ)} (hw : n.words = l ++ (a, v) :: l')
    (ha : n.stack ≤ a ∧ a + 4 ≤ n.stack + 4096) (hl : ∀ p ∈ l', a + 4 ≤ p.1 ∨ p.1 + 4 ≤ a)
    (hinit : a + 4 ≤ n.ebp - 8 ∨ n.ebp - 8 + 4 ≤ a) : load32 (taskCreate m n) a = u32 v := by
  have hsplit : n.head ++ n.words ++ n.fields ++ n.rest =
      (n.head ++ l) ++ (a, v) :: (l' ++ n.fields ++ n.rest) := by
    rw [hw]
    simp
  unfold taskCreate
  rw [hsplit]
  refine load32_storeAll fun p hp => ?_
  have hap := h.apart
  rcases List.mem_append.mp hp with hp | hp
  · rcases List.mem_append.mp hp with hp | hp
    · exact hl p hp
    · have := fields_apart h hp
      omega
  · have hrest := mem_rest hp
    unfold PAGE_DIR at hrest
    omega

/-- What a new task finds when it runs first. -/
def NewTask.context (n : NewTask) (m : Mem) : Context := ⟨n.ebp, 0, 0, 0, n.ebp - 4, n.init, taskCreate m n⟩

theorem context_stack (n : NewTask) (m : Mem) : (n.context m).stack = taskCreate m n := by rw [NewTask.context]

theorem context_eip (n : NewTask) (m : Mem) : (n.context m).eip = n.init := by rw [NewTask.context]

theorem context_esp (n : NewTask) (m : Mem) : (n.context m).esp = n.ebp - 4 := by rw [NewTask.context]

/-- **`task_create_new`** leaves a frame, over which there are the function of the task and `task_terminate`. -/
theorem taskCreate_framed (h : n.Fits) (hown : ∀ i < 4096, owner (n.stack + i) = some (.stack n.task)) :
    Framed owner (taskCreate m n) n.task (n.context m) ∧ load32 (taskCreate m n) (n.ebp - 4) = n.func ∧
      load32 (taskCreate m n) n.ebp = n.terminate := by
  have hebp : n.ebp = n.stack + 4092 := rfl
  have hlt := h.stack_lt
  have hap := h.apart
  have hw : ∀ (l l' : List (ℕ × ℕ)) (a v : ℕ), n.words = l ++ (a, v) :: l' → (n.stack ≤ a ∧ a + 4 ≤ n.stack + 4096) →
      (∀ p ∈ l', a + 4 ≤ p.1 ∨ p.1 + 4 ≤ a) → (a + 4 ≤ n.ebp - 8 ∨ n.ebp - 8 + 4 ≤ a) → v < 2 ^ 32 →
      load32 (taskCreate m n) a = v := fun l l' a v hw ha hl hi hv => by
    rw [taskCreate_word h hw ha hl hi, u32_of_lt hv]
  have hzero : (0 : ℕ) < 2 ^ 32 := by decide
  refine ⟨⟨?_, ?_, fun i hi => ?_, ?_, ?_, ?_, ?_, ?_, ?_, fun x _ _ => by rw [context_stack]⟩, ?_, ?_⟩
  · change 20 ≤ n.ebp - 4
    omega
  · change n.ebp - 4 < 2 ^ 32
    omega
  · intro j hj
    have hx := hown (4068 + 4 * i + j) (by omega)
    change owner (n.ebp - 4 - 20 + 4 * i + j) = _
    rwa [show n.ebp - 4 - 20 + 4 * i + j = n.stack + (4068 + 4 * i + j) by omega]
  · -- `esp`
    have hsplit : n.head ++ n.words ++ n.fields ++ n.rest =
        (n.head ++ n.words) ++ (n.task + ESP, n.ebp - 24) :: (n.fields.tail ++ n.rest) := by
      simp [NewTask.fields]
    have hload : load32 (taskCreate m n) (n.task + ESP) = u32 (n.ebp - 24) := by
      unfold taskCreate
      rw [hsplit]
      refine load32_storeAll fun p hp => ?_
      rcases List.mem_append.mp hp with hp | hp
      · simp only [NewTask.fields, List.tail_cons, List.mem_cons, List.not_mem_nil, or_false] at hp
        unfold ESP ESP0 PAGE_DIR STATE NEXT at *
        rcases hp with rfl | rfl | rfl | rfl | rfl | rfl | rfl | rfl | rfl | rfl | rfl <;> dsimp only <;> omega
      · have hrest := mem_rest hp
        unfold ESP PAGE_DIR at *
        omega
    rw [hload, u32_of_lt (by omega)]
    change n.ebp - 24 = n.ebp - 4 - 20
    omega
  · rw [show (n.context m).esp - 20 = n.ebp - 24 by change n.ebp - 4 - 20 = _; omega]
    exact hw (n.words.take 6) [] _ 0 rfl (by omega) (by simp) (by omega) hzero
  · rw [show (n.context m).esp - 20 + 4 = n.ebp - 20 by change n.ebp - 4 - 20 + 4 = _; omega]
    exact hw (n.words.take 5) (n.words.drop 6) _ 0 rfl (by omega) (by simp [NewTask.words]; omega) (by omega) hzero
  · rw [show (n.context m).esp - 20 + 8 = n.ebp - 16 by change n.ebp - 4 - 20 + 8 = _; omega]
    exact hw (n.words.take 4) (n.words.drop 5) _ 0 rfl (by omega) (by simp [NewTask.words]; omega) (by omega) hzero
  · rw [show (n.context m).esp - 20 + 12 = n.ebp - 12 by change n.ebp - 4 - 20 + 12 = _; omega]
    exact hw (n.words.take 3) (n.words.drop 4) _ n.ebp rfl (by omega) (by simp [NewTask.words]; omega) (by omega)
      (by omega)
  · -- the init function, stored by the caller
    have hsplit : n.head ++ n.words ++ n.fields ++ n.rest =
        (n.head ++ n.words ++ n.fields ++ n.files.toList.flatMap
          fun f => [(n.task + 0x20, f.1), (n.task + 0x24, f.2)]) ++
          (n.ebp - 8, n.init) :: [(n.task + PAGE_DIR, n.pageDir)] := by
      simp [NewTask.rest]
    rw [show (n.context m).esp - 20 + 16 = n.ebp - 8 by change n.ebp - 4 - 20 + 16 = _; omega]
    unfold taskCreate
    rw [hsplit, load32_storeAll (by simp [PAGE_DIR]; omega)]
    exact u32_of_lt h.init
  · exact hw (n.words.take 1) (n.words.drop 2) _ n.func rfl (by omega) (by simp [NewTask.words]; omega)
      (by omega) h.func
  · exact hw [] (n.words.drop 1) _ n.terminate rfl (by omega) (by simp [NewTask.words]; omega) (by omega) h.terminate

end BulbOS.Switch
