import BulbOS.Pipe.Close
import BulbOS.Cond.Model

/-!
# Freeing a pipe (`pipe_close`, `condvar_free`)

The condition variables of all pipes are in one list, and a pipe has one for a condition only if a task has waited
for it.

* `World`, `worldStep`: the pipes, the list with the addresses of its nodes, and the nodes given to `kfree`;
* `setTasks_condvars`, `find_condvars`: the list, less the addresses, is the one of `condvar_wait`;
* `World.close_aborts_iff`, `World.close_last`: the second close aborts, or frees two nodes that stay in the list;
* **`close_never_safe`**; `freed_visited`: from then on a search of the list reads freed memory.
-/

namespace BulbOS.Pipe

open KLib BulbOS.Switch

/-- `condvar_t`, with its address. -/
structure CondNode extends Condvar where
  addr : ℕ

/-- `&pipe->b_read`. -/
def bReadAddr (pipe : ℕ) : ℕ := pipe + 8

/-- `&pipe->b_write`. -/
def bWriteAddr (pipe : ℕ) : ℕ := pipe + 12

/-- `condvar->tasks = tasks`, for the first node with a condition. -/
def setTasks (condition tasks : ℕ) : List CondNode → List CondNode
  | [] => []
  | c :: cs => if c.condition = condition then { c with tasks := tasks } :: cs else c :: setTasks condition tasks cs

/-- The first node with a condition. -/
def findNode (condition : ℕ) (condvars : List CondNode) : Option CondNode :=
  condvars.find? fun c => c.condition = condition

/-- All pipes, `condvars`, and the nodes that `condvar_free` has given to `kfree`. -/
structure World where
  pipes : ℕ → PipeState
  condvars : List CondNode
  freed : List ℕ

/-- `condvar_wait`: a node that is not in the list yet is allocated at `addr`. -/
def World.wait (w : World) (condition task addr : ℕ) : World :=
  match findNode condition w.condvars with
  | some c => if c.tasks ≠ 0 then w else { w with condvars := setTasks condition task w.condvars }
  | none => { w with condvars := ⟨⟨condition, task⟩, addr⟩ :: w.condvars }

def World.signal (w : World) (condition : ℕ) : World := { w with condvars := setTasks condition 0 w.condvars }

/-- `condvar_free`; `none` is `abort`. -/
def World.free (w : World) (condition : ℕ) : Option World :=
  match findNode condition w.condvars with
  | some c => some { w with freed := c.addr :: w.freed }
  | none => none

/-- The flag that `pipe_close` clears. -/
def closeEnd (p : PipeState) (writep : Bool) : PipeState :=
  if writep then { p with writeOpen := false } else { p with readOpen := false }

/-- `pipe_close` before it frees anything: closing the write end signals `&pipe->b_read`. -/
def World.closing (w : World) (pipe : ℕ) (writep : Bool) : World :=
  let w := { w with pipes := Function.update w.pipes pipe (closeEnd (w.pipes pipe) writep) }
  if writep then w.signal (bReadAddr pipe) else w

/-- `pipe_close`. -/
def World.close (w : World) (pipe : ℕ) (writep : Bool) : Option World :=
  let w := w.closing pipe writep
  if (w.pipes pipe).writeOpen = false ∧ (w.pipes pipe).readOpen = false then do
    let w ← w.free (bReadAddr pipe)
    w.free (bWriteAddr pipe)
  else some w

/-- Both ends are closed, in either order. -/
def World.closeBoth (w : World) (pipe : ℕ) (first : Bool) : Option World := do
  let w ← w.close pipe first
  w.close pipe (!first)

/-- What closing a pipe should leave: a list without its two condition variables, with all others, and with no
node that is freed. -/
structure SafelyClosed (w w' : World) (pipe : ℕ) : Prop where
  gone : ∀ c ∈ w'.condvars, c.condition ≠ bReadAddr pipe ∧ c.condition ≠ bWriteAddr pipe
  kept : ∀ c ∈ w.condvars, c.condition ≠ bReadAddr pipe → c.condition ≠ bWriteAddr pipe → c ∈ w'.condvars
  live : ∀ c ∈ w'.condvars, c.addr ∉ w'.freed

/-! ## The list -/

variable {condition tasks : ℕ} {condvars : List CondNode}

theorem setTasks_condvars : (setTasks condition tasks condvars).map CondNode.toCondvar =
    condvarSet condition tasks (condvars.map CondNode.toCondvar) := by
  induction condvars with
  | nil => rfl
  | cons c cs ih =>
    rw [setTasks, List.map_cons, condvarSet]
    by_cases h : c.condition = condition
    · rw [if_pos h, if_pos h, List.map_cons]
    · rw [if_neg h, if_neg h, List.map_cons, ih]

theorem find_condvars : (findNode condition condvars).map (fun c => c.tasks) =
    condvarFind condition (condvars.map CondNode.toCondvar) := by
  induction condvars with
  | nil => rfl
  | cons c cs ih =>
    rw [findNode, List.map_cons, condvarFind, List.find?_cons]
    by_cases h : c.condition = condition
    · simp only [h, decide_true, if_true, Option.map_some]
    · simp only [h, decide_false, if_false]
      exact ih

/-- Setting the tasks of a condition changes no address and no condition. -/
theorem setTasks_nodes : (setTasks condition tasks condvars).map (fun c => (c.addr, c.condition)) =
    condvars.map fun c => (c.addr, c.condition) := by
  induction condvars with
  | nil => rfl
  | cons c cs ih =>
    rw [setTasks]
    split_ifs
    · rfl
    · rw [List.map_cons, List.map_cons, ih]

/-- Whether there is a node with a condition does not depend on the tasks. -/
theorem findNode_setTasks {condition' : ℕ} :
    findNode condition (setTasks condition' tasks condvars) = none ↔ findNode condition condvars = none := by
  have hfind : ∀ l : List CondNode, findNode condition l = none ↔
      ∀ x ∈ l.map fun c => (c.addr, c.condition), x.2 ≠ condition := by
    intro l
    simp only [findNode, List.find?_eq_none, decide_eq_true_eq, List.mem_map, forall_exists_index, and_imp,
      forall_apply_eq_imp_iff₂]
  rw [hfind, hfind, setTasks_nodes]

theorem findNode_spec {c : CondNode} (h : findNode condition condvars = some c) :
    c ∈ condvars ∧ c.condition = condition := by
  rw [findNode] at h
  exact ⟨List.mem_of_find?_eq_some h, by simpa using List.find?_some h⟩

/-! ## Closing -/

variable {w w' : World} {pipe : ℕ}

/-- `condvar_free` finds the node, and leaves it in the list. -/
theorem World.free_eq_some (h : w.free condition = some w') : ∃ c, findNode condition w.condvars = some c ∧
    w' = { w with freed := c.addr :: w.freed } := by
  rw [World.free] at h
  cases hf : findNode condition w.condvars with
  | none => rw [hf] at h; cases h
  | some c =>
    rw [hf, Option.some.injEq] at h
    exact ⟨c, rfl, h.symm⟩

theorem World.closing_pipe (w : World) (pipe : ℕ) (writep : Bool) :
    (w.closing pipe writep).pipes pipe = closeEnd (w.pipes pipe) writep := by
  cases writep <;> exact Function.update_self ..

theorem World.close_eq (w : World) (pipe : ℕ) (writep : Bool) : w.close pipe writep =
    if (closeEnd (w.pipes pipe) writep).writeOpen = false ∧ (closeEnd (w.pipes pipe) writep).readOpen = false then
      ((w.closing pipe writep).free (bReadAddr pipe)).bind fun w => w.free (bWriteAddr pipe)
    else some (w.closing pipe writep) := by
  rw [World.close, World.closing_pipe]
  rfl

theorem World.close_pipe {writep : Bool} (h : w.close pipe writep = some w') :
    w'.pipes pipe = closeEnd (w.pipes pipe) writep := by
  rw [World.close_eq] at h
  split_ifs at h with hboth
  · obtain ⟨w₁, h₁, h₂⟩ := Option.bind_eq_some_iff.mp h
    obtain ⟨r, -, rfl⟩ := World.free_eq_some h₁
    obtain ⟨c, -, rfl⟩ := World.free_eq_some h₂
    exact w.closing_pipe pipe writep
  · rw [Option.some.injEq] at h
    rw [← h, World.closing_pipe]

theorem closeEnd_both (p : PipeState) (first : Bool) : (closeEnd (closeEnd p first) !first).writeOpen = false ∧
    (closeEnd (closeEnd p first) !first).readOpen = false := by
  cases first <;> exact ⟨rfl, rfl⟩

theorem World.closing_find (w : World) (pipe : ℕ) (writep : Bool) :
    findNode condition (w.closing pipe writep).condvars = none ↔ findNode condition w.condvars = none := by
  cases writep
  · exact Iff.rfl
  · exact findNode_setTasks

/-- The close of the second end aborts unless both conditions have been waited for. -/
theorem World.close_aborts_iff {writep : Bool} (hboth : (closeEnd (w.pipes pipe) writep).writeOpen = false ∧
    (closeEnd (w.pipes pipe) writep).readOpen = false) : w.close pipe writep = none ↔
      findNode (bReadAddr pipe) w.condvars = none ∨ findNode (bWriteAddr pipe) w.condvars = none := by
  rw [World.close_eq, if_pos hboth, ← w.closing_find pipe writep, ← w.closing_find pipe writep]
  generalize w.closing pipe writep = w₁
  rw [World.free]
  cases hr : findNode (bReadAddr pipe) w₁.condvars with
  | none => simp
  | some r =>
    simp only [Option.bind_some, World.free, reduceCtorEq, false_or]
    cases findNode (bWriteAddr pipe) w₁.condvars with
    | none => simp
    | some c => simp

/-- The close of the second end frees both condition variables, and they stay in the list. -/
theorem World.close_last {writep : Bool} (h : w.close pipe writep = some w')
    (hboth : (closeEnd (w.pipes pipe) writep).writeOpen = false ∧ (closeEnd (w.pipes pipe) writep).readOpen = false) :
    ∃ r c, r ∈ w'.condvars ∧ c ∈ w'.condvars ∧ r.condition = bReadAddr pipe ∧ c.condition = bWriteAddr pipe ∧
      w'.freed = c.addr :: r.addr :: w.freed := by
  rw [World.close_eq, if_pos hboth] at h
  obtain ⟨w₁, h₁, h₂⟩ := Option.bind_eq_some_iff.mp h
  obtain ⟨r, hr, rfl⟩ := World.free_eq_some h₁
  obtain ⟨c, hc, rfl⟩ := World.free_eq_some h₂
  obtain ⟨hrmem, hrcond⟩ := findNode_spec hr
  obtain ⟨hcmem, hccond⟩ := findNode_spec hc
  refine ⟨r, c, hrmem, hcmem, hrcond, hccond, ?_⟩
  cases writep <;> rfl

/-- **Closing is never safe.** Whatever the pipes and the list are, closing both ends of a pipe, in either order,
aborts, or leaves in the list two condition variables that it has freed. -/
theorem close_never_safe (w : World) (pipe : ℕ) (first : Bool) :
    ¬ ∃ w', w.closeBoth pipe first = some w' ∧ SafelyClosed w w' pipe := by
  rintro ⟨w', h, hsafe⟩
  obtain ⟨w₁, h₁, h₂⟩ := Option.bind_eq_some_iff.mp h
  have hboth := closeEnd_both (w.pipes pipe) first
  rw [← World.close_pipe h₁] at hboth
  obtain ⟨r, _, hr, -, hcond, -⟩ := World.close_last h₂ hboth
  exact (hsafe.gone r hr).1 hcond

/-- A pipe that no task has waited for: closing its second end aborts. -/
theorem fresh_pipe_close_aborts :
    (World.mk (fun _ => pipeAlloc 1024 .unbuffered fun _ => 0) [] []).closeBoth 4096 true = none := by
  decide +kernel

/-! ## Afterwards -/

/-- What happens to the list. -/
inductive WorldOp
  | wait (condition task addr : ℕ)
  | signal (condition : ℕ)
  | close (pipe : ℕ) (writep : Bool)

def worldStep (w : World) : WorldOp → Option World
  | .wait condition task addr => some (w.wait condition task addr)
  | .signal condition => some (w.signal condition)
  | .close pipe writep => w.close pipe writep

/-- The nodes that the search for a condition reads. -/
def visited (condition : ℕ) : List CondNode → List ℕ
  | [] => []
  | c :: cs => c.addr :: if c.condition = condition then [] else visited condition cs

theorem visited_of_absent (h : findNode condition condvars = none) :
    visited condition condvars = condvars.map fun c => c.addr := by
  induction condvars with
  | nil => rfl
  | cons c cs ih =>
    rw [findNode, List.find?_cons] at h
    by_cases hc : c.condition = condition
    · simp only [hc, decide_true, reduceCtorEq] at h
    · simp only [hc, decide_false] at h
      rw [visited, if_neg hc, List.map_cons, ih h]

/-- Nodes are never taken out of the list, and never become live again. -/
def Stays (w w' : World) : Prop :=
  (∀ c ∈ w.condvars, ∃ c' ∈ w'.condvars, c'.addr = c.addr) ∧ ∀ a ∈ w.freed, a ∈ w'.freed

theorem setTasks_stays {c : CondNode} (hc : c ∈ condvars) :
    ∃ c' ∈ setTasks condition tasks condvars, c'.addr = c.addr := by
  have hnodes : (setTasks condition tasks condvars).map (fun c => (c.addr, c.condition)) =
      condvars.map fun c => (c.addr, c.condition) := setTasks_nodes
  have hmem : (c.addr, c.condition) ∈ condvars.map fun c => (c.addr, c.condition) := List.mem_map_of_mem hc
  rw [← hnodes] at hmem
  obtain ⟨c', hc', he⟩ := List.mem_map.mp hmem
  exact ⟨c', hc', (Prod.mk.injEq ..).mp he |>.1⟩

theorem closing_stays (w : World) (pipe : ℕ) (writep : Bool) : Stays w (w.closing pipe writep) := by
  cases writep
  · exact ⟨fun c hc => ⟨c, hc, rfl⟩, fun _ ha => ha⟩
  · exact ⟨fun c hc => setTasks_stays hc, fun _ ha => ha⟩

theorem worldStep_stays {op : WorldOp} (h : worldStep w op = some w') : Stays w w' := by
  cases op with
  | wait condition task addr =>
    rw [worldStep, Option.some.injEq] at h
    rw [← h, World.wait]
    cases findNode condition w.condvars with
    | none => exact ⟨fun c hc => ⟨c, List.mem_cons_of_mem _ hc, rfl⟩, fun _ ha => ha⟩
    | some node =>
      by_cases htasks : node.tasks = 0
      · simp only [htasks, ne_eq, not_true_eq_false, if_false]
        exact ⟨fun c hc => setTasks_stays hc, fun _ ha => ha⟩
      · simp only [ne_eq, htasks, not_false_eq_true, if_true]
        exact ⟨fun c hc => ⟨c, hc, rfl⟩, fun _ ha => ha⟩
  | signal condition =>
    rw [worldStep, Option.some.injEq] at h
    rw [← h]
    exact ⟨fun c hc => setTasks_stays hc, fun _ ha => ha⟩
  | close pipe writep =>
    rw [worldStep, World.close_eq] at h
    obtain ⟨hmem, hfreed⟩ := closing_stays w pipe writep
    split_ifs at h
    · obtain ⟨w₁, h₁, h₂⟩ := Option.bind_eq_some_iff.mp h
      obtain ⟨r, -, rfl⟩ := World.free_eq_some h₁
      obtain ⟨c, -, rfl⟩ := World.free_eq_some h₂
      exact ⟨hmem, fun a ha => List.mem_cons_of_mem _ (List.mem_cons_of_mem _ (hfreed a ha))⟩
    · rw [Option.some.injEq] at h
      exact h ▸ ⟨hmem, hfreed⟩

/-- **Freed memory is read.** Once both ends of a pipe have been closed, in every state reached later the search for
a condition that is not in the list, as in the `condvar_wait` of any other pipe, reads a node that is freed. -/
theorem freed_visited {first : Bool} {w₁ w₂ : World} {ops : List WorldOp} (h : w.closeBoth pipe first = some w₁)
    (hr : Run (fun w op w' => worldStep w op = some w') w₁ ops w₂) (hnone : findNode condition w₂.condvars = none) :
    ∃ a ∈ visited condition w₂.condvars, a ∈ w₂.freed := by
  obtain ⟨w₀, h₀, h₁⟩ := Option.bind_eq_some_iff.mp h
  have hboth := closeEnd_both (w.pipes pipe) first
  rw [← World.close_pipe h₀] at hboth
  obtain ⟨r, c, hmem, -, -, -, hfreed⟩ := World.close_last h₁ hboth
  have hstays : Stays w₁ w₂ := by
    refine hr.invariant (I := Stays w₁) (fun s op s' hs hstep => ?_) ⟨fun c hc => ⟨c, hc, rfl⟩, fun _ ha => ha⟩
    obtain ⟨hm, hf⟩ := worldStep_stays hstep
    refine ⟨fun c hc => ?_, fun a ha => hf a (hs.2 a ha)⟩
    obtain ⟨c₁, hc₁, he₁⟩ := hs.1 c hc
    obtain ⟨c₂, hc₂, he₂⟩ := hm c₁ hc₁
    exact ⟨c₂, hc₂, he₂.trans he₁⟩
  obtain ⟨r', hr', he⟩ := hstays.1 r hmem
  refine ⟨r.addr, ?_, hstays.2 _ ?_⟩
  · rw [visited_of_absent hnone, ← he]
    exact List.mem_map_of_mem hr'
  · rw [hfreed]
    exact List.mem_cons_of_mem _ List.mem_cons_self

end BulbOS.Pipe
