import BulbOS.Lib.Holder
import BulbOS.Pipe.Close

/-!
# The mutex of a pipe

* `acquires`, `releases`: the calls of `mutex_acquire` and `mutex_release` in one step;
* `PipeMove.lock`: what they do to `current_count`, and what is left to be released; the only exception is
  `pipe_unbuf_write` on a full pipe whose read end is closed;
* `Balanced`: every call ends with as many releases as acquires, and the count is that of the one holder;
* **`mutex_balanced_iff`**: a run is balanced exactly if no write gets there.
-/

namespace BulbOS.Pipe

open KLib

/-- The calls of `mutex_acquire` in a step. -/
def acquires : PipePc → ℕ
  | .write _ | .waitWrite .. | .waitBufWrite _ | .read _ | .waitRead _ => 1
  | _ => 0

/-- A read that has the mutex waits. -/
def ReadWaits (p : PipeState) (size : ℕ) : Prop :=
  if p.type = .bufBlock then size = p.size ∧ u32 (p.bRead + size) ≠ p.bWrite else p.bRead = p.bWrite

instance (p : PipeState) (size : ℕ) : Decidable (ReadWaits p size) := by
  unfold ReadWaits
  infer_instance

/-- The calls of `mutex_release` in a step. -/
def releases (p : PipeState) : PipePc → ℕ
  | .write _ => if p.type = .bufBlock ∧ p.bRead ≠ p.bWrite then 1 else 0
  | .unbufWrite data i => if i < data.length ∧ p.bWrite = u32 (p.bRead + pipeSize) then 1 else 0
  | .writeFailed | .endWrite .. | .endRead .. => 1
  | .read size => if p.writeOpen = false ∨ ReadWaits p size then 1 else 0
  | _ => 0

/-- The releases that a thread does before its next acquire. -/
def PipePc.owed : PipePc → ℕ
  | .unbufWrite .. | .writeFailed | .bufWrite _ | .endWrite .. | .readLoop .. | .endRead .. => 1
  | _ => 0

/-- A write finds the pipe full and its read end closed. -/
def PipePc.Fails (p : PipeState) : PipePc → Prop
  | .unbufWrite data i => i < data.length ∧ p.bWrite = u32 (p.bRead + pipeSize) ∧ p.readOpen = false
  | _ => False

variable {p : PipeState} {pc : PipePc} {out : PipeOut}

theorem releases_read {size : ℕ} (hopen : p.writeOpen = true) :
    releases p (.read size) = if ReadWaits p size then 1 else 0 := by
  rw [releases, hopen]
  simp only [Bool.true_eq_false, false_or]

/-- What a step with `a` acquires and `r` releases does to the count `m` and to the releases `o` that the thread
owes. -/
inductive LockMove (m m' o o' a r : ℕ) : Prop
  | stay (ha : a = 0) (hr : r = 0) (hm : m' = m) (ho : o' = o)
  | enter (ha : a = 1) (hr : r = 0) (hm : m < 1) (hm' : m' = 1) (ho : o = 0) (ho' : o' = 1)
  | leave (ha : a = 0) (hr : r = 1) (hm' : m' = sub32 m 1) (ho : o = 1) (ho' : o' = 0)
  | pass (ha : a = 1) (hr : r = 1) (hm : m < 1) (hm' : m' = m) (ho : o = 0) (ho' : o' = 0)

/-- **Every move but one** keeps the account of its thread. -/
theorem PipeMove.lock (h : PipeMove p pc out) (hf : ¬ pc.Fails p) :
    LockMove p.mutex out.pipe.mutex pc.owed out.pc.owed (acquires pc) (releases p pc) := by
  cases h with
  | writeStart data hm htype => exact .enter rfl (if_neg fun hc => htype hc.1) hm rfl rfl rfl
  | blockStart data hm htype heq => exact .enter rfl (if_neg fun hc => hc.2 heq) hm rfl rfl rfl
  | blockWait data hm htype hne => exact .pass rfl (if_pos ⟨htype, hne⟩) hm rfl rfl rfl
  | store data i b hb hroom => exact .stay rfl (if_neg fun hc => hroom hc.2) rfl rfl
  | full data i hi hfull hopen => exact .leave rfl (if_pos ⟨hi, hfull⟩) (by rw [mutexRelease]) rfl rfl
  | fail data i hi hfull hopen => exact absurd ⟨hi, hfull, hopen⟩ hf
  | stored data i hi => exact .stay rfl (if_neg fun hc => absurd hc.1 (not_lt.mpr hi)) rfl rfl
  | writeWake data i hm | blockWake data hm | readWake size hm => exact .enter rfl rfl hm rfl rfl rfl
  | failed | writeEnd | readEnd => exact .leave rfl rfl (by rw [mutexRelease]) rfl rfl
  | copy => exact .stay rfl rfl (by rw [bufCopy]) (by rw [bufCopy]; rfl)
  | readClosed size hm hopen => exact .pass rfl (if_pos (.inl hopen)) hm rfl rfl rfl
  | readRefused size hm hopen htype hsize =>
    have hw : ¬ ReadWaits p size := by
      rw [ReadWaits, if_pos htype]
      exact fun hc => hsize hc.1
    exact .enter rfl (by rw [releases_read hopen, if_neg hw]) hm rfl rfl rfl
  | readWait size hm hopen hempty hblock =>
    have hw : ReadWaits p size := by
      rw [ReadWaits]
      split_ifs with htype
      · exact hblock htype
      · exact hempty htype
    exact .pass rfl (by rw [releases_read hopen, if_pos hw]) hm rfl rfl rfl
  | readStart size hm hopen hempty hblock =>
    have hw : ¬ ReadWaits p size := by
      rw [ReadWaits]
      split_ifs with htype
      · exact fun hc => hc.2 (hblock htype).2
      · exact hempty htype
    exact .enter rfl (by rw [releases_read hopen, if_neg hw]) hm rfl rfl rfl
  | take | takeLast => exact .stay rfl rfl (by rw [nextRead]) rfl
  | taken => exact .stay rfl rfl rfl rfl
  | takeBlock => exact .stay rfl rfl (by rw [pipeBufblockRead]) (by rw [pipeBufblockRead]; rfl)

/-- The exception: the thread releases the mutex and still has a release to do. -/
theorem PipeMove.fails (h : PipeMove p pc out) (hf : pc.Fails p) :
    acquires pc = 0 ∧ releases p pc = 1 ∧ pc.owed = 1 ∧ out.pc = .writeFailed := by
  cases h with
  | fail data i hi hfull hopen => exact ⟨rfl, if_pos ⟨hi, hfull⟩, rfl, rfl⟩
  | store data i b hb hroom => exact absurd hf.2.1 hroom
  | full data i hi hfull hopen =>
    have hclosed := hf.2.2
    rw [hopen] at hclosed
    cases hclosed
  | stored data i hi => exact absurd hf.1 (not_lt.mpr hi)
  | writeStart | blockStart | blockWait | writeWake | failed | blockWake | copy | writeEnd | readClosed | readRefused
  | readWait | readStart | readWake | take | takeLast | taken | takeBlock | readEnd => exact hf.elim

/-- A pipe and its threads, with the calls of `mutex_acquire` and `mutex_release` that each thread made in
`pipe_write` and `pipe_read`. -/
structure LockSys where
  sys : PipeSys
  acquired : ℕ → ℕ
  released : ℕ → ℕ

/-- The calls that an operation adds. -/
def tally (f : PipePc → ℕ) (s : PipeSys) (n : ℕ → ℕ) : EndOp → ℕ → ℕ
  | .call (.run t) => Function.update n t (n t + f (s.threads t))
  | _ => n

def lockStep (l : LockSys) (op : EndOp) : Option LockSys :=
  (endStep l.sys op).map fun s =>
    ⟨s, tally acquires l.sys l.acquired op, tally (releases l.sys.pipe) l.sys l.released op⟩

/-- Threads in no call, and a pipe in any state whose mutex is free. -/
def lockBoot (p : PipeState) : LockSys := ⟨pipeBoot { p with mutex := 0 }, fun _ => 0, fun _ => 0⟩

/-- Each thread has acquired the mutex as often as it has released it or will release it before it acquires it
again. `current_count` is 0 or 1, the number of the threads that will. -/
structure Balanced (l : LockSys) : Prop where
  calls : ∀ t, l.acquired t = l.released t + (l.sys.threads t).owed
  holder : Holder l.sys.pipe.mutex fun t => (l.sys.threads t).owed = 1

/-- A thread runs whose write fails. -/
def WriteFails (l : LockSys) : EndOp → Prop
  | .call (.run t) => (l.sys.threads t).Fails l.sys.pipe
  | _ => False

theorem balanced_boot (p : PipeState) : Balanced (lockBoot p) :=
  ⟨fun _ => rfl, .free rfl fun _ h => nomatch h⟩

variable {l l' : LockSys} {t : ℕ}

/-- The mutex and the places after a move that keeps the account. -/
theorem LockMove.holder {m m' a r t : ℕ} {threads : ℕ → PipePc} (hlock : LockMove m m' (threads t).owed pc.owed a r)
    (h : Holder m fun t => (threads t).owed = 1) :
    Holder m' fun t' => (Function.update threads t pc t').owed = 1 := by
  have hother : ∀ t', t' ≠ t → ((Function.update threads t pc t').owed = 1 ↔ (threads t').owed = 1) := fun t' hne => by
    rw [Function.update_of_ne hne]
  have hkeep : pc.owed = (threads t).owed →
      ∀ t', ((Function.update threads t pc t').owed = 1 ↔ (threads t').owed = 1) := fun ho t' => by
    by_cases e : t' = t
    · rw [e, Function.update_self, ho]
    · exact hother t' e
  cases hlock with
  | stay _ _ hm ho => exact hm ▸ h.keep (hkeep ho)
  | pass _ _ _ hm ho ho' => exact hm ▸ h.keep (hkeep (ho'.trans ho.symm))
  | enter _ _ hm hm' _ ho' =>
    rw [hm']
    exact h.enter (t := t) hm (by rwa [Function.update_self]) hother
  | leave _ _ hm' ho ho' =>
    have hm : m' = 0 := by
      rw [hm', h.count (t := t) ho]
      decide
    rw [hm]
    refine h.leave (t := t) ho ?_ hother
    rw [Function.update_self, ho']
    exact Nat.zero_ne_one

theorem Balanced.calls_run (h : Balanced l)
    (howed : acquires (l.sys.threads t) + (l.sys.threads t).owed =
      releases l.sys.pipe (l.sys.threads t) + out.pc.owed) (t' : ℕ) :
    Function.update l.acquired t (l.acquired t + acquires (l.sys.threads t)) t' =
      Function.update l.released t (l.released t + releases l.sys.pipe (l.sys.threads t)) t' +
        (Function.update l.sys.threads t out.pc t').owed := by
  by_cases e : t' = t
  · subst e
    have hcalls := h.calls t'
    simp only [Function.update_self]
    omega
  · simp only [Function.update_of_ne e]
    exact h.calls t'

/-- **A step of a thread** keeps the balance exactly if its write does not fail. -/
theorem Balanced.run_iff (h : Balanced l) (hs : lockStep l (.call (.run t)) = some l') :
    Balanced l' ↔ ¬ (l.sys.threads t).Fails l.sys.pipe := by
  obtain ⟨s, hend, rfl⟩ := Option.map_eq_some_iff.mp hs
  obtain ⟨out, ho, rfl⟩ := Option.map_eq_some_iff.mp hend
  have hmove := pipeStep_move ho
  constructor
  · intro h' hf
    obtain ⟨hacq, hrel, howed, hpc⟩ := hmove.fails hf
    have hbefore := h.calls t
    have hafter := h'.calls t
    simp only [tally, Function.update_self, hacq, hrel, hpc] at hafter
    rw [howed] at hbefore
    -- one release too many, and another one still owed
    simp only [PipePc.owed] at hafter
    omega
  · intro hf
    have hlock := hmove.lock hf
    refine ⟨h.calls_run ?_, hlock.holder h.holder⟩
    cases hlock <;> omega

/-- **A step keeps the balance exactly if no write fails.** -/
theorem Balanced.step_iff (h : Balanced l) {op : EndOp} (hs : lockStep l op = some l') :
    Balanced l' ↔ ¬ WriteFails l op := by
  cases op with
  | close writep =>
    obtain ⟨s, hend, rfl⟩ := Option.map_eq_some_iff.mp hs
    obtain ⟨p, hp, rfl⟩ := Option.map_eq_some_iff.mp hend
    obtain ⟨-, hflag⟩ := pipeClose_eq_some hp
    have hm : p.mutex = l.sys.pipe.mutex := by
      rw [hflag]
      split <;> rfl
    exact ⟨fun _ => id, fun _ => ⟨h.calls, hm ▸ h.holder⟩⟩
  | call op =>
    cases op with
    | run t => exact h.run_iff hs
    | write t data | read t size =>
      obtain ⟨s, hend, rfl⟩ := Option.map_eq_some_iff.mp hs
      simp only [endStep, sysStep, Option.ite_none_right_eq_some, Option.some.injEq] at hend
      obtain ⟨hidle, rfl⟩ := hend
      refine ⟨fun _ => id, fun _ => ?_⟩
      have howed : ∀ (pc : PipePc) t', pc.owed = 0 →
          (Function.update l.sys.threads t pc t').owed = (l.sys.threads t').owed := by
        intro pc t' hpc
        by_cases e : t' = t
        · rw [e, Function.update_self, hidle, hpc]
          rfl
        · rw [Function.update_of_ne e]
      refine ⟨fun t' => ?_, h.holder.keep fun t' => ?_⟩
      · rw [howed _ _ rfl]
        exact h.calls t'
      · rw [howed _ _ rfl]

/-- **The mutex of a pipe.** Whatever the type and the state of the pipe, in a run of reads, writes and closes
every call releases the mutex as often as it acquires it, and only while it holds it, exactly if no write finds
the pipe full with its read end closed. -/
theorem mutex_balanced_iff (p : PipeState) (ops : List EndOp) (l : LockSys) :
    Run (fun l op l' => lockStep l op = some l' ∧ Balanced l') (lockBoot p) ops l ↔
      Run (fun l op l' => lockStep l op = some l' ∧ ¬ WriteFails l op) (lockBoot p) ops l :=
  Run.iff_of_step (J := fun _ => True) (fun _ _ _ _ _ => trivial) (fun _ _ _ _ hi hs => hi.step_iff hs) trivial
    (balanced_boot p)

/-- A full pipe whose read end is closed, and a write of one byte. -/
def fullPipe : PipeState := ⟨0, pipeSize, .unbuffered, 0, pipeSize, false, true, fun _ => 0⟩

def failOps : List EndOp := [.call (.write 0 [7]), .call (.run 0), .call (.run 0), .call (.run 0)]

/-- The write releases the mutex twice: `current_count` falls below 0. -/
theorem full_write_releases_twice : ∃ l, Run (fun l op l' => lockStep l op = some l') (lockBoot fullPipe) failOps l ∧
    l.acquired 0 = 1 ∧ l.released 0 = 2 ∧ l.sys.pipe.mutex = 2 ^ 32 - 1 := by
  have hl : (failOps.foldlM lockStep (lockBoot fullPipe)).map
      (fun l => (l.acquired 0, l.released 0, l.sys.pipe.mutex)) = some (1, 2, 2 ^ 32 - 1) := by decide +kernel
  obtain ⟨l, hl, hv⟩ := Option.map_eq_some_iff.mp hl
  simp only [Prod.mk.injEq] at hv
  exact ⟨l, run_of_foldlM (fun _ _ _ e => e) hl, hv⟩

end BulbOS.Pipe
