import BulbOS.Pipe.Moves

/-!
# Closing the ends of a pipe

* `pipeClose`, `endStep`: `pipe_close` beside the calls of the threads;
* `Drains`: reads return what is unread, at least a byte a call until there is none;
* **`closed_drains_iff`**: after the write end is closed, only an empty pipe does that.
-/

namespace BulbOS.Pipe

open KLib

/-- `pipe_close`, up to its `mutex_release`. -/
def pipeClose (p : PipeState) (writep : Bool) : Option PipeState :=
  (mutexAcquire p).map fun p =>
    mutexRelease (if writep then { p with writeOpen := false } else { p with readOpen := false })

/-- A thread calls or runs, or an end is closed. -/
inductive EndOp
  | call (op : PipeOp)
  | close (writep : Bool)

def endStep (s : PipeSys) : EndOp → Option PipeSys
  | .call op => sysStep s op
  | .close writep => (pipeClose s.pipe writep).map fun p => { s with pipe := p }

theorem pipeClose_eq_some {p p' : PipeState} {writep : Bool} (h : pipeClose p writep = some p') :
    p.mutex < 1 ∧ p' = if writep then { p with writeOpen := false } else { p with readOpen := false } := by
  obtain ⟨q, hq, rfl⟩ := Option.map_eq_some_iff.mp h
  obtain ⟨hm, rfl⟩ := mutexAcquire_eq_some hq
  refine ⟨hm, ?_⟩
  cases writep with
  | true => exact mutexRelease_acquire (p := { p with writeOpen := false }) hm
  | false => exact mutexRelease_acquire (p := { p with readOpen := false }) hm

/-! ## Reading a pipe whose write end is closed -/

/-- The bytes in the pipe. -/
def unread (s : PipeSys) : List UInt8 := s.stored.drop s.taken.length

/-- Thread `t` reads. -/
def PipeOp.ReadsBy (t : ℕ) (op : PipeOp) : Prop := op = .run t ∨ ∃ size, 0 < size ∧ op = .read t size

/-- The calls of `pipe_read`. -/
def readCalls (ops : List PipeOp) : ℕ := ops.countP fun | .read .. => true | _ => false

/-- The calls of `pipe_read` that a thread makes return the bytes in the pipe in order, and each returns
at least one until there is none. -/
def Drains (s : PipeSys) (t : ℕ) : Prop :=
  ∀ ops s', (∀ op ∈ ops, op.ReadsBy t) → Run (fun s op s' => sysStep s op = some s') s ops s' →
    s'.threads t = .idle → ∃ n, readCalls ops ≤ n ∧ s'.returned = s.returned ++ (unread s).take n

/-- Reads that return nothing. -/
structure Deaf (t : ℕ) (returned : List UInt8) (s : PipeSys) : Prop where
  closed : s.pipe.writeOpen = false
  thread : s.threads t = .idle ∨ ∃ size, s.threads t = .read size
  returned : s.returned = returned

variable {s s' : PipeSys} {t : ℕ} {returned : List UInt8}

/-- A thread that reads a pipe whose write end is closed leaves at once. -/
theorem PipeMove.closed {p : PipeState} {size : ℕ} {out : PipeOut} (h : PipeMove p (.read size) out)
    (hopen : p.writeOpen = false) : p.mutex < 1 ∧ out = ⟨p, .idle, [], [], []⟩ := by
  cases h with
  | readClosed _ hm => exact ⟨hm, rfl⟩
  | readRefused _ _ h | readWait _ _ h | readStart _ _ h => rw [h] at hopen; cases hopen

theorem Deaf.step (h : Deaf t returned s) {op : PipeOp} (hop : op.ReadsBy t) (hs : sysStep s op = some s') :
    Deaf t returned s' := by
  obtain rfl | ⟨size, -, rfl⟩ := hop
  · obtain ⟨out, ho, rfl⟩ := Option.map_eq_some_iff.mp hs
    have hmove := pipeStep_move ho
    rcases h.thread with hidle | ⟨size, hread⟩
    · rw [hidle] at ho
      cases ho
    · rw [hread] at hmove
      obtain ⟨-, rfl⟩ := hmove.closed h.closed
      exact ⟨h.closed, .inl (by simp only [Function.update_self]), by simp only [List.append_nil, h.returned]⟩
  · simp only [sysStep, Option.ite_none_right_eq_some, Option.some.injEq] at hs
    obtain ⟨-, rfl⟩ := hs
    exact ⟨h.closed, .inr ⟨size, by simp only [Function.update_self]⟩, h.returned⟩

theorem Deaf.run (h : Deaf t returned s) {ops : List PipeOp} (hops : ∀ op ∈ ops, op.ReadsBy t)
    (hr : Run (fun s op s' => sysStep s op = some s') s ops s') : Deaf t returned s' := by
  induction hr with
  | nil => exact h
  | cons hs _ ih =>
    exact ih (h.step (hops _ List.mem_cons_self) hs) fun op hop => hops op (List.mem_cons_of_mem _ hop)

theorem closed_call (hopen : s.pipe.writeOpen = false) (hm : s.pipe.mutex < 1) (ht : s.threads t = .idle) (size : ℕ) :
    ∃ s', Run (fun s op s' => sysStep s op = some s') s [.read t size, .run t] s' ∧ s'.threads t = .idle := by
  have hcall : sysStep s (.read t size) =
      some { s with threads := Function.update s.threads t (.read size) } := by rw [sysStep, if_pos ht]
  have hrun : sysStep { s with threads := Function.update s.threads t (.read size) } (.run t) =
      some ⟨s.pipe, Function.update (Function.update s.threads t (.read size)) t .idle, s.stored ++ [], s.taken ++ [],
        s.returned ++ []⟩ := by
    simp only [sysStep, Function.update_self, (PipeMove.readClosed size hm hopen).pipeStep, Option.map_some]
  exact ⟨_, .cons hcall (.single hrun), by simp only [Function.update_self]⟩

/-- **After the writer.** In every history of an unbuffered pipe, once the write end is closed the bytes in the
pipe are delivered by the following reads exactly if there are none. -/
theorem closed_drains_iff {size : ℕ} {buffer : ℕ → UInt8} {ops : List EndOp}
    (h : Run (fun s op s' => endStep s op = some s') (pipeBoot (pipeAlloc size .unbuffered buffer))
      (ops ++ [.close true]) s) (ht : s.threads t = .idle) : Drains s t ↔ unread s = [] := by
  obtain ⟨s₀, -, hlast⟩ := h.of_append
  have hclose : endStep s₀ (.close true) = some s := by
    cases hlast with
    | cons hs hnil => cases hnil; exact hs
  obtain ⟨p, hp, hs⟩ := Option.map_eq_some_iff.mp hclose
  obtain ⟨hm, hflag⟩ := pipeClose_eq_some hp
  rw [if_pos rfl] at hflag
  have hopen : s.pipe.writeOpen = false := by rw [← hs, hflag]
  have hfree : s.pipe.mutex < 1 := by rw [← hs, hflag]; exact hm
  constructor
  · intro hdrains
    obtain ⟨s', hr, hidle⟩ := closed_call hopen hfree ht 1
    have hops : ∀ op ∈ [PipeOp.read t 1, .run t], op.ReadsBy t := by
      intro op hop
      simp only [List.mem_cons, List.not_mem_nil, or_false] at hop
      obtain rfl | rfl := hop
      · exact .inr ⟨1, Nat.one_pos, rfl⟩
      · exact .inl rfl
    obtain ⟨n, hn, hret⟩ := hdrains _ s' hops hr hidle
    have hdeaf : Deaf t s.returned s := ⟨hopen, .inl ht, rfl⟩
    rw [(hdeaf.run hops hr).returned, List.self_eq_append_right, List.take_eq_nil_iff] at hret
    have hcalls : readCalls [.read t 1, .run t] = 1 := rfl
    rw [hcalls] at hn
    exact hret.resolve_left fun e => by omega
  · intro hempty ops s' hops hr _
    have hdeaf : Deaf t s.returned s := ⟨hopen, .inl ht, rfl⟩
    exact ⟨readCalls ops, le_rfl, by rw [(hdeaf.run hops hr).returned, hempty, List.take_nil, List.append_nil]⟩

/-- One byte is written, and the write end is closed. -/
def lostOps : List EndOp :=
  [.call (.write 0 [7]), .call (.run 0), .call (.run 0), .call (.run 0), .call (.run 0), .close true]

/-- The byte is never read: the next `pipe_read` returns nothing. -/
theorem closed_loses_byte : ∃ s s', Run (fun s op s' => endStep s op = some s')
    (pipeBoot (pipeAlloc 1024 .unbuffered fun _ => 0)) lostOps s ∧ s.threads 1 = .idle ∧ unread s = [7] ∧
    Run (fun s op s' => endStep s op = some s') s [.call (.read 1 1), .call (.run 1)] s' ∧
    s'.threads 1 = .idle ∧ s'.returned = [] ∧ unread s' = [7] := by
  have hl : (lostOps.foldlM endStep (pipeBoot (pipeAlloc 1024 .unbuffered fun _ => 0))).bind (fun s =>
      ([.call (.read 1 1), .call (.run 1)].foldlM endStep s).map fun s' =>
        (s.threads 1, unread s, s'.threads 1, s'.returned, unread s')) = some (.idle, [7], .idle, [], [7]) := by
    decide +kernel
  obtain ⟨s, hs, hl⟩ := Option.bind_eq_some_iff.mp hl
  obtain ⟨s', hs', hv⟩ := Option.map_eq_some_iff.mp hl
  simp only [Prod.mk.injEq] at hv
  obtain ⟨hidle, hbytes, hidle', hret, hbytes'⟩ := hv
  exact ⟨s, s', run_of_foldlM (fun _ _ _ e => e) hs, hidle, hbytes, run_of_foldlM (fun _ _ _ e => e) hs', hidle', hret,
    hbytes'⟩

/-- A byte is written and read. -/
def drainedOps : List EndOp :=
  [.call (.write 0 [7]), .call (.run 0), .call (.run 0), .call (.run 0), .call (.run 0),
    .call (.read 1 1), .call (.run 1), .call (.run 1), .call (.run 1), .call (.run 1)]

theorem closed_drains_iff_empty : ∃ s, Run (fun s op s' => endStep s op = some s')
    (pipeBoot (pipeAlloc 1024 .unbuffered fun _ => 0)) (drainedOps ++ [EndOp.close true]) s ∧ s.returned = [7] ∧
      Drains s 1 := by
  have hl : ((drainedOps ++ [EndOp.close true]).foldlM endStep (pipeBoot (pipeAlloc 1024 .unbuffered fun _ => 0))).map
      (fun s => (s.threads 1, s.returned, unread s)) = some (.idle, [7], []) := by decide +kernel
  obtain ⟨s, hs, hv⟩ := Option.map_eq_some_iff.mp hl
  simp only [Prod.mk.injEq] at hv
  obtain ⟨hidle, hret, hempty⟩ := hv
  have hr : Run (fun s op s' => endStep s op = some s') _ (drainedOps ++ [EndOp.close true]) s :=
    run_of_foldlM (fun _ _ _ e => e) hs
  exact ⟨s, hr, hret, (closed_drains_iff hr hidle).mpr hempty⟩

end BulbOS.Pipe
