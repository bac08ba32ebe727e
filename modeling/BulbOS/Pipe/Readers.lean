import BulbOS.Pipe.Locks

/-!
# Readers that wake up

`condvar_signal` wakes every thread that waits for the condition, and `pipe_unbuf_read` does not test again after
its `condvar_wait`.

* `signals`, `wakeStep`: a thread in `condvar_wait` sleeps until its condition is signalled;
* `Supplied`: a read of at least a byte that is past its wait has one in hand or one to take;
* `ReadInv`: one thread at a time is inside, and a thread reads what it was asked for;
* **`reads_supplied_iff`**: reads return data exactly if no reader wakes up to an empty pipe.
-/

namespace BulbOS.Pipe

open KLib

/-- The two conditions of a pipe, `&pipe->b_read` and `&pipe->b_write`. -/
inductive PipeCond
  | bRead
  | bWrite
  deriving DecidableEq, Repr

/-- The condition of the `condvar_wait` that a thread is in. -/
def PipePc.waitsFor : PipePc → Option PipeCond
  | .waitRead _ => some .bRead
  | .waitWrite .. | .waitBufWrite _ => some .bWrite
  | _ => none

/-- The condition that a step signals. -/
def signals (p : PipeState) : PipePc → Option PipeCond
  | .unbufWrite data i =>
    if i < data.length ∧ p.bWrite = u32 (p.bRead + pipeSize) ∧ p.readOpen then some .bRead else none
  | .endWrite .. | .writeFailed => if p.type ≠ .bufBlock ∨ p.bWrite % p.size = 0 then some .bRead else none
  | .endRead .. => some .bWrite
  | _ => none

/-- A pipe and its threads, with the threads that are blocked in `condvar_wait`, and the size of the last
`pipe_read` of each. -/
structure WakeSys where
  sys : PipeSys
  asleep : ℕ → Bool
  asked : ℕ → ℕ

/-- Who sleeps after a step of thread `t`. -/
def sleepers (w : WakeSys) (t : ℕ) (s : PipeSys) (t' : ℕ) : Bool :=
  if t' = t then (s.threads t).waitsFor.isSome
  else w.asleep t' && (w.sys.threads t').waitsFor != signals w.sys.pipe (w.sys.threads t)

def wakeStep (w : WakeSys) : PipeOp → Option WakeSys
  | .write t data => (sysStep w.sys (.write t data)).map fun s => { w with sys := s }
  | .read t size =>
    (sysStep w.sys (.read t size)).map fun s => { w with sys := s, asked := Function.update w.asked t size }
  | .run t =>
    if w.asleep t then none
    else (sysStep w.sys (.run t)).map fun s => { w with sys := s, asleep := sleepers w t s }

def wakeBoot (p : PipeState) : WakeSys := ⟨pipeBoot p, fun _ => false, fun _ => 0⟩

/-- A read of at least a byte returns at least a byte: past its wait it has one in hand or one to take. -/
structure Supplied (w : WakeSys) : Prop where
  /-- A `pipe_read` that returns. -/
  ret : ∀ t ret got, w.sys.threads t = .endRead ret got → 0 < w.asked t → 0 < ret
  loop : ∀ t size, w.sys.threads t = .readLoop size [] → 0 < w.asked t → w.sys.pipe.bRead ≠ w.sys.pipe.bWrite

/-- A woken reader acquires the mutex of an empty pipe. -/
def WakesEmpty (w : WakeSys) : PipeOp → Prop
  | .run t => (∃ size, w.sys.threads t = .waitRead size ∧ 0 < size) ∧ w.sys.pipe.bRead = w.sys.pipe.bWrite
  | _ => False

/-- The size that a thread in `pipe_read` was called with, and the bytes in its hand. -/
def PipePc.Reads (asked : ℕ) : PipePc → Prop
  | .read size | .waitRead size | .readLoop size _ => size = asked
  | .endRead ret got => ret = got.length
  | _ => True

/-- Any number of readers and writers of an unbuffered pipe with both ends open. -/
structure ReadInv (w : WakeSys) : Prop where
  type : w.sys.pipe.type = .unbuffered
  readOpen : w.sys.pipe.readOpen = true
  writeOpen : w.sys.pipe.writeOpen = true
  holder : Holder w.sys.pipe.mutex fun t => (w.sys.threads t).owed = 1
  places : ∀ t, (w.sys.threads t).Unbuf
  reads : ∀ t, (w.sys.threads t).Reads (w.asked t)

variable {p : PipeState} {pc : PipePc} {out : PipeOut} {asked : ℕ}

theorem PipeMove.reads (h : PipeMove p pc out) (htype : p.type = .unbuffered) (hpc : pc.Reads asked) :
    out.pc.Reads asked := by
  cases h with
  | readWait | readStart | readWake | take => exact hpc
  | taken => rfl
  | takeLast _ _ hchar =>
    rw [htype] at hchar
    cases hchar
  | readRefused _ _ _ hblock | takeBlock _ _ hblock =>
    rw [htype] at hblock
    cases hblock
  | writeStart | blockStart | blockWait | store | full | fail | stored | writeWake | failed | blockWake | copy
  | writeEnd | readClosed | readEnd => trivial

/-- A thread that does not have the mutex leaves the counters as they are. -/
theorem PipeMove.counters (h : PipeMove p pc out) (hpc : pc.owed = 0) :
    out.pipe.bRead = p.bRead ∧ out.pipe.bWrite = p.bWrite := by
  cases h with
  | writeStart | blockStart | blockWait | writeWake | blockWake | readClosed | readRefused | readWait | readStart
  | readWake => exact ⟨rfl, rfl⟩
  | store | full | fail | stored | failed | copy | writeEnd | take | takeLast | taken | takeBlock | readEnd =>
    exact absurd hpc Nat.one_ne_zero

theorem owed_of_ne {pc : PipePc} (h : pc.owed ≠ 1) : pc.owed = 0 := by
  cases pc <;> first | rfl | exact absurd rfl h

variable {w w' : WakeSys} {t : ℕ}

theorem ReadInv.call (h : ReadInv w) (hidle : w.sys.threads t = .idle) {pc : PipePc} {asked : ℕ → ℕ}
    (howed : pc.owed = 0) (hplace : pc.Unbuf) (hreads : pc.Reads (asked t))
    (hother : ∀ t', t' ≠ t → asked t' = w.asked t') :
    ReadInv ⟨{ w.sys with threads := Function.update w.sys.threads t pc }, w.asleep, asked⟩ := by
  refine ⟨h.type, h.readOpen, h.writeOpen, h.holder.keep fun t' => ?_, places_update h.places hplace, fun t' => ?_⟩
  · by_cases e : t' = t
    · simp only [e, Function.update_self, howed, hidle]
      rfl
    · simp only [Function.update_of_ne e]
  · by_cases e : t' = t
    · simpa only [e, Function.update_self] using hreads
    · simpa only [Function.update_of_ne e, hother t' e] using h.reads t'

theorem ReadInv.run (h : ReadInv w) (hmove : PipeMove w.sys.pipe (w.sys.threads t) out) {s : PipeSys}
    (hs : s.pipe = out.pipe ∧ s.threads = Function.update w.sys.threads t out.pc) (asleep : ℕ → Bool) :
    ReadInv ⟨s, asleep, w.asked⟩ := by
  have htype : w.sys.pipe.type ≠ .bufBlock := by rw [h.type]; decide
  have hf : ¬ (w.sys.threads t).Fails w.sys.pipe := by
    cases w.sys.threads t with
    | unbufWrite data i =>
      rintro ⟨-, -, hclosed⟩
      rw [h.readOpen] at hclosed
      cases hclosed
    | _ => exact id
  obtain ⟨-, htype', hro, hwo⟩ := hmove.frame
  refine ⟨?_, ?_, ?_, ?_, ?_, fun t' => ?_⟩
  · rw [hs.1, htype', h.type]
  · rw [hs.1, hro, h.readOpen]
  · rw [hs.1, hwo, h.writeOpen]
  · simp only [hs.1, hs.2]
    exact (hmove.lock hf).holder h.holder
  · simp only [hs.2]
    exact places_update h.places (hmove.unbuf htype (h.places t))
  · simp only [hs.2]
    by_cases e : t' = t
    · rw [e, Function.update_self]
      exact hmove.reads h.type (h.reads t)
    · rw [Function.update_of_ne e]
      exact h.reads t'

theorem wakeStep_run (hs : wakeStep w (.run t) = some w') : ∃ out,
    PipeMove w.sys.pipe (w.sys.threads t) out ∧ w'.sys.pipe = out.pipe ∧
      w'.sys.threads = Function.update w.sys.threads t out.pc ∧ w'.asked = w.asked := by
  simp only [wakeStep, Option.ite_none_left_eq_some] at hs
  obtain ⟨s, hsys, rfl⟩ := Option.map_eq_some_iff.mp hs.2
  obtain ⟨out, ho, rfl⟩ := Option.map_eq_some_iff.mp hsys
  exact ⟨out, pipeStep_move ho, rfl, rfl, rfl⟩

/-- A call changes the place of the thread, and what it is asked for. -/
theorem wakeStep_call {op : PipeOp} (hs : wakeStep w op = some w') (hop : ∀ t, op ≠ .run t) : ∃ t pc,
    w.sys.threads t = .idle ∧ pc.owed = 0 ∧ pc.Unbuf ∧ pc.Reads (w'.asked t) ∧
      (∀ t', t' ≠ t → w'.asked t' = w.asked t') ∧
      w' = ⟨{ w.sys with threads := Function.update w.sys.threads t pc }, w.asleep, w'.asked⟩ := by
  cases op with
  | run t => exact absurd rfl (hop t)
  | write t data =>
    obtain ⟨s, hsys, rfl⟩ := Option.map_eq_some_iff.mp hs
    simp only [sysStep, Option.ite_none_right_eq_some, Option.some.injEq] at hsys
    obtain ⟨hidle, rfl⟩ := hsys
    exact ⟨t, .write data, hidle, rfl, trivial, trivial, fun _ _ => rfl, rfl⟩
  | read t size =>
    obtain ⟨s, hsys, rfl⟩ := Option.map_eq_some_iff.mp hs
    simp only [sysStep, Option.ite_none_right_eq_some, Option.some.injEq] at hsys
    obtain ⟨hidle, rfl⟩ := hsys
    refine ⟨t, .read size, hidle, rfl, trivial, ?_, fun _ e => Function.update_of_ne e .., rfl⟩
    simp only [PipePc.Reads, Function.update_self]

theorem ReadInv.step (h : ReadInv w) {op : PipeOp} (hs : wakeStep w op = some w') : ReadInv w' := by
  by_cases hop : ∃ t, op = .run t
  · obtain ⟨t, rfl⟩ := hop
    obtain ⟨out, hmove, hpipe, hthreads, hasked⟩ := wakeStep_run hs
    have hrun := h.run hmove ⟨hpipe, hthreads⟩ w'.asleep
    rwa [← hasked] at hrun
  · obtain ⟨t, pc, hidle, howed, hplace, hreads, hother, he⟩ := wakeStep_call hs fun t e => hop ⟨t, e⟩
    rw [he]
    exact h.call hidle howed hplace hreads hother

theorem Supplied.call (h : Supplied w) {op : PipeOp} (hs : wakeStep w op = some w') (hop : ∀ t, op ≠ .run t) :
    Supplied w' := by
  obtain ⟨t, pc, hidle, howed, -, -, hother, he⟩ := wakeStep_call hs hop
  rw [he]
  constructor
  · intro t' ret got hpc hpos
    by_cases e : t' = t
    · simp only [e, Function.update_self] at hpc
      rw [hpc] at howed
      cases howed
    · simp only [Function.update_of_ne e] at hpc
      exact h.ret t' ret got hpc (hother t' e ▸ hpos)
  · intro t' size hpc hpos
    by_cases e : t' = t
    · simp only [e, Function.update_self] at hpc
      rw [hpc] at howed
      cases howed
    · simp only [Function.update_of_ne e] at hpc
      exact h.loop t' size hpc (hother t' e ▸ hpos)

/-- What the thread itself returns, or finds when its loop begins. -/
theorem PipeMove.supplied (h : PipeMove p pc out) (htype : p.type = .unbuffered) (hreads : pc.Reads asked)
    (hloop : ∀ size, pc = .readLoop size [] → p.bRead ≠ p.bWrite) (hpos : 0 < asked)
    (hwake : ∀ size, pc = .waitRead size → p.bRead ≠ p.bWrite) :
    (∀ ret got, out.pc = .endRead ret got → 0 < ret) ∧
      ∀ size, out.pc = .readLoop size [] → out.pipe.bRead ≠ out.pipe.bWrite := by
  have hblock : p.type ≠ .bufBlock := by rw [htype]; decide
  cases h with
  | taken size got _ hstop =>
    refine ⟨fun ret got' e => ?_, fun _ e => nomatch e⟩
    cases e
    cases got with
    | cons x got => simp
    | nil =>
      rcases hstop with hempty | ⟨-, hle⟩
      · exact absurd hempty (hloop size rfl)
      · rw [show size = asked from hreads] at hle
        exact absurd hpos (not_lt.mpr hle)
  | readStart size _ _ hempty => exact ⟨(fun _ _ e => nomatch e), fun _ _ => hempty hblock⟩
  | readWake size => exact ⟨(fun _ _ e => nomatch e), fun _ _ => hwake size rfl⟩
  | take size got =>
    refine ⟨(fun _ _ e => nomatch e), fun _ e => ?_⟩
    simp only [PipePc.readLoop.injEq, List.append_eq_nil_iff, List.cons_ne_nil, and_false] at e
  | takeLast _ _ hchar =>
    rw [htype] at hchar
    cases hchar
  | readRefused _ _ _ h | takeBlock _ _ h => exact absurd h hblock
  | copy => exact ⟨(fun _ _ e => nomatch e), fun _ e => nomatch e⟩
  | writeStart | blockStart | blockWait | store | full | fail | stored | writeWake | failed | blockWake
  | writeEnd | readClosed | readWait | readEnd => exact ⟨(fun _ _ e => nomatch e), fun _ e => nomatch e⟩

/-- **A step of a thread** keeps the supply exactly if no reader wakes up to an empty pipe. -/
theorem Supplied.run_iff (h : Supplied w) (hi : ReadInv w) (hs : wakeStep w (.run t) = some w') :
    Supplied w' ↔ ¬ WakesEmpty w (.run t) := by
  obtain ⟨out, hmove, hpipe, hthreads, hasked⟩ := wakeStep_run hs
  constructor
  · rintro h' ⟨⟨size, hpc, hpos⟩, hempty⟩
    have hsize : size = w.asked t := by
      have hreads := hi.reads t
      rwa [hpc] at hreads
    rw [hpc] at hmove
    cases hmove with
    | readWake _ hm =>
      refine h'.loop t size (by rw [hthreads, Function.update_self]) (by rwa [hasked, ← hsize]) ?_
      rw [hpipe]
      exact hempty
  · intro hcalm
    have hown : 0 < w.asked t → _ := fun hpos => hmove.supplied hi.type (hi.reads t)
      (fun size e => h.loop t size e hpos) hpos fun size e hempty => by
        have hsize := hi.reads t
        rw [e] at hsize
        exact hcalm ⟨⟨size, e, by rwa [show size = _ from hsize]⟩, hempty⟩
    constructor
    · intro t' ret got hpc hpos
      rw [hthreads] at hpc
      rw [hasked] at hpos
      by_cases e : t' = t
      · subst e
        rw [Function.update_self] at hpc
        exact (hown hpos).1 ret got hpc
      · rw [Function.update_of_ne e] at hpc
        exact h.ret t' ret got hpc hpos
    · intro t' size hpc hpos
      rw [hthreads] at hpc
      rw [hasked] at hpos
      rw [hpipe]
      by_cases e : t' = t
      · subst e
        rw [Function.update_self] at hpc
        exact (hown hpos).2 size hpc
      · -- the other thread is inside, so this one is not
        rw [Function.update_of_ne e] at hpc
        have hin : (w.sys.threads t').owed = 1 := by rw [hpc]; rfl
        have hout : (w.sys.threads t).owed = 0 := owed_of_ne fun ho => e (hi.holder.eq hin ho)
        obtain ⟨hr, hw⟩ := hmove.counters hout
        rw [hr, hw]
        exact h.loop t' size hpc hpos

theorem Supplied.step_iff (h : Supplied w) (hi : ReadInv w) {op : PipeOp} (hs : wakeStep w op = some w') :
    Supplied w' ↔ ¬ WakesEmpty w op := by
  cases op with
  | run t => exact h.run_iff hi hs
  | write t data | read t size => exact ⟨fun _ => id, fun _ => h.call hs fun _ e => nomatch e⟩

/-- **Reads return data.** In a run of any number of readers and writers of an unbuffered pipe with both ends
open, no read of at least a byte returns without one, exactly if no woken reader acquires the mutex of an
empty pipe. -/
theorem reads_supplied_iff (size : ℕ) (buffer : ℕ → UInt8) (ops : List PipeOp) (w : WakeSys) :
    Run (fun w op w' => wakeStep w op = some w' ∧ Supplied w')
        (wakeBoot (pipeAlloc size .unbuffered buffer)) ops w ↔
      Run (fun w op w' => wakeStep w op = some w' ∧ ¬ WakesEmpty w op)
        (wakeBoot (pipeAlloc size .unbuffered buffer)) ops w :=
  Run.iff_of_step (fun _ _ _ hi hs => ReadInv.step hi hs) (fun _ _ _ hi h hs => h.step_iff hi hs)
    ⟨rfl, rfl, rfl, .free rfl (fun _ h => nomatch h), fun _ => trivial, fun _ => trivial⟩
    ⟨(fun _ _ _ h => nomatch h), fun _ _ h => nomatch h⟩

/-- Two readers wait, a byte is written, the first reader takes it. -/
def twoReaders : List PipeOp :=
  [.read 1 1, .run 1, .read 2 1, .run 2, .write 0 [7], .run 0, .run 0, .run 0, .run 0,
    .run 1, .run 1, .run 1, .run 1, .run 2, .run 2]

/-- The second one returns 0. -/
theorem second_reader_returns_nothing : ∃ w, Run (fun w op w' => wakeStep w op = some w')
    (wakeBoot (pipeAlloc 1024 .unbuffered fun _ => 0)) twoReaders w ∧ w.sys.pipe.writeOpen = true ∧
      w.asked 2 = 1 ∧ w.sys.threads 2 = .endRead 0 [] := by
  have hl : (twoReaders.foldlM wakeStep (wakeBoot (pipeAlloc 1024 .unbuffered fun _ => 0))).map
      (fun w => (w.sys.pipe.writeOpen, w.asked 2, w.sys.threads 2)) = some (true, 1, .endRead 0 []) := by
    decide +kernel
  obtain ⟨w, hw, hv⟩ := Option.map_eq_some_iff.mp hl
  simp only [Prod.mk.injEq] at hv
  exact ⟨w, run_of_foldlM (fun _ _ _ e => e) hw, hv⟩

end BulbOS.Pipe
