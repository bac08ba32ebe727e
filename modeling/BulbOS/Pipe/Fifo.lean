import BulbOS.Lib.Ring
import BulbOS.Lib.Run
import BulbOS.Pipe.Model

/-!
# A pipe is a queue

Any number of threads write to and read from one pipe of `PIPE_SIZE` bytes, unbuffered or buffered
by characters. The mutex lets one thread at a time into the ring.

* `PipeInv`: the ring holds what is stored and not taken, and the thread inside, if any, has in hand
  what is taken and not returned;
* `PipeInv.enter`, `PipeInv.stay`, `PipeInv.leave`: a thread acquires, keeps and releases the mutex;
* **`pipe_fifo`**: what reads return is a prefix of what writes stored.
-/

namespace BulbOS.Pipe

open KLib

/-- A pipe, its threads, and the bytes stored, taken and returned so far. -/
structure PipeSys where
  pipe : PipeState
  threads : ℕ → PipePc
  stored : List UInt8
  taken : List UInt8
  returned : List UInt8

/-- A thread calls `pipe_write` or `pipe_read`, or does its next step. -/
inductive PipeOp
  | write (t : ℕ) (data : List UInt8)
  | read (t size : ℕ)
  | run (t : ℕ)

def sysStep (s : PipeSys) : PipeOp → Option PipeSys
  | .write t data =>
    if s.threads t = .idle then some { s with threads := Function.update s.threads t (.write data) }
    else none
  | .read t size =>
    if s.threads t = .idle then some { s with threads := Function.update s.threads t (.read size) }
    else none
  | .run t => (pipeStep s.pipe (s.threads t)).map fun out =>
    ⟨out.pipe, Function.update s.threads t out.pc, s.stored ++ out.stored, s.taken ++ out.taken,
      s.returned ++ out.returned⟩

/-- A new pipe and threads that have made no call yet. -/
def pipeBoot (p : PipeState) : PipeSys := ⟨p, fun _ => .idle, [], [], []⟩

/-- The thread is between `mutex_acquire` and `mutex_release`. -/
def PipePc.Holds : PipePc → Prop
  | .unbufWrite .. | .bufWrite .. | .endWrite .. | .readLoop .. | .endRead .. => True
  | _ => False

/-- The bytes a reader has in hand. -/
def PipePc.inHand : PipePc → List UInt8
  | .readLoop _ got | .endRead _ got => got
  | _ => []

/-- Not a place of a block pipe, nor of a pipe whose read end is closed. -/
def PipePc.Plain : PipePc → Prop
  | .writeFailed | .waitBufWrite .. | .bufWrite .. => False
  | _ => True

/-- The mutex is free and all that is taken is returned, or one thread has it and the rest in hand. -/
inductive Locked (mutex : ℕ) (threads : ℕ → PipePc) (taken returned : List UInt8) : Prop
  | free (h : mutex = 0) (hnone : ∀ t, ¬ (threads t).Holds) (hret : returned = taken)
  | held (t : ℕ) (h : mutex = 1) (ht : (threads t).Holds) (hone : ∀ t', (threads t').Holds → t' = t)
      (hret : returned ++ (threads t).inHand = taken)

structure PipeInv (s : PipeSys) : Prop where
  size : s.pipe.size = pipeSize
  type : s.pipe.type ≠ .bufBlock
  readOpen : s.pipe.readOpen = true
  writeOpen : s.pipe.writeOpen = true
  ring : Ring pipeSize s.pipe.buffer s.pipe.bRead s.pipe.bWrite s.stored s.taken
  plain : ∀ t, (s.threads t).Plain
  locked : Locked s.pipe.mutex s.threads s.taken s.returned

section Lock

variable {mutex t : ℕ} {threads : ℕ → PipePc} {taken taken' returned returned' : List UInt8} {pc : PipePc}

theorem Locked.outside (h : Locked mutex threads taken returned) (ht : ¬ (threads t).Holds)
    (hpc : ¬ pc.Holds) : Locked mutex (Function.update threads t pc) taken returned := by
  have hkeep : ∀ t', (Function.update threads t pc t').Holds → (threads t').Holds ∧ t' ≠ t := by
    intro t' h'
    have hne : t' ≠ t := by
      rintro rfl
      rw [Function.update_self] at h'
      exact hpc h'
    rw [Function.update_of_ne hne] at h'
    exact ⟨h', hne⟩
  cases h with
  | free h hnone hret => exact .free h (fun t' h' => hnone t' (hkeep t' h').1) hret
  | held t₀ h ht₀ hone hret =>
    have hne : t₀ ≠ t := fun e => ht (e ▸ ht₀)
    refine .held t₀ h ?_ (fun t' h' => hone t' (hkeep t' h').1) ?_
    · rwa [Function.update_of_ne hne]
    · rwa [Function.update_of_ne hne]

theorem Locked.enter (h : Locked mutex threads taken returned) (hm : mutex < 1) (hpc : pc.Holds)
    (hhand : pc.inHand = []) : Locked 1 (Function.update threads t pc) taken returned := by
  cases h with
  | held t₀ h => omega
  | free h hnone hret =>
    refine .held t rfl (by rwa [Function.update_self]) (fun t' h' => ?_) ?_
    · by_contra hne
      rw [Function.update_of_ne hne] at h'
      exact hnone t' h'
    · rw [Function.update_self, hhand, List.append_nil, hret]

theorem Locked.stay (h : Locked mutex threads taken returned) (ht : (threads t).Holds) (hpc : pc.Holds)
    (hhand : returned ++ (threads t).inHand = taken → returned' ++ pc.inHand = taken') :
    Locked mutex (Function.update threads t pc) taken' returned' := by
  cases h with
  | free h hnone => exact absurd ht (hnone t)
  | held t₀ h _ hone hret =>
    obtain rfl := hone t ht
    refine .held t h (by rwa [Function.update_self]) (fun t' h' => ?_) ?_
    · by_contra hne
      rw [Function.update_of_ne hne] at h'
      exact hne (hone t' h')
    · rw [Function.update_self]
      exact hhand hret

theorem Locked.leave (h : Locked mutex threads taken returned) (ht : (threads t).Holds)
    (hpc : ¬ pc.Holds) (hhand : returned ++ (threads t).inHand = taken → returned' = taken) :
    Locked (sub32 mutex 1) (Function.update threads t pc) taken returned' := by
  cases h with
  | free h hnone => exact absurd ht (hnone t)
  | held t₀ h _ hone hret =>
    obtain rfl := hone t ht
    refine .free (by rw [h]; decide) (fun t' h' => ?_) (hhand hret)
    by_cases hne : t' = t
    · subst hne
      rw [Function.update_self] at h'
      exact hpc h'
    · rw [Function.update_of_ne hne] at h'
      exact hne (hone t' h')

end Lock

variable {s s' : PipeSys} {t : ℕ} {p p' : PipeState}

theorem plain_update {threads : ℕ → PipePc} {pc : PipePc} (h : ∀ t, (threads t).Plain) (hpc : pc.Plain) :
    ∀ t', (Function.update threads t pc t').Plain := by
  intro t'
  by_cases hne : t' = t
  · rwa [hne, Function.update_self]
  · rw [Function.update_of_ne hne]
    exact h t'

theorem mutexAcquire_eq_some (h : mutexAcquire p = some p') : p.mutex < 1 ∧ p' = { p with mutex := 1 } := by
  unfold mutexAcquire at h
  split_ifs at h with hm
  rw [Option.some.injEq] at h
  exact ⟨hm, by rw [← h, show p.mutex = 0 by omega]⟩

theorem mutexRelease_acquire (h : p.mutex < 1) : mutexRelease { p with mutex := 1 } = p := by
  have h₀ : sub32 1 1 = p.mutex := by
    rw [show p.mutex = 0 by omega]
    decide
  rw [mutexRelease, h₀]

theorem pipeWriteEnter_eq (htype : p.type ≠ .bufBlock) (data : List UInt8) :
    pipeWriteEnter p data = ⟨p, .unbufWrite data 0, [], [], []⟩ := by
  rw [pipeWriteEnter]
  cases h : p.type with
  | bufBlock => exact absurd h htype
  | unbuffered | bufChar => rfl

theorem pipeReadEnter_eq (htype : p.type ≠ .bufBlock) (hopen : p.writeOpen = true) (size : ℕ) :
    pipeReadEnter p size = if p.bRead = p.bWrite then ⟨mutexRelease p, .waitRead size, [], [], []⟩
      else ⟨p, .readLoop size [], [], [], []⟩ := by
  rw [pipeReadEnter, hopen, if_neg (not_not.mpr rfl)]
  cases h : p.type with
  | bufBlock => exact absurd h htype
  | unbuffered | bufChar => rfl

theorem modSize_eq (h : p.size ≠ 0) (b : ℕ) : modSize p b = some (b % p.size) := by
  rw [modSize, if_neg h]

theorem readByte_eq (h : p.size ≠ 0) : readByte p = some (p.buffer (p.bRead % p.size)) := by
  rw [readByte, modSize_eq h, Option.map_some]

/-- A thread moves outside the mutex, and nothing else changes. -/
theorem PipeInv.outside (h : PipeInv s) (pc : PipePc) (ht : ¬ (s.threads t).Holds)
    (hpc : ¬ pc.Holds) (hplain : pc.Plain) : PipeInv { s with threads := Function.update s.threads t pc } :=
  ⟨h.size, h.type, h.readOpen, h.writeOpen, h.ring, plain_update h.plain hplain,
    h.locked.outside ht hpc⟩

theorem PipeInv.enter (h : PipeInv s) (pc : PipePc) (hm : s.pipe.mutex < 1) (hpc : pc.Holds) (hplain : pc.Plain)
    (hhand : pc.inHand = []) :
    PipeInv ⟨{ s.pipe with mutex := 1 }, Function.update s.threads t pc, s.stored ++ [], s.taken ++ [],
      s.returned ++ []⟩ := by
  simp only [List.append_nil]
  exact ⟨h.size, h.type, h.readOpen, h.writeOpen, h.ring, plain_update h.plain hplain,
    h.locked.enter hm hpc hhand⟩

theorem PipeInv.relock (h : PipeInv s) (pc : PipePc) (hplain : pc.Plain) {mutex : ℕ} {ret : List UInt8}
    (hl : Locked mutex (Function.update s.threads t pc) s.taken ret) :
    PipeInv ⟨{ s.pipe with mutex := mutex }, Function.update s.threads t pc, s.stored, s.taken, ret⟩ :=
  ⟨h.size, h.type, h.readOpen, h.writeOpen, h.ring, plain_update h.plain hplain, hl⟩

/-- The thread inside releases the mutex, and returns what it has in hand. -/
theorem PipeInv.leave (h : PipeInv s) (pc : PipePc) (ht : (s.threads t).Holds) (hpc : ¬ pc.Holds)
    (hplain : pc.Plain) {ret : List UInt8} (hret : (s.threads t).inHand = ret) :
    PipeInv ⟨mutexRelease s.pipe, Function.update s.threads t pc, s.stored ++ [], s.taken ++ [],
      s.returned ++ ret⟩ := by
  rw [List.append_nil, List.append_nil]
  exact h.relock pc hplain (h.locked.leave ht hpc fun hh => by rw [← hret, hh])

/-- The thread inside goes on inside without touching the pipe. -/
theorem PipeInv.stay (h : PipeInv s) (pc : PipePc) (ht : (s.threads t).Holds) (hpc : pc.Holds)
    (hplain : pc.Plain) (hhand : pc.inHand = (s.threads t).inHand) :
    PipeInv ⟨s.pipe, Function.update s.threads t pc, s.stored ++ [], s.taken ++ [],
      s.returned ++ []⟩ := by
  simp only [List.append_nil]
  refine ⟨h.size, h.type, h.readOpen, h.writeOpen, h.ring, plain_update h.plain hplain, ?_⟩
  exact h.locked.stay ht hpc fun hh => by rw [hhand, hh]

theorem PipeInv.take (h : PipeInv s) (pc : PipePc) (ht : (s.threads t).Holds) (hpc : pc.Holds)
    (hplain : pc.Plain) (hne : s.pipe.bRead ≠ s.pipe.bWrite) {b : UInt8} (hb : readByte s.pipe = some b)
    (hhand : pc.inHand = (s.threads t).inHand ++ [b]) :
    PipeInv ⟨nextRead s.pipe, Function.update s.threads t pc, s.stored ++ [], s.taken ++ [b], s.returned ++ []⟩ := by
  have hlt : s.taken.length < s.stored.length := by
    have hle := h.ring.pre.length_le
    have := (not_congr h.ring.empty_iff).mp hne
    omega
  simp only [List.append_nil]
  refine ⟨h.size, h.type, h.readOpen, h.writeOpen, ?_, plain_update h.plain hplain, ?_⟩
  · rw [readByte_eq (by rw [h.size]; decide), Option.some.injEq, h.size] at hb
    rw [← hb]
    exact h.ring.pop hlt
  · refine h.locked.stay ht hpc fun hh => ?_
    rw [hhand, ← List.append_assoc, hh]

/-- **One step of `pipe_unbuf_write`.** -/
theorem PipeInv.unbufWrite (h : PipeInv s) {data : List UInt8} {i : ℕ}
    (ht : s.threads t = .unbufWrite data i) {out : PipeOut} (ho : pipeUnbufWrite s.pipe data i = out) :
    PipeInv ⟨out.pipe, Function.update s.threads t out.pc, s.stored ++ out.stored,
      s.taken ++ out.taken, s.returned ++ out.returned⟩ := by
  have hin : (s.threads t).Holds := by rw [ht]; trivial
  have hhand : (s.threads t).inHand = [] := by rw [ht]; rfl
  subst ho
  unfold pipeUnbufWrite
  cases data[i]? with
  | none => exact h.stay (.endWrite i data) hin trivial trivial hhand.symm
  | some b =>
    by_cases hfull : s.pipe.bWrite = u32 (s.pipe.bRead + pipeSize)
    · simp only [if_pos hfull, h.readOpen, if_true]
      exact h.leave (.waitWrite data i) hin id trivial hhand
    · simp only [if_neg hfull, List.append_nil]
      have hroom : s.stored.length < s.taken.length + pipeSize := by
        have hle := h.ring.le
        have := (not_congr h.ring.full_iff).mp hfull
        omega
      refine ⟨h.size, h.type, h.readOpen, h.writeOpen, h.ring.push hroom b,
        plain_update h.plain trivial, ?_⟩
      refine h.locked.stay hin trivial fun hh => ?_
      rw [hhand] at hh
      exact hh

/-- **One step of a read loop.** -/
theorem PipeInv.readLoop (h : PipeInv s) {size : ℕ} {got : List UInt8}
    (ht : s.threads t = .readLoop size got) {out : PipeOut}
    (ho : pipeStep s.pipe (.readLoop size got) = some out) :
    PipeInv ⟨out.pipe, Function.update s.threads t out.pc, s.stored ++ out.stored,
      s.taken ++ out.taken, s.returned ++ out.returned⟩ := by
  have hin : (s.threads t).Holds := by rw [ht]; trivial
  have hhand : (s.threads t).inHand = got := by rw [ht]; rfl
  rw [pipeStep] at ho
  cases htype : s.pipe.type with
  | bufBlock => exact absurd htype h.type
  | unbuffered =>
    simp only [htype, pipeUnbufRead] at ho
    split_ifs at ho with hc
    · obtain ⟨b, hb, rfl⟩ := Option.map_eq_some_iff.mp ho
      exact h.take (.readLoop size _) hin trivial trivial hc.2 hb (by rw [hhand]; rfl)
    · rw [Option.some.injEq] at ho
      subst ho
      exact h.stay (.endRead _ got) hin trivial trivial hhand.symm
  | bufChar =>
    simp only [htype, pipeBufcharRead] at ho
    split_ifs at ho with hc
    · rw [Option.some.injEq] at ho
      subst ho
      exact h.stay (.endRead _ got) hin trivial trivial hhand.symm
    · obtain ⟨b, hb, rfl⟩ := Option.map_eq_some_iff.mp ho
      split_ifs with hd
      · exact h.take (.endRead _ _) hin trivial trivial hc hb (by rw [hhand]; rfl)
      · exact h.take (.readLoop size _) hin trivial trivial hc hb (by rw [hhand]; rfl)

theorem PipeInv.readEnter (h : PipeInv s) (ht : ¬ (s.threads t).Holds) (hm : s.pipe.mutex < 1) (size : ℕ)
    {out : PipeOut} (ho : pipeReadEnter { s.pipe with mutex := 1 } size = out) :
    PipeInv ⟨out.pipe, Function.update s.threads t out.pc, s.stored ++ out.stored,
      s.taken ++ out.taken, s.returned ++ out.returned⟩ := by
  rw [pipeReadEnter_eq (by exact h.type) (by exact h.writeOpen)] at ho
  subst ho
  split_ifs
  · simp only [List.append_nil]
    rw [mutexRelease_acquire hm]
    exact h.outside (.waitRead size) ht id trivial
  · exact h.enter (.readLoop size []) hm trivial trivial rfl

/-- **One step of a thread.** -/
theorem PipeInv.run (h : PipeInv s) {out : PipeOut} (ho : pipeStep s.pipe (s.threads t) = some out) :
    PipeInv ⟨out.pipe, Function.update s.threads t out.pc, s.stored ++ out.stored,
      s.taken ++ out.taken, s.returned ++ out.returned⟩ := by
  have hplain := h.plain t
  cases hpc : s.threads t with
  | idle => rw [hpc] at ho; cases ho
  | write data =>
    rw [hpc, pipeStep, Option.map_eq_some_iff] at ho
    obtain ⟨p, hacq, rfl⟩ := ho
    obtain ⟨hm, rfl⟩ := mutexAcquire_eq_some hacq
    rw [pipeWriteEnter_eq (by exact h.type)]
    exact h.enter (.unbufWrite data 0) hm trivial trivial rfl
  | unbufWrite data i =>
    rw [hpc, pipeStep, Option.some.injEq] at ho
    exact h.unbufWrite hpc ho
  | waitWrite data i =>
    rw [hpc, pipeStep, Option.map_eq_some_iff] at ho
    obtain ⟨p, hacq, rfl⟩ := ho
    obtain ⟨hm, rfl⟩ := mutexAcquire_eq_some hacq
    exact h.enter (.unbufWrite data i) hm trivial trivial rfl
  | writeFailed => rw [hpc] at hplain; exact hplain.elim
  | waitBufWrite data => rw [hpc] at hplain; exact hplain.elim
  | bufWrite data => rw [hpc] at hplain; exact hplain.elim
  | endWrite ret data =>
    rw [hpc, pipeStep, Option.some.injEq] at ho
    subst ho
    exact h.leave .idle (by rw [hpc]; trivial) id trivial (by rw [hpc]; rfl)
  | read size =>
    rw [hpc, pipeStep, Option.map_eq_some_iff] at ho
    obtain ⟨p, hacq, rfl⟩ := ho
    obtain ⟨hm, rfl⟩ := mutexAcquire_eq_some hacq
    exact h.readEnter (by rw [hpc]; exact id) hm size rfl
  | waitRead size =>
    rw [hpc, pipeStep, Option.map_eq_some_iff] at ho
    obtain ⟨p, hacq, rfl⟩ := ho
    obtain ⟨hm, rfl⟩ := mutexAcquire_eq_some hacq
    exact h.enter (.readLoop size []) hm trivial trivial rfl
  | readLoop size got =>
    rw [hpc] at ho
    exact h.readLoop hpc ho
  | endRead ret got =>
    rw [hpc, pipeStep, Option.some.injEq] at ho
    subst ho
    exact h.leave .idle (by rw [hpc]; trivial) id trivial (by rw [hpc]; rfl)

theorem PipeInv.step (h : PipeInv s) {op : PipeOp} (hs : sysStep s op = some s') : PipeInv s' := by
  cases op with
  | write t data =>
    simp only [sysStep, Option.ite_none_right_eq_some, Option.some.injEq] at hs
    obtain ⟨hidle, rfl⟩ := hs
    exact h.outside _ (by rw [hidle]; exact id) id trivial
  | read t size =>
    simp only [sysStep, Option.ite_none_right_eq_some, Option.some.injEq] at hs
    obtain ⟨hidle, rfl⟩ := hs
    exact h.outside _ (by rw [hidle]; exact id) id trivial
  | run t =>
    obtain ⟨out, ho, rfl⟩ := Option.map_eq_some_iff.mp hs
    exact h.run ho

theorem pipeInv_boot {type : PipeType} (htype : type ≠ .bufBlock) (buffer : ℕ → UInt8) :
    PipeInv (pipeBoot (pipeAlloc pipeSize type buffer)) where
  size := rfl
  type := htype
  readOpen := rfl
  writeOpen := rfl
  ring := ring_nil buffer (by decide) (by decide)
  plain _ := trivial
  locked := .free rfl (fun _ => id) rfl

/-- **Pipe FIFO.** In every run of writers and readers of a pipe of `PIPE_SIZE` bytes, unbuffered or
buffered by characters, the bytes returned are a prefix of the bytes stored, the counters differ by
the number of bytes stored and not yet taken, and that number is at most `PIPE_SIZE`. -/
theorem pipe_fifo {type : PipeType} (htype : type = .unbuffered ∨ type = .bufChar)
    (buffer : ℕ → UInt8) {ops : List PipeOp} {s : PipeSys}
    (h : Run (fun s op s' => sysStep s op = some s')
      (pipeBoot (pipeAlloc pipeSize type buffer)) ops s) :
    s.returned <+: s.stored ∧ s.taken <+: s.stored ∧
      sub32 s.pipe.bWrite s.pipe.bRead = s.stored.length - s.taken.length ∧
      s.stored.length - s.taken.length ≤ pipeSize := by
  have hne : type ≠ .bufBlock := by rcases htype with rfl | rfl <;> decide
  have hinv : PipeInv s := h.invariant (fun _ _ _ hi hs => hi.step hs) (pipeInv_boot hne buffer)
  have hle := hinv.ring.le
  refine ⟨List.IsPrefix.trans ?_ hinv.ring.pre, hinv.ring.pre, hinv.ring.count, by omega⟩
  cases hinv.locked with
  | free _ _ hret => exact hret ▸ List.prefix_rfl
  | held t _ _ _ hret => exact ⟨_, hret⟩

/-- One thread writes two bytes, another reads one of them. -/
def demoOps : List PipeOp :=
  [.write 0 [7, 8], .run 0, .run 0, .run 0, .run 0, .run 0, .read 1 1, .run 1, .run 1, .run 1, .run 1]

theorem pipe_fifo_demo : ∃ s : PipeSys,
    Run (fun s op s' => sysStep s op = some s')
      (pipeBoot (pipeAlloc pipeSize .unbuffered fun _ => 0)) demoOps s ∧
      s.stored = [7, 8] ∧ s.returned = [7] ∧ s.returned <+: s.stored := by
  have hl : (demoOps.foldlM sysStep (pipeBoot (pipeAlloc pipeSize .unbuffered fun _ => 0))).map
      (fun s => (s.stored, s.returned)) = some ([7, 8], [7]) := by decide +kernel
  obtain ⟨s, hs, hv⟩ := Option.map_eq_some_iff.mp hl
  rw [Prod.mk.injEq] at hv
  have hrun : Run (fun s op s' => sysStep s op = some s') _ demoOps s :=
    run_of_foldlM (fun _ _ _ e => e) hs
  exact ⟨s, hrun, hv.1, hv.2, (pipe_fifo (.inl rfl) _ hrun).1⟩

end BulbOS.Pipe
