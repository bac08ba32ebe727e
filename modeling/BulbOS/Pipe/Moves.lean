import BulbOS.Pipe.Fifo

/-!
# What one step of a thread does to a pipe

* `PipeMove`: the steps of `pipeStep`, each with the tests that lead to it;
* **`pipeStep_move`**: there are no others; `PipeMove.pipeStep`: each of them happens;
* `PipeMove.frame`: what a step never changes;
* `PipeMove.block`, `PipeMove.unbuf`: the places of a block pipe and of the others.
-/

namespace BulbOS.Pipe

open KLib

variable {p : PipeState}

section Release

variable (p)

@[simp] theorem mutexRelease_size : (mutexRelease p).size = p.size := by rw [mutexRelease]

@[simp] theorem mutexRelease_type : (mutexRelease p).type = p.type := by rw [mutexRelease]

@[simp] theorem mutexRelease_bRead : (mutexRelease p).bRead = p.bRead := by rw [mutexRelease]

@[simp] theorem mutexRelease_bWrite : (mutexRelease p).bWrite = p.bWrite := by rw [mutexRelease]

@[simp] theorem mutexRelease_readOpen : (mutexRelease p).readOpen = p.readOpen := by rw [mutexRelease]

@[simp] theorem mutexRelease_writeOpen : (mutexRelease p).writeOpen = p.writeOpen := by rw [mutexRelease]

@[simp] theorem mutexRelease_buffer : (mutexRelease p).buffer = p.buffer := by rw [mutexRelease]

end Release

/-- A step from a place of the code, and what it changes. -/
inductive PipeMove (p : PipeState) : PipePc → PipeOut → Prop
  | writeStart (data : List UInt8) (hm : p.mutex < 1) (htype : p.type ≠ .bufBlock) :
      PipeMove p (.write data) ⟨{ p with mutex := 1 }, .unbufWrite data 0, [], [], []⟩
  | blockStart (data : List UInt8) (hm : p.mutex < 1) (htype : p.type = .bufBlock) (heq : p.bRead = p.bWrite) :
      PipeMove p (.write data) ⟨{ p with mutex := 1 }, .bufWrite data, [], [], []⟩
  | blockWait (data : List UInt8) (hm : p.mutex < 1) (htype : p.type = .bufBlock) (hne : p.bRead ≠ p.bWrite) :
      PipeMove p (.write data) ⟨p, .waitBufWrite data, [], [], []⟩
  | store (data : List UInt8) (i : ℕ) (b : UInt8) (hb : data[i]? = some b)
      (hroom : p.bWrite ≠ u32 (p.bRead + pipeSize)) :
      PipeMove p (.unbufWrite data i) ⟨{ p with
        buffer := Function.update p.buffer (p.bWrite % pipeSize) b, bWrite := u32 (p.bWrite + 1) },
        .unbufWrite data (i + 1), [b], [], []⟩
  | full (data : List UInt8) (i : ℕ) (hi : i < data.length) (hfull : p.bWrite = u32 (p.bRead + pipeSize))
      (hopen : p.readOpen = true) :
      PipeMove p (.unbufWrite data i) ⟨mutexRelease p, .waitWrite data i, [], [], []⟩
  | fail (data : List UInt8) (i : ℕ) (hi : i < data.length) (hfull : p.bWrite = u32 (p.bRead + pipeSize))
      (hopen : p.readOpen = false) :
      PipeMove p (.unbufWrite data i) ⟨mutexRelease p, .writeFailed, [], [], []⟩
  | stored (data : List UInt8) (i : ℕ) (hi : data.length ≤ i) :
      PipeMove p (.unbufWrite data i) ⟨p, .endWrite i data, [], [], []⟩
  | writeWake (data : List UInt8) (i : ℕ) (hm : p.mutex < 1) :
      PipeMove p (.waitWrite data i) ⟨{ p with mutex := 1 }, .unbufWrite data i, [], [], []⟩
  | failed : PipeMove p .writeFailed ⟨mutexRelease p, .idle, [], [], []⟩
  | blockWake (data : List UInt8) (hm : p.mutex < 1) :
      PipeMove p (.waitBufWrite data) ⟨{ p with mutex := 1 }, .bufWrite data, [], [], []⟩
  | copy (data : List UInt8) {len : ℕ} (hlen : bufWriteLen p data.length = some len) :
      PipeMove p (.bufWrite data) (bufCopy p data len)
  | writeEnd (ret : ℤ) (data : List UInt8) :
      PipeMove p (.endWrite ret data) ⟨mutexRelease p, .idle, [], [], []⟩
  | readClosed (size : ℕ) (hm : p.mutex < 1) (hopen : p.writeOpen = false) :
      PipeMove p (.read size) ⟨p, .idle, [], [], []⟩
  | readRefused (size : ℕ) (hm : p.mutex < 1) (hopen : p.writeOpen = true) (htype : p.type = .bufBlock)
      (hsize : size ≠ p.size) :
      PipeMove p (.read size) ⟨{ p with mutex := 1 }, .endRead (-1) [], [], [], []⟩
  | readWait (size : ℕ) (hm : p.mutex < 1) (hopen : p.writeOpen = true)
      (hempty : p.type ≠ .bufBlock → p.bRead = p.bWrite)
      (hblock : p.type = .bufBlock → size = p.size ∧ u32 (p.bRead + size) ≠ p.bWrite) :
      PipeMove p (.read size) ⟨p, .waitRead size, [], [], []⟩
  | readStart (size : ℕ) (hm : p.mutex < 1) (hopen : p.writeOpen = true)
      (hempty : p.type ≠ .bufBlock → p.bRead ≠ p.bWrite)
      (hblock : p.type = .bufBlock → size = p.size ∧ u32 (p.bRead + size) = p.bWrite) :
      PipeMove p (.read size) ⟨{ p with mutex := 1 }, .readLoop size [], [], [], []⟩
  | readWake (size : ℕ) (hm : p.mutex < 1) :
      PipeMove p (.waitRead size) ⟨{ p with mutex := 1 }, .readLoop size [], [], [], []⟩
  | take (size : ℕ) (got : List UInt8) (htype : p.type ≠ .bufBlock) (hne : p.bRead ≠ p.bWrite)
      (hsize : p.type = .unbuffered → got.length < size) {b : UInt8} (hb : readByte p = some b)
      (hc : p.type = .bufChar → (b.toNat : ℤ) ≠ delimiter size) :
      PipeMove p (.readLoop size got) ⟨nextRead p, .readLoop size (got ++ [b]), [], [b], []⟩
  | takeLast (size : ℕ) (got : List UInt8) (htype : p.type = .bufChar) (hne : p.bRead ≠ p.bWrite)
      {b : UInt8} (hb : readByte p = some b) (hc : (b.toNat : ℤ) = delimiter size) :
      PipeMove p (.readLoop size got) ⟨nextRead p, .endRead (got.length + 1) (got ++ [b]), [], [b], []⟩
  | taken (size : ℕ) (got : List UInt8) (htype : p.type ≠ .bufBlock)
      (hstop : p.bRead = p.bWrite ∨ p.type = .unbuffered ∧ size ≤ got.length) :
      PipeMove p (.readLoop size got) ⟨p, .endRead got.length got, [], [], []⟩
  | takeBlock (size : ℕ) (got : List UInt8) (htype : p.type = .bufBlock) :
      PipeMove p (.readLoop size got) (pipeBufblockRead p size)
  | readEnd (ret : ℤ) (got : List UInt8) :
      PipeMove p (.endRead ret got) ⟨mutexRelease p, .idle, [], [], got⟩

theorem pipeWriteEnter_move (hm : p.mutex < 1) (data : List UInt8) :
    PipeMove p (.write data) (pipeWriteEnter { p with mutex := 1 } data) := by
  by_cases htype : p.type = .bufBlock
  · simp only [pipeWriteEnter, htype]
    by_cases heq : p.bRead = p.bWrite
    · rw [if_neg (not_not.mpr heq)]
      have hmove := PipeMove.blockStart data hm htype heq
      rwa [htype] at hmove
    · rw [if_pos heq]
      have hp := mutexRelease_acquire hm
      rw [htype] at hp
      rw [hp]
      exact .blockWait data hm htype heq
  · rw [pipeWriteEnter_eq (by exact htype)]
    exact .writeStart data hm htype

theorem pipeReadEnter_closed (hopen : p.writeOpen = false) (size : ℕ) :
    pipeReadEnter p size = ⟨mutexRelease p, .idle, [], [], []⟩ := by
  rw [pipeReadEnter, hopen, if_pos Bool.false_ne_true]

theorem pipeReadEnter_block (htype : p.type = .bufBlock) (hopen : p.writeOpen = true) (size : ℕ) :
    pipeReadEnter p size = if size ≠ p.size then ⟨p, .endRead (-1) [], [], [], []⟩
      else if u32 (p.bRead + size) ≠ p.bWrite then ⟨mutexRelease p, .waitRead size, [], [], []⟩
      else ⟨p, .readLoop size [], [], [], []⟩ := by
  rw [pipeReadEnter, hopen, if_neg (not_not.mpr rfl)]
  cases h : p.type with
  | bufBlock => rfl
  | unbuffered | bufChar => rw [h] at htype; cases htype

theorem pipeReadEnter_move (hm : p.mutex < 1) (size : ℕ) :
    PipeMove p (.read size) (pipeReadEnter { p with mutex := 1 } size) := by
  by_cases hopen : p.writeOpen = true
  · by_cases htype : p.type = .bufBlock
    · rw [pipeReadEnter_block (by exact htype) (by exact hopen), mutexRelease_acquire hm]
      by_cases hsize : size = p.size
      · rw [if_neg (not_not.mpr (by exact hsize))]
        by_cases hfull : u32 (p.bRead + size) = p.bWrite
        · rw [if_neg (not_not.mpr (by exact hfull))]
          exact .readStart size hm hopen (fun h => absurd htype h) fun _ => ⟨hsize, hfull⟩
        · rw [if_pos (by exact hfull)]
          exact .readWait size hm hopen (fun h => absurd htype h) fun _ => ⟨hsize, hfull⟩
      · rw [if_pos (by exact hsize)]
        exact .readRefused size hm hopen htype hsize
    · rw [pipeReadEnter_eq (by exact htype) (by exact hopen), mutexRelease_acquire hm]
      by_cases hempty : p.bRead = p.bWrite
      · rw [if_pos (by exact hempty)]
        exact .readWait size hm hopen (fun _ => hempty) fun h => absurd h htype
      · rw [if_neg (by exact hempty)]
        exact .readStart size hm hopen (fun _ => hempty) fun h => absurd h htype
  · rw [Bool.not_eq_true] at hopen
    rw [pipeReadEnter_closed (by exact hopen), mutexRelease_acquire hm]
    exact .readClosed size hm hopen

theorem pipeUnbufWrite_move (data : List UInt8) (i : ℕ) :
    PipeMove p (.unbufWrite data i) (pipeUnbufWrite p data i) := by
  rw [pipeUnbufWrite]
  cases hb : data[i]? with
  | none => exact .stored data i (List.getElem?_eq_none_iff.mp hb)
  | some b =>
    have hi : i < data.length := (List.getElem?_eq_some_iff.mp hb).1
    simp only
    split_ifs with hfull hopen
    · exact .full data i hi hfull hopen
    · exact .fail data i hi hfull (Bool.not_eq_true _ ▸ hopen)
    · exact .store data i b hb hfull

theorem readLoop_move {size : ℕ} {got : List UInt8} {out : PipeOut}
    (h : pipeStep p (.readLoop size got) = some out) : PipeMove p (.readLoop size got) out := by
  rw [pipeStep] at h
  cases htype : p.type with
  | unbuffered =>
    have hne : p.type ≠ .bufBlock := by rw [htype]; decide
    simp only [htype, pipeUnbufRead] at h
    split_ifs at h with hc
    · obtain ⟨b, hb, rfl⟩ := Option.map_eq_some_iff.mp h
      exact .take size got hne hc.2 (fun _ => hc.1) hb fun e => by rw [htype] at e; cases e
    · rw [Option.some.injEq] at h
      subst h
      refine .taken size got hne ?_
      by_cases hempty : p.bRead = p.bWrite
      · exact .inl hempty
      · exact .inr ⟨htype, not_lt.mp fun hlt => hc ⟨hlt, hempty⟩⟩
  | bufBlock =>
    simp only [htype, Option.some.injEq] at h
    exact h ▸ .takeBlock size got htype
  | bufChar =>
    have hne : p.type ≠ .bufBlock := by rw [htype]; decide
    simp only [htype, pipeBufcharRead] at h
    split_ifs at h with hempty
    · rw [Option.some.injEq] at h
      exact h ▸ .taken size got hne (.inl hempty)
    · obtain ⟨b, hb, rfl⟩ := Option.map_eq_some_iff.mp h
      split_ifs with hc
      · exact .takeLast size got htype hempty hb hc
      · exact .take size got hne hempty (fun e => by rw [htype] at e; cases e) hb fun _ => hc

/-- **Every step is one of these moves.** -/
theorem pipeStep_move {pc : PipePc} {out : PipeOut} (h : pipeStep p pc = some out) : PipeMove p pc out := by
  cases pc with
  | idle => cases h
  | write data =>
    obtain ⟨q, hq, rfl⟩ := Option.map_eq_some_iff.mp h
    obtain ⟨hm, rfl⟩ := mutexAcquire_eq_some hq
    exact pipeWriteEnter_move hm data
  | unbufWrite data i =>
    rw [pipeStep, Option.some.injEq] at h
    exact h ▸ pipeUnbufWrite_move data i
  | waitWrite data i =>
    obtain ⟨q, hq, rfl⟩ := Option.map_eq_some_iff.mp h
    obtain ⟨hm, rfl⟩ := mutexAcquire_eq_some hq
    exact .writeWake data i hm
  | writeFailed =>
    rw [pipeStep, Option.some.injEq] at h
    exact h ▸ .failed
  | waitBufWrite data =>
    obtain ⟨q, hq, rfl⟩ := Option.map_eq_some_iff.mp h
    obtain ⟨hm, rfl⟩ := mutexAcquire_eq_some hq
    exact .blockWake data hm
  | bufWrite data =>
    obtain ⟨len, hlen, rfl⟩ := Option.map_eq_some_iff.mp h
    exact .copy data hlen
  | endWrite ret data =>
    rw [pipeStep, Option.some.injEq] at h
    exact h ▸ .writeEnd ret data
  | read size =>
    obtain ⟨q, hq, rfl⟩ := Option.map_eq_some_iff.mp h
    obtain ⟨hm, rfl⟩ := mutexAcquire_eq_some hq
    exact pipeReadEnter_move hm size
  | waitRead size =>
    obtain ⟨q, hq, rfl⟩ := Option.map_eq_some_iff.mp h
    obtain ⟨hm, rfl⟩ := mutexAcquire_eq_some hq
    exact .readWake size hm
  | readLoop size got => exact readLoop_move h
  | endRead ret got =>
    rw [pipeStep, Option.some.injEq] at h
    exact h ▸ .readEnd ret got

variable {pc : PipePc} {out : PipeOut}

theorem mutexAcquire_eq (h : p.mutex < 1) : mutexAcquire p = some { p with mutex := 1 } := by
  rw [mutexAcquire, if_pos h, show p.mutex = 0 by omega]

theorem pipeWriteEnter_block (htype : p.type = .bufBlock) (data : List UInt8) :
    pipeWriteEnter p data = if p.bRead ≠ p.bWrite then ⟨mutexRelease p, .waitBufWrite data, [], [], []⟩
      else ⟨p, .bufWrite data, [], [], []⟩ := by
  rw [pipeWriteEnter]
  cases h : p.type with
  | bufBlock => rfl
  | unbuffered | bufChar => rw [h] at htype; cases htype

theorem readLoop_ring (htype : p.type ≠ .bufBlock) (size : ℕ) (got : List UInt8) :
    pipeStep p (.readLoop size got) =
      if p.type = .unbuffered then pipeUnbufRead p size got else pipeBufcharRead p size got := by
  rw [pipeStep]
  cases h : p.type with
  | bufBlock => exact absurd h htype
  | unbuffered => rw [if_pos rfl]
  | bufChar => rw [if_neg (by decide)]

theorem PipeMove.pipeStep (h : PipeMove p pc out) : pipeStep p pc = some out := by
  cases h with
  | writeStart data hm htype =>
    rw [Pipe.pipeStep, mutexAcquire_eq hm, Option.map_some, pipeWriteEnter_eq (by exact htype)]
  | blockStart data hm htype heq =>
    rw [Pipe.pipeStep, mutexAcquire_eq hm, Option.map_some, pipeWriteEnter_block (by exact htype),
      if_neg (not_not.mpr (by exact heq))]
  | blockWait data hm htype hne =>
    rw [Pipe.pipeStep, mutexAcquire_eq hm, Option.map_some, pipeWriteEnter_block (by exact htype),
      if_pos (by exact hne), mutexRelease_acquire hm]
  | store data i b hb hroom => rw [Pipe.pipeStep, pipeUnbufWrite, hb]; simp only [if_neg hroom]
  | full data i hi hfull hopen =>
    rw [Pipe.pipeStep, pipeUnbufWrite, List.getElem?_eq_getElem hi]
    simp only [if_pos hfull, if_pos hopen]
  | fail data i hi hfull hopen =>
    rw [Pipe.pipeStep, pipeUnbufWrite, List.getElem?_eq_getElem hi]
    simp only [if_pos hfull, hopen, Bool.false_eq_true, if_false]
  | stored data i hi => rw [Pipe.pipeStep, pipeUnbufWrite, List.getElem?_eq_none hi]
  | writeWake data i hm | blockWake data hm | readWake size hm =>
    rw [Pipe.pipeStep, mutexAcquire_eq hm, Option.map_some]
  | failed | writeEnd | readEnd => rw [Pipe.pipeStep]
  | copy data hlen => rw [Pipe.pipeStep, pipeBufWrite, hlen, Option.map_some]
  | readClosed size hm hopen =>
    rw [Pipe.pipeStep, mutexAcquire_eq hm, Option.map_some, pipeReadEnter_closed (by exact hopen),
      mutexRelease_acquire hm]
  | readRefused size hm hopen htype hsize =>
    rw [Pipe.pipeStep, mutexAcquire_eq hm, Option.map_some, pipeReadEnter_block (by exact htype) (by exact hopen),
      if_pos (by exact hsize)]
  | readWait size hm hopen hempty hblock =>
    rw [Pipe.pipeStep, mutexAcquire_eq hm, Option.map_some]
    by_cases htype : p.type = .bufBlock
    · rw [pipeReadEnter_block (by exact htype) (by exact hopen),
        if_neg (not_not.mpr (by exact (hblock htype).1)), if_pos (by exact (hblock htype).2), mutexRelease_acquire hm]
    · rw [pipeReadEnter_eq (by exact htype) (by exact hopen), if_pos (by exact hempty htype), mutexRelease_acquire hm]
  | readStart size hm hopen hempty hblock =>
    rw [Pipe.pipeStep, mutexAcquire_eq hm, Option.map_some]
    by_cases htype : p.type = .bufBlock
    · rw [pipeReadEnter_block (by exact htype) (by exact hopen),
        if_neg (not_not.mpr (by exact (hblock htype).1)), if_neg (not_not.mpr (by exact (hblock htype).2))]
    · rw [pipeReadEnter_eq (by exact htype) (by exact hopen), if_neg (by exact hempty htype)]
  | take size got htype hne hsize hb hc =>
    rw [readLoop_ring htype]
    by_cases hun : p.type = .unbuffered
    · rw [if_pos hun, pipeUnbufRead, if_pos ⟨hsize hun, hne⟩, hb, Option.map_some]
    · have hchar : p.type = .bufChar := by
        cases h : p.type with
        | unbuffered => exact absurd h hun
        | bufBlock => exact absurd h htype
        | bufChar => rfl
      rw [if_neg hun, pipeBufcharRead, if_neg hne, hb, Option.map_some, if_neg (hc hchar)]
  | takeLast size got htype hne hb hc =>
    rw [readLoop_ring (by rw [htype]; decide), if_neg (by rw [htype]; decide), pipeBufcharRead, if_neg hne, hb,
      Option.map_some, if_pos hc]
  | taken size got htype hstop =>
    rw [readLoop_ring htype]
    by_cases hun : p.type = .unbuffered
    · rw [if_pos hun, pipeUnbufRead, if_neg fun hgo => ?_]
      rcases hstop with hempty | ⟨-, hle⟩
      · exact hgo.2 hempty
      · exact absurd hgo.1 (not_lt.mpr hle)
    · rcases hstop with hempty | ⟨h, -⟩
      · rw [if_neg hun, pipeBufcharRead, if_pos hempty]
      · exact absurd h hun
  | takeBlock size got htype => rw [Pipe.pipeStep, htype]

theorem PipeMove.frame (h : PipeMove p pc out) : out.pipe.size = p.size ∧ out.pipe.type = p.type ∧
    out.pipe.readOpen = p.readOpen ∧ out.pipe.writeOpen = p.writeOpen := by
  cases h <;> simp only [mutexRelease_size, mutexRelease_type, mutexRelease_readOpen, mutexRelease_writeOpen,
    nextRead, bufCopy, pipeBufblockRead, and_self]

theorem places_update {P : PipePc → Prop} {threads : ℕ → PipePc} {pc : PipePc} (h : ∀ t, P (threads t))
    (hpc : P pc) (t' : ℕ) : P (Function.update threads t pc t') := by
  by_cases e : t' = t
  · rwa [e, Function.update_self]
  · rw [Function.update_of_ne e]
    exact h t'

/-- A place of a block pipe of that size: a read of another size has been refused. -/
def PipePc.Block (size : ℕ) : PipePc → Prop
  | .unbufWrite .. | .waitWrite .. | .writeFailed => False
  | .waitRead n | .readLoop n _ => n = size
  | _ => True

/-- A place of a pipe that is no block pipe. -/
def PipePc.Unbuf : PipePc → Prop
  | .waitBufWrite _ | .bufWrite _ => False
  | _ => True

theorem PipeMove.unbuf (h : PipeMove p pc out) (htype : p.type ≠ .bufBlock) (hpc : pc.Unbuf) : out.pc.Unbuf := by
  cases h with
  | blockStart _ _ heq | blockWait _ _ heq => exact absurd heq htype
  | blockWake | copy => exact hpc.elim
  | writeStart | store | full | fail | stored | writeWake | failed | writeEnd | readClosed | readRefused | readWait
  | readStart | readWake | take | takeLast | taken | takeBlock | readEnd => trivial

theorem PipeMove.block (h : PipeMove p pc out) (htype : p.type = .bufBlock) (hpc : pc.Block p.size) :
    out.pc.Block p.size := by
  cases h with
  | writeStart _ _ hne => exact absurd htype hne
  | take _ _ hne | taken _ _ hne => exact absurd htype hne
  | readWait size _ _ _ hblock | readStart size _ _ _ hblock => exact (hblock htype).1
  | readWake => exact hpc
  | store | full | fail | stored | writeWake | failed => exact hpc.elim
  | blockStart | blockWait | blockWake | copy | writeEnd | readClosed | readRefused | takeLast | takeBlock | readEnd =>
    trivial

end BulbOS.Pipe
