import BulbOS.Pipe.Moves

/-!
# Block pipes

`pipe_buf_write` copies from the buffer of the pipe to the caller. So the buffer never changes: a block pipe
delivers what was written only if it was there before.

* `Locked.move`: what is taken and not returned is in the hand of the one thread inside, in every pipe;
* `BlockSys`: the bytes accepted by the writes, and the memory of the writers before and after;
* `Faithful`: the bytes of a write are those of the buffer, and a woken reader finds a whole block;
* `BlockInv`: both streams repeat the buffer;
* **`block_delivers`**.
-/

namespace BulbOS.Pipe

open KLib

variable {p : PipeState} {pc : PipePc} {out : PipeOut} {threads : ℕ → PipePc} {taken returned : List UInt8} {t : ℕ}

/-- A read of a block pipe has copied nothing before its only round. -/
def PipePc.Fresh : PipePc → Prop
  | .readLoop _ got => got = []
  | _ => True

theorem PipeMove.fresh (h : PipeMove p pc out) (htype : p.type = .bufBlock) : out.pc.Fresh := by
  cases h with
  | take _ _ hne => exact absurd htype hne
  | readStart | readWake => rfl
  | writeStart | blockStart | blockWait | store | full | fail | stored | writeWake | failed | blockWake | copy
  | writeEnd | readClosed | readRefused | readWait | takeLast | taken | takeBlock | readEnd => trivial

/-- **A move in a block pipe** keeps the account of the bytes taken and returned. -/
theorem Locked.move (h : Locked p.mutex threads taken returned) (hmove : PipeMove p (threads t) out)
    (htype : p.type = .bufBlock) (hplace : (threads t).Block p.size) (hfresh : (threads t).Fresh) :
    Locked out.pipe.mutex (Function.update threads t out.pc) (taken ++ out.taken) (returned ++ out.returned) := by
  cases hpc : threads t with
  | idle => rw [hpc] at hmove; cases hmove
  | unbufWrite data i | waitWrite data i | writeFailed => rw [hpc] at hplace; exact hplace.elim
  | write data =>
    rw [hpc] at hmove
    have hin : ¬ (threads t).Holds := by rw [hpc]; exact id
    cases hmove with
    | writeStart _ _ hne => exact absurd htype hne
    | blockStart _ hm =>
      simp only [List.append_nil]
      exact h.enter hm trivial rfl
    | blockWait =>
      simp only [List.append_nil]
      exact h.outside hin id
  | waitBufWrite data =>
    rw [hpc] at hmove
    cases hmove with
    | blockWake _ hm =>
      simp only [List.append_nil]
      exact h.enter hm trivial rfl
  | bufWrite data =>
    rw [hpc] at hmove
    have hin : (threads t).Holds := by rw [hpc]; trivial
    have hhand : (threads t).inHand = [] := by rw [hpc]; rfl
    cases hmove with
    | copy =>
      simp only [bufCopy, List.append_nil]
      exact h.stay hin trivial fun e => by rwa [hhand] at e
  | endWrite ret data =>
    rw [hpc] at hmove
    have hin : (threads t).Holds := by rw [hpc]; trivial
    have hhand : (threads t).inHand = [] := by rw [hpc]; rfl
    cases hmove with
    | writeEnd =>
      rw [mutexRelease]
      simp only [List.append_nil]
      exact h.leave hin id fun e => by rwa [hhand, List.append_nil] at e
  | read size =>
    rw [hpc] at hmove
    have hin : ¬ (threads t).Holds := by rw [hpc]; exact id
    cases hmove with
    | readClosed | readWait =>
      simp only [List.append_nil]
      exact h.outside hin id
    | readRefused _ hm | readStart _ hm =>
      simp only [List.append_nil]
      exact h.enter hm trivial rfl
  | waitRead size =>
    rw [hpc] at hmove
    cases hmove with
    | readWake _ hm =>
      simp only [List.append_nil]
      exact h.enter hm trivial rfl
  | readLoop size got =>
    rw [hpc] at hmove hfresh
    have hin : (threads t).Holds := by rw [hpc]; trivial
    have hhand : (threads t).inHand = [] := by rw [hpc]; exact hfresh
    cases hmove with
    | take _ _ hne | taken _ _ hne => exact absurd htype hne
    | takeLast _ _ hchar => rw [htype] at hchar; cases hchar
    | takeBlock =>
      simp only [pipeBufblockRead, List.append_nil]
      refine h.stay hin trivial fun e => ?_
      rw [hhand, List.append_nil] at e
      rw [e]
      rfl
  | endRead ret got =>
    rw [hpc] at hmove
    have hin : (threads t).Holds := by rw [hpc]; trivial
    have hhand : (threads t).inHand = got := by rw [hpc]; rfl
    cases hmove with
    | readEnd =>
      rw [mutexRelease]
      simp only [List.append_nil]
      exact h.leave hin id fun e => by rwa [hhand] at e

/-! ## Runs -/

/-- A block pipe and its threads, with the bytes that the writes have accepted, in order, and the memory of the
caller before and after each write. -/
structure BlockSys where
  sys : PipeSys
  accepted : List UInt8
  sources : List (List UInt8 × List UInt8)

/-- The bytes that a step of `pipe_write` accepts: as many as it returns. -/
def acceptedBy (p : PipeState) : PipePc → List UInt8
  | .bufWrite data => (bufWriteLen p data.length).elim [] data.take
  | _ => []

/-- The memory at `addr` before and after the `memcpy` of `pipe_buf_write`. -/
def sourceOf (p : PipeState) : PipePc → List (List UInt8 × List UInt8)
  | .bufWrite data =>
    match (pipeBufWrite p data).map PipeOut.pc with
    | some (.endWrite _ data') => [(data, data')]
    | _ => []
  | _ => []

def blockStep (b : BlockSys) (op : PipeOp) : Option BlockSys :=
  (sysStep b.sys op).map fun s =>
    match op with
    | .run t => ⟨s, b.accepted ++ acceptedBy b.sys.pipe (b.sys.threads t),
        b.sources ++ sourceOf b.sys.pipe (b.sys.threads t)⟩
    | _ => { b with sys := s }

def blockBoot (p : PipeState) : BlockSys := ⟨pipeBoot p, [], []⟩

/-- The first `n` bytes of the buffer, repeated without end. -/
def cycle (buffer : ℕ → UInt8) (n m : ℕ) : List UInt8 := (List.range m).map fun j => buffer (j % n)

/-- A write of bytes that the buffer has, both at its start and at their place in the block, or a woken reader that
finds a whole block. -/
def FaithfulAt (b : BlockSys) : PipePc → Prop
  | .bufWrite data =>
    let len := (bufWriteLen b.sys.pipe data.length).getD 0
    data.take len = (List.range len).map b.sys.pipe.buffer ∧
      data.take len = (List.range len).map fun j => b.sys.pipe.buffer ((b.accepted.length + j) % b.sys.pipe.size)
  | .waitRead size => b.sys.taken.length + size ≤ b.accepted.length
  | _ => True

/-- The step of a thread is one of these, or neither a write nor the waking up of a reader. -/
def Faithful (b : BlockSys) : PipeOp → Prop
  | .run t => FaithfulAt b (b.sys.threads t)
  | _ => True

instance (b : BlockSys) : ∀ pc, Decidable (FaithfulAt b pc)
  | .bufWrite _ => inferInstanceAs (Decidable (_ ∧ _))
  | .waitRead _ => inferInstanceAs (Decidable (_ ≤ _))
  | .idle | .write _ | .unbufWrite .. | .waitWrite .. | .writeFailed | .waitBufWrite _ | .endWrite .. | .read _
  | .readLoop .. | .endRead .. => .isTrue trivial

instance (b : BlockSys) : ∀ op, Decidable (Faithful b op)
  | .run t => inferInstanceAs (Decidable (FaithfulAt b (b.sys.threads t)))
  | .write .. | .read .. => .isTrue trivial

/-- What the pipe should do: the blocks read and the bytes returned are a prefix of the bytes accepted, and a
write leaves the memory of its caller as it was. -/
structure Delivered (b : BlockSys) : Prop where
  taken : b.sys.taken <+: b.accepted
  returned : b.sys.returned <+: b.accepted
  sources : ∀ x ∈ b.sources, x.2 = x.1

/-- Both streams repeat the buffer. -/
structure BlockInv (n : ℕ) (buf : ℕ → UInt8) (b : BlockSys) : Prop where
  size : b.sys.pipe.size = n
  small : n < 2 ^ 32
  type : b.sys.pipe.type = .bufBlock
  buffer : b.sys.pipe.buffer = buf
  accepted : b.accepted = cycle buf n b.accepted.length
  taken : b.sys.taken = cycle buf n b.sys.taken.length
  blocks : n ∣ b.sys.taken.length
  le : b.sys.taken.length ≤ b.accepted.length
  write : b.sys.pipe.bWrite = u32 b.accepted.length
  read : b.sys.pipe.bRead = u32 b.sys.taken.length
  sources : ∀ x ∈ b.sources, x.2 = x.1
  places : ∀ t, (b.sys.threads t).Block n ∧ (b.sys.threads t).Fresh
  locked : Locked b.sys.pipe.mutex b.sys.threads b.sys.taken b.sys.returned
  /-- A reader past its wait has a whole block. -/
  full : ∀ t size got, b.sys.threads t = .readLoop size got → b.sys.taken.length + n ≤ b.accepted.length

theorem cycle_add (buffer : ℕ → UInt8) (n m k : ℕ) : cycle buffer n (m + k) =
    cycle buffer n m ++ (List.range k).map fun j => buffer ((m + j) % n) := by
  rw [cycle, cycle, List.range_add, List.map_append, List.map_map]
  rfl

theorem cycle_prefix (buffer : ℕ → UInt8) (n : ℕ) {m k : ℕ} (h : m ≤ k) : cycle buffer n m <+: cycle buffer n k := by
  obtain ⟨d, rfl⟩ := Nat.exists_eq_add_of_le h
  exact ⟨_, (cycle_add buffer n m d).symm⟩

theorem cycle_block (buffer : ℕ → UInt8) {n m : ℕ} (h : n ∣ m) :
    cycle buffer n m ++ (List.range n).map buffer = cycle buffer n (m + n) := by
  rw [cycle_add]
  refine congrArg _ (List.map_congr_left fun j hj => ?_)
  rw [List.mem_range] at hj
  obtain ⟨k, rfl⟩ := h
  rw [Nat.mul_add_mod, Nat.mod_eq_of_lt hj]

theorem bufWriteLen_le {size len : ℕ} (h : bufWriteLen p size = some len) : len ≤ size := by
  obtain ⟨used, -, rfl⟩ := Option.map_eq_some_iff.mp h
  split_ifs with hgt
  · exact hgt.le
  · exact le_rfl

theorem Locked.unique {mutex t' : ℕ} (h : Locked mutex threads taken returned) (ht : (threads t).Holds)
    (ht' : (threads t').Holds) : t = t' := by
  cases h with
  | free h hnone => exact absurd ht (hnone t)
  | held t₀ h _ hone => rw [hone t ht, hone t' ht']

/-- A step that is neither the `memcpy` of a write nor that of a read. -/
theorem PipeMove.quiet (h : PipeMove p pc out) {n : ℕ} (hplace : pc.Block n) (hw : ∀ data, pc ≠ .bufWrite data)
    (hr : ∀ size got, pc ≠ .readLoop size got) : out.pipe.bRead = p.bRead ∧ out.pipe.bWrite = p.bWrite ∧
      out.pipe.buffer = p.buffer ∧ out.taken = [] ∧ acceptedBy p pc = [] ∧ sourceOf p pc = [] := by
  cases h with
  | store | full | fail | stored | writeWake | failed => exact hplace.elim
  | copy data => exact absurd rfl (hw data)
  | take size got | takeLast size got | taken size got | takeBlock size got => exact absurd rfl (hr size got)
  | writeEnd | readEnd => exact ⟨mutexRelease_bRead p, mutexRelease_bWrite p, mutexRelease_buffer p, rfl, rfl, rfl⟩
  | writeStart | blockStart | blockWait | blockWake | readClosed | readRefused | readWait | readStart | readWake =>
    exact ⟨rfl, rfl, rfl, rfl, rfl, rfl⟩

theorem PipeMove.reading (h : PipeMove p pc out) (htype : p.type = .bufBlock) {size : ℕ} {got : List UInt8}
    (hpc : out.pc = .readLoop size got) : pc = .waitRead size ∨ size = p.size ∧ u32 (p.bRead + size) = p.bWrite := by
  cases h with
  | readStart _ _ _ _ hblock =>
    cases hpc
    exact .inr (hblock htype)
  | readWake =>
    cases hpc
    exact .inl rfl
  | take _ _ hne => exact absurd htype hne
  | writeStart | blockStart | blockWait | store | full | fail | stored | writeWake | failed | blockWake | copy
  | writeEnd | readClosed | readRefused | readWait | takeLast | taken | takeBlock | readEnd => cases hpc

theorem block_of_counters {a k n : ℕ} (hle : k ≤ a) (hn : n < 2 ^ 32) (h : u32 (u32 k + n) = u32 a) : k + n ≤ a := by
  rw [u32_add_left] at h
  unfold u32 at h
  omega

variable {n : ℕ} {buf : ℕ → UInt8} {b b' : BlockSys}

theorem blockStep_run (hs : blockStep b (.run t) = some b') : ∃ out, PipeMove b.sys.pipe (b.sys.threads t) out ∧
    b' = ⟨⟨out.pipe, Function.update b.sys.threads t out.pc, b.sys.stored ++ out.stored, b.sys.taken ++ out.taken,
        b.sys.returned ++ out.returned⟩,
      b.accepted ++ acceptedBy b.sys.pipe (b.sys.threads t), b.sources ++ sourceOf b.sys.pipe (b.sys.threads t)⟩ := by
  obtain ⟨s, hsys, rfl⟩ := Option.map_eq_some_iff.mp hs
  obtain ⟨out, ho, rfl⟩ := Option.map_eq_some_iff.mp hsys
  exact ⟨out, pipeStep_move ho, rfl⟩

section Step

variable (h : BlockInv n buf b) (hmove : PipeMove b.sys.pipe (b.sys.threads t) out)

include h

theorem BlockInv.alone (hin : (b.sys.threads t).Holds) {t' size : ℕ} {got : List UInt8}
    (hpc : Function.update b.sys.threads t out.pc t' = .readLoop size got) : out.pc = .readLoop size got := by
  by_cases e : t' = t
  · rwa [e, Function.update_self] at hpc
  · rw [Function.update_of_ne e] at hpc
    exact absurd (h.locked.unique (by rw [hpc]; trivial) hin) e

include hmove

theorem BlockInv.places_run (t' : ℕ) : (Function.update b.sys.threads t out.pc t').Block n ∧
    (Function.update b.sys.threads t out.pc t').Fresh := by
  refine places_update (P := fun pc => pc.Block n ∧ pc.Fresh) h.places ⟨?_, hmove.fresh h.type⟩ t'
  have hblock := hmove.block h.type (h.size ▸ (h.places t).1)
  rwa [h.size] at hblock

theorem BlockInv.locked_run : Locked out.pipe.mutex (Function.update b.sys.threads t out.pc)
    (b.sys.taken ++ out.taken) (b.sys.returned ++ out.returned) :=
  h.locked.move hmove h.type (h.size ▸ (h.places t).1) (h.places t).2

/-- **A step without a copy.** -/
theorem BlockInv.quiet (hw : ∀ data, b.sys.threads t ≠ .bufWrite data)
    (hr : ∀ size got, b.sys.threads t ≠ .readLoop size got)
    (hwake : ∀ size, b.sys.threads t = .waitRead size → b.sys.taken.length + size ≤ b.accepted.length) :
    BlockInv n buf ⟨⟨out.pipe, Function.update b.sys.threads t out.pc, b.sys.stored ++ out.stored,
        b.sys.taken ++ out.taken, b.sys.returned ++ out.returned⟩,
      b.accepted ++ acceptedBy b.sys.pipe (b.sys.threads t), b.sources ++ sourceOf b.sys.pipe (b.sys.threads t)⟩ := by
  obtain ⟨hsize, htype, -⟩ := hmove.frame
  obtain ⟨hread, hwrite, hbuf, htaken, hacc, hsrc⟩ := hmove.quiet (h.places t).1 hw hr
  have hlocked := h.locked_run hmove
  rw [htaken, List.append_nil] at hlocked
  rw [htaken, hacc, hsrc, List.append_nil, List.append_nil, List.append_nil]
  refine ⟨hsize.trans h.size, h.small, htype.trans h.type, hbuf.trans h.buffer, h.accepted, h.taken, h.blocks, h.le,
    hwrite.trans h.write, hread.trans h.read, h.sources, h.places_run hmove, hlocked, fun t' size got hpc => ?_⟩
  by_cases e : t' = t
  · rw [e] at hpc
    simp only [Function.update_self] at hpc
    rcases hmove.reading h.type hpc with hwait | ⟨hm, hfull⟩
    · have hplace := (h.places t).1
      rw [hwait] at hplace
      exact hplace ▸ hwake size hwait
    · rw [h.read, h.write, hm, h.size] at hfull
      exact block_of_counters h.le h.small hfull
  · simp only [Function.update_of_ne e] at hpc
    exact h.full t' size got hpc

/-- **The copy of a write** whose bytes the buffer has. -/
theorem BlockInv.copy {data : List UInt8} (hpc : b.sys.threads t = .bufWrite data) {len : ℕ}
    (hlen : bufWriteLen b.sys.pipe data.length = some len) (hstart : data.take len = (List.range len).map buf)
    (hplace : data.take len = (List.range len).map fun j => buf ((b.accepted.length + j) % n)) :
    BlockInv n buf ⟨⟨out.pipe, Function.update b.sys.threads t out.pc, b.sys.stored ++ out.stored,
        b.sys.taken ++ out.taken, b.sys.returned ++ out.returned⟩,
      b.accepted ++ acceptedBy b.sys.pipe (b.sys.threads t), b.sources ++ sourceOf b.sys.pipe (b.sys.threads t)⟩ := by
  have hle : len ≤ data.length := bufWriteLen_le hlen
  have hin : (b.sys.threads t).Holds := by rw [hpc]; trivial
  have hlocked := h.locked_run hmove
  have hplaces := h.places_run hmove
  have halone : ∀ t' size got, Function.update b.sys.threads t out.pc t' = .readLoop size got →
      out.pc = .readLoop size got := fun _ _ _ => h.alone hin
  have hdata : (List.range len).map b.sys.pipe.buffer ++ data.drop len = data := by
    rw [h.buffer, ← hstart, List.take_append_drop]
  have hout : out = ⟨{ b.sys.pipe with bWrite := u32 (b.sys.pipe.bWrite + len) }, .endWrite len data, [], [], []⟩ := by
    rw [hpc] at hmove
    cases hmove with
    | copy _ hlen' =>
      rw [hlen, Option.some.injEq] at hlen'
      simp only [bufCopy, ← hlen', hdata]
  have hsrc : sourceOf b.sys.pipe (b.sys.threads t) = [(data, data)] := by
    simp only [hpc, sourceOf, pipeBufWrite, hlen, Option.map_some, bufCopy, hdata]
  have hacc : acceptedBy b.sys.pipe (b.sys.threads t) = data.take len := by rw [hpc, acceptedBy, hlen, Option.elim_some]
  have hcount : (b.accepted ++ data.take len).length = b.accepted.length + len := by
    rw [List.length_append, List.length_take_of_le hle]
  rw [hsrc, hacc]
  subst hout
  simp only [List.append_nil] at hlocked ⊢
  refine ⟨h.size, h.small, h.type, h.buffer, ?_, h.taken, h.blocks, ?_, ?_, h.read, fun x hx => ?_, hplaces, hlocked,
    fun t' size got e => by cases halone t' size got e⟩
  · simp only [hcount]
    rw [cycle_add, ← h.accepted, hplace]
  · simp only [hcount]
    exact h.le.trans (Nat.le_add_right _ _)
  · simp only [hcount]
    rw [h.write, u32_add_left]
  · rcases List.mem_append.mp hx with hx | hx
    · exact h.sources x hx
    · rw [List.mem_singleton.mp hx]

/-- **The copy of a read** of a whole block. -/
theorem BlockInv.takeBlock {size : ℕ} {got : List UInt8} (hpc : b.sys.threads t = .readLoop size got) :
    BlockInv n buf ⟨⟨out.pipe, Function.update b.sys.threads t out.pc, b.sys.stored ++ out.stored,
        b.sys.taken ++ out.taken, b.sys.returned ++ out.returned⟩,
      b.accepted ++ acceptedBy b.sys.pipe (b.sys.threads t), b.sources ++ sourceOf b.sys.pipe (b.sys.threads t)⟩ := by
  have hfull := h.full t size got hpc
  have hsize : size = n := by
    have hplace := (h.places t).1
    rwa [hpc] at hplace
  have hin : (b.sys.threads t).Holds := by rw [hpc]; trivial
  have hlocked := h.locked_run hmove
  have hplaces := h.places_run hmove
  have halone : ∀ t' size got, Function.update b.sys.threads t out.pc t' = .readLoop size got →
      out.pc = .readLoop size got := fun _ _ _ => h.alone hin
  have hblock : (List.range n).map b.sys.pipe.buffer = (List.range n).map buf := by rw [h.buffer]
  have hout : out = ⟨{ b.sys.pipe with bRead := u32 (b.sys.pipe.bRead + n) }, .endRead n ((List.range n).map buf), [],
      (List.range n).map buf, []⟩ := by
    rw [hpc] at hmove
    cases hmove with
    | take _ _ hne | taken _ _ hne => exact absurd h.type hne
    | takeLast _ _ hchar => rw [h.type] at hchar; cases hchar
    | takeBlock => simp only [pipeBufblockRead, hsize, hblock]
  have hsrc : sourceOf b.sys.pipe (b.sys.threads t) = [] := by rw [hpc]; rfl
  have hacc : acceptedBy b.sys.pipe (b.sys.threads t) = [] := by rw [hpc]; rfl
  have hcount : (b.sys.taken ++ (List.range n).map buf).length = b.sys.taken.length + n := by
    rw [List.length_append, List.length_map, List.length_range]
  rw [hsrc, hacc]
  subst hout
  simp only [List.append_nil] at hlocked ⊢
  refine ⟨h.size, h.small, h.type, h.buffer, h.accepted, ?_, ?_, ?_, h.write, ?_, h.sources, hplaces, hlocked,
    fun t' size got e => by cases halone t' size got e⟩
  · simp only [hcount]
    rw [← cycle_block buf h.blocks, ← h.taken]
  · simp only [hcount]
    exact (Nat.dvd_add_right h.blocks).mpr (dvd_refl n)
  · simp only [hcount]
    exact hfull
  · simp only [hcount]
    rw [h.read, u32_add_left]

end Step

theorem BlockInv.call (h : BlockInv n buf b) (hidle : b.sys.threads t = .idle) {pc : PipePc} (hhold : ¬ pc.Holds)
    (hplace : pc.Block n) (hfresh : pc.Fresh) (hread : ∀ size got, pc ≠ .readLoop size got) :
    BlockInv n buf { b with sys := { b.sys with threads := Function.update b.sys.threads t pc } } := by
  refine ⟨h.size, h.small, h.type, h.buffer, h.accepted, h.taken, h.blocks, h.le, h.write, h.read, h.sources,
    places_update (P := fun pc => pc.Block n ∧ pc.Fresh) h.places ⟨hplace, hfresh⟩,
    h.locked.outside (by rw [hidle]; exact id) hhold, fun t' size got hpc => ?_⟩
  by_cases e : t' = t
  · simp only [e, Function.update_self] at hpc
    exact absurd hpc (hread size got)
  · simp only [Function.update_of_ne e] at hpc
    exact h.full t' size got hpc

/-- **One step.** -/
theorem BlockInv.step (h : BlockInv n buf b) {op : PipeOp} (hf : Faithful b op) (hs : blockStep b op = some b') :
    BlockInv n buf b' := by
  cases op with
  | write t data | read t size =>
    obtain ⟨s, hsys, rfl⟩ := Option.map_eq_some_iff.mp hs
    simp only [sysStep, Option.ite_none_right_eq_some, Option.some.injEq] at hsys
    obtain ⟨hidle, rfl⟩ := hsys
    exact h.call hidle id trivial trivial fun _ _ e => by cases e
  | run t =>
    obtain ⟨out, hmove, rfl⟩ := blockStep_run hs
    rw [Faithful] at hf
    cases hpc : b.sys.threads t with
    | bufWrite data =>
      have hlen : ∃ len, bufWriteLen b.sys.pipe data.length = some len := by
        rw [hpc] at hmove
        cases hmove with
        | copy _ hlen => exact ⟨_, hlen⟩
      obtain ⟨len, hlen⟩ := hlen
      rw [hpc, FaithfulAt, hlen, Option.getD_some] at hf
      obtain ⟨hstart, hplace⟩ := hf
      rw [h.buffer, h.size] at hplace
      rw [h.buffer] at hstart
      exact hpc ▸ h.copy hmove hpc hlen hstart hplace
    | readLoop size got => exact hpc ▸ h.takeBlock hmove hpc
    | waitRead size =>
      rw [hpc] at hf
      refine hpc ▸ h.quiet hmove (fun _ e => ?_) (fun _ _ e => ?_) fun m e => ?_
      · rw [hpc] at e; cases e
      · rw [hpc] at e; cases e
      · rw [hpc] at e; cases e; exact hf
    | idle => rw [hpc] at hmove; cases hmove
    | write | unbufWrite | waitWrite | writeFailed | waitBufWrite | endWrite | read | endRead =>
      refine hpc ▸ h.quiet hmove (fun _ e => ?_) (fun _ _ e => ?_) fun m e => ?_
      all_goals rw [hpc] at e; cases e

theorem BlockInv.delivered (h : BlockInv n buf b) : Delivered b := by
  have htaken : b.sys.taken <+: b.accepted := by
    rw [h.taken, h.accepted]
    exact cycle_prefix buf n h.le
  refine ⟨htaken, List.IsPrefix.trans ?_ htaken, h.sources⟩
  cases h.locked with
  | free _ _ hret => exact hret ▸ List.prefix_rfl
  | held t _ _ _ hret => exact ⟨_, hret⟩

theorem blockInv_boot (size : ℕ) (buf : ℕ → UInt8) :
    BlockInv (size % 2 ^ 30) buf (blockBoot (pipeAlloc size .bufBlock buf)) where
  size := rfl
  small := (Nat.mod_lt _ (by decide)).trans (by decide)
  type := rfl
  buffer := rfl
  accepted := rfl
  taken := rfl
  blocks := dvd_zero _
  le := le_rfl
  write := rfl
  read := rfl
  sources _ hx := absurd hx List.not_mem_nil
  places _ := ⟨trivial, trivial⟩
  locked := .free rfl (fun _ => id) rfl
  full _ _ _ e := nomatch e

/-- **Block pipes.** In every run of writes of any sizes and of reads in which the bytes of each write are in the
buffer already, at its start and at their place in the block, and no reader wakes up before its block is full,
the blocks read are a prefix of the bytes accepted and no write changes the memory of its caller. -/
theorem block_delivers {size : ℕ} {buf : ℕ → UInt8} {ops : List PipeOp} {b : BlockSys}
    (h : Run (fun b op b' => blockStep b op = some b' ∧ Faithful b op)
      (blockBoot (pipeAlloc size .bufBlock buf)) ops b) : Delivered b := by
  have hinv : BlockInv (size % 2 ^ 30) buf b :=
    h.invariant (fun _ _ _ hi hs => hi.step hs.2 hs.1) (blockInv_boot size buf)
  exact hinv.delivered

/-- The block that is in the buffer is written, and read. -/
def sameOps : List PipeOp := [.write 0 [7, 7], .run 0, .run 0, .run 0, .read 1 2, .run 1, .run 1, .run 1]

theorem block_delivers_same : ∃ b, Run (fun b op b' => blockStep b op = some b' ∧ Faithful b op)
    (blockBoot (pipeAlloc 2 .bufBlock fun _ => 7)) sameOps b ∧ b.accepted = [7, 7] ∧ b.sys.returned = [7, 7] ∧
      Delivered b := by
  have hl : (sameOps.foldlM (fun b op => if Faithful b op then blockStep b op else none)
      (blockBoot (pipeAlloc 2 .bufBlock fun _ => 7))).map (fun b => (b.accepted, b.sys.returned)) =
      some ([7, 7], [7, 7]) := by decide +kernel
  obtain ⟨b, hb, hv⟩ := Option.map_eq_some_iff.mp hl
  rw [Prod.mk.injEq] at hv
  have hrun : Run (fun b op b' => blockStep b op = some b' ∧ Faithful b op)
      (blockBoot (pipeAlloc 2 .bufBlock fun _ => 7)) sameOps b := by
    refine run_of_foldlM (fun s op s' hs => ?_) hb
    rw [Option.ite_none_right_eq_some] at hs
    exact ⟨hs.2, hs.1⟩
  exact ⟨b, hrun, hv.1, hv.2, block_delivers hrun⟩

/-- Two bytes are written to a pipe whose buffer holds zeros, and read. -/
def swappedOps : List PipeOp :=
  [.write 0 [1, 2], .run 0, .run 0, .run 0, .read 1 2, .run 1, .run 1, .run 1]

/-- The writer's memory is overwritten, and the read returns what was in the buffer. -/
theorem block_write_overwrites_source : ∃ b, Run (fun b op b' => blockStep b op = some b')
    (blockBoot (pipeAlloc 2 .bufBlock fun _ => 0)) swappedOps b ∧ b.accepted = [1, 2] ∧
      b.sources = [([1, 2], [0, 0])] ∧ b.sys.returned = [0, 0] ∧ ¬ Delivered b := by
  have hl : (swappedOps.foldlM blockStep (blockBoot (pipeAlloc 2 .bufBlock fun _ => 0))).map
      (fun b => (b.accepted, b.sources, b.sys.returned)) =
        some ([1, 2], [([1, 2], [0, 0])], [0, 0]) := by decide +kernel
  obtain ⟨b, hb, hv⟩ := Option.map_eq_some_iff.mp hl
  simp only [Prod.mk.injEq] at hv
  obtain ⟨hacc, hsrc, hret⟩ := hv
  refine ⟨b, run_of_foldlM (fun _ _ _ e => e) hb, hacc, hsrc, hret, fun hd => ?_⟩
  have hpre := hd.returned
  rw [hacc, hret] at hpre
  exact absurd hpre (by decide)

end BulbOS.Pipe
