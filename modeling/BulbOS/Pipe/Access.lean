import BulbOS.Pipe.Moves

/-!
# Where a pipe stores and takes its bytes

`pipe_unbuf_write` counts positions modulo `PIPE_SIZE`, the reads modulo the size of the pipe.

* `storesAt`, `takesAt`, `copiesAt`: the positions of the buffer that one step uses; `PipeMove.access`: they are
  those that the step does use;
* `Faults`: a thread that has the mutex divides by a size of 0;
* `Sound`: none does, all positions are below the size, and every byte is taken where it was stored;
* `Tracked`: in a pipe of `PIPE_SIZE` bytes the two lists of positions are themselves a queue;
* `Alone.writes`, `Alone.reads`: a thread that stores or takes bytes alone;
* **`accesses_in_buffer_iff`**: the sizes for which every run is sound.
-/

namespace BulbOS.Pipe

open KLib

/-- Where a step stores a byte. -/
def storesAt (p : PipeState) : PipePc → List ℕ
  | .unbufWrite data i =>
    if i < data.length ∧ p.bWrite ≠ u32 (p.bRead + pipeSize) then [p.bWrite % pipeSize] else []
  | _ => []

/-- Where a step of `pipe_read` takes bytes. -/
def takesAt (p : PipeState) : PipePc → List ℕ
  | .readLoop size got =>
    match p.type with
    | .unbuffered => if got.length < size ∧ p.bRead ≠ p.bWrite then (modSize p p.bRead).toList else []
    | .bufChar => if p.bRead ≠ p.bWrite then (modSize p p.bRead).toList else []
    | .bufBlock => List.range size
  | _ => []

/-- What the `memcpy` of `pipe_buf_write` copies. -/
def copiesAt (p : PipeState) : PipePc → List ℕ
  | .bufWrite data => (bufWriteLen p data.length).elim [] List.range
  | _ => []

/-- A thread that has the mutex has no next place: it divides by zero. -/
def Faults (p : PipeState) (pc : PipePc) : Prop := pc.Holds ∧ pipeStep p pc = none

theorem not_faults {p : PipeState} (h : p.size ≠ 0) (pc : PipePc) : ¬ Faults p pc := by
  rintro ⟨hin, hnone⟩
  cases pc with
  | idle | write | waitWrite | writeFailed | waitBufWrite | read | waitRead => exact hin.elim
  | unbufWrite | endWrite | endRead => rw [pipeStep] at hnone; cases hnone
  | bufWrite data =>
    rw [pipeStep, pipeBufWrite, bufWriteLen, modSize_eq h] at hnone
    cases hnone
  | readLoop size got =>
    rw [pipeStep] at hnone
    cases htype : p.type with
    | bufBlock => rw [htype] at hnone; cases hnone
    | unbuffered =>
      simp only [htype, pipeUnbufRead, readByte_eq h, Option.map_some] at hnone
      split_ifs at hnone
    | bufChar =>
      simp only [htype, pipeBufcharRead, readByte_eq h, Option.map_some] at hnone
      split_ifs at hnone

theorem takesAt_ring {p : PipeState} {size : ℕ} {got : List UInt8} (htype : p.type ≠ .bufBlock)
    (hne : p.bRead ≠ p.bWrite) (hsize : p.type = .unbuffered → got.length < size) :
    takesAt p (.readLoop size got) = (modSize p p.bRead).toList := by
  rw [takesAt]
  cases h : p.type with
  | unbuffered => exact if_pos ⟨hsize h, hne⟩
  | bufBlock => exact absurd h htype
  | bufChar => exact if_pos hne

theorem takesAt_stop {p : PipeState} {size : ℕ} {got : List UInt8} (htype : p.type ≠ .bufBlock)
    (hstop : p.bRead = p.bWrite ∨ p.type = .unbuffered ∧ size ≤ got.length) :
    takesAt p (.readLoop size got) = [] := by
  rw [takesAt]
  cases h : p.type with
  | unbuffered =>
    refine if_neg fun hc => ?_
    rcases hstop with hempty | ⟨_, hle⟩
    · exact hc.2 hempty
    · exact absurd hc.1 (not_lt.mpr hle)
  | bufBlock => exact absurd h htype
  | bufChar =>
    rcases hstop with hempty | ⟨hun, _⟩
    · exact if_neg (not_not.mpr hempty)
    · rw [h] at hun
      cases hun

theorem takesAt_block {p : PipeState} {size : ℕ} {got : List UInt8} (htype : p.type = .bufBlock) :
    takesAt p (.readLoop size got) = List.range size := by
  rw [takesAt, htype]

theorem map_modSize {p : PipeState} {b : UInt8} (hb : readByte p = some b) :
    [b] = (modSize p p.bRead).toList.map p.buffer := by
  rw [← Option.toList_map, ← readByte, hb, Option.toList_some]

/-- A step changes the buffer only where it stores, and takes what the buffer has where it takes. -/
theorem PipeMove.access {p : PipeState} {pc : PipePc} {out : PipeOut} (h : PipeMove p pc out) :
    out.stored = (storesAt p pc).map out.pipe.buffer ∧ out.taken = (takesAt p pc).map p.buffer ∧
      ∀ i, i ∉ storesAt p pc → out.pipe.buffer i = p.buffer i := by
  cases h with
  | store data i b hb hroom =>
    have hi : i < data.length := (List.getElem?_eq_some_iff.mp hb).1
    rw [storesAt, if_pos ⟨hi, hroom⟩]
    refine ⟨by simp, rfl, fun j hj => ?_⟩
    exact Function.update_of_ne (fun e => hj (List.mem_singleton.mpr e)) ..
  | full data i _ hfull | fail data i _ hfull =>
    rw [storesAt, if_neg fun hc => hc.2 hfull, mutexRelease_buffer]
    exact ⟨rfl, rfl, fun _ _ => rfl⟩
  | stored data i hi =>
    rw [storesAt, if_neg fun hc => absurd hc.1 (not_lt.mpr hi)]
    exact ⟨rfl, rfl, fun _ _ => rfl⟩
  | take size got htype hne hsize hb =>
    rw [takesAt_ring htype hne hsize]
    exact ⟨rfl, map_modSize hb, fun _ _ => rfl⟩
  | takeLast size got htype hne hb =>
    rw [takesAt_ring (by rw [htype]; decide) hne fun e => by rw [htype] at e; cases e]
    exact ⟨rfl, map_modSize hb, fun _ _ => rfl⟩
  | taken size got htype hstop =>
    rw [takesAt_stop htype hstop]
    exact ⟨rfl, rfl, fun _ _ => rfl⟩
  | takeBlock size got htype =>
    rw [takesAt_block htype]
    exact ⟨rfl, rfl, fun _ _ => rfl⟩
  | failed | writeEnd | readEnd =>
    rw [mutexRelease_buffer]
    exact ⟨rfl, rfl, fun _ _ => rfl⟩
  | writeStart | blockStart | blockWait | writeWake | blockWake | copy | readClosed | readRefused | readWait
  | readStart | readWake => exact ⟨rfl, rfl, fun _ _ => rfl⟩

/-- A pipe and its threads, with the positions at which bytes were stored, taken and copied so far. -/
structure AccessSys where
  sys : PipeSys
  stores : List ℕ
  takes : List ℕ
  copies : List ℕ

/-- The positions that an operation uses. -/
def usedBy (f : PipeState → PipePc → List ℕ) (s : PipeSys) : PipeOp → List ℕ
  | .run t => f s.pipe (s.threads t)
  | _ => []

def accessStep (a : AccessSys) (op : PipeOp) : Option AccessSys :=
  (sysStep a.sys op).map fun s =>
    ⟨s, a.stores ++ usedBy storesAt a.sys op, a.takes ++ usedBy takesAt a.sys op,
      a.copies ++ usedBy copiesAt a.sys op⟩

def accessBoot (p : PipeState) : AccessSys := ⟨pipeBoot p, [], [], []⟩

/-- No thread divides by zero, every position is below the size of the pipe, and every byte is taken where it was
stored. -/
structure Sound (a : AccessSys) : Prop where
  running : ∀ t, ¬ Faults a.sys.pipe (a.sys.threads t)
  stores : ∀ i ∈ a.stores, i < a.sys.pipe.size
  takes : ∀ i ∈ a.takes, i < a.sys.pipe.size
  copies : ∀ i ∈ a.copies, i < a.sys.pipe.size
  pre : a.takes <+: a.stores

/-! ## Pipes of `PIPE_SIZE` bytes -/

/-- The cells of the ring hold their own positions. -/
structure Tracked (a : AccessSys) : Prop where
  size : a.sys.pipe.size = pipeSize
  type : a.sys.pipe.type ≠ .bufBlock
  places : ∀ t, (a.sys.threads t).Unbuf
  ring : Ring pipeSize id a.sys.pipe.bRead a.sys.pipe.bWrite a.stores a.takes
  inside : ∀ i ∈ a.stores, i < pipeSize
  copies : a.copies = []

variable {a a' : AccessSys} {t : ℕ}

/-- **One step of a thread.** -/
theorem Tracked.run (h : Tracked a) {out : PipeOut} (ho : pipeStep a.sys.pipe (a.sys.threads t) = some out) :
    Ring pipeSize id out.pipe.bRead out.pipe.bWrite (a.stores ++ storesAt a.sys.pipe (a.sys.threads t))
      (a.takes ++ takesAt a.sys.pipe (a.sys.threads t)) ∧
    (∀ i ∈ storesAt a.sys.pipe (a.sys.threads t), i < pipeSize) ∧
    copiesAt a.sys.pipe (a.sys.threads t) = [] := by
  have hplace := h.places t
  have hmove := pipeStep_move ho
  have hring := h.ring
  cases hpc : a.sys.threads t with
  | bufWrite data | waitBufWrite data => rw [hpc] at hplace; exact hplace.elim
  | unbufWrite data i =>
    rw [hpc] at hmove
    cases hmove with
    | store _ _ b hb hroom =>
      have hi : i < data.length := (List.getElem?_eq_some_iff.mp hb).1
      rw [storesAt, if_pos ⟨hi, hroom⟩]
      simp only [takesAt, copiesAt, List.append_nil, List.mem_singleton, forall_eq]
      exact ⟨hring.push_position hroom, Nat.mod_lt _ (by decide), trivial⟩
    | full _ _ _ hfull | fail _ _ _ hfull =>
      rw [storesAt, if_neg fun hc => hc.2 hfull]
      simpa [takesAt, copiesAt] using hring
    | stored _ _ hi =>
      rw [storesAt, if_neg fun hc => absurd hc.1 (not_lt.mpr hi)]
      simpa [takesAt, copiesAt] using hring
  | readLoop size got =>
    rw [hpc] at hmove
    simp only [storesAt, copiesAt, List.append_nil, List.not_mem_nil, false_implies, implies_true, and_true]
    cases hmove with
    | take _ _ htype hne hsize =>
      rw [takesAt_ring htype hne hsize, modSize_eq (by rw [h.size]; decide), h.size]
      exact hring.pop_position hne
    | takeLast _ _ htype hne =>
      rw [takesAt_ring h.type hne (fun e => by rw [htype] at e; cases e), modSize_eq (by rw [h.size]; decide), h.size]
      exact hring.pop_position hne
    | taken _ _ htype hstop =>
      rw [takesAt_stop htype hstop, List.append_nil]
      exact hring
    | takeBlock _ _ htype => exact absurd htype h.type
  | idle => rw [hpc] at ho; cases ho
  | write data | waitWrite data i | writeFailed | endWrite ret data | read size | waitRead size | endRead ret got =>
    rw [hpc] at hmove
    simp only [storesAt, takesAt, copiesAt, List.append_nil, List.not_mem_nil, false_implies, implies_true, and_true]
    cases hmove <;> simpa using hring

theorem Tracked.step (h : Tracked a) {op : PipeOp} (hs : accessStep a op = some a') : Tracked a' := by
  obtain ⟨s, hstep, rfl⟩ := Option.map_eq_some_iff.mp hs
  cases op with
  | write t data | read t size =>
    simp only [sysStep, Option.ite_none_right_eq_some, Option.some.injEq] at hstep
    obtain ⟨-, rfl⟩ := hstep
    simp only [usedBy, List.append_nil]
    exact ⟨h.size, h.type, places_update h.places trivial, h.ring, h.inside, h.copies⟩
  | run t =>
    obtain ⟨out, ho, rfl⟩ := Option.map_eq_some_iff.mp hstep
    have hmove := pipeStep_move ho
    obtain ⟨hsize, htype, -⟩ := hmove.frame
    obtain ⟨hring, hin, hcopy⟩ := h.run ho
    refine ⟨hsize.trans h.size, htype ▸ h.type, places_update h.places (hmove.unbuf h.type (h.places t)), hring,
      fun i hi => ?_, ?_⟩
    · rcases List.mem_append.mp hi with hi | hi
      · exact h.inside i hi
      · exact hin i hi
    · rw [h.copies, List.nil_append]
      exact hcopy

theorem Tracked.sound (h : Tracked a) : Sound a where
  running t := not_faults (by rw [h.size]; decide) (a.sys.threads t)
  stores i hi := h.size ▸ h.inside i hi
  takes i hi := h.size ▸ h.inside i (h.ring.pre.subset hi)
  copies i hi := by rw [h.copies] at hi; cases hi
  pre := h.ring.pre

/-! ## One thread alone -/

/-- Some operations lead from one state to another. -/
def Reaches (a a' : AccessSys) : Prop := ∃ ops, Run (fun a op a' => accessStep a op = some a') a ops a'

theorem Reaches.trans {a'' : AccessSys} (h : Reaches a a') (h' : Reaches a' a'') : Reaches a a'' := by
  obtain ⟨ops, hr⟩ := h
  obtain ⟨ops', hr'⟩ := h'
  exact ⟨ops ++ ops', hr.append hr'⟩

variable {type : PipeType} {size mutex r w : ℕ} {pc : PipePc} {stores takes : List ℕ}

/-- Thread 0 is at a place of the code, in a pipe with both ends open and counters `r` and `w`. -/
structure Alone (type : PipeType) (size : ℕ) (pc : PipePc) (mutex r w : ℕ) (stores takes : List ℕ)
    (a : AccessSys) : Prop where
  type : a.sys.pipe.type = type
  size : a.sys.pipe.size = size
  readOpen : a.sys.pipe.readOpen = true
  writeOpen : a.sys.pipe.writeOpen = true
  thread : a.sys.threads 0 = pc
  mutex : a.sys.pipe.mutex = mutex
  bRead : a.sys.pipe.bRead = r
  bWrite : a.sys.pipe.bWrite = w
  stores : a.stores = stores
  takes : a.takes = takes

theorem Alone.run (h : Alone type size pc mutex r w stores takes a) {out : PipeOut}
    (hmove : PipeMove a.sys.pipe pc out) :
    ∃ a', Reaches a a' ∧ Alone type size out.pc out.pipe.mutex out.pipe.bRead out.pipe.bWrite
      (stores ++ storesAt a.sys.pipe pc) (takes ++ takesAt a.sys.pipe pc) a' := by
  obtain ⟨hsize, htype, hro, hwo⟩ := hmove.frame
  have hrun : pipeStep a.sys.pipe (a.sys.threads 0) = some out := by rw [h.thread, hmove.pipeStep]
  have hstep : (sysStep a.sys (.run 0)).isSome := by rw [sysStep, hrun]; rfl
  obtain ⟨s, hs⟩ := Option.isSome_iff_exists.mp hstep
  refine ⟨_, ⟨[.run 0], .single (Option.map_eq_some_iff.mpr ⟨s, hs, rfl⟩)⟩, ?_⟩
  rw [sysStep, hrun, Option.map_some, Option.some.injEq] at hs
  rw [← hs, ← h.stores, ← h.takes, ← h.thread]
  exact ⟨htype.trans h.type, hsize.trans h.size, hro.trans h.readOpen, hwo.trans h.writeOpen,
    by simp only [Function.update_self], rfl, rfl, rfl, rfl, rfl⟩

theorem Alone.released {a₁ : AccessSys} (h : Alone type size .idle (mutexRelease a.sys.pipe).mutex
    (mutexRelease a.sys.pipe).bRead (mutexRelease a.sys.pipe).bWrite (stores ++ []) (takes ++ []) a₁)
    (hal : Alone type size pc 1 r w stores takes a) : Alone type size .idle 0 r w stores takes a₁ := by
  have hm : (mutexRelease a.sys.pipe).mutex = 0 := by
    rw [mutexRelease, hal.mutex]
    show sub32 1 1 = 0
    decide
  rwa [hm, mutexRelease_bRead, mutexRelease_bWrite, hal.bRead, hal.bWrite, List.append_nil, List.append_nil] at h

theorem Alone.call (h : Alone type size .idle mutex r w stores takes a) {op : PipeOp}
    (hop : (∃ data, op = .write 0 data ∧ pc = .write data) ∨ ∃ n, op = .read 0 n ∧ pc = .read n) :
    ∃ a', Reaches a a' ∧ Alone type size pc mutex r w stores takes a' := by
  have hs : sysStep a.sys op = some { a.sys with threads := Function.update a.sys.threads 0 pc } := by
    obtain ⟨data, rfl, rfl⟩ | ⟨n, rfl, rfl⟩ := hop
    · rw [sysStep, if_pos h.thread]
    · rw [sysStep, if_pos h.thread]
  have hused : ∀ f, usedBy f a.sys op = [] := by
    obtain ⟨data, rfl, rfl⟩ | ⟨n, rfl, rfl⟩ := hop <;> exact fun _ => rfl
  refine ⟨_, ⟨[op], .single (Option.map_eq_some_iff.mpr ⟨_, hs, rfl⟩)⟩, ?_⟩
  rw [hused, hused, hused, List.append_nil, List.append_nil]
  exact ⟨h.type, h.size, h.readOpen, h.writeOpen, by simp only [Function.update_self], h.mutex, h.bRead, h.bWrite,
    h.stores, h.takes⟩

/-- The positions of the bytes `m` to `n`, in a ring of `N` bytes. -/
def positions (N m n : ℕ) : List ℕ := (List.range' m (n - m)).map (· % N)

theorem positions_self (N m : ℕ) : positions N m m = [] := by
  rw [positions, Nat.sub_self]
  rfl

theorem positions_snoc {N m n : ℕ} (h : m ≤ n) : positions N m n ++ [n % N] = positions N m (n + 1) := by
  rw [positions, positions, show n + 1 - m = n - m + 1 by omega, List.range'_concat, List.map_append,
    List.map_singleton, Nat.one_mul, Nat.add_sub_cancel' h]

theorem positions_append {N l m n : ℕ} (h : l ≤ m) (h' : m ≤ n) :
    positions N l m ++ positions N m n = positions N l n := by
  have hr : List.range' l (m - l) ++ List.range' m (n - m) = List.range' l (n - l) := by
    rw [show n - l = (m - l) + (n - m) by omega, List.range'_append.symm, Nat.one_mul, Nat.add_sub_cancel' h]
  rw [positions, positions, positions, ← List.map_append, hr]

theorem Alone.store {data : List UInt8} (hr : r + pipeSize < 2 ^ 32) {i n : ℕ}
    (h : Alone type size (.unbufWrite data i) 1 r w stores takes a) (hlen : i + n ≤ data.length)
    (hroom : w + n ≤ r + pipeSize) :
    ∃ a', Reaches a a' ∧ Alone type size (.unbufWrite data (i + n)) 1 r (w + n)
      (stores ++ positions pipeSize w (w + n)) takes a' := by
  induction n with
  | zero => exact ⟨a, ⟨[], .nil a⟩, by rwa [Nat.add_zero, Nat.add_zero, positions_self, List.append_nil]⟩
  | succ n ih =>
    obtain ⟨a₁, h₁, hal⟩ := ih (by omega) (by omega)
    have hi : i + n < data.length := by omega
    have hne : a₁.sys.pipe.bWrite ≠ u32 (a₁.sys.pipe.bRead + pipeSize) := by
      rw [hal.bWrite, hal.bRead, u32_of_lt hr]
      omega
    obtain ⟨a₂, h₂, hal₂⟩ := hal.run (.store data (i + n) _ (List.getElem?_eq_getElem hi) hne)
    refine ⟨a₂, h₁.trans h₂, ?_⟩
    have hs : storesAt a₁.sys.pipe (.unbufWrite data (i + n)) = [(w + n) % pipeSize] := by
      rw [storesAt, if_pos ⟨hi, hne⟩, hal.bWrite]
    rw [hs, List.append_assoc, positions_snoc (Nat.le_add_right w n)] at hal₂
    have hu : u32 (w + (n + 1)) = w + (n + 1) := u32_of_lt (by omega)
    simpa only [hal.mutex, hal.bRead, hal.bWrite, hu, takesAt, List.append_nil, Nat.add_assoc] using hal₂

/-- **A write of bytes that fit.** -/
theorem Alone.writes (hr : r + pipeSize < 2 ^ 32) (htype : type ≠ .bufBlock)
    (h : Alone type size .idle 0 r w stores takes a) {n : ℕ} (hroom : w + n ≤ r + pipeSize) :
    ∃ a', Reaches a a' ∧ Alone type size .idle 0 r (w + n) (stores ++ positions pipeSize w (w + n)) takes a' := by
  let data : List UInt8 := List.replicate n 0
  have hlen : data.length = n := List.length_replicate
  obtain ⟨a₁, h₁, hal₁⟩ := h.call (.inl ⟨data, rfl, rfl⟩)
  obtain ⟨a₂, h₂, hal₂⟩ := hal₁.run (.writeStart data (by rw [hal₁.mutex]; decide) (hal₁.type ▸ htype))
  simp only [hal₁.bRead, hal₁.bWrite, storesAt, takesAt, List.append_nil] at hal₂
  obtain ⟨a₃, h₃, hal₃⟩ := hal₂.store hr (n := n) (by omega) hroom
  obtain ⟨a₄, h₄, hal₄⟩ := hal₃.run (.stored data (0 + n) (by omega))
  rw [storesAt, if_neg (by omega)] at hal₄
  simp only [hal₃.mutex, hal₃.bRead, hal₃.bWrite, takesAt, List.append_nil] at hal₄
  obtain ⟨a₅, h₅, hal₅⟩ := hal₄.run (.writeEnd _ data)
  exact ⟨a₅, (((h₁.trans h₂).trans h₃).trans h₄).trans h₅, hal₅.released hal₄⟩

/-- **A read** takes some of the bytes, unless there are none. -/
theorem Alone.readLoop (hw : w < 2 ^ 32) (htype : type ≠ .bufBlock) (hpos : size ≠ 0) {n : ℕ} {got : List UInt8}
    (h : Alone type size (.readLoop n got) 1 r w stores takes a) (hrw : r ≤ w) (hn : got.length + (w - r) ≤ n) :
    ∃ a' r', Reaches a a' ∧ r ≤ r' ∧ r' ≤ w ∧ (r < w → r < r') ∧
      Alone type size .idle 0 r' w stores (takes ++ positions size r r') a' := by
  have ht : a.sys.pipe.type ≠ .bufBlock := h.type ▸ htype
  induction hd : w - r generalizing r got takes a with
  | zero =>
    have hempty : a.sys.pipe.bRead = a.sys.pipe.bWrite := by rw [h.bRead, h.bWrite]; omega
    obtain ⟨a₁, h₁, hal₁⟩ := h.run (.taken n got ht (.inl hempty))
    rw [takesAt_stop ht (.inl hempty)] at hal₁
    simp only [h.mutex, h.bRead, h.bWrite, storesAt, List.append_nil] at hal₁
    obtain ⟨a₂, h₂, hal₂⟩ := hal₁.run (.readEnd _ got)
    refine ⟨a₂, r, h₁.trans h₂, le_rfl, hrw, fun hlt => by omega, ?_⟩
    rw [positions_self, List.append_nil]
    exact hal₂.released hal₁
  | succ d ih =>
    have hne : a.sys.pipe.bRead ≠ a.sys.pipe.bWrite := by rw [h.bRead, h.bWrite]; omega
    have hsize : a.sys.pipe.type = .unbuffered → got.length < n := fun _ => by omega
    have hu : u32 (r + 1) = r + 1 := u32_of_lt (by omega)
    have hmod : modSize a.sys.pipe a.sys.pipe.bRead = some (r % size) := by
      rw [modSize_eq (h.size ▸ hpos), h.size, h.bRead]
    have hb : readByte a.sys.pipe = some (a.sys.pipe.buffer (r % size)) := by rw [readByte, hmod, Option.map_some]
    by_cases hc : a.sys.pipe.type = .bufChar ∧ ((a.sys.pipe.buffer (r % size)).toNat : ℤ) = delimiter n
    · obtain ⟨a₁, h₁, hal₁⟩ := h.run (.takeLast n got hc.1 hne hb hc.2)
      rw [takesAt_ring ht hne hsize, hmod] at hal₁
      simp only [nextRead, h.mutex, h.bRead, h.bWrite, hu, storesAt, Option.toList_some, List.append_nil] at hal₁
      obtain ⟨a₂, h₂, hal₂⟩ := hal₁.run (.readEnd _ _)
      refine ⟨a₂, r + 1, h₁.trans h₂, by omega, by omega, fun _ => by omega, ?_⟩
      rw [← positions_snoc le_rfl, positions_self, List.nil_append]
      exact hal₂.released hal₁
    · obtain ⟨a₁, h₁, hal₁⟩ := h.run (.take n got ht hne hsize hb fun e hd => hc ⟨e, hd⟩)
      rw [takesAt_ring ht hne hsize, hmod] at hal₁
      simp only [nextRead, h.mutex, h.bRead, h.bWrite, hu, storesAt, Option.toList_some, List.append_nil] at hal₁
      obtain ⟨a₂, r', h₂, hle, hle', -, hal₂⟩ := ih hal₁ (by omega)
        (by rw [List.length_append, List.length_singleton]; omega) (hal₁.type ▸ htype) (by omega)
      refine ⟨a₂, r', h₁.trans h₂, by omega, hle', fun _ => by omega, ?_⟩
      have hp : positions size r (r + 1) ++ positions size (r + 1) r' = positions size r r' :=
        positions_append (Nat.le_succ r) hle
      rw [← positions_snoc le_rfl, positions_self, List.nil_append] at hp
      rwa [List.append_assoc, hp] at hal₂

/-- **Reads** until the ring is empty. -/
theorem Alone.reads (hw : w < 2 ^ 32) (htype : type ≠ .bufBlock) (hpos : size ≠ 0)
    (h : Alone type size .idle 0 r w stores takes a) (hrw : r ≤ w) :
    ∃ a', Reaches a a' ∧ Alone type size .idle 0 w w stores (takes ++ positions size r w) a' := by
  induction hd : w - r using Nat.strong_induction_on generalizing r takes a with
  | _ d ih =>
    by_cases he : r = w
    · subst he
      exact ⟨a, ⟨[], .nil a⟩, by rwa [positions_self, List.append_nil]⟩
    · obtain ⟨a₁, h₁, hal₁⟩ := h.call (.inr ⟨w - r, rfl, rfl⟩)
      have ht : a₁.sys.pipe.type ≠ .bufBlock := hal₁.type ▸ htype
      obtain ⟨a₂, h₂, hal₂⟩ := hal₁.run (.readStart (w - r) (by rw [hal₁.mutex]; decide) hal₁.writeOpen
        (fun _ => by rw [hal₁.bRead, hal₁.bWrite]; exact he) fun e => absurd e ht)
      simp only [hal₁.bRead, hal₁.bWrite, storesAt, takesAt, List.append_nil] at hal₂
      obtain ⟨a₃, r', h₃, hle, hle', hlt, hal₃⟩ := hal₂.readLoop hw htype hpos hrw (by simp)
      have := hlt (by omega)
      obtain ⟨a₄, h₄, hal₄⟩ := ih (w - r') (by omega) hal₃ hle' rfl
      refine ⟨a₄, ((h₁.trans h₂).trans h₃).trans h₄, ?_⟩
      rwa [List.append_assoc, positions_append hle hle'] at hal₄

theorem alone_boot (n : ℕ) (type : PipeType) (buffer : ℕ → UInt8) :
    Alone type (n % 2 ^ 30) .idle 0 0 0 [] [] (accessBoot (pipeAlloc n type buffer)) :=
  ⟨rfl, rfl, rfl, rfl, rfl, rfl, rfl, rfl, rfl, rfl⟩

theorem tracked_boot {n : ℕ} (hn : n % 2 ^ 30 = pipeSize) (htype : type ≠ .bufBlock) (buffer : ℕ → UInt8) :
    Tracked (accessBoot (pipeAlloc n type buffer)) where
  size := hn
  type := htype
  places _ := trivial
  ring := ring_nil id (by decide) (by decide)
  inside _ hi := absurd hi List.not_mem_nil
  copies := rfl

theorem stores_past_end {n : ℕ} (hn : n % 2 ^ 30 < pipeSize) (htype : type ≠ .bufBlock) (buffer : ℕ → UInt8) :
    ∃ a, Reaches (accessBoot (pipeAlloc n type buffer)) a ∧ a.sys.pipe.size = n % 2 ^ 30 ∧
      n % 2 ^ 30 ∈ a.stores := by
  have hfit : 0 + (n % 2 ^ 30 + 1) ≤ 0 + pipeSize := by omega
  obtain ⟨a, ha, hal⟩ := (alone_boot n type buffer).writes (by decide) htype hfit
  refine ⟨a, ha, hal.size, ?_⟩
  rw [hal.stores, List.nil_append, Nat.zero_add, ← positions_snoc (Nat.zero_le _), Nat.mod_eq_of_lt hn]
  exact List.mem_append_right _ (List.mem_singleton_self _)

/-- A larger pipe: byte 4096 is stored at 0 and taken at 4096. -/
theorem unsound_of_gt {n : ℕ} (hn : pipeSize < n % 2 ^ 30) (htype : type ≠ .bufBlock) (buffer : ℕ → UInt8) :
    ∃ a, Reaches (accessBoot (pipeAlloc n type buffer)) a ∧ ¬ Sound a := by
  have hpos : n % 2 ^ 30 ≠ 0 := Nat.ne_of_gt (Nat.zero_lt_of_lt hn)
  obtain ⟨a₁, h₁, hal₁⟩ := (alone_boot n type buffer).writes (n := pipeSize) (by decide) htype le_rfl
  obtain ⟨a₂, h₂, hal₂⟩ := hal₁.reads (by decide) htype hpos (by decide)
  obtain ⟨a₃, h₃, hal₃⟩ := hal₂.writes (n := 1) (by decide) htype (by decide)
  obtain ⟨a₄, h₄, hal₄⟩ := hal₃.reads (by decide) htype hpos (by decide)
  refine ⟨a₄, ((h₁.trans h₂).trans h₃).trans h₄, fun hsound => ?_⟩
  have hpre := hsound.pre
  have hlast : positions (n % 2 ^ 30) (0 + pipeSize) (0 + pipeSize + 1) = [pipeSize] := by
    rw [← positions_snoc le_rfl, positions_self, List.nil_append, Nat.zero_add, Nat.mod_eq_of_lt hn]
  have hlast' : positions pipeSize (0 + pipeSize) (0 + pipeSize + 1) = [0] := by
    rw [← positions_snoc le_rfl, positions_self, List.nil_append, Nat.zero_add, Nat.mod_self]
  rw [hal₄.takes, hal₄.stores, List.nil_append, List.nil_append, hlast, hlast'] at hpre
  have hlen : ∀ N, (positions N 0 (0 + pipeSize)).length = pipeSize := fun N => by
    rw [positions, List.length_map, List.length_range']
    rfl
  have heq := hpre.eq_of_length (by rw [List.length_append, List.length_append, hlen, hlen]; rfl)
  have hcell := (List.append_inj heq (by rw [hlen, hlen])).2
  cases hcell

theorem unsound_of_zero {n : ℕ} (hn : n % 2 ^ 30 = 0) (buffer : ℕ → UInt8) :
    ∃ a, Reaches (accessBoot (pipeAlloc n .bufBlock buffer)) a ∧ ¬ Sound a := by
  obtain ⟨a₁, h₁, hal₁⟩ := (alone_boot n .bufBlock buffer).call (.inl ⟨[], rfl, rfl⟩)
  obtain ⟨a₂, h₂, hal₂⟩ := hal₁.run (.blockStart [] (by rw [hal₁.mutex]; decide) hal₁.type
    (by rw [hal₁.bRead, hal₁.bWrite]))
  refine ⟨a₂, h₁.trans h₂, fun hsound => hsound.running 0 ?_⟩
  rw [hal₂.thread, Faults, pipeStep, pipeBufWrite, bufWriteLen, modSize, if_pos (hal₂.size.trans hn)]
  exact ⟨trivial, rfl⟩

theorem unsound_of_block {n : ℕ} (hn : n % 2 ^ 30 ≠ 0) (buffer : ℕ → UInt8) :
    ∃ a, Reaches (accessBoot (pipeAlloc n .bufBlock buffer)) a ∧ ¬ Sound a := by
  set m := n % 2 ^ 30 with hm
  have hlt : m < 2 ^ 30 := Nat.mod_lt _ (by decide)
  let data : List UInt8 := List.replicate m 0
  obtain ⟨a₁, h₁, hal₁⟩ := (alone_boot n .bufBlock buffer).call (.inl ⟨data, rfl, rfl⟩)
  obtain ⟨a₂, h₂, hal₂⟩ := hal₁.run (.blockStart data (by rw [hal₁.mutex]; decide) hal₁.type
    (by rw [hal₁.bRead, hal₁.bWrite]))
  simp only [hal₁.bRead, hal₁.bWrite, storesAt, takesAt, List.append_nil] at hal₂
  have hlen : bufWriteLen a₂.sys.pipe data.length = some m := by
    rw [bufWriteLen, modSize_eq (hal₂.size ▸ hn), Option.map_some, hal₂.bWrite, hal₂.size, Nat.zero_mod, Nat.sub_zero,
      List.length_replicate, if_neg (lt_irrefl m)]
  obtain ⟨a₃, h₃, hal₃⟩ := hal₂.run (.copy data hlen)
  have hu : u32 (0 + m) = m := by rw [Nat.zero_add]; exact u32_of_lt (by omega)
  simp only [bufCopy, hal₂.mutex, hal₂.bRead, hal₂.bWrite, hu, storesAt, takesAt, List.append_nil] at hal₃
  obtain ⟨a₄, h₄, hal₄⟩ := hal₃.run (.writeEnd _ _)
  obtain ⟨a₅, h₅, hal₅⟩ := (hal₄.released hal₃).call (.inr ⟨m, rfl, rfl⟩)
  obtain ⟨a₆, h₆, hal₆⟩ := hal₅.run (.readStart m (by rw [hal₅.mutex]; decide) hal₅.writeOpen
    (fun e => absurd hal₅.type e) fun _ => ⟨hal₅.size.symm, by rw [hal₅.bRead, hal₅.bWrite, hu]⟩)
  simp only [storesAt, takesAt, List.append_nil] at hal₆
  obtain ⟨a₇, h₇, hal₇⟩ := hal₆.run (.takeBlock m [] hal₆.type)
  rw [takesAt_block hal₆.type] at hal₇
  refine ⟨a₇, (((((h₁.trans h₂).trans h₃).trans h₄).trans h₅).trans h₆).trans h₇, fun hsound => ?_⟩
  have hpre := hsound.pre.length_le
  rw [hal₇.takes, hal₇.stores, List.nil_append, List.length_range] at hpre
  exact hn (Nat.le_zero.mp hpre)

/-- **The sizes for which the positions agree.** Every run of reads and writes of a pipe stores and takes its
bytes below its size, each where it was stored, and divides by no zero, exactly for rings of `PIPE_SIZE` bytes. -/
theorem accesses_in_buffer_iff (size : ℕ) (type : PipeType) (buffer : ℕ → UInt8) :
    (∀ ops a, Run (fun a op a' => accessStep a op = some a') (accessBoot (pipeAlloc size type buffer)) ops a →
      Sound a) ↔ type ≠ .bufBlock ∧ size % 2 ^ 30 = pipeSize := by
  have hreach : ∀ {a}, (∀ ops a, Run (fun a op a' => accessStep a op = some a')
      (accessBoot (pipeAlloc size type buffer)) ops a → Sound a) →
      Reaches (accessBoot (pipeAlloc size type buffer)) a → Sound a := by
    rintro a hall ⟨ops, hr⟩
    exact hall ops a hr
  constructor
  · intro hall
    have htype : type ≠ .bufBlock := by
      rintro rfl
      by_cases hn : size % 2 ^ 30 = 0
      · obtain ⟨a, ha, hbad⟩ := unsound_of_zero hn buffer
        exact hbad (hreach hall ha)
      · obtain ⟨a, ha, hbad⟩ := unsound_of_block hn buffer
        exact hbad (hreach hall ha)
    refine ⟨htype, ?_⟩
    by_contra hn
    rcases Nat.lt_or_gt_of_ne hn with hlt | hgt
    · obtain ⟨a, ha, hsize, hmem⟩ := stores_past_end hlt htype buffer
      have hin := (hreach hall ha).stores _ hmem
      rw [hsize] at hin
      exact lt_irrefl _ hin
    · obtain ⟨a, ha, hbad⟩ := unsound_of_gt hgt htype buffer
      exact hbad (hreach hall ha)
  · rintro ⟨htype, hn⟩ ops a hr
    exact (hr.invariant (fun _ _ _ hi hs => hi.step hs) (tracked_boot hn htype buffer)).sound

/-- A pipe of `syscall_pipe`: the byte 1025 is stored at 1024, past the end of the buffer. -/
theorem syscall_pipe_overrun : ∃ ops a, Run (fun a op a' => accessStep a op = some a')
    (accessBoot (pipeAlloc 1024 .unbuffered fun _ => 0)) ops a ∧ a.sys.pipe.size = 1024 ∧ 1024 ∈ a.stores ∧
      ¬ Sound a := by
  obtain ⟨a, ⟨ops, hr⟩, hsize, hmem⟩ :=
    stores_past_end (n := 1024) (by decide) (show PipeType.unbuffered ≠ .bufBlock by decide) fun _ => 0
  refine ⟨ops, a, hr, hsize, hmem, fun hsound => ?_⟩
  have hin := hsound.stores _ hmem
  rw [hsize] at hin
  exact lt_irrefl _ hin

end BulbOS.Pipe
