import BulbOS.Pipe.Writers
import BulbOS.Stdout.Model
import BulbOS.Tty.Editing

/-!
# What is written is printed

* `view`: outside `pipe_read` the stdout task looks like a writer of nothing;
* `StdoutInv`: the pipe is a queue, the log says who wrote what, and what is returned is printed or about to be;
* `StdoutInv.write`, `StdoutInv.run`, `StdoutInv.handler`: the steps that keep it;
* **`written_shows`**: the bytes of every task come out in its order, and the screen has their layout.
-/

namespace BulbOS.Stdout

open KLib Pipe Tty

variable {o t : ℕ} {s s' : StdoutState} {sys sys' : PipeSys} {pc : StdoutPc}

/-! ## The view of the pipe -/

/-- The stdout task has the mutex of the pipe. -/
def StdoutPc.Inside : StdoutPc → Prop
  | .locked | .unlock => True
  | _ => False

instance : (pc : StdoutPc) → Decidable pc.Inside
  | .locked | .unlock => isTrue trivial
  | .call | .reading | .putting .. | .lock | .waiting => isFalse id

/-- With the mutex outside `pipe_read`, the stdout task is like a thread in `pipe_write` that has nothing to store. -/
def view (o : ℕ) (pc : StdoutPc) (sys : PipeSys) : PipeSys :=
  if pc.Inside then { sys with threads := Function.update sys.threads o (.unbufWrite [] 0) } else sys

theorem view_outside (h : ¬ pc.Inside) : view o pc sys = sys := if_neg h

theorem view_pipe : (view o pc sys).pipe = sys.pipe := by
  unfold view
  split_ifs <;> rfl

theorem view_stored : (view o pc sys).stored = sys.stored := by
  unfold view
  split_ifs <;> rfl

theorem view_taken : (view o pc sys).taken = sys.taken := by
  unfold view
  split_ifs <;> rfl

theorem view_returned : (view o pc sys).returned = sys.returned := by
  unfold view
  split_ifs <;> rfl

theorem view_threads (h : t ≠ o) : (view o pc sys).threads t = sys.threads t := by
  unfold view
  split_ifs
  · exact Function.update_of_ne h _ _
  · rfl

/-- The other tasks do not look at the place of the stdout task. -/
theorem view_write {data : List UInt8} (hne : t ≠ o) (hs : sysStep sys (.write t data) = some sys') :
    sysStep (view o pc sys) (.write t data) = some (view o pc sys') := by
  obtain ⟨hidle, hs⟩ := Option.ite_none_right_eq_some.mp hs
  cases hs
  rw [sysStep, view_threads hne, if_pos hidle]
  unfold view
  split_ifs
  · rw [Function.update_comm hne]
  · rfl

theorem view_run (hne : t ≠ o) (hs : sysStep sys (.run t) = some sys') :
    sysStep (view o pc sys) (.run t) = some (view o pc sys') := by
  obtain ⟨out, ho, rfl⟩ := Option.map_eq_some_iff.mp hs
  rw [sysStep, view_pipe, view_threads hne, ho, Option.map_some, view_stored, view_taken, view_returned]
  unfold view
  split_ifs
  · rw [Function.update_comm hne]
  · rfl

/-! ## The invariant -/

/-- The bytes of one writer. -/
def bytesOf (t : ℕ) (log : List (ℕ × UInt8)) : List UInt8 := (log.filter fun e => e.1 = t).map Prod.snd

/-- The bytes that were given to `putchar` outside `kprintf`. -/
def onTerminal (printed : List (UInt8 × OutputMode)) : List UInt8 :=
  (printed.filter fun e => e.2 = .terminalOut).map Prod.fst

/-- What the stdout task has read and not printed. -/
def StdoutState.pending (s : StdoutState) : List UInt8 :=
  match s.pc with
  | .putting bRead i => ((List.range bRead.toNat).drop i).map s.stdoutBuffer
  | _ => []

structure StdoutInv (o : ℕ) (memory : ℕ → UInt8) (t₀ : Terminal) (s : StdoutState) : Prop where
  pipe : PipeInv (view o s.pc s.sys)
  room : s.sys.stored.length ≤ s.sys.returned.length + pipeSize
  idle : s.pc ≠ .reading → s.sys.threads o = .idle
  reading : s.pc = .reading → (s.sys.threads o).Drains
  writers : ∀ t, t ≠ o → (s.sys.threads t).Writes
  logged : s.log.map Prod.snd = s.sys.stored
  asked : ∀ t, s.asked t = bytesOf t s.log ++ (s.sys.threads t).left
  hand : ∀ i c, (s.sys.threads o).inHand[i]? = some c → s.stdoutBuffer i = c
  outside : ∀ a, pipeSize ≤ a → s.stdoutBuffer a = memory a
  printed : s.printed.map Prod.fst ++ s.pending = s.sys.returned
  screen : s.terminal = terminalWrite t₀ (onTerminal s.printed)

theorem bytesOf_append (t : ℕ) (log more : List (ℕ × UInt8)) :
    bytesOf t (log ++ more) = bytesOf t log ++ bytesOf t more := by
  rw [bytesOf, List.filter_append, List.map_append, bytesOf, bytesOf]

theorem bytesOf_self (t : ℕ) (data : List UInt8) : bytesOf t (data.map fun c => (t, c)) = data := by
  induction data with
  | nil => rfl
  | cons c data ih =>
    rw [List.map_cons, bytesOf, List.filter_cons_of_pos (by simp), List.map_cons]
    exact congrArg (c :: ·) ih

theorem bytesOf_other {t' : ℕ} (h : t' ≠ t) (data : List UInt8) : bytesOf t (data.map fun c => (t', c)) = [] := by
  rw [bytesOf, List.map_eq_nil_iff, List.filter_eq_nil_iff]
  intro e he
  obtain ⟨c, -, rfl⟩ := List.mem_map.mp he
  simpa using h

theorem onTerminal_append (l m : List (UInt8 × OutputMode)) : onTerminal (l ++ m) = onTerminal l ++ onTerminal m := by
  rw [onTerminal, List.filter_append, List.map_append, onTerminal, onTerminal]

variable {memory : ℕ → UInt8} {t₀ : Terminal} {data : List UInt8}

/-- What is taken and not returned is in the hand of the stdout task. -/
theorem StdoutInv.hand_eq (h : StdoutInv o memory t₀ s) : s.sys.returned ++ (s.sys.threads o).inHand = s.sys.taken := by
  have hview : ((view o s.pc s.sys).threads o).inHand = (s.sys.threads o).inHand := by
    unfold view
    split_ifs with hin
    · rw [h.idle fun e => by rw [e] at hin; exact hin]
      dsimp only
      rw [Function.update_self]
      rfl
    · rfl
  have hhand := h.pipe.hand_eq (o := o) fun t ht => by
    rw [view_threads ht]
    exact (h.writers t ht).inHand
  rwa [view_returned, view_taken, hview] at hhand

theorem StdoutInv.type (h : StdoutInv o memory t₀ s) : s.sys.pipe.type ≠ .bufBlock := by
  have := h.pipe.type
  rwa [view_pipe] at this

theorem StdoutInv.readOpen (h : StdoutInv o memory t₀ s) : s.sys.pipe.readOpen = true := by
  have := h.pipe.readOpen
  rwa [view_pipe] at this

theorem StdoutInv.writeOpen (h : StdoutInv o memory t₀ s) : s.sys.pipe.writeOpen = true := by
  have := h.pipe.writeOpen
  rwa [view_pipe] at this

/-! ## Other tasks -/

/-- **A task calls `pipe_write`.** -/
theorem StdoutInv.write (h : StdoutInv o memory t₀ s) (hne : t ≠ o) (hs : sysStep s.sys (.write t data) = some sys) :
    StdoutInv o memory t₀ { s with sys := sys, asked := Function.update s.asked t (s.asked t ++ data) } := by
  have hpipe := h.pipe.step (view_write hne hs)
  obtain ⟨hidle, hs⟩ := Option.ite_none_right_eq_some.mp hs
  cases hs
  have ho : Function.update s.sys.threads t (.write data) o = s.sys.threads o := Function.update_of_ne hne.symm _ _
  refine ⟨hpipe, h.room, fun hr => ho.trans (h.idle hr), fun hr => ?_, fun t' ht' => ?_, h.logged, fun t' => ?_,
    fun i c hi => ?_, h.outside, h.printed, h.screen⟩
  · dsimp only
    rw [ho]
    exact h.reading hr
  · dsimp only
    by_cases he : t' = t
    · rw [he, Function.update_self]
      trivial
    · rw [Function.update_of_ne he]
      exact h.writers t' ht'
  · dsimp only
    by_cases he : t' = t
    · have hasked := h.asked t
      rw [hidle] at hasked
      rw [he, Function.update_self, Function.update_self, hasked]
      exact congrArg (· ++ data) (List.append_nil _)
    · rw [Function.update_of_ne he, Function.update_of_ne he]
      exact h.asked t'
  · dsimp only at hi
    rw [ho] at hi
    exact h.hand i c hi

/-- **A step of a task in `pipe_write`.** -/
theorem StdoutInv.run (h : StdoutInv o memory t₀ s) (hne : t ≠ o) (hs : sysStep s.sys (.run t) = some sys) :
    StdoutInv o memory t₀
      { s with sys := sys, log := s.log ++ (sys.stored.drop s.sys.stored.length).map fun c => (t, c) } := by
  have hv : sysStep (view o s.pc s.sys) (.run t) = some (view o s.pc sys) := view_run hne hs
  have hpipe := h.pipe.step hv
  have hroom := h.pipe.room (by rw [view_stored, view_returned]; exact h.room) hv
  rw [view_stored, view_returned] at hroom
  obtain ⟨out, ho, rfl⟩ := Option.map_eq_some_iff.mp hs
  obtain ⟨hw, hleft, -, hret⟩ := (pipeStep_move ho).writes h.type h.readOpen (h.writers t hne)
  have hout : Function.update s.sys.threads t out.pc o = s.sys.threads o := Function.update_of_ne hne.symm _ _
  dsimp only at hpipe hroom ⊢
  rw [List.drop_left]
  refine ⟨hpipe, hroom, fun hr => hout.trans (h.idle hr), fun hr => ?_, fun t' ht' => ?_, ?_, fun t' => ?_,
    fun i c hi => ?_, h.outside, ?_, h.screen⟩
  · dsimp only
    rw [hout]
    exact h.reading hr
  · dsimp only
    by_cases he : t' = t
    · rw [he, Function.update_self]
      exact hw
    · rw [Function.update_of_ne he]
      exact h.writers t' ht'
  · dsimp only
    rw [List.map_append, h.logged, List.map_map]
    exact congrArg (s.sys.stored ++ ·) (List.map_id _)
  · dsimp only
    by_cases he : t' = t
    · rw [he, Function.update_self, h.asked t, bytesOf_append, bytesOf_self, List.append_assoc, hleft]
    · rw [Function.update_of_ne he, h.asked t', bytesOf_append, bytesOf_other (Ne.symm he), List.append_nil]
  · dsimp only at hi
    rw [hout] at hi
    exact h.hand i c hi
  · dsimp only
    rw [hret, List.append_nil]
    exact h.printed

/-! ## The stdout task -/

theorem StdoutInv.move (h : StdoutInv o memory t₀ s) {p : PipeState} (hr : s.pc ≠ .reading) (hr' : pc ≠ .reading)
    (hpend : s.pending = []) (hpend' : { s with pc := pc }.pending = [])
    (hpipe : PipeInv (view o pc { s.sys with pipe := p })) :
    StdoutInv o memory t₀ { s with sys := { s.sys with pipe := p }, pc := pc } := by
  have hprinted := h.printed
  rw [hpend, ← hpend'] at hprinted
  exact ⟨hpipe, h.room, fun _ => h.idle hr, fun he => absurd he hr', h.writers, h.logged, h.asked, h.hand, h.outside,
    hprinted, h.screen⟩

theorem StdoutInv.acquire (h : StdoutInv o memory t₀ s) {p : PipeState} (hin : ¬ s.pc.Inside)
    (hin' : pc.Inside) (hacq : mutexAcquire s.sys.pipe = some p) : PipeInv (view o pc { s.sys with pipe := p }) := by
  obtain ⟨hm, rfl⟩ := mutexAcquire_eq_some hacq
  have hpipe := h.pipe
  rw [view_outside hin] at hpipe
  have henter := hpipe.enter (t := o) (.unbufWrite [] 0) hm trivial trivial rfl
  simp only [List.append_nil] at henter
  rw [view, if_pos hin']
  exact henter

theorem StdoutInv.release (h : StdoutInv o memory t₀ s) (hr : s.pc ≠ .reading) (hin : s.pc.Inside)
    (hin' : ¬ pc.Inside) :
    PipeInv (view o pc { s.sys with pipe := mutexRelease s.sys.pipe }) := by
  have hpipe := h.pipe
  rw [view, if_pos hin] at hpipe
  have hplace : Function.update s.sys.threads o (.unbufWrite [] 0) o = .unbufWrite [] 0 := Function.update_self _ _ _
  have hinHand : (Function.update s.sys.threads o (.unbufWrite [] 0) o).inHand = [] := by
    rw [hplace]
    rfl
  have hleave := hpipe.leave .idle (by dsimp only; rw [hplace]; trivial) id trivial hinHand
  dsimp only at hleave
  rw [Function.update_idem, ← h.idle hr, Function.update_eq_self, List.append_nil, List.append_nil,
    List.append_nil] at hleave
  rw [view_outside hin']
  exact hleave

/-- **`file_read` is called.** -/
theorem StdoutInv.call (h : StdoutInv o memory t₀ s) (hpc : s.pc = .call) (hs : sysStep s.sys (.read o 0) = some sys) :
    StdoutInv o memory t₀ { s with sys := sys, pc := .reading } := by
  have hpipe := h.pipe
  rw [view_outside (by rw [hpc]; exact id)] at hpipe
  have hpipe' := hpipe.step hs
  obtain ⟨hidle, hs⟩ := Option.ite_none_right_eq_some.mp hs
  cases hs
  have hthreads : ∀ t, t ≠ o → Function.update s.sys.threads o (.read 0) t = s.sys.threads t :=
    fun t ht => Function.update_of_ne ht _ _
  have hprinted := h.printed
  rw [StdoutState.pending, hpc] at hprinted
  refine ⟨hpipe', h.room, fun hr => absurd rfl hr, fun _ => ?_, fun t ht => ?_, h.logged, fun t => ?_, fun i c hi => ?_,
    h.outside, hprinted, h.screen⟩
  · dsimp only
    rw [Function.update_self]
    trivial
  · dsimp only
    rw [hthreads t ht]
    exact h.writers t ht
  · dsimp only
    by_cases ht : t = o
    · have hasked := h.asked o
      rw [hidle] at hasked
      rw [ht, Function.update_self]
      exact hasked
    · rw [hthreads t ht]
      exact h.asked t
  · dsimp only at hi
    rw [Function.update_self] at hi
    cases hi

theorem copied_nil (buffer : ℕ → UInt8) : copied buffer [] = buffer := funext fun _ => rfl

/-- **A step in `pipe_read`.** The bytes in hand fit the buffer; at the end they are what is printed next. -/
theorem StdoutInv.read (h : StdoutInv o memory t₀ s) (hpc : s.pc = .reading) (hs : sysStep s.sys (.run o) = some sys) :
    StdoutInv o memory t₀ { s with
      sys := sys
      stdoutBuffer := copied s.stdoutBuffer (sys.threads o).inHand
      pc := if sys.threads o = .idle then .putting (readResult (s.sys.threads o)) 0 else .reading } := by
  have hpipe := h.pipe
  rw [view_outside (by rw [hpc]; exact id)] at hpipe
  have hpipe' := hpipe.step hs
  have hroom := hpipe.room h.room hs
  obtain ⟨out, ho, rfl⟩ := Option.map_eq_some_iff.mp hs
  obtain ⟨-, hcases⟩ := (pipeStep_move ho).drains h.type h.writeOpen (h.reading hpc)
  have hthreads : ∀ t, t ≠ o → Function.update s.sys.threads o out.pc t = s.sys.threads t :=
    fun t ht => Function.update_of_ne ht _ _
  have hself : Function.update s.sys.threads o out.pc o = out.pc := Function.update_self _ _ _
  have hprinted := h.printed
  rw [StdoutState.pending, hpc, List.append_nil] at hprinted
  have hstored : s.log.map Prod.snd = s.sys.stored ++ out.stored := by
    rw [((pipeStep_move ho).drains h.type h.writeOpen (h.reading hpc)).1, List.append_nil]
    exact h.logged
  have hwriters : ∀ t, t ≠ o → (Function.update s.sys.threads o out.pc t).Writes := fun t ht => by
    rw [hthreads t ht]
    exact h.writers t ht
  have hasked : ∀ t, s.asked t = bytesOf t s.log ++ (Function.update s.sys.threads o out.pc t).left := fun t => by
    by_cases ht : t = o
    · have hleft : out.pc.left = (s.sys.threads o).left := by
        rw [(h.reading hpc).left]
        rcases hcases with ⟨hdrains, -⟩ | ⟨-, -, hidle, -⟩
        · exact hdrains.left
        · rw [hidle]
          rfl
      rw [ht, hself, hleft]
      exact h.asked o
    · rw [hthreads t ht]
      exact h.asked t
  dsimp only at hpipe' hroom ⊢
  simp only [hself]
  rcases hcases with ⟨hdrains, hhand, hret⟩ | ⟨got, hgot, hidle, htaken, hret⟩
  · -- it goes on
    have hne : out.pc ≠ .idle := fun e => by
      rw [e] at hdrains
      exact hdrains
    have hlen : out.pc.inHand.length ≤ pipeSize := by
      have hle := hpipe'.ring.pre.length_le
      dsimp only at hle
      rw [← h.hand_eq, List.append_assoc, hhand, List.length_append] at hle
      rw [hret, List.append_nil] at hroom
      omega
    rw [if_neg hne]
    refine ⟨hpipe', hroom, fun hr => absurd rfl hr, fun _ => ?_, hwriters, hstored, hasked, fun i c hi => ?_,
      fun a ha => ?_, ?_, h.screen⟩
    · dsimp only
      rwa [hself]
    · dsimp only at hi ⊢
      rw [hself] at hi
      rw [copied, List.getD_eq_getElem?_getD, hi]
      rfl
    · dsimp only
      rw [copied, List.getD_eq_default _ _ (hlen.trans ha)]
      exact h.outside a ha
    · change s.printed.map Prod.fst ++ [] = s.sys.returned ++ out.returned
      rw [hret, List.append_nil, List.append_nil, hprinted]
  · -- it returns
    rw [if_pos hidle, hidle]
    change StdoutInv o memory t₀ { s with
      sys := _, stdoutBuffer := copied s.stdoutBuffer [], pc := .putting (readResult (s.sys.threads o)) 0 }
    rw [hidle] at hpipe' hwriters hasked hself
    rw [copied_nil, hgot]
    refine ⟨hpipe', hroom, fun _ => hself, fun hr => StdoutPc.noConfusion hr, hwriters, hstored, hasked,
      fun i c hi => ?_, h.outside, ?_,
      h.screen⟩
    · dsimp only at hi
      rw [hself] at hi
      cases hi
    · change s.printed.map Prod.fst ++ (List.range got.length).map s.stdoutBuffer = s.sys.returned ++ out.returned
      have hbuffer : (List.range got.length).map s.stdoutBuffer = got := by
        refine List.ext_getElem (by simp) fun i _ hi => ?_
        rw [List.getElem_map, List.getElem_range]
        refine h.hand i _ ?_
        rw [hgot]
        exact List.getElem?_eq_getElem hi
      rw [hbuffer, hret, hprinted]

/-- **`putchar`** of the next byte. -/
theorem StdoutInv.put (h : StdoutInv o memory t₀ s) {bRead : ℤ} {i : ℕ} (hpc : s.pc = .putting bRead i)
    (hi : (i : ℤ) < bRead) :
    StdoutInv o memory t₀ { putchar s (s.stdoutBuffer i) with pc := .putting bRead (i + 1) } := by
  have hpipe := h.pipe
  rw [view_outside (by rw [hpc]; exact id)] at hpipe
  have hidle := h.idle fun e => by rw [hpc] at e; cases e
  have hprinted := h.printed
  have hlt : i < (List.range bRead.toNat).length := by
    rw [List.length_range]
    omega
  rw [StdoutState.pending, hpc] at hprinted
  dsimp only at hprinted
  rw [List.drop_eq_getElem_cons hlt, List.getElem_range, List.map_cons, List.append_cons] at hprinted
  cases hmode : s.actualmode with
  | terminalOut =>
    rw [putchar, hmode]
    refine ⟨hpipe, h.room, fun _ => hidle, fun hr => StdoutPc.noConfusion hr, h.writers, h.logged, h.asked, h.hand,
      h.outside, ?_, ?_⟩
    · change (s.printed ++ [_]).map Prod.fst ++ _ = _
      rw [List.map_append]
      exact hprinted
    · change terminalWrite s.terminal _ = terminalWrite t₀ (onTerminal (s.printed ++ [_]))
      rw [onTerminal_append, h.screen, terminalWrite, terminalWrite, terminalWrite, List.foldl_append]
      rfl
  | serialportOut =>
    rw [putchar, hmode]
    refine ⟨hpipe, h.room, fun _ => hidle, fun hr => StdoutPc.noConfusion hr, h.writers, h.logged, h.asked, h.hand,
      h.outside, ?_, ?_⟩
    · change (s.printed ++ [_]).map Prod.fst ++ _ = _
      rw [List.map_append]
      exact hprinted
    · change s.terminal = terminalWrite t₀ (onTerminal (s.printed ++ [_]))
      rw [onTerminal_append, h.screen]
      exact congrArg (terminalWrite t₀) (List.append_nil _).symm

/-- **A step of the stdout task.** -/
theorem StdoutInv.handler (h : StdoutInv o memory t₀ s) (hs : stdoutHandler o s = some s') :
    StdoutInv o memory t₀ s' := by
  unfold stdoutHandler at hs
  cases hpc : s.pc with
  | call =>
    rw [hpc] at hs
    obtain ⟨sys, hsys, rfl⟩ := Option.map_eq_some_iff.mp hs
    exact h.call hpc hsys
  | reading =>
    rw [hpc] at hs
    obtain ⟨sys, hsys, rfl⟩ := Option.map_eq_some_iff.mp hs
    exact h.read hpc hsys
  | putting bRead i =>
    rw [hpc] at hs
    dsimp only at hs
    split_ifs at hs with hi
    · cases hs
      exact h.put hpc hi
    · cases hs
      have hpend : s.pending = [] := by
        rw [StdoutState.pending, hpc]
        dsimp only
        rw [List.drop_eq_nil_of_le, List.map_nil]
        rw [List.length_range]
        omega
      have hpipe := h.pipe
      rw [view_outside (by rw [hpc]; exact id)] at hpipe
      have hlock : StdoutPc.lock ≠ .reading := StdoutPc.noConfusion
      exact h.move (fun e => by rw [hpc] at e; cases e) hlock hpend rfl hpipe
  | lock =>
    rw [hpc] at hs
    obtain ⟨p, hacq, rfl⟩ := Option.map_eq_some_iff.mp hs
    have hr : s.pc ≠ .reading := fun e => by rw [hpc] at e; cases e
    refine h.move hr StdoutPc.noConfusion (by rw [StdoutState.pending, hpc]) rfl (h.acquire ?_ trivial hacq)
    rw [hpc]
    exact id
  | locked =>
    rw [hpc] at hs
    obtain rfl := Option.some.inj hs
    have hr : s.pc ≠ .reading := fun e => by rw [hpc] at e; cases e
    refine h.move hr StdoutPc.noConfusion (by rw [StdoutState.pending, hpc]) rfl (h.release hr ?_ id)
    rw [hpc]
    trivial
  | waiting =>
    rw [hpc] at hs
    obtain ⟨p, hacq, rfl⟩ := Option.map_eq_some_iff.mp hs
    have hr : s.pc ≠ .reading := fun e => by rw [hpc] at e; cases e
    refine h.move hr StdoutPc.noConfusion (by rw [StdoutState.pending, hpc]) rfl (h.acquire ?_ trivial hacq)
    rw [hpc]
    exact id
  | unlock =>
    rw [hpc] at hs
    obtain rfl := Option.some.inj hs
    have hr : s.pc ≠ .reading := fun e => by rw [hpc] at e; cases e
    refine h.move hr StdoutPc.noConfusion (by rw [StdoutState.pending, hpc]) rfl (h.release hr ?_ id)
    rw [hpc]
    trivial

theorem StdoutInv.step (h : StdoutInv o memory t₀ s) {op : StdoutOp} (hs : stdoutStep o s op = some s') :
    StdoutInv o memory t₀ s' := by
  cases op with
  | write t data =>
    obtain ⟨hne, hs⟩ := Option.ite_none_left_eq_some.mp hs
    obtain ⟨sys, hsys, rfl⟩ := Option.map_eq_some_iff.mp hs
    exact h.write hne hsys
  | run t =>
    obtain ⟨hne, hs⟩ := Option.ite_none_left_eq_some.mp hs
    obtain ⟨sys, hsys, rfl⟩ := Option.map_eq_some_iff.mp hs
    exact h.run hne hsys
  | handler => exact h.handler hs
  | setoutput mode =>
    cases hs
    exact ⟨h.pipe, h.room, h.idle, h.reading, h.writers, h.logged, h.asked, h.hand, h.outside, h.printed, h.screen⟩

theorem stdoutInv_init (o : ℕ) (buffer memory : ℕ → UInt8) (t₀ : Terminal) :
    StdoutInv o memory t₀ (stdoutInit buffer memory t₀) where
  pipe := pipeInv_boot (by decide) buffer
  room := Nat.zero_le _
  idle _ := rfl
  reading h := by cases h
  writers _ _ := trivial
  logged := rfl
  asked _ := rfl
  hand _ _ h := by cases h
  outside _ _ := rfl
  printed := rfl
  screen := rfl

/-! ## Runs -/

/-- The task that an operation is of. -/
def StdoutOp.task (o : ℕ) : StdoutOp → Option ℕ
  | .write t _ | .run t => some t
  | .handler => some o
  | .setoutput _ => none

theorem sysStep_read_threads {size : ℕ} (hne : t ≠ o) (hs : sysStep sys (.read o size) = some sys') :
    sys'.threads t = sys.threads t := by
  obtain ⟨-, hs⟩ := Option.ite_none_right_eq_some.mp hs
  cases hs
  exact Function.update_of_ne hne _ _

theorem sysStep_run_threads (hne : t ≠ o) (hs : sysStep sys (.run o) = some sys') : sys'.threads t = sys.threads t := by
  obtain ⟨out, -, rfl⟩ := Option.map_eq_some_iff.mp hs
  exact Function.update_of_ne hne _ _

theorem stdoutStep_frame {op : StdoutOp} (hop : op.task o ≠ some t) (hs : stdoutStep o s op = some s') :
    s'.sys.threads t = s.sys.threads t ∧ s'.asked t = s.asked t := by
  have hne : ∀ t', op.task o = some t' → t ≠ t' := fun t' ht' e => hop (e ▸ ht')
  cases op with
  | write t' data =>
    obtain ⟨-, hs⟩ := Option.ite_none_left_eq_some.mp hs
    obtain ⟨sys, hsys, rfl⟩ := Option.map_eq_some_iff.mp hs
    obtain ⟨-, hsys⟩ := Option.ite_none_right_eq_some.mp hsys
    cases hsys
    exact ⟨Function.update_of_ne (hne t' rfl) _ _, Function.update_of_ne (hne t' rfl) _ _⟩
  | run t' =>
    obtain ⟨-, hs⟩ := Option.ite_none_left_eq_some.mp hs
    obtain ⟨sys, hsys, rfl⟩ := Option.map_eq_some_iff.mp hs
    exact ⟨sysStep_run_threads (hne t' rfl) hsys, rfl⟩
  | handler =>
    change stdoutHandler o s = some s' at hs
    unfold stdoutHandler at hs
    cases hpc : s.pc with
    | call =>
      rw [hpc] at hs
      obtain ⟨sys, hsys, rfl⟩ := Option.map_eq_some_iff.mp hs
      exact ⟨sysStep_read_threads (hne o rfl) hsys, rfl⟩
    | reading =>
      rw [hpc] at hs
      obtain ⟨sys, hsys, rfl⟩ := Option.map_eq_some_iff.mp hs
      exact ⟨sysStep_run_threads (hne o rfl) hsys, rfl⟩
    | putting bRead i =>
      rw [hpc] at hs
      dsimp only at hs
      split_ifs at hs
      · obtain rfl := Option.some.inj hs
        unfold putchar
        cases s.actualmode with
        | terminalOut | serialportOut => exact ⟨rfl, rfl⟩
      · obtain rfl := Option.some.inj hs
        exact ⟨rfl, rfl⟩
    | lock | waiting =>
      rw [hpc] at hs
      obtain ⟨p, -, rfl⟩ := Option.map_eq_some_iff.mp hs
      exact ⟨rfl, rfl⟩
    | locked | unlock =>
      rw [hpc] at hs
      obtain rfl := Option.some.inj hs
      exact ⟨rfl, rfl⟩
  | setoutput mode =>
    cases hs
    exact ⟨rfl, rfl⟩

theorem stdoutRun_frame {ops : List StdoutOp} (hops : ∀ op ∈ ops, op.task o ≠ some t)
    (hrun : Run (fun s op s' => stdoutStep o s op = some s') s ops s') :
    s'.sys.threads t = s.sys.threads t ∧ s'.asked t = s.asked t := by
  induction hrun with
  | nil s => exact ⟨rfl, rfl⟩
  | cons h _ ih =>
    rw [List.forall_mem_cons] at hops
    obtain ⟨hthreads, hasked⟩ := stdoutStep_frame hops.1 h
    obtain ⟨hthreads', hasked'⟩ := ih hops.2
    exact ⟨hthreads'.trans hthreads, hasked'.trans hasked⟩

/-- Nothing is left to print: the pipe is empty, no task is in `pipe_write`, and the stdout task waits. -/
def Settled (s : StdoutState) : Prop :=
  s.pc = .waiting ∧ s.sys.pipe.bRead = s.sys.pipe.bWrite ∧ ∀ t, s.sys.threads t = .idle

theorem bytesOf_take (t n : ℕ) (log : List (ℕ × UInt8)) : bytesOf t (log.take n) <+: bytesOf t log :=
  ((List.take_prefix n log).filter _).map _

theorem StdoutInv.shown (h : StdoutInv o memory t₀ s) :
    (s.log.take s.printed.length).map Prod.snd = s.printed.map Prod.fst := by
  have hpre : s.printed.map Prod.fst <+: s.sys.stored := by
    have hring := h.pipe.ring.pre
    rw [view_taken, view_stored] at hring
    have hprinted : s.printed.map Prod.fst <+: s.sys.returned := ⟨_, h.printed⟩
    have hreturned : s.sys.returned <+: s.sys.taken := ⟨_, h.hand_eq⟩
    exact (hprinted.trans hreturned).trans hring
  rw [List.map_take, h.logged, List.prefix_iff_eq_take.mp hpre, List.length_map]

theorem StdoutInv.settled (h : StdoutInv o memory t₀ s) (hs : Settled s) :
    s.log.take s.printed.length = s.log ∧ ∀ t, s.asked t = bytesOf t s.log := by
  obtain ⟨hpc, hempty, hidle⟩ := hs
  have hring := h.pipe.ring
  rw [view_pipe, view_taken, view_stored] at hring
  have hhand := h.hand_eq
  have hprinted := h.printed
  rw [StdoutState.pending, hpc, List.append_nil] at hprinted
  rw [hidle o] at hhand
  have hlen : s.printed.length = s.log.length := by
    have hstored := congrArg List.length h.logged
    have htaken := congrArg List.length hhand
    have hreturned := congrArg List.length hprinted
    have hcount := hring.empty_iff.mp hempty
    simp only [List.length_map, List.length_append, PipePc.inHand, List.length_nil] at hstored htaken hreturned
    omega
  refine ⟨by rw [hlen, List.take_length], fun t => ?_⟩
  rw [h.asked t, hidle t]
  exact List.append_nil _

/-- **What is written is printed.** In every run of the stdout task and any tasks that write to stdout, the bytes
printed are bytes that the tasks have written, each once, those of one task in its order, and all of them once nothing
is left; what is printed outside `kprintf` is on the screen behind what was there, and the task writes nowhere behind
its buffer. -/
theorem written_shows {buffer : ℕ → UInt8} {ops : List StdoutOp} {text : List UInt8} (hstart : Shows t₀ (layout text))
    (hrun : Run (fun s op s' => stdoutStep o s op = some s') (stdoutInit buffer memory t₀) ops s) :
    (∃ shown : List (ℕ × UInt8), shown.map Prod.snd = s.printed.map Prod.fst ∧
      ∀ t, bytesOf t shown <+: s.asked t ∧ (Settled s → bytesOf t shown = s.asked t)) ∧
    (8 ∉ onTerminal s.printed → Shows s.terminal (layout (text ++ onTerminal s.printed))) ∧
    ∀ a, pipeSize ≤ a → s.stdoutBuffer a = memory a := by
  have hinv : StdoutInv o memory t₀ s := hrun.invariant (fun _ _ _ h hs => h.step hs)
    (stdoutInv_init o buffer memory t₀)
  refine ⟨⟨s.log.take s.printed.length, hinv.shown, fun t => ⟨?_, fun hs => ?_⟩⟩, fun hb => ?_, hinv.outside⟩
  · rw [hinv.asked t]
    exact (bytesOf_take t _ _).trans (List.prefix_append _ _)
  · rw [(hinv.settled hs).1, (hinv.settled hs).2 t]
  · rw [hinv.screen]
    exact hstart.behind hb

/-- Tasks 1 and 2 write, one during the other, and the stdout task, 0, prints. -/
def demoOps : List StdoutOp :=
  [.handler, .write 1 [65], .write 2 [66, 10], .run 2, .run 2, .run 2, .run 2, .run 2, .run 1] ++
    List.replicate 3 (.run 1) ++ List.replicate 11 .handler

theorem written_shows_demo : ∃ s, Run (fun s op s' => stdoutStep 0 s op = some s')
    (stdoutInit (fun _ => 0) (fun _ => 0) ⟨0, 0, 15, fun _ => 32, 0⟩) demoOps s ∧ s.pc = .locked ∧
    Shows s.terminal (layout [66, 10, 65]) := by
  have heval : (demoOps.foldlM (stdoutStep 0) (stdoutInit (fun _ => 0) (fun _ => 0) ⟨0, 0, 15, fun _ => 32, 0⟩)).map
      (fun s => (s.pc, onTerminal s.printed)) = some (.locked, [66, 10, 65]) := by decide +kernel
  obtain ⟨s, hs, hv⟩ := Option.map_eq_some_iff.mp heval
  rw [Prod.mk.injEq] at hv
  have hrun : Run (fun s op s' => stdoutStep 0 s op = some s') _ demoOps s := run_of_foldlM (fun _ _ _ e => e) hs
  have hclear : Cleared ⟨0, 0, 15, fun _ => 32, 0⟩ := ⟨rfl, rfl, fun _ _ _ _ => rfl⟩
  have hshows := (written_shows hclear.shows hrun).2.1
  rw [hv.2] at hshows
  exact ⟨s, hrun, hv.1, hshows (by decide)⟩

end BulbOS.Stdout
