import BulbOS.Lib.Run
import BulbOS.Stdin.Model
import Mathlib.Data.List.GetD

/-!
# Keys from the keyboard to the stdin pipe

`last_code` holds one symbol, and the switch to the stdin task brings it back wherever it was left. So a
key must not come before the last symbol is stored, and the stdin task must not come out of `task_block`
without one.

* `StdinState.owed`: the bytes that are still to be stored;
* `StdinInv`: the bytes of the symbols sent are those stored, then those owed;
* `StdinEvent.Timely`: the condition on an event; `StdinInv.step`: such an event keeps the invariant;
* **`keys_in_order`**: then each symbol sent is written once, in order;
* `second_key_overwrites`: two keys while switches are postponed.
-/

namespace BulbOS.Stdin

open KLib BulbOS.Task

variable {s s' : StdinState}

/-- The bytes that `stdin_handler` writes for the symbols. -/
def symbolBytes (symbols : List KbKeysym) : List UInt8 :=
  symbols.flatMap fun k => keysymBytes (stdinKeysymToChar k)

theorem symbolBytes_append (symbols : List KbKeysym) (k : KbKeysym) :
    symbolBytes (symbols ++ [k]) = symbolBytes symbols ++ keysymBytes (stdinKeysymToChar k) := by
  rw [symbolBytes, symbolBytes, List.flatMap_append, List.flatMap_singleton]

theorem keysymBytes_length (k : KbKeysym) : (keysymBytes k).length = 4 := rfl

theorem symbolBytes_length (symbols : List KbKeysym) : (symbolBytes symbols).length = 4 * symbols.length := by
  induction symbols with
  | nil => rfl
  | cons k symbols ih =>
    change (keysymBytes (stdinKeysymToChar k) ++ symbolBytes symbols).length = _
    rw [List.length_append, keysymBytes_length, ih, List.length_cons]
    omega

theorem symbolBytes_dropLast (symbols : List KbKeysym) : symbolBytes symbols.dropLast <+: symbolBytes symbols := by
  rcases List.eq_nil_or_concat symbols with rfl | ⟨init, k, rfl⟩
  · exact List.prefix_rfl
  · rw [List.concat_eq_append, List.dropLast_concat, symbolBytes_append]
    exact List.prefix_append _ _

/-- **What is promised of the keys.** The pipe has the symbols that were sent, in order, each once; at most
the last one may still be on its way, and while the stdin task waits for a key none is. -/
structure KeysOk (s : StdinState) : Prop where
  inOrder : s.written <+: symbolBytes s.sent
  butLast : symbolBytes s.sent.dropLast <+: s.written
  atRest : s.pc = .blocked → s.named = false → s.written = symbolBytes s.sent

/-- The bytes that are still to be stored. -/
def StdinState.owed (s : StdinState) : List UInt8 :=
  match s.pc with
  | .awake => keysymBytes (stdinKeysymToChar s.lastCode)
  | .writing i => (keysymBytes s.lastCode).drop i
  | .blocked | .written => if s.named then keysymBytes (stdinKeysymToChar s.lastCode) else []

/-- While it waits for a key, nobody can bring the stdin task back but `stdin_send_code`. -/
structure StdinInv (s : StdinState) : Prop where
  bytes : symbolBytes s.sent = s.written ++ s.owed
  rest : s.pc = .blocked → s.named = false → Away s.sched s.stdinTask
  busy : s.named = true → s.pc = .blocked ∨ s.pc = .written
  index : ∀ i, s.pc = .writing i → i < 4

theorem owed_length_le (s : StdinState) : s.owed.length ≤ 4 := by
  cases hpc : s.pc with
  | awake => simp [StdinState.owed, hpc, keysymBytes_length]
  | writing i => simp [StdinState.owed, hpc, keysymBytes_length]
  | blocked => cases hn : s.named <;> simp [StdinState.owed, hpc, hn, keysymBytes_length]
  | written => cases hn : s.named <;> simp [StdinState.owed, hpc, hn, keysymBytes_length]

theorem StdinInv.keysOk (h : StdinInv s) : KeysOk s := by
  have hpre : s.written <+: symbolBytes s.sent := ⟨_, h.bytes.symm⟩
  refine ⟨hpre, ?_, fun hpc hn => ?_⟩
  · refine List.prefix_of_prefix_length_le (symbolBytes_dropLast s.sent) hpre ?_
    have hlen := congrArg List.length h.bytes
    rw [symbolBytes_length, List.length_append] at hlen
    rw [symbolBytes_length, List.length_dropLast]
    have hle := owed_length_le s
    omega
  · have ho : s.owed = [] := by simp [StdinState.owed, hpc, hn]
    rw [h.bytes, ho, List.append_nil]

/-- **When an event is harmless.** A key comes while the stdin task waits, with the last symbol picked up, or
while it runs on after storing the last byte, with no switch postponed. The pipe takes every byte. The stdin
task blocks when a symbol was sent in the meantime, or when another task is ready, no switch is postponed and
no list leads to the stdin task. It is brought back by others only inside of `pipe_write`. -/
def StdinEvent.Timely (s : StdinState) : StdinEvent → Prop
  | .key code => (keyboardHandleKeycode s.kbFlags code).2 ≠ none → s.named = false ∧
      (s.pc = .blocked ∨ s.pc = .written ∧ s.sched.currentTask = s.stdinTask ∧ s.sched.postponeSwitchCounter = 0)
  | .fail => False
  | .block => s.named = true ∨
      Off s.sched s.stdinTask ∧ s.sched.scheduleTasks ≠ 0 ∧ s.sched.postponeSwitchCounter = 0
  | .sched op => op.Names s.stdinTask → ∃ i, s.pc = .writing i
  | _ => True

theorem keysymBytes_drop (k : KbKeysym) {i : ℕ} (hi : i < 4) :
    (keysymBytes k).drop i = (keysymBytes k).getD i 0 :: (keysymBytes k).drop (i + 1) := by
  have hlen : i < (keysymBytes k).length := hi
  rw [List.drop_eq_getElem_cons hlen, List.getD_eq_getElem _ _ hlen]

theorem StdinInv.unnamed (h : StdinInv s) (hb : s.pc ≠ .blocked) (hw : s.pc ≠ .written) : s.named = false :=
  Bool.eq_false_iff.mpr fun hn => (h.busy hn).elim hb hw

theorem StdinInv.key {keysym : KbKeysym} {sched : Sched} {kbFlags : KbFlags} (h : StdinInv s)
    (hn : s.named = false) (hpc : s.pc = .blocked ∨ s.pc = .written) :
    StdinInv { s with
      kbFlags := kbFlags, sent := s.sent ++ [keysym], named := true, lastCode := keysym, sched := sched } := by
  have ho : s.owed = [] := by
    rcases hpc with hpc | hpc <;> simp [StdinState.owed, hpc, hn]
  refine ⟨?_, fun _ hn' => Bool.noConfusion hn', fun _ => hpc, h.index⟩
  have hbytes := h.bytes
  rw [ho, List.append_nil] at hbytes
  change symbolBytes (s.sent ++ [keysym]) = _
  rw [symbolBytes_append, hbytes]
  congr 1
  rcases hpc with hpc | hpc <;> simp [StdinState.owed, hpc]

theorem StdinInv.handler {event : StdinEvent} (h : StdinInv s) (ht : event.Timely s)
    (hx : s.sched.currentTask = s.stdinTask) (hs : stdinHandler s s.pc event = some s') : StdinInv s' := by
  have hbytes := h.bytes
  cases hpc : s.pc with
  | blocked =>
    rw [hpc] at hs
    cases event with
    | resume =>
      -- it came back, so a key has named it
      obtain rfl := Option.some.inj hs
      have hn : s.named = true := by
        by_contra hn
        exact (h.rest hpc (Bool.eq_false_iff.mpr hn)).2 hx
      simp only [StdinState.owed, hpc, hn, if_true] at hbytes
      exact ⟨hbytes, fun hb => (nomatch hb), fun hn' => (nomatch hn'), fun i hi => nomatch hi⟩
    | _ => cases hs
  | awake =>
    rw [hpc] at hs
    have hn : s.named = false := h.unnamed (by rw [hpc]; exact StdinPc.noConfusion)
      (by rw [hpc]; exact StdinPc.noConfusion)
    cases event with
    | convert =>
      obtain rfl := Option.some.inj hs
      simp only [StdinState.owed, hpc] at hbytes
      refine ⟨hbytes, fun hb => (nomatch hb), fun hn' => ?_, fun i hi => ?_⟩
      · exact absurd hn' (by rw [hn]; exact Bool.false_ne_true)
      · obtain rfl := StdinPc.writing.inj hi
        omega
    | _ => cases hs
  | writing i =>
    rw [hpc] at hs
    have hn : s.named = false := h.unnamed (by rw [hpc]; exact StdinPc.noConfusion)
      (by rw [hpc]; exact StdinPc.noConfusion)
    have hi := h.index i hpc
    cases event with
    | store =>
      obtain rfl := Option.some.inj hs
      simp only [StdinState.owed, hpc] at hbytes
      rw [keysymBytes_drop _ hi, List.append_cons] at hbytes
      by_cases hlast : i + 1 < 4
      · simp only [if_pos hlast]
        refine ⟨hbytes, fun hb => (nomatch hb), fun hn' => ?_, fun j hj => ?_⟩
        · exact absurd hn' (by rw [hn]; exact Bool.false_ne_true)
        · obtain rfl := StdinPc.writing.inj hj
          exact hlast
      · simp only [if_neg hlast]
        have hnil : (keysymBytes s.lastCode).drop (i + 1) = [] :=
          List.drop_eq_nil_of_le (by rw [keysymBytes_length]; omega)
        refine ⟨?_, fun hb => (nomatch hb), fun hn' => .inr rfl, fun j hj => nomatch hj⟩
        rw [hbytes, hnil]
        simp [StdinState.owed, hn]
    | fail => exact ht.elim
    | _ => cases hs
  | written =>
    rw [hpc] at hs
    cases event with
    | block =>
      obtain ⟨sched, hb, rfl⟩ := Option.map_eq_some_iff.mp hs
      simp only [StdinState.owed, hpc] at hbytes
      refine ⟨hbytes, fun _ hn => ?_, fun _ => .inl rfl, fun j hj => nomatch hj⟩
      rcases ht with hn' | ⟨hoff, hr, hp⟩
      · exact absurd (hn'.symm.trans hn) (by decide)
      · exact hoff.block hr hp hb
    | _ => cases hs

/-- **One event** keeps the invariant. -/
theorem StdinInv.step {event : StdinEvent} (h : StdinInv s) (ht : event.Timely s)
    (hs : stdinStep s event = some s') : StdinInv s' := by
  have hhandler : ∀ event : StdinEvent, event.Timely s →
      (if s.sched.currentTask = s.stdinTask then stdinHandler s s.pc event else none) = some s' →
      StdinInv s' := fun event ht hs => by
    by_cases hx : s.sched.currentTask = s.stdinTask
    · rw [if_pos hx] at hs
      exact h.handler ht hx hs
    · rw [if_neg hx] at hs
      cases hs
  cases event with
  | key code =>
    rw [stdinStep] at hs
    rcases hk : keyboardHandleKeycode s.kbFlags code with ⟨kbFlags, - | keysym⟩
    · rw [hk] at hs
      obtain rfl := Option.some.inj hs
      exact ⟨h.bytes, h.rest, h.busy, h.index⟩
    · rw [hk] at hs
      obtain ⟨sched, -, rfl⟩ := Option.map_eq_some_iff.mp hs
      obtain ⟨hn, hpc⟩ := ht (by rw [hk]; exact Option.some_ne_none keysym)
      exact h.key hn (hpc.imp id fun hw => hw.1)
  | sched op =>
    obtain ⟨sched, hop, rfl⟩ := Option.map_eq_some_iff.mp hs
    refine ⟨h.bytes, fun hpc hn => ?_, h.busy, h.index⟩
    refine (h.rest hpc hn).step (fun hname => ?_) hop
    obtain ⟨i, hi⟩ := ht hname
    exact nomatch hpc.symm.trans hi
  | resume => exact hhandler _ ht hs
  | convert => exact hhandler _ ht hs
  | store => exact hhandler _ ht hs
  | fail => exact hhandler _ ht hs
  | block => exact hhandler _ ht hs

theorem stdinStep_of_handler {event : StdinEvent} (hx : s.sched.currentTask = s.stdinTask)
    (h : stdinHandler s s.pc event = some s') : stdinStep s event = some s' := by
  cases event with
  | key code => cases hpc : s.pc <;> rw [hpc] at h <;> cases h
  | sched op => cases hpc : s.pc <;> rw [hpc] at h <;> cases h
  | _ => exact (if_pos hx).trans h

/-- What follows a key when nothing comes between. -/
def keyRound (code : UInt32) : List StdinEvent :=
  [.key code, .resume, .convert, .store, .store, .store, .store, .block]

/-- **A key that finds the stdin task waiting**, with no switch postponed, can be written at once. -/
theorem StdinInv.round {code : UInt32} {kbFlags : KbFlags} {keysym : KbKeysym} (h : StdinInv s)
    (hpc : s.pc = .blocked) (hn : s.named = false)
    (hk : keyboardHandleKeycode s.kbFlags code = (kbFlags, some keysym)) (hc : s.sched.currentTask ≠ 0)
    (hp : s.sched.postponeSwitchCounter = 0) :
    ∃ s', Run (fun s event s' => stdinStep s event = some s' ∧ event.Timely s) s (keyRound code) s' ∧
      s'.pc = .blocked ∧ s'.named = false ∧ s'.sent = s.sent ++ [keysym] := by
  obtain ⟨sched, hs⟩ : ∃ sched, taskForceSwitch s.sched s.stdinTask = some sched :=
    taskUnlockScheduler_isSome (by rw [taskSwitchWrapper_lock]; exact Nat.succ_ne_zero _)
  obtain ⟨hoff, hx, hr, hp'⟩ := (h.rest hpc hn).handOver hc hp hs
  obtain ⟨sched', hb⟩ : ∃ sched', taskBlock sched .blocked = some sched' :=
    taskUnlockScheduler_isSome (by rw [taskSchedule_lock]; exact Nat.succ_ne_zero _)
  let s₁ := { s with
    kbFlags := kbFlags, sent := s.sent ++ [keysym], named := true, lastCode := keysym, sched := sched }
  have hkey : stdinStep s (.key code) = some s₁ := by
    rw [stdinStep, hk]
    dsimp only [stdinSendCode]
    rw [hs]
    rfl
  have hresume : stdinHandler s₁ s₁.pc .resume = some { s₁ with pc := .awake, named := false } := by
    change stdinHandler s₁ s.pc .resume = _
    rw [hpc]
    rfl
  refine ⟨_, .cons ⟨hkey, fun _ => ⟨hn, .inl hpc⟩⟩ <| .cons ⟨stdinStep_of_handler hx hresume, trivial⟩ <|
    .cons ⟨stdinStep_of_handler hx rfl, trivial⟩ <| .cons ⟨stdinStep_of_handler hx rfl, trivial⟩ <|
    .cons ⟨stdinStep_of_handler hx rfl, trivial⟩ <| .cons ⟨stdinStep_of_handler hx rfl, trivial⟩ <|
    .cons ⟨stdinStep_of_handler hx rfl, trivial⟩ <|
    .cons ⟨stdinStep_of_handler hx (congrArg (Option.map _) hb), .inr ⟨hoff, hr, hp'⟩⟩ (.nil _), rfl, rfl, rfl⟩

/-! ## Runs -/

/-- Before the first key: the stdin task is created and on no list. -/
structure StdinStart (s : StdinState) : Prop where
  pc : s.pc = .blocked
  named : s.named = false
  sent : s.sent = []
  written : s.written = []
  away : Away s.sched s.stdinTask

theorem StdinStart.inv (h : StdinStart s) : StdinInv s := by
  refine ⟨?_, fun _ _ => h.away, fun _ => .inl h.pc, fun i hi => nomatch h.pc.symm.trans hi⟩
  rw [h.sent, h.written]
  simp [StdinState.owed, h.pc, h.named, symbolBytes]

/-- **No key is lost or doubled** in a run whose events are all timely: in every state reached, the pipe has
the symbols sent, in order, each once, but for the one that is on its way. -/
theorem keys_in_order (hstart : StdinStart s) {events : List StdinEvent}
    (h : Run (fun s event s' => stdinStep s event = some s' ∧ event.Timely s) s events s') : KeysOk s' :=
  StdinInv.keysOk (h.invariant (fun _ _ _ hinv hstep => hinv.step hstep.2 hstep.1) hstart.inv)

/-- The kernel runs, and the stdin task is created at 4. -/
def demoStdin : StdinState :=
  ⟨taskCreateNew (multitaskInit 1 2 3 (fun _ => 0) (fun _ => .available) fun _ => 0) 4, 4,
    ⟨false, false, false, false, false, false⟩, ⟨0, 0, 0⟩, .blocked, [], [], false⟩

theorem demoStdin_start : StdinStart demoStdin := by
  refine ⟨rfl, rfl, rfl, rfl, ⟨by decide, by decide, by decide, by decide, by decide, fun t => ?_, by decide⟩,
    by decide⟩
  simp only [demoStdin, taskCreateNew, multitaskInit, taskAddNode, Function.update_apply]
  split_ifs <;> decide

theorem keys_in_order_demo : ∃ s, Run (fun s event s' => stdinStep s event = some s' ∧ event.Timely s)
    demoStdin (keyRound 24) s ∧ KeysOk s := by
  have hk : keyboardHandleKeycode demoStdin.kbFlags 24 = (demoStdin.kbFlags, some ⟨0, 0, 24⟩) := by decide +kernel
  obtain ⟨s, hrun, -⟩ := demoStdin_start.inv.round rfl rfl hk (by decide) rfl
  exact ⟨s, hrun, keys_in_order demoStdin_start hrun⟩

/-- The keys `a` and `b` come while the kernel is inside of `task_lock`; later it blocks. -/
def demoTwoKeys : List StdinEvent :=
  [.sched .lock, .key 24, .key 25, .sched .unlock, .resume, .convert, .store, .store, .store, .store, .block,
    .sched (.block .blocked), .resume, .convert, .store, .store, .store, .store]

/-- **The second key overwrites the first**, and then it is written twice. -/
theorem second_key_overwrites : StdinStart demoStdin ∧
    ∃ s, Run (fun s event s' => stdinStep s event = some s') demoStdin demoTwoKeys s ∧ ¬ KeysOk s := by
  refine ⟨demoStdin_start, ?_⟩
  have he : (demoTwoKeys.foldlM stdinStep demoStdin).map (fun s => (s.written, s.sent)) =
      some ([98, 0, 25, 0, 98, 0, 25, 0], [⟨0, 0, 24⟩, ⟨0, 0, 25⟩]) := by decide +kernel
  obtain ⟨s, hs, hw⟩ := Option.map_eq_some_iff.mp he
  obtain ⟨hw, hsent⟩ := Prod.mk.inj hw
  refine ⟨s, run_of_foldlM (fun _ _ _ h => h) hs, fun h => ?_⟩
  have hpre := h.inOrder
  rw [hw, hsent] at hpre
  exact absurd hpre (by decide)

end BulbOS.Stdin
