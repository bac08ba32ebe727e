import BulbOS.Keyboard.Model
import BulbOS.Lib.Circular
import BulbOS.Lib.Resend

/-!
# The keyboard command protocol

A run has calls of `keyboard_queuecommand` and bytes from the keyboard, in any order. Each command that the queue
accepts has a number, and each byte written to the data port is a transmission of the command at the top.

* `KbOk`: what the claim asks for in every state; `KbCore`: the queue and the log, with the number of transmissions
  of the top; `KbInv`: the invariant;
* `KbInv.queue`, `KbInv.byte`: the two kinds of steps;
* **`keyboard_protocol`**: every run.
-/

namespace BulbOS.Keyboard

open KLib

variable {k : KbState} {accepted : List UInt8} {sent : List (ℕ × UInt8)} {t : ℕ}

/-! ## Runs -/

inductive KbEvent
  | queue (command : UInt8)
  | byte (response : UInt8)

/-- The state, the commands accepted by the queue, and the transmissions with the number of their command. -/
structure KbCfg where
  kb : KbState
  accepted : List UInt8
  sent : List (ℕ × UInt8)

def kbCall (k : KbState) : KbEvent → KbState
  | .queue command => keyboardQueuecommand k command
  | .byte response => keyboardHandlecode k response

/-- The commands accepted after the event. -/
def acceptedAfter (c : KbCfg) : KbEvent → List UInt8
  | .queue command =>
    if (queuePush c.kb.commandQueue command.toNat).1 = 0 then c.accepted ++ [command] else c.accepted
  | .byte _ => c.accepted

/-- What a step writes to the port is a transmission of the command that is then at the top. -/
def logAfter (k k' : KbState) (accepted : List UInt8) (sent : List (ℕ × UInt8)) : List (ℕ × UInt8) :=
  sent ++ (k'.port.drop k.port.length).map fun b => (accepted.length - k'.commandQueue.size, b)

def kbStep (c : KbCfg) (e : KbEvent) : KbCfg :=
  ⟨kbCall c.kb e, acceptedAfter c e, logAfter c.kb (kbCall c.kb e) (acceptedAfter c e) c.sent⟩

/-- **The protocol.** -/
structure KbOk (c : KbCfg) : Prop where
  acknow : c.kb.status = .cmdAcknow → 0 < c.kb.commandQueue.size ∧ c.kb.port.getLast? = some c.kb.topCommand
  available : c.kb.status = .kbAvailable → c.kb.commandQueue.size = 0
  inOrder : firstSent [] c.sent <+: c.accepted
  atMost : ∀ i, timesSent c.sent i ≤ 4

/-- An empty queue, and no command under way. -/
structure Start (k : KbState) : Prop where
  capacity : k.commandQueue.capacity = commandQueueCap
  head : k.commandQueue.head < commandQueueCap
  size : k.commandQueue.size = 0
  status : k.status = .kbAvailable
  repetition : k.repetition = 0

/-! ## The invariant -/

/-- The queue holds the commands that have not left it, and the top has been sent `t` times. -/
structure KbCore (k : KbState) (accepted : List UInt8) (sent : List (ℕ × UInt8)) (t : ℕ) : Prop where
  capacity : k.commandQueue.capacity = commandQueueCap
  head : k.commandQueue.head < commandQueueCap
  size_le : k.commandQueue.size ≤ accepted.length
  contents : circular k.commandQueue.queue commandQueueCap k.commandQueue.head k.commandQueue.size =
    (accepted.drop (accepted.length - k.commandQueue.size)).map UInt8.toNat
  log : Resent 4 accepted sent (accepted.length - k.commandQueue.size) t

theorem KbCore.frame {k' : KbState} (h : KbCore k accepted sent t) (hq : k'.commandQueue = k.commandQueue) :
    KbCore k' accepted sent t := by
  obtain ⟨h₁, h₂, h₃, h₄, h₅⟩ := h
  rw [← hq] at h₁ h₂ h₃ h₄ h₅
  exact ⟨h₁, h₂, h₃, h₄, h₅⟩

/-- The top is the first command that has not left; below it are the others. -/
theorem KbCore.top (h : KbCore k accepted sent t) (hsize : 0 < k.commandQueue.size) :
    accepted[accepted.length - k.commandQueue.size]? = some k.topCommand ∧
      circular k.commandQueue.queue commandQueueCap ((k.commandQueue.head + 1) % commandQueueCap)
        (k.commandQueue.size - 1) = (accepted.drop (accepted.length - k.commandQueue.size + 1)).map UInt8.toNat := by
  have hlt : accepted.length - k.commandQueue.size < accepted.length := by
    have := h.size_le
    omega
  have hc := h.contents
  rw [show k.commandQueue.size = k.commandQueue.size - 1 + 1 by omega, circular_pop h.head,
    show k.commandQueue.size - 1 + 1 = k.commandQueue.size by omega, List.drop_eq_getElem_cons hlt, List.map_cons,
    List.cons.injEq] at hc
  refine ⟨?_, hc.2⟩
  rw [List.getElem?_eq_getElem hlt, Option.some.injEq, KbState.topCommand, queueTop, hc.1, UInt8.ofNat_toNat]

/-- **The top is sent.** -/
theorem KbCore.send (h : KbCore k accepted sent t) (hsize : 0 < k.commandQueue.size) :
    KbCore (keyboardSendCmd k k.topCommand) accepted
      (sent ++ [(accepted.length - k.commandQueue.size, k.topCommand)]) (t + 1) :=
  ⟨h.capacity, h.head, h.size_le, h.contents, h.log.send (h.top hsize).1⟩

/-- **The top leaves the queue.** -/
theorem KbCore.pop (h : KbCore k accepted sent t) (hsize : 0 < k.commandQueue.size) (h₀ : 0 < t) (hle : t ≤ 4) :
    KbCore { k with commandQueue := queuePop k.commandQueue } accepted sent 0 := by
  have hsl := h.size_le
  have hgone : accepted.length - (k.commandQueue.size - 1) = accepted.length - k.commandQueue.size + 1 := by omega
  have hlog := h.log.leave h₀ hle
  have hrest := (h.top hsize).2
  rw [← hgone] at hlog hrest
  have hpop : queuePop k.commandQueue = { k.commandQueue with
      size := k.commandQueue.size - 1, head := (k.commandQueue.head + 1) % k.commandQueue.capacity } :=
        if_neg (Nat.ne_of_gt hsize)
  rw [hpop, h.capacity]
  exact ⟨h.capacity, Nat.mod_lt _ (by decide), by dsimp only; omega, hrest, hlog⟩

/-- **A command is accepted.** -/
theorem KbCore.push (h : KbCore k accepted sent t) (command : UInt8) (hroom : k.commandQueue.size < commandQueueCap) :
    (queuePush k.commandQueue command.toNat).1 = 0 ∧
      KbCore { k with commandQueue := (queuePush k.commandQueue command.toNat).2 } (accepted ++ [command]) sent t := by
  have hcap := h.capacity
  have hpush : queuePush k.commandQueue command.toNat = (0, { k.commandQueue with
      size := k.commandQueue.size + 1
      queue := Function.update k.commandQueue.queue
        ((k.commandQueue.head + k.commandQueue.size) % k.commandQueue.capacity) command.toNat }) := if_neg (by omega)
  have hsl := h.size_le
  have hgone : (accepted ++ [command]).length - (k.commandQueue.size + 1) = accepted.length - k.commandQueue.size := by
    rw [List.length_append, List.length_singleton]
    omega
  rw [hpush, hcap]
  refine ⟨rfl, hcap, h.head, ?_, ?_, ?_⟩
  · rw [List.length_append, List.length_singleton]
    exact Nat.succ_le_succ hsl
  · dsimp only
    rw [circular_push hroom, hgone, h.contents, List.drop_append_of_le_length (Nat.sub_le _ _), List.map_append]
    rfl
  · dsimp only
    rw [hgone]
    exact h.log.accept command

/-- While a command is under way it has been sent once more often than it was refused. -/
structure KbInv (k : KbState) (accepted : List UInt8) (sent : List (ℕ × UInt8)) : Prop where
  core : KbCore k accepted sent (if k.status = .cmdAcknow then k.repetition.toNat + 1 else 0)
  repetition : k.repetition.toNat ≤ 3
  idle : k.status ≠ .cmdAcknow → k.repetition = 0
  acknow : k.status = .cmdAcknow → 0 < k.commandQueue.size ∧ k.port.getLast? = some k.topCommand
  available : k.status = .kbAvailable → k.commandQueue.size = 0

theorem KbInv.ok (h : KbInv k accepted sent) : KbOk ⟨k, accepted, sent⟩ := by
  refine ⟨h.acknow, h.available, h.core.log.first_prefix, h.core.log.count_le ?_⟩
  by_cases hs : k.status = .cmdAcknow
  · rw [if_pos hs]
    exact Nat.succ_le_succ h.repetition
  · rw [if_neg hs]
    exact Nat.zero_le 4

theorem Start.inv (h : Start k) : KbInv k [] [] := by
  have hs : k.status ≠ .cmdAcknow := by
    rw [h.status]
    decide
  refine ⟨?_, by rw [h.repetition]; decide, fun _ => h.repetition, fun hc => absurd hc hs, fun _ => h.size⟩
  rw [if_neg hs]
  refine ⟨h.capacity, h.head, Nat.le_of_eq h.size, ?_, ?_⟩
  · rw [h.size]
    rfl
  · rw [h.size]
    exact resent_nil

theorem logAfter_silent {k' : KbState} (hport : k'.port = k.port) : logAfter k k' accepted sent = sent := by
  rw [logAfter, hport, List.drop_length, List.map_nil, List.append_nil]

/-- The top is sent, with the number of earlier transmissions in `repetition`. -/
theorem KbCore.invSend (h : KbCore k accepted sent t) (hsize : 0 < k.commandQueue.size) (hrep : k.repetition.toNat = t)
    (ht : t ≤ 3) : KbInv (keyboardSendCmd k k.topCommand) accepted
      (logAfter k (keyboardSendCmd k k.topCommand) accepted sent) := by
  have hport : (keyboardSendCmd k k.topCommand).port.drop k.port.length = [k.topCommand] := List.drop_left
  rw [logAfter, hport]
  refine ⟨?_, hrep ▸ ht, fun hs => absurd rfl hs, fun _ => ⟨hsize, List.getLast?_concat⟩, fun hs => nomatch hs⟩
  rw [if_pos (show (keyboardSendCmd k k.topCommand).status = .cmdAcknow from rfl),
    show (keyboardSendCmd k k.topCommand).repetition.toNat = t from hrep]
  exact h.send hsize

/-- **`keyboard_send_next`** when the keyboard is available. -/
theorem KbCore.invNext (h : KbCore k accepted sent t) (hs : k.status = .kbAvailable) (hrep : k.repetition.toNat = t)
    (ht : t ≤ 3) (hempty : k.commandQueue.size = 0 → t = 0) :
    KbInv (keyboardSendNext k) accepted (logAfter k (keyboardSendNext k) accepted sent) := by
  by_cases hsize : 0 < k.commandQueue.size
  · have hnext : keyboardSendNext k = keyboardSendCmd k k.topCommand := if_pos ⟨hs, hsize⟩
    rw [hnext]
    exact h.invSend hsize hrep ht
  · have hzero : k.commandQueue.size = 0 := by omega
    have hnext : keyboardSendNext k = k := if_neg fun hc => hsize hc.2
    rw [hempty hzero] at h hrep
    rw [hnext, logAfter_silent rfl]
    refine ⟨?_, by omega, fun _ => UInt8.toNat_inj.mp hrep, fun hc => ?_, fun _ => hzero⟩
    · rw [hs, if_neg (by decide)]
      exact h
    · rw [hs] at hc
      cases hc

/-! ## Steps -/

/-- **A call of `keyboard_queuecommand`**: a full queue changes nothing, and an empty one sends the command. -/
theorem KbInv.queue {accepted' : List UInt8} (h : KbInv k accepted sent) (command : UInt8)
    (haccepted : accepted' = if (queuePush k.commandQueue command.toNat).1 = 0 then
      accepted ++ [command] else accepted) :
    KbInv (keyboardQueuecommand k command) accepted'
      (logAfter k (keyboardQueuecommand k command) accepted' sent) := by
  have hcap := h.core.capacity
  unfold keyboardQueuecommand
  dsimp only
  by_cases hroom : k.commandQueue.size < commandQueueCap
  · obtain ⟨hresult, hpush⟩ := h.core.push command hroom
    rw [if_pos hresult] at haccepted
    rw [← haccepted] at hpush
    have hsize : (queuePush k.commandQueue command.toNat).2.size = k.commandQueue.size + 1 := by
      rw [queuePush, if_neg (by omega)]
    have htop := (hpush.top (by dsimp only; omega)).1
    dsimp only at htop
    rw [hsize] at htop ⊢
    by_cases hfirst : k.commandQueue.size = 0
    · -- the keyboard waits for no answer to a command
      have hs : k.status ≠ .cmdAcknow := fun hc => by
        have := (h.acknow hc).1
        omega
      have hrep : k.repetition.toNat = 0 := by
        rw [h.idle hs]
        rfl
      rw [hfirst, haccepted, List.length_append, List.length_singleton, Nat.zero_add, Nat.add_sub_cancel,
        List.getElem?_concat_length, Option.some.injEq] at htop
      rw [if_neg hs] at hpush
      have hsend := hpush.invSend (by dsimp only; omega) hrep (by decide)
      rw [← htop] at hsend
      rw [if_pos (by omega)]
      exact hsend
    · have hs : k.status ≠ .kbAvailable := fun hc => hfirst (h.available hc)
      have hlog : logAfter k { k with commandQueue := (queuePush k.commandQueue command.toNat).2 } accepted' sent =
        sent :=
        logAfter_silent rfl
      rw [if_neg (by omega), hlog]
      refine ⟨hpush, h.repetition, h.idle, fun hc => ?_, fun hc => absurd hc hs⟩
      obtain ⟨hpos, hlast⟩ := h.acknow hc
      have hold := (h.core.top hpos).1
      have hle := h.core.size_le
      -- the command at the top is still the same
      have hsame : accepted'.length - (k.commandQueue.size + 1) = accepted.length - k.commandQueue.size := by
        rw [haccepted, List.length_append, List.length_singleton]
        omega
      rw [hsame, haccepted, List.getElem?_append_left (by omega), hold, Option.some.injEq] at htop
      exact ⟨by dsimp only; omega, by rw [← htop]; exact hlast⟩
  · have hfull : queuePush k.commandQueue command.toNat = (-1, k.commandQueue) := if_pos (by omega)
    rw [hfull, if_neg (show (-1 : Int) ≠ 0 by decide)] at haccepted
    rw [hfull, if_neg (by dsimp only; unfold commandQueueCap at hroom; omega), haccepted, logAfter_silent rfl]
    exact h

/-- **A byte from the keyboard**: an acknowledgement, a refusal, the answer to a reset, or anything else. -/
theorem KbInv.byte (h : KbInv k accepted sent) (response : UInt8) :
    KbInv (keyboardHandlecode k response) accepted (logAfter k (keyboardHandlecode k response) accepted sent) := by
  have hcore := h.core
  cases hs : k.status with
  | kbAvailable =>
    have hsame : keyboardHandlecode k response = k := by rw [keyboardHandlecode, hs]
    rw [hsame, logAfter_silent rfl]
    exact h
  | cmdResponse =>
    have hcode : keyboardHandlecode k response = keyboardSendNext { k with status := .kbAvailable } := by
      rw [keyboardHandlecode, hs, keyboardHandleresponse]
    have hne : k.status ≠ .cmdAcknow := by
      rw [hs]
      decide
    have hrep : k.repetition.toNat = 0 := by
      rw [h.idle hne]
      rfl
    rw [if_neg hne] at hcore
    rw [hcode]
    have hframe : KbCore { k with status := .kbAvailable } accepted sent 0 := hcore.frame rfl
    exact hframe.invNext rfl hrep (by decide) fun _ => rfl
  | cmdAcknow =>
    obtain ⟨hsize, hlast⟩ := h.acknow hs
    have hcode : keyboardHandlecode k response = keyboardHandlequeue k response := by rw [keyboardHandlecode, hs]
    rw [if_pos hs] at hcore
    have hrep := h.repetition
    have hpop := hcore.pop hsize (Nat.succ_pos _) (by omega)
    rw [hcode, keyboardHandlequeue]
    dsimp only
    by_cases hack : response = 0xFA
    · rw [if_pos hack]
      by_cases hreset : k.topCommand = 0xFF
      · -- the answer to the reset comes next
        have hlog : logAfter k { k with
            commandQueue := queuePop k.commandQueue, repetition := 0, status := .cmdResponse } accepted sent = sent :=
          logAfter_silent rfl
        rw [if_pos hreset, if_neg (show Status.cmdResponse ≠ .kbAvailable by decide), hlog]
        exact ⟨hpop.frame rfl, Nat.zero_le 3, fun _ => rfl, fun hc => (by cases hc), fun hc => (by cases hc)⟩
      · rw [if_neg hreset, if_pos rfl]
        have hframe : KbCore { k with
            commandQueue := queuePop k.commandQueue, repetition := 0, status := .kbAvailable } accepted sent 0 :=
          hpop.frame rfl
        exact hframe.invNext rfl rfl (by decide) fun _ => rfl
    · rw [if_neg hack]
      by_cases hrefused : response = 0xFE
      · have hcount : (k.repetition + 1).toNat = k.repetition.toNat + 1 := by
          rw [UInt8.toNat_add]
          change (k.repetition.toNat + 1) % 256 = _
          omega
        rw [if_pos hrefused, if_pos rfl]
        by_cases hmany : k.repetition + 1 > 3
        · rw [if_pos hmany]
          have hframe : KbCore { k with
              commandQueue := queuePop k.commandQueue, repetition := 0, status := .kbAvailable } accepted sent 0 :=
            hpop.frame rfl
          exact hframe.invNext rfl rfl (by decide) fun _ => rfl
        · rw [if_neg hmany]
          have hfew : (k.repetition + 1).toNat ≤ 3 := by
            rw [gt_iff_lt, UInt8.lt_iff_toNat_lt] at hmany
            exact Nat.le_of_not_lt hmany
          have hframe : KbCore { k with repetition := k.repetition + 1, status := .kbAvailable } accepted sent
              (k.repetition.toNat + 1) := hcore.frame rfl
          refine hframe.invNext rfl hcount (by omega) fun hz => ?_
          dsimp only at hz
          omega
      · rw [if_neg hrefused, if_neg (by rw [hs]; decide), logAfter_silent rfl]
        exact h

/-- **The keyboard command protocol.** From an empty queue, after any sequence of calls and bytes: while an
acknowledgement is awaited the queue is not empty and its top was written last; while the keyboard is available the
queue is empty; commands are sent for the first time in the order they were queued; and none is sent more than four
times. -/
theorem keyboard_protocol (h : Start k) (events : List KbEvent) : KbOk (events.foldl kbStep ⟨k, [], []⟩) := by
  have hrun : ∀ c : KbCfg, KbInv c.kb c.accepted c.sent → KbOk (events.foldl kbStep c) := by
    induction events with
    | nil => exact fun c hc => hc.ok
    | cons e events ih =>
      intro c hc
      refine ih (kbStep c e) ?_
      cases e with
      | queue command => exact hc.queue command rfl
      | byte response => exact hc.byte response
  exact hrun ⟨k, [], []⟩ h.inv

/-- The commands of `keyboard_init`: the reset is acknowledged and answered, the next command is refused once. -/
theorem keyboard_protocol_init : ∃ c, c = (initCommands.map KbEvent.queue ++
      [KbEvent.byte 0xFA, KbEvent.byte 0xAA, KbEvent.byte 0xFE, KbEvent.byte 0xFA]).foldl kbStep
        ⟨keyboardStatics fun _ => 0, [], []⟩ ∧
    c.sent = [(0, 0xFF), (1, 0xED), (1, 0xED), (2, 0x0)] ∧ KbOk c :=
  ⟨_, rfl, by decide +kernel, keyboard_protocol ⟨rfl, by decide, rfl, rfl, rfl⟩ _⟩

end BulbOS.Keyboard
