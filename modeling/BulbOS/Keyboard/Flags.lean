import BulbOS.Keyboard.Scancode
import BulbOS.Lib.Run
import BulbOS.Stdin.Model
import Mathlib.Algebra.Ring.Parity
import Mathlib.Tactic.Common

/-!
# The modifier flags

A key can be pressed at any time, again and again while it is held, and released when it is held.

* `KbFlags.after`, `handle_press`, `handle_release`: what a press and a release do to the flags;
* `KeyMove`: the physically possible events; `FlagsOk`: what the flags should say;
* `KeyAct.Clean`: the condition on an event; **`flags_follow_iff`**: the flags follow the keys exactly in the
  runs of such events.
-/

namespace BulbOS.Keyboard

open KLib BulbOS.Stdin KbKeycode

theorem KbKeycode.num_injective : Function.Injective KbKeycode.num := by
  have hleft : Function.LeftInverse (fun n : UInt32 => KbKeycode.ofNat n.toNat) KbKeycode.num := fun key => by
    cases key <;> rfl
  exact hleft.injective

theorem num_press (key : KbKeycode) :
    decide (key.num >>> 31 ≠ 0) = false ∧ key.num &&& ~~~kbReleaseFlag = key.num := by
  cases key <;> decide +kernel

theorem num_release (key : KbKeycode) : decide ((key.num ||| releaseFlag) >>> 31 ≠ 0) = true ∧
    (key.num ||| releaseFlag) &&& ~~~kbReleaseFlag = key.num := by
  cases key <;> decide +kernel

theorem num_eq_iff (key : KbKeycode) :
    (key.num = Stdin.keyLshift ↔ key = .keyLshift) ∧ (key.num = Stdin.keyRshift ↔ key = .keyRshift) ∧
      (key.num = Stdin.keyCapslock ↔ key = .keyCapslock) ∧ (key.num = Stdin.keyLctrl ↔ key = .keyLctrl) ∧
      (key.num = Stdin.keyRctrl ↔ key = .keyRctrl) ∧ (key.num = Stdin.keyLalt ↔ key = .keyLalt) ∧
      (key.num = Stdin.keyRalt ↔ key = .keyRalt) ∧ (key.num = Stdin.keyLgui ↔ key = .keyLgui) :=
  ⟨num_injective.eq_iff' rfl, num_injective.eq_iff' rfl, num_injective.eq_iff' rfl, num_injective.eq_iff' rfl,
    num_injective.eq_iff' rfl, num_injective.eq_iff' rfl, num_injective.eq_iff' rfl, num_injective.eq_iff' rfl⟩

/-- What a key does to the flags. -/
def flagsAfter (f : KbFlags) (key : KbKeycode) (isRelease : Bool) : KbFlags :=
  if key = .keyLshift ∨ key = .keyRshift then keyboardHandleShift f isRelease
  else if key = .keyCapslock then if isRelease then f else { f with shiftFlag := !f.shiftFlag }
  else if key = .keyLctrl ∨ key = .keyRctrl then { f with ctrlFlag := !isRelease }
  else if key = .keyLalt then { f with altFlag := !isRelease }
  else if key = .keyRalt then { f with altgrFlag := !isRelease }
  else if key = .keyLgui then { f with guiFlag := !isRelease }
  else f

theorem handle_press (f : KbFlags) (key : KbKeycode) :
    (keyboardHandleKeycode f key.num).1 = flagsAfter f key false := by
  obtain ⟨h₁, h₂, h₃, h₄, h₅, h₆, h₇, h₈⟩ := num_eq_iff key
  unfold keyboardHandleKeycode flagsAfter
  dsimp only
  rw [(num_press key).1, (num_press key).2]
  simp only [h₁, h₂, h₃, h₄, h₅, h₆, h₇, h₈, apply_ite Prod.fst, Bool.false_eq_true, if_false]

theorem handle_release (f : KbFlags) (key : KbKeycode) :
    (keyboardHandleKeycode f (key.num ||| releaseFlag)).1 = flagsAfter f key true := by
  obtain ⟨h₁, h₂, h₃, h₄, h₅, h₆, h₇, h₈⟩ := num_eq_iff key
  unfold keyboardHandleKeycode flagsAfter
  dsimp only
  rw [(num_release key).1, (num_release key).2]
  simp only [h₁, h₂, h₃, h₄, h₅, h₆, h₇, h₈, apply_ite Prod.fst, if_true]

/-! ## The keys -/

/-- The flags, the keys that are held, and how often caps lock has been pressed. -/
structure KeyState where
  flags : KbFlags
  held : KbKeycode → Bool
  capsPresses : ℕ

inductive KeyAct
  /-- A make code: the key is pressed, or repeats while it is held. -/
  | press (key : KbKeycode)
  /-- A break code. -/
  | release (key : KbKeycode)

/-- The driver handles the key code of the event. -/
def KeyState.step (k : KeyState) : KeyAct → KeyState
  | .press key =>
    { flags := (keyboardHandleKeycode k.flags key.num).1
      held := Function.update k.held key true
      capsPresses := if key = .keyCapslock ∧ k.held key = false then k.capsPresses + 1 else k.capsPresses }
  | .release key =>
    { k with
      flags := (keyboardHandleKeycode k.flags (key.num ||| releaseFlag)).1
      held := Function.update k.held key false }

/-- A key is released only while it is held. -/
def KeyMove (k : KeyState) (act : KeyAct) (k' : KeyState) : Prop :=
  (∀ key, act = .release key → k.held key = true) ∧ k.step act = k'

def KeyState.ctrlHeld (k : KeyState) : Bool := k.held .keyLctrl || k.held .keyRctrl

def KeyState.shiftHeld (k : KeyState) : Bool := k.held .keyLshift || k.held .keyRshift

/-- **The flags follow the keys.** -/
structure FlagsOk (k : KeyState) : Prop where
  ctrl : k.flags.ctrlFlag = k.ctrlHeld
  shift : k.flags.shiftFlag = xor k.shiftHeld (decide (Odd k.capsPresses))

/-- **When an event keeps them right.** Caps lock does not repeat, and neither control key nor shift key is
released while the other one is held. -/
def KeyAct.Clean (k : KeyState) : KeyAct → Prop
  | .press .keyCapslock => k.held .keyCapslock = false
  | .release .keyLctrl => k.held .keyRctrl = false
  | .release .keyRctrl => k.held .keyLctrl = false
  | .release .keyLshift => k.held .keyRshift = false
  | .release .keyRshift => k.held .keyLshift = false
  | _ => True

theorem flagsOk_iff (k : KeyState) : FlagsOk k ↔
    k.flags.ctrlFlag = k.ctrlHeld ∧ k.flags.shiftFlag = xor k.shiftHeld (decide (Odd k.capsPresses)) :=
  ⟨fun h => ⟨h.ctrl, h.shift⟩, fun h => ⟨h.1, h.2⟩⟩

/-- As long as nothing else happens, `hold` says whether a shift key is held. -/
structure KeyInv (k : KeyState) : Prop where
  ok : FlagsOk k
  hold : k.flags.hold = k.shiftHeld

theorem keyInv_iff (k : KeyState) : KeyInv k ↔ FlagsOk k ∧ k.flags.hold = k.shiftHeld :=
  ⟨fun h => ⟨h.ok, h.hold⟩, fun h => ⟨h.1, h.2⟩⟩

/-- The keys that the two flags depend on. -/
def watched : List KbKeycode := [.keyLshift, .keyRshift, .keyCapslock, .keyLctrl, .keyRctrl]

theorem flagsAfter_of_not_watched {key : KbKeycode} (h : key ∉ watched) (f : KbFlags) (isRelease : Bool) :
    (flagsAfter f key isRelease).ctrlFlag = f.ctrlFlag ∧ (flagsAfter f key isRelease).shiftFlag = f.shiftFlag ∧
      (flagsAfter f key isRelease).hold = f.hold := by
  simp only [watched, List.mem_cons, List.not_mem_nil, or_false, not_or] at h
  obtain ⟨h₁, h₂, h₃, h₄, h₅⟩ := h
  unfold flagsAfter
  rw [if_neg (by tauto), if_neg h₃, if_neg (by tauto)]
  split_ifs <;> exact ⟨rfl, rfl, rfl⟩

theorem decide_odd_succ (n : ℕ) : decide (Odd (n + 1)) = !decide (Odd n) := by
  rw [← decide_not]
  exact decide_eq_decide.mpr Nat.odd_add_one

variable {k k' : KeyState} {act : KeyAct}

/-- The flag and the keys after an event are the right ones exactly when the event is clean, and so is `hold`. -/
def KeyAct.Follows (k : KeyState) (act : KeyAct) : Prop :=
  (FlagsOk (k.step act) ↔ act.Clean k) ∧ (act.Clean k → KeyInv (k.step act))

theorem KeyInv.other (h : KeyInv k) {key : KbKeycode} (hw : key ∉ watched) (hclean : act.Clean k)
    {isRelease : Bool} (hf : (k.step act).flags = flagsAfter k.flags key isRelease) {b : Bool}
    (hheld : (k.step act).held = Function.update k.held key b) (hcaps : (k.step act).capsPresses = k.capsPresses) :
    act.Follows k := by
  obtain ⟨hctrl, hshift, hhold⟩ := flagsAfter_of_not_watched hw k.flags isRelease
  have hne : ∀ y ∈ watched, (k.step act).held y = k.held y := fun y hy => by
    rw [hheld, Function.update_of_ne (ne_of_mem_of_not_mem hy hw)]
  have hinv : KeyInv (k.step act) := by
    refine ⟨⟨?_, ?_⟩, ?_⟩
    · rw [hf, hctrl, h.ok.ctrl, KeyState.ctrlHeld, KeyState.ctrlHeld, hne _ (by decide), hne _ (by decide)]
    · rw [hf, hshift, h.ok.shift, hcaps, KeyState.shiftHeld, KeyState.shiftHeld, hne _ (by decide),
        hne _ (by decide)]
    · rw [hf, hhold, h.hold, KeyState.shiftHeld, KeyState.shiftHeld, hne _ (by decide), hne _ (by decide)]
  exact ⟨⟨fun _ => hclean, fun _ => hinv.ok⟩, fun _ => hinv⟩

theorem KeyInv.press (h : KeyInv k) (key : KbKeycode) : (KeyAct.press key).Follows k := by
  by_cases hw : key ∈ watched
  · obtain ⟨⟨hc, hs⟩, hh⟩ := h
    obtain ⟨flags, held, capsPresses⟩ := k
    simp only [KeyState.ctrlHeld, KeyState.shiftHeld] at hc hs hh
    simp only [KeyAct.Follows, keyInv_iff, flagsOk_iff, KeyState.step, handle_press, KeyState.ctrlHeld,
      KeyState.shiftHeld]
    simp only [watched, List.mem_cons, List.not_mem_nil, or_false] at hw
    rcases hw with rfl | rfl | rfl | rfl | rfl
    · cases hl : held .keyLshift <;> cases hr : held .keyRshift <;>
        simp_all [flagsAfter, keyboardHandleShift, KeyAct.Clean]
    · cases hl : held .keyLshift <;> cases hr : held .keyRshift <;>
        simp_all [flagsAfter, keyboardHandleShift, KeyAct.Clean]
    · cases hk : held .keyCapslock <;> simp_all [flagsAfter, KeyAct.Clean, decide_odd_succ]
    · simp_all [flagsAfter, KeyAct.Clean]
    · simp_all [flagsAfter, KeyAct.Clean]
  · have hcaps : key ≠ .keyCapslock := fun e => hw (e ▸ by decide)
    refine h.other hw ?_ (handle_press k.flags key) rfl (if_neg fun hk => hcaps hk.1)
    unfold KeyAct.Clean
    split <;> simp_all

theorem KeyInv.release (h : KeyInv k) {key : KbKeycode} (hkey : k.held key = true) :
    (KeyAct.release key).Follows k := by
  by_cases hw : key ∈ watched
  · obtain ⟨⟨hc, hs⟩, hh⟩ := h
    obtain ⟨flags, held, capsPresses⟩ := k
    simp only [KeyState.ctrlHeld, KeyState.shiftHeld] at hc hs hh
    simp only [KeyAct.Follows, keyInv_iff, flagsOk_iff, KeyState.step, handle_release, KeyState.ctrlHeld,
      KeyState.shiftHeld]
    simp only [watched, List.mem_cons, List.not_mem_nil, or_false] at hw
    rcases hw with rfl | rfl | rfl | rfl | rfl
    · cases hr : held .keyRshift <;> simp_all [flagsAfter, keyboardHandleShift, KeyAct.Clean]
    · cases hl : held .keyLshift <;> simp_all [flagsAfter, keyboardHandleShift, KeyAct.Clean]
    · simp_all [flagsAfter, KeyAct.Clean]
    · cases hr : held .keyRctrl <;> simp_all [flagsAfter, KeyAct.Clean]
    · cases hl : held .keyLctrl <;> simp_all [flagsAfter, KeyAct.Clean]
  · refine h.other hw ?_ (handle_release k.flags key) rfl rfl
    unfold KeyAct.Clean
    split <;> simp_all [watched]

/-- The static variables at the start, with no key held. -/
def keyStart : KeyState := ⟨⟨false, false, false, false, false, false⟩, fun _ => false, 0⟩

theorem keyStart_inv : KeyInv keyStart := ⟨⟨rfl, by decide⟩, rfl⟩

/-- **The flags follow the keys** after every event exactly in the runs of clean events. -/
theorem flags_follow_iff (acts : List KeyAct) (k : KeyState) :
    Run (fun k act k' => KeyMove k act k' ∧ FlagsOk k') keyStart acts k ↔
      Run (fun k act k' => KeyMove k act k' ∧ act.Clean k) keyStart acts k := by
  have hfollows : ∀ k act k', KeyInv k → KeyMove k act k' → act.Follows k := by
    intro k act k' h hm
    cases act with
    | press key => exact h.press key
    | release key => exact h.release (hm.1 key rfl)
  refine Run.iff_of_cond (J := KeyInv) (fun k act k' h hm hc => ?_) (fun k act k' h hm => ?_) keyStart_inv
  · rw [← hm.2]
    exact (hfollows k act k' h hm).2 hc
  · rw [← hm.2]
    exact (hfollows k act k' h hm).1

/-- The right control key is still held when the left one is released. -/
theorem ctrl_flag_lost : ∃ k, Run KeyMove keyStart
    [.press .keyRctrl, .press .keyLctrl, .release .keyLctrl] k ∧ ¬ FlagsOk k := by
  have hpress : ∀ {k : KeyState} {key : KbKeycode}, KeyMove k (.press key) (k.step (.press key)) :=
    ⟨fun _ he => (nomatch he), rfl⟩
  refine ⟨_, .cons hpress <| .cons hpress <| .cons ⟨fun key he => ?_, rfl⟩ (.nil _), fun h => ?_⟩
  · obtain rfl := KeyAct.release.inj he
    rfl
  · have hc := h.ctrl
    simp [KeyState.step, handle_press, handle_release, flagsAfter, KeyState.ctrlHeld, keyStart] at hc

end BulbOS.Keyboard
