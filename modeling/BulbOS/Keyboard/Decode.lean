import BulbOS.Keyboard.Scancode
import BulbOS.Lib.Run
import Mathlib.Tactic.Common

/-!
# Scan codes become key events

* `KeyEvent`: the events that the tables and the special sequences define, with their bytes and key codes;
* **`scan_events`**: the bytes of any list of events give one call for each, in order;
* `Scanner.Takes`: when a byte is harmless; **`scan_inside_iff`**: the arrays are left exactly by the streams
  with another byte.
-/

namespace BulbOS.Keyboard

open KLib KbKeycode

variable {s : Scanner} {code : UInt8} {codes : List UInt8}

/-- The variables when the byte has been stored. -/
def Scanner.put (s : Scanner) (code : UInt8) : Scanner := ⟨Function.update s.keycodes s.len code, s.len + 1⟩

theorem keyboardScancode_of_waits (h : (s.put code).Waits code) :
    keyboardScancode s code = ⟨s.put code, none, [.keycodes s.len]⟩ := if_pos h

theorem keyboardScancode_of_not_waits (h : ¬ (s.put code).Waits code) :
    keyboardScancode s code = ⟨{ s.put code with len := 0 },
      some (keyboardScancodeToKeycode (s.put code)).1,
      .keycodes s.len :: (keyboardScancodeToKeycode (s.put code)).2⟩ := if_neg h

theorem scanBytes_of_waits (h : (s.put code).Waits code) :
    scanBytes s (code :: codes) = scanBytes (s.put code) codes := by
  rw [scanBytes, keyboardScancode_of_waits h]
  rfl

theorem scanBytes_of_not_waits (h : ¬ (s.put code).Waits code) :
    scanBytes s (code :: codes) =
      ((scanBytes { s.put code with len := 0 } codes).1,
        (keyboardScancodeToKeycode (s.put code)).1 :: (scanBytes { s.put code with len := 0 } codes).2) := by
  rw [scanBytes, keyboardScancode_of_not_waits h]
  rfl

/-! ## The events -/

/-- A press or a release of a key; `x` is its byte. -/
inductive KeyEvent
  | make (x : UInt8)
  | brk (x : UInt8)
  | extMake (x : UInt8)
  | extBrk (x : UInt8)
  | prtscMake
  | prtscBrk
  | pauseMake

def KeyEvent.bytes : KeyEvent → List UInt8
  | .make x => [x]
  | .brk x => [0xF0, x]
  | .extMake x => [0xE0, x]
  | .extBrk x => [0xE0, 0xF0, x]
  | .prtscMake => [0xE0, 0x12, 0xE0, 0x7C]
  | .prtscBrk => [0xE0, 0xF0, 0x7C, 0xE0, 0xF0, 0x12]
  | .pauseMake => [0xE1, 0x14, 0x77, 0xE1, 0xF0, 0x14, 0xF0, 0x77]

/-- The key of a byte, and of a byte after `0xE0`. -/
def tableKey (x : UInt8) : KbKeycode := scancodeTable.getD x.toNat 0

def altTableKey (x : UInt8) : KbKeycode := if x.toNat < 0x10 then 0 else altScancodeTable.getD (x.toNat - 0x10) 0

/-- The key code of an event, with the release flag. -/
def KeyEvent.keycode : KeyEvent → UInt32
  | .make x => (tableKey x).num
  | .brk x => (tableKey x).num ||| releaseFlag
  | .extMake x => (altTableKey x).num
  | .extBrk x => (altTableKey x).num ||| releaseFlag
  | .prtscMake => keyPrtsc.num
  | .prtscBrk => keyPrtsc.num ||| releaseFlag
  | .pauseMake => keyPause.num

/-- The table has a key for the byte. -/
def KeyEvent.Defined : KeyEvent → Prop
  | .make x | .brk x => tableKey x ≠ 0
  | .extMake x | .extBrk x => altTableKey x ≠ 0
  | _ => True

theorem not_prefix_of_tableKey {x : UInt8} (h : tableKey x ≠ 0) : x ≠ 0xE0 ∧ x ≠ 0xF0 ∧ x ≠ 0xE1 := by
  refine ⟨?_, ?_, ?_⟩ <;> rintro rfl <;> exact h (by decide)

theorem not_prefix_of_altTableKey {x : UInt8} (h : altTableKey x ≠ 0) :
    (x ≠ 0xE0 ∧ x ≠ 0xF0 ∧ x ≠ 0xE1) ∧ x ≠ 0x12 ∧ x ≠ 0x7C := by
  refine ⟨⟨?_, ?_, ?_⟩, ?_, ?_⟩ <;> rintro rfl <;> exact h (by decide)

theorem altScancodeAt_fst (x : UInt8) : (altScancodeAt x).1 = (altTableKey x).num := by
  unfold altScancodeAt altTableKey
  split_ifs <;> rfl

/-- The bytes lead to one call, with `keycode`, and leave nothing behind. -/
def Scanner.Gives (s : Scanner) (bytes : List UInt8) (keycode : UInt32) : Prop :=
  ∀ codes, ∃ s' : Scanner, s'.len = 0 ∧
    scanBytes s (bytes ++ codes) = ((scanBytes s' codes).1, keycode :: (scanBytes s' codes).2)

theorem Scanner.Gives.wait {keycode : UInt32} (hw : (s.put code).Waits code)
    (h : (s.put code).Gives codes keycode) : s.Gives (code :: codes) keycode := fun rest => by
  obtain ⟨s', hs', he⟩ := h rest
  exact ⟨s', hs', (scanBytes_of_waits hw).trans he⟩

theorem gives_last {keycode : UInt32} (hw : ¬ (s.put code).Waits code)
    (hk : (keyboardScancodeToKeycode (s.put code)).1 = keycode) : s.Gives [code] keycode := fun rest => by
  refine ⟨{ s.put code with len := 0 }, rfl, ?_⟩
  rw [← hk]
  exact scanBytes_of_not_waits hw

/-- **One event** gives one call. -/
theorem scan_event (hs : s.len = 0) {event : KeyEvent} (he : event.Defined) :
    s.Gives event.bytes event.keycode := by
  obtain ⟨keycodes, len⟩ := s
  obtain rfl : len = 0 := hs
  cases event with
  | make x =>
    obtain ⟨h₁, h₂, h₃⟩ := not_prefix_of_tableKey he
    refine gives_last ?_ ?_
    · simp [Scanner.Waits, Scanner.put, h₁, h₂, h₃]
    · simp [keyboardScancodeToKeycode, Scanner.put, scancodeAt, KeyEvent.keycode, tableKey]
  | brk x =>
    obtain ⟨h₁, h₂, h₃⟩ := not_prefix_of_tableKey he
    refine .wait (.inl (.inr (.inl rfl))) <| gives_last ?_ ?_
    · simp [Scanner.Waits, Scanner.put, h₁, h₂, h₃]
    · simp [keyboardScancodeToKeycode, Scanner.put, scancodeAt, KeyEvent.keycode, tableKey]
  | extMake x =>
    obtain ⟨⟨h₁, h₂, h₃⟩, h₄, -⟩ := not_prefix_of_altTableKey he
    refine .wait (.inl (.inl rfl)) <| gives_last ?_ ?_
    · simp [Scanner.Waits, Scanner.put, h₁, h₂, h₃, h₄]
    · simp [keyboardScancodeToKeycode, Scanner.put, altScancodeAt_fst, KeyEvent.keycode]
  | extBrk x =>
    obtain ⟨⟨h₁, h₂, h₃⟩, -, h₅⟩ := not_prefix_of_altTableKey he
    refine .wait (.inl (.inl rfl)) <| .wait (.inl (.inr (.inl rfl))) <| gives_last ?_ ?_
    · simp [Scanner.Waits, Scanner.put, h₁, h₂, h₃, h₅]
    · simp [keyboardScancodeToKeycode, Scanner.put, altScancodeAt_fst, KeyEvent.keycode]
  | prtscMake =>
    refine .wait ?_ <| .wait ?_ <| .wait ?_ <| gives_last ?_ ?_
    all_goals simp [Scanner.Waits, Scanner.put, keyboardScancodeToKeycode, Scanner.bytes, List.range_succ,
      KeyEvent.keycode]
  | prtscBrk =>
    refine .wait ?_ <| .wait ?_ <| .wait ?_ <| .wait ?_ <| .wait ?_ <| gives_last ?_ ?_
    all_goals simp [Scanner.Waits, Scanner.put, keyboardScancodeToKeycode, Scanner.bytes, List.range_succ,
      KeyEvent.keycode]
  | pauseMake =>
    refine .wait ?_ <| .wait ?_ <| .wait ?_ <| .wait ?_ <| .wait ?_ <| .wait ?_ <| .wait ?_ <| gives_last ?_ ?_
    all_goals simp [Scanner.Waits, Scanner.put, keyboardScancodeToKeycode, Scanner.bytes, List.range_succ,
      KeyEvent.keycode]

/-- **Every list of events** is decoded: one call for each, in order, and no byte is left over. -/
theorem scan_events (hs : s.len = 0) {events : List KeyEvent} (he : ∀ event ∈ events, event.Defined) :
    (scanBytes s (events.flatMap KeyEvent.bytes)).2 = events.map KeyEvent.keycode ∧
      (scanBytes s (events.flatMap KeyEvent.bytes)).1.len = 0 := by
  induction events generalizing s with
  | nil => exact ⟨rfl, hs⟩
  | cons event events ih =>
    rw [List.forall_mem_cons] at he
    obtain ⟨s', hs', hscan⟩ := scan_event hs he.1 (events.flatMap KeyEvent.bytes)
    obtain ⟨hcalls, hlen⟩ := ih hs' he.2
    rw [List.flatMap_cons, hscan, hcalls, List.map_cons]
    exact ⟨rfl, hlen⟩

/-- The left and the right control key, the Print Screen key and the Pause key. -/
def demoEvents : List KeyEvent :=
  [.make 0x14, .brk 0x14, .extMake 0x14, .extBrk 0x14, .prtscMake, .prtscBrk, .pauseMake, .make 0x77]

theorem scan_events_demo :
    (scanBytes ⟨fun _ => 0, 0⟩ (demoEvents.flatMap KeyEvent.bytes)).2 = demoEvents.map KeyEvent.keycode ∧
      (scanBytes ⟨fun _ => 0, 0⟩ (demoEvents.flatMap KeyEvent.bytes)).1.len = 0 :=
  scan_events rfl (by simp [demoEvents, KeyEvent.Defined]; decide)

/-! ## The places used -/

/-- A step of the decoder. -/
def ScanMove (s : Scanner) (code : UInt8) (s' : Scanner) : Prop := (keyboardScancode s code).scanner = s'

/-- All the places that the step uses are inside of their arrays. -/
def ScanInside (s : Scanner) (code : UInt8) : Prop := ∀ access ∈ (keyboardScancode s code).accesses, access.Inside

/-- **When a byte is harmless.** Fewer than eight bytes are pending. A byte that is not the first of a prefix is
at most `0x83` when it comes first or after `0xF0`, and lies between `0x10` and `0x7D` when it comes after `0xE0`
or after `0xE0`, `0xF0`. -/
def Scanner.Takes (s : Scanner) (code : UInt8) : Prop :=
  s.len < 8 ∧ (code = 0xE0 ∨ code = 0xF0 ∨ code = 0xE1 ∨
    (s.len = 0 ∨ s.len = 1 ∧ s.keycodes 0 = 0xF0 → code.toNat ≤ 0x83) ∧
    (s.len = 1 ∧ s.keycodes 0 = 0xE0 ∨ s.len = 2 ∧ s.keycodes 0 = 0xE0 ∧ s.keycodes 1 = 0xF0 →
      0x10 ≤ code.toNat ∧ code.toNat ≤ 0x7D))

theorem table_inside_iff (x : UInt8) : (Access.table x.toNat).Inside ↔ x.toNat ≤ 0x83 := by
  have hlen : scancodeTable.length = 132 := rfl
  rw [Access.Inside, hlen]
  omega

theorem altTable_inside_iff (x : UInt8) :
    (Access.altTable (x.toNat - 0x10)).Inside ↔ 0x10 ≤ x.toNat ∧ x.toNat ≤ 0x7D := by
  have hlen : altScancodeTable.length = 110 := rfl
  rw [Access.Inside, hlen]
  omega

theorem Scanner.Waits.bounds (h : s.Waits code) :
    (code = 0xE0 ∨ code = 0xF0 ∨ code = 0xE1) ∨ 0x10 ≤ code.toNat ∧ code.toNat ≤ 0x7D := by
  rcases h with h | ⟨rfl, -⟩ | ⟨rfl, -⟩ | ⟨rfl, -⟩ | ⟨rfl, -⟩
  · exact .inl h
  all_goals exact .inr (by decide)

theorem lookups_inside_iff :
    (∀ access ∈ (keyboardScancodeToKeycode (s.put code)).2, access.Inside) ↔
      (s.len = 0 ∨ s.len = 1 ∧ s.keycodes 0 = 0xF0 → code.toNat ≤ 0x83) ∧
      (s.len = 1 ∧ s.keycodes 0 = 0xE0 ∨ s.len = 2 ∧ s.keycodes 0 = 0xE0 ∧ s.keycodes 1 = 0xF0 →
        0x10 ≤ code.toNat ∧ code.toNat ≤ 0x7D) := by
  obtain ⟨keycodes, len⟩ := s
  match len with
  | 0 => simp [keyboardScancodeToKeycode, Scanner.put, scancodeAt, table_inside_iff]
  | 1 =>
    by_cases h₀ : keycodes 0 = 0xE0
    · simp [keyboardScancodeToKeycode, Scanner.put, altScancodeAt, altTable_inside_iff, h₀]
    · by_cases h₁ : keycodes 0 = 0xF0
      · simp [keyboardScancodeToKeycode, Scanner.put, scancodeAt, table_inside_iff, h₁]
      · simp [keyboardScancodeToKeycode, Scanner.put, h₀, h₁]
  | 2 =>
    by_cases h₀ : keycodes 0 = 0xE0 ∧ keycodes 1 = 0xF0
    · simp [keyboardScancodeToKeycode, Scanner.put, altScancodeAt, altTable_inside_iff, h₀]
    · simp [keyboardScancodeToKeycode, Scanner.put, h₀]
  | n + 3 =>
    have hnil : (keyboardScancodeToKeycode (Scanner.put ⟨keycodes, n + 3⟩ code)).2 = [] := by
      unfold keyboardScancodeToKeycode Scanner.put
      dsimp only
      split <;> first | rfl | omega
    rw [hnil]
    simp

/-- **One byte.** -/
theorem scanInside_iff (s : Scanner) (code : UInt8) : ScanInside s code ↔ s.Takes code := by
  by_cases hw : (s.put code).Waits code
  · rw [ScanInside, keyboardScancode_of_waits hw, List.forall_mem_singleton]
    refine ⟨fun hlen => ⟨hlen, ?_⟩, fun h => h.1⟩
    rcases hw.bounds with (h | h | h) | h
    · exact .inl h
    · exact .inr (.inl h)
    · exact .inr (.inr (.inl h))
    · exact .inr (.inr (.inr ⟨fun _ => by omega, fun _ => h⟩))
  · have hpre : ¬ (code = 0xE0 ∨ code = 0xF0 ∨ code = 0xE1) := fun h => hw (.inl h)
    rw [ScanInside, keyboardScancode_of_not_waits hw, List.forall_mem_cons]
    refine and_congr Iff.rfl (lookups_inside_iff.trans ?_)
    tauto

/-- **The arrays are left exactly by the streams with a byte that is not taken.** -/
theorem scan_inside_iff (s s' : Scanner) (codes : List UInt8) :
    Run (fun s code s' => ScanMove s code s' ∧ ScanInside s code) s codes s' ↔
      Run (fun s code s' => ScanMove s code s' ∧ s.Takes code) s codes s' :=
  ⟨fun h => h.mono fun _ _ _ hstep => ⟨hstep.1, (scanInside_iff _ _).mp hstep.2⟩,
    fun h => h.mono fun _ _ _ hstep => ⟨hstep.1, (scanInside_iff _ _).mpr hstep.2⟩⟩

/-- The byte `0x84`, which some keyboards send for Alt with Print Screen. -/
theorem scan_sysrq_outside : ¬ ∃ s', Run (fun s code s' => ScanMove s code s' ∧ ScanInside s code)
    ⟨fun _ => 0, 0⟩ [0x84] s' := by
  rintro ⟨s', h⟩
  cases h with
  | cons hstep _ =>
    have hin : (Access.table (0x84 : UInt8).toNat).Inside := hstep.2 _ (by decide)
    exact absurd ((table_inside_iff 0x84).mp hin) (by decide)

end BulbOS.Keyboard
