import BulbOS.Keyboard.Decode
import BulbOS.Stdin.Keys

/-!
# Typed text

From the bytes that the keyboard sends to the symbols that the shell reads.

* `strokes`: the keys for a character; `handleKeycodes`: what `keyboard_handle_keycode` makes of key codes;
* `typed_symbols`: the key symbols of a text; `sent_run`: the symbols of a run of the stdin task;
* `symbolsOf`: the symbols that are read from the pipe; **`typed_keys`**: they have the characters of the text.
-/

namespace BulbOS.Shell

open KLib BulbOS.Keyboard BulbOS.Stdin

/-! ## The keys of a text -/

/-- The make codes of the letters. -/
def letterCodes : List UInt8 :=
  [0x1C, 0x32, 0x21, 0x23, 0x24, 0x2B, 0x34, 0x33, 0x43, 0x3B, 0x42, 0x4B, 0x3A, 0x31, 0x44, 0x4D, 0x15, 0x2D, 0x1B,
    0x2C, 0x3C, 0x2A, 0x1D, 0x22, 0x35, 0x1A]

/-- The characters on the keys, with their make codes, and whether they are typed with shift. -/
def layout : List (UInt8 × UInt8 × Bool) :=
  letterCodes.mapIdx (fun i x => (97 + UInt8.ofNat i, x, false)) ++
    letterCodes.mapIdx (fun i x => (65 + UInt8.ofNat i, x, true)) ++
    [(47, 0x4A, false), (46, 0x49, false), (32, 0x29, false), (45, 0x4E, false), (10, 0x5A, false), (8, 0x66, false)]

def typable : List UInt8 := layout.map Prod.fst

/-- The left shift key has the make code `0x12`. -/
def strokes (c : UInt8) : List KeyEvent :=
  match layout.lookup c with
  | none => []
  | some (x, false) => [.make x, .brk x]
  | some (x, true) => [.make 0x12, .make x, .brk x, .brk 0x12]

/-- No modifier is held, and caps lock is off. -/
def noFlags : KbFlags := ⟨false, false, false, false, false, false⟩

/-- The flags after the key codes, and the symbols that are sent. -/
def handleKeycodes (kbFlags : KbFlags) : List UInt32 → KbFlags × List KbKeysym
  | [] => (kbFlags, [])
  | code :: codes =>
    let r := keyboardHandleKeycode kbFlags code
    let rest := handleKeycodes r.1 codes
    (rest.1, r.2.toList ++ rest.2)

theorem handleKeycodes_append (f : KbFlags) (codes codes' : List UInt32) :
    handleKeycodes f (codes ++ codes') = ((handleKeycodes (handleKeycodes f codes).1 codes').1,
      (handleKeycodes f codes).2 ++ (handleKeycodes (handleKeycodes f codes).1 codes').2) := by
  induction codes generalizing f with
  | nil => rfl
  | cons code codes ih =>
    rw [List.cons_append, handleKeycodes, handleKeycodes, ih]
    dsimp only
    rw [List.append_assoc]

instance (event : KeyEvent) : Decidable event.Defined := by
  cases event <;> unfold KeyEvent.Defined <;> infer_instance

theorem strokes_defined : ∀ c ∈ typable, ∀ event ∈ strokes c, event.Defined := by decide +kernel

/-- The keys of a character give its symbol, and leave no modifier held. -/
theorem strokes_symbol : ∀ c ∈ typable, (handleKeycodes noFlags ((strokes c).map KeyEvent.keycode)).1 = noFlags ∧
    (handleKeycodes noFlags ((strokes c).map KeyEvent.keycode)).2.map (fun k => (stdinKeysymToChar k).ascii) = [c] := by
  decide +kernel

variable {text : List UInt8}

/-- **The symbols of a text** have its characters. -/
theorem typed_symbols (htext : ∀ c ∈ text, c ∈ typable) :
    (handleKeycodes noFlags ((text.flatMap strokes).map KeyEvent.keycode)).1 = noFlags ∧
    (handleKeycodes noFlags ((text.flatMap strokes).map KeyEvent.keycode)).2.map
      (fun k => (stdinKeysymToChar k).ascii) = text := by
  induction text with
  | nil => exact ⟨rfl, rfl⟩
  | cons c text ih =>
    rw [List.forall_mem_cons] at htext
    obtain ⟨hflags, hsym⟩ := strokes_symbol c htext.1
    obtain ⟨hflags', hsym'⟩ := ih htext.2
    rw [List.flatMap_cons, List.map_append, handleKeycodes_append, hflags]
    refine ⟨hflags', ?_⟩
    rw [List.map_append, hsym, hsym']
    rfl

theorem scan_before {s : Scanner} (hs : s.len = 0) {events : List KeyEvent} (he : ∀ event ∈ events, event.Defined)
    (codes : List UInt8) : ∃ s' : Scanner, s'.len = 0 ∧ scanBytes s (events.flatMap KeyEvent.bytes ++ codes) =
      ((scanBytes s' codes).1, events.map KeyEvent.keycode ++ (scanBytes s' codes).2) := by
  induction events generalizing s with
  | nil => exact ⟨s, hs, rfl⟩
  | cons event events ih =>
    rw [List.forall_mem_cons] at he
    obtain ⟨s₁, hs₁, hscan₁⟩ := scan_event hs he.1 (events.flatMap KeyEvent.bytes ++ codes)
    obtain ⟨s₂, hs₂, hscan₂⟩ := ih hs₁ he.2
    refine ⟨s₂, hs₂, ?_⟩
    rw [List.flatMap_cons, List.append_assoc, hscan₁, hscan₂]
    rfl

/-- The bytes that the keyboard sends for a text. -/
def typedBytes (text : List UInt8) : List UInt8 := (text.flatMap strokes).flatMap KeyEvent.bytes

/-- **The bytes of a text** are decoded to its keys. -/
theorem scan_typed {s : Scanner} (hs : s.len = 0) (htext : ∀ c ∈ text, c ∈ typable) :
    (scanBytes s (typedBytes text)).2 = (text.flatMap strokes).map KeyEvent.keycode := by
  have he : ∀ event ∈ text.flatMap strokes, event.Defined := fun event h => by
    obtain ⟨c, hc, hevent⟩ := List.mem_flatMap.mp h
    exact strokes_defined c (htext c hc) event hevent
  obtain ⟨s', -, hscan⟩ := scan_before hs he []
  rw [List.append_nil] at hscan
  rw [typedBytes, hscan]
  exact List.append_nil _

/-! ## The stdin task -/

def StdinEvent.code : StdinEvent → Option UInt32
  | .key code => some code
  | _ => none

variable {s s' : StdinState} {events : List StdinEvent}

theorem stdinHandler_sent {pc : StdinPc} {event : StdinEvent} (h : stdinHandler s pc event = some s') :
    s'.kbFlags = s.kbFlags ∧ s'.sent = s.sent := by
  unfold stdinHandler at h
  split at h
  case h_5 =>
    obtain ⟨sched, -, rfl⟩ := Option.map_eq_some_iff.mp h
    exact ⟨rfl, rfl⟩
  case h_6 => cases h
  all_goals
    obtain rfl := Option.some.inj h
    exact ⟨rfl, rfl⟩

theorem stdinStep_sent {event : StdinEvent} (h : stdinStep s event = some s') : (s'.kbFlags, s'.sent) =
    ((handleKeycodes s.kbFlags (StdinEvent.code event).toList).1,
      s.sent ++ (handleKeycodes s.kbFlags (StdinEvent.code event).toList).2) := by
  have hquiet : ∀ event : StdinEvent,
      (if s.sched.currentTask = s.stdinTask then stdinHandler s s.pc event else none) = some s' →
      (s'.kbFlags, s'.sent) = (s.kbFlags, s.sent ++ []) := fun event h => by
    obtain ⟨hflags, hsent⟩ := stdinHandler_sent (Option.ite_none_right_eq_some.mp h).2
    rw [hflags, hsent, List.append_nil]
  cases event with
  | key code =>
    rw [stdinStep] at h
    change _ = ((keyboardHandleKeycode s.kbFlags code).1,
      s.sent ++ ((keyboardHandleKeycode s.kbFlags code).2.toList ++ []))
    rcases hk : keyboardHandleKeycode s.kbFlags code with ⟨kbFlags, - | keysym⟩
    · rw [hk] at h
      obtain rfl := Option.some.inj h
      simp
    · rw [hk] at h
      obtain ⟨sched, -, rfl⟩ := Option.map_eq_some_iff.mp h
      rfl
  | sched op =>
    obtain ⟨sched, -, rfl⟩ := Option.map_eq_some_iff.mp h
    exact (Prod.mk.injEq ..).mpr ⟨rfl, (List.append_nil _).symm⟩
  | resume => exact hquiet _ h
  | convert => exact hquiet _ h
  | store => exact hquiet _ h
  | fail => exact hquiet _ h
  | block => exact hquiet _ h

theorem sent_run (hrun : Run (fun s event s' => stdinStep s event = some s' ∧ event.Timely s) s events s') :
    (s'.kbFlags, s'.sent) = ((handleKeycodes s.kbFlags (events.filterMap StdinEvent.code)).1,
      s.sent ++ (handleKeycodes s.kbFlags (events.filterMap StdinEvent.code)).2) := by
  induction hrun with
  | nil s => exact (Prod.mk.injEq ..).mpr ⟨rfl, (List.append_nil _).symm⟩
  | @cons s s₁ s' event events h _ ih =>
    obtain ⟨hflags, hsent⟩ := Prod.mk.inj (stdinStep_sent h.1)
    have hcodes : (event :: events).filterMap StdinEvent.code =
        (StdinEvent.code event).toList ++ events.filterMap StdinEvent.code := by
      cases hc : StdinEvent.code event with
      | none => exact List.filterMap_cons_none hc
      | some code => exact List.filterMap_cons_some hc
    rw [ih, hflags, hsent, hcodes, handleKeycodes_append, List.append_assoc]

/-! ## The pipe -/

/-- The symbols that are read from the pipe, of four bytes each. -/
def symbolsOf : List UInt8 → List KbKeysym
  | ascii :: flags :: low :: high :: bytes =>
    ⟨ascii, flags, UInt16.ofNat (low.toNat + 2 ^ 8 * high.toNat)⟩ :: symbolsOf bytes
  | _ => []

theorem symbolsOf_keysymBytes (k : KbKeysym) (bytes : List UInt8) :
    symbolsOf (keysymBytes k ++ bytes) = k :: symbolsOf bytes := by
  have hlt := k.keysym.toNat_lt
  have hkeysym : UInt16.ofNat (k.keysym.toUInt8.toNat + 2 ^ 8 * (k.keysym >>> 8).toUInt8.toNat) = k.keysym := by
    rw [← UInt16.toNat_inj, UInt16.toNat_ofNat', UInt16.toNat_toUInt8, UInt16.toNat_toUInt8, UInt16.toNat_shiftRight]
    change (k.keysym.toNat % 2 ^ 8 + 2 ^ 8 * ((k.keysym.toNat >>> 8) % 2 ^ 8)) % 2 ^ 16 = k.keysym.toNat
    rw [Nat.shiftRight_eq_div_pow]
    omega
  change KbKeysym.mk _ _ _ :: _ = _
  rw [hkeysym]
  rfl

theorem symbolsOf_symbolBytes (symbols : List KbKeysym) :
    symbolsOf (symbolBytes symbols) = symbols.map stdinKeysymToChar := by
  induction symbols with
  | nil => rfl
  | cons k symbols ih =>
    change symbolsOf (keysymBytes (stdinKeysymToChar k) ++ symbolBytes symbols) = _
    rw [symbolsOf_keysymBytes, ih, List.map_cons]

/-- **Typed keys.** Whatever else runs, when the keyboard sends the bytes of a text and the keys come at the right
time, the symbols that are read from the pipe have the characters of the text. -/
theorem typed_keys {scanner : Scanner} (hstart : StdinStart s) (hflags : s.kbFlags = noFlags) (hscan : scanner.len = 0)
    (htext : ∀ c ∈ text, c ∈ typable)
    (hrun : Run (fun s event s' => stdinStep s event = some s' ∧ event.Timely s) s events s')
    (hcodes : events.filterMap StdinEvent.code = (scanBytes scanner (typedBytes text)).2)
    (hpc : s'.pc = .blocked) (hn : s'.named = false) :
    s'.kbFlags = noFlags ∧ (symbolsOf s'.written).map KbKeysym.ascii = text := by
  obtain ⟨hflags', hsym⟩ := typed_symbols htext
  obtain ⟨hf, hsent⟩ := Prod.mk.inj (sent_run hrun)
  rw [hcodes, scan_typed hscan htext, hflags] at hf hsent
  rw [hstart.sent, List.nil_append] at hsent
  have hinv : StdinInv s' := hrun.invariant (fun _ _ _ hinv hstep => hinv.step hstep.2 hstep.1) hstart.inv
  rw [hinv.keysOk.atRest hpc hn, symbolsOf_symbolBytes, hsent, List.map_map]
  exact ⟨hf.trans hflags', hsym⟩

end BulbOS.Shell
