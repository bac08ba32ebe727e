import BulbOS.Shell.Commands
import BulbOS.Shell.Input
import BulbOS.Shell.Typing

/-!
# Sessions (`shell_main` of `kernel/usr/shell.c`)

* `shellMain`: one line after the other, with the system calls that are made;
* `shellInputLoop_append`: keys before the newline; `shellLine_eq`: the keys of one line;
* `sessionCalls`: what typed lines mean; `shellMain_lines`: the loop of `shell_main`;
* **`typed_session`**: from the bytes of the keyboard to the calls.
-/

namespace BulbOS.Shell

open KLib BulbOS.Keyboard BulbOS.Stdin

/-! ## The loop -/

/-- `shell_input` reads keys until it returns: what it returns after `done` and as many of `keys` as it takes, and the
other keys. -/
def shellLine (mem : Mem) (buffer size : ℕ) (done : List KbKeysym) (keys : List KbKeysym) :
    Option ((Mem × List UInt8) × List KbKeysym) :=
  match shellInput mem buffer size done, keys with
  | some r, keys => some (r, keys)
  | none, [] => none
  | none, key :: keys => shellLine mem buffer size (done ++ [key]) keys

/-- The path of the current directory, and ` > `. -/
def prompt (env : Env) : List Call := [.write env.dir, .write (literal " > ")]

/-- `shell_main` from line `n` on, until it waits for a key; `env n` is what the kernel has for it then. -/
def shellMain (env : ℕ → Env) (buffer size : ℕ) : ℕ → ℕ → Mem → List KbKeysym → List Call
  | 0, _, _, _ => []
  | fuel + 1, n, mem, keys =>
    prompt (env n) ++
      match shellLine mem buffer size [] keys with
      | none => []
      | some ((mem, out), keys) => out.map (fun c => .write [c]) ++
        match shellParse (env n) mem buffer with
        | none => []
        | some calls => calls ++ shellMain env buffer size fuel (n + 1) mem keys

/-! ## One line -/

/-- The characters that are written back when `chars` are typed after `line`. -/
def echoed (line : List UInt8) : List UInt8 → List UInt8
  | [] => []
  | c :: chars => (if c = 0 ∨ c = 8 ∧ line = [] then [] else [c]) ++ echoed (editStep line c) chars

variable {mem₀ mem mem' : Mem} {buffer size : ℕ} {line text : List UInt8} {keys k₁ k₂ : List KbKeysym}

/-- **Keys before the newline.** -/
theorem shellInputLoop_append (h : Typed mem₀ mem buffer size line) (hroom : Room size line (k₁.map KbKeysym.ascii))
    (hnl : 10 ∉ k₁.map KbKeysym.ascii) (out : List UInt8) (k₂ : List KbKeysym) :
    ∃ mem', Typed mem₀ mem' buffer size ((k₁.map KbKeysym.ascii).foldl editStep line) ∧
      shellInputLoop buffer size mem out line.length (k₁ ++ k₂) =
        shellInputLoop buffer size mem' (out ++ echoed line (k₁.map KbKeysym.ascii))
          ((k₁.map KbKeysym.ascii).foldl editStep line).length k₂ := by
  induction k₁ generalizing mem out line with
  | nil => exact ⟨mem, h, by rw [List.map_nil, echoed, List.append_nil]; rfl⟩
  | cons key k₁ ih =>
    rw [List.map_cons] at hroom hnl ⊢
    obtain ⟨hlen, hroom⟩ := room_cons.mp hroom
    obtain ⟨hne, hnl⟩ := not_or.mp (mt List.mem_cons.mpr hnl)
    rw [List.cons_append, shellInputLoop, if_pos hlen, List.foldl_cons, echoed, ← List.append_assoc]
    by_cases h₀ : key.ascii = 0
    · have hline : editStep line key.ascii = line := if_pos h₀
      rw [hline] at hroom ⊢
      rw [if_pos h₀, if_pos (.inl h₀), List.append_nil]
      exact ih h hroom hnl _
    rw [if_neg h₀, if_neg (Ne.symm hne)]
    by_cases hb : key.ascii = 8
    · have hline : editStep line key.ascii = line.dropLast := by rw [editStep, if_neg h₀, if_pos hb]
      rw [hline] at hroom ⊢
      rw [if_pos hb]
      by_cases hempty : line = []
      · subst hempty
        rw [if_pos List.length_nil, if_pos (.inr ⟨hb, rfl⟩), List.append_nil]
        exact ih h hroom hnl _
      · rw [if_neg (by simpa using hempty), if_neg (by simp [h₀, hempty]), ← List.length_dropLast]
        exact ih h.back hroom hnl _
    · have hline : editStep line key.ascii = line ++ [key.ascii] := by rw [editStep, if_neg h₀, if_neg hb]
      rw [hline] at hroom ⊢
      have hlen' : (line ++ [key.ascii]).length = line.length + 1 := List.length_append
      rw [if_neg hb, if_neg (by simp [h₀, hb]), ← hlen']
      exact ih (h.char hlen h₀) hroom hnl _

theorem shellInput_waits (hroom : Room size [] (keys.map KbKeysym.ascii)) (hnl : 10 ∉ keys.map KbKeysym.ascii) :
    shellInput mem buffer size keys = none := by
  obtain ⟨mem', -, hrun⟩ := shellInputLoop_append (typed_nil mem buffer size) hroom hnl [] []
  have hlen := hroom _ List.prefix_rfl
  rw [List.append_nil] at hrun
  exact hrun.trans (if_pos hlen)

theorem shellInput_newline {key : KbKeysym} (hkey : key.ascii = 10) (hroom : Room size [] (keys.map KbKeysym.ascii))
    (hnl : 10 ∉ keys.map KbKeysym.ascii) (mem : Mem) (buffer : ℕ) : ∃ mem', shellInput mem buffer size (keys ++ [key]) =
      some (mem', echoed [] (keys.map KbKeysym.ascii) ++ [10]) ∧
        HoldsLine mem mem' buffer size (edited (keys.map KbKeysym.ascii)) := by
  obtain ⟨mem', ht, hrun⟩ := shellInputLoop_append (typed_nil mem buffer size) hroom hnl [] [key]
  have hlen := hroom _ List.prefix_rfl
  refine ⟨_, hrun.trans ?_, ht.newline hlen⟩
  rw [shellInputLoop, if_pos hlen, if_neg (by rw [hkey]; decide), if_pos hkey, List.nil_append, hkey]

theorem shellLine_append {r : Mem × List UInt8} {d : List KbKeysym}
    (hwait : ∀ p, p <+: k₁ → p ≠ k₁ → shellInput mem buffer size (d ++ p) = none)
    (hret : shellInput mem buffer size (d ++ k₁) = some r) : shellLine mem buffer size d (k₁ ++ k₂) = some (r, k₂) := by
  induction k₁ generalizing d with
  | nil =>
    rw [List.append_nil] at hret
    rw [List.nil_append]
    unfold shellLine
    rw [hret]
  | cons key k₁ ih =>
    have hnone := hwait [] List.nil_prefix (List.cons_ne_nil key k₁).symm
    rw [List.append_nil] at hnone
    rw [List.cons_append]
    unfold shellLine
    rw [hnone]
    refine ih (fun p hp hne => ?_) ?_
    · rw [List.append_assoc]
      exact hwait (key :: p) ((List.prefix_cons_inj key).mpr hp) fun e => hne (List.cons.inj e).2
    · rw [List.append_assoc]
      exact hret

/-- **A line** and its newline. -/
theorem shellLine_eq {key : KbKeysym} (hkey : key.ascii = 10) (hroom : Room size [] (keys.map KbKeysym.ascii))
    (hnl : 10 ∉ keys.map KbKeysym.ascii) (k₂ : List KbKeysym) (mem : Mem) (buffer : ℕ) : ∃ mem',
      shellLine mem buffer size [] (keys ++ [key] ++ k₂) =
        some ((mem', echoed [] (keys.map KbKeysym.ascii) ++ [10]), k₂) ∧
      HoldsLine mem mem' buffer size (edited (keys.map KbKeysym.ascii)) := by
  obtain ⟨mem', hret, hholds⟩ := shellInput_newline hkey hroom hnl mem buffer
  refine ⟨mem', shellLine_append (fun p hp hne => ?_) hret, hholds⟩
  have hp' : p <+: keys := by
    rcases List.prefix_concat_iff.mp hp with he | hp
    · exact absurd he hne
    · exact hp
  rw [List.nil_append]
  exact shellInput_waits (fun pre hpre => hroom pre (hpre.trans (hp'.map _))) fun hm => hnl ((hp'.map _).subset hm)

/-! ## Sessions -/

/-- What typed lines mean: each is written back, and then obeyed. -/
def sessionCalls (env : ℕ → Env) : ℕ → List (List UInt8) → List Call
  | n, [] => prompt (env n)
  | n, line :: lines =>
    prompt (env n) ++ ((echoed [] line ++ [10]).map (fun c => .write [c]) ++
      ((parseLine (edited line)).calls (env n) ++ sessionCalls env (n + 1) lines))

theorem HoldsLine.stringAt (h : HoldsLine mem₀ mem buffer size text) : StringAt mem buffer text :=
  ⟨h.chars, h.noNul, h.nul⟩

/-- **`shell_main`** obeys the lines in order. -/
theorem shellMain_lines {env : ℕ → Env} {fuel n : ℕ} {lines : List (List UInt8)} (hsize : 0 < size)
    (hsize' : size ≤ 2 ^ 32)
    (hkeys : keys.map KbKeysym.ascii = lines.flatMap (· ++ [10])) (hlines : ∀ l ∈ lines, 10 ∉ l ∧ Room size [] l)
    (hfuel : lines.length < fuel) : shellMain env buffer size fuel n mem keys = sessionCalls env n lines := by
  induction lines generalizing fuel n mem keys with
  | nil =>
    obtain ⟨fuel, rfl⟩ := Nat.exists_eq_add_one_of_ne_zero (Nat.ne_of_gt hfuel)
    have hnil : keys = [] := List.map_eq_nil_iff.mp hkeys
    have hwait : shellInput mem buffer size [] = none := if_pos hsize
    subst hnil
    rw [shellMain, sessionCalls]
    unfold shellLine
    rw [hwait]
    exact List.append_nil _
  | cons line lines ih =>
    obtain ⟨fuel, rfl⟩ := Nat.exists_eq_add_one_of_ne_zero (Nat.ne_of_gt (Nat.zero_lt_of_lt hfuel))
    rw [List.forall_mem_cons] at hlines
    rw [List.flatMap_cons] at hkeys
    obtain ⟨k, k₂, rfl, hk, hk₂⟩ := List.map_eq_append_iff.mp hkeys
    obtain ⟨k₁, k', rfl, rfl, hk'⟩ := List.map_eq_append_iff.mp hk
    obtain ⟨key, rfl, hkey⟩ := List.map_eq_singleton_iff.mp hk'
    obtain ⟨mem', hline, hholds⟩ := shellLine_eq hkey hlines.1.2 hlines.1.1 k₂ mem buffer
    have hparse := shellParse_eq (env n) hholds.stringAt (hholds.fits.trans_le hsize')
    rw [List.length_cons] at hfuel
    rw [shellMain, sessionCalls, hline]
    dsimp only
    rw [hparse]
    dsimp only
    rw [ih hk₂ hlines.2 (by omega)]

/-- The characters that the shell reads when some lines are typed. -/
theorem typed_lines {s s' : StdinState} {events : List StdinEvent} {scanner : Scanner} {lines : List (List UInt8)}
    (hstart : StdinStart s) (hflags : s.kbFlags = noFlags) (hscan : scanner.len = 0)
    (hlines : ∀ l ∈ lines, ∀ c ∈ l, c ∈ typable)
    (hrun : Run (fun s event s' => stdinStep s event = some s' ∧ event.Timely s) s events s')
    (hcodes : events.filterMap StdinEvent.code = (scanBytes scanner (typedBytes (lines.flatMap (· ++ [10])))).2)
    (hpc : s'.pc = .blocked) (hn : s'.named = false) :
    (symbolsOf s'.written).map KbKeysym.ascii = lines.flatMap (· ++ [10]) := by
  have htext : ∀ c ∈ lines.flatMap (· ++ [10]), c ∈ typable := fun c hc => by
    obtain ⟨l, hl, hc⟩ := List.mem_flatMap.mp hc
    rcases List.mem_append.mp hc with hc | hc
    · exact hlines l hl c hc
    · rw [List.mem_singleton.mp hc]
      decide
  exact (typed_keys hstart hflags hscan htext hrun hcodes hpc hn).2

/-- **A session.** Whatever else runs, when the keyboard sends the bytes of some lines and the keys come at the right
time, the shell makes the calls that the lines mean, with every backspace obeyed, in order, and no others. -/
theorem typed_session {s s' : StdinState} {events : List StdinEvent} {scanner : Scanner} {lines : List (List UInt8)}
    (hstart : StdinStart s) (hflags : s.kbFlags = noFlags) (hscan : scanner.len = 0)
    (hlines : ∀ l ∈ lines, (∀ c ∈ l, c ∈ typable) ∧ 10 ∉ l ∧ Room 512 [] l)
    (hrun : Run (fun s event s' => stdinStep s event = some s' ∧ event.Timely s) s events s')
    (hcodes : events.filterMap StdinEvent.code = (scanBytes scanner (typedBytes (lines.flatMap (· ++ [10])))).2)
    (hpc : s'.pc = .blocked) (hn : s'.named = false) (env : ℕ → Env) (mem : Mem) (buffer : ℕ) :
    shellMain env buffer 512 (lines.length + 1) 0 mem (symbolsOf s'.written) = sessionCalls env 0 lines := by
  have hkeys := typed_lines hstart hflags hscan (fun l hl => (hlines l hl).1) hrun hcodes hpc hn
  exact shellMain_lines (by decide) (by decide) hkeys (fun l hl => (hlines l hl).2) (Nat.lt_succ_self _)

/-! ## A session with one command -/

/-- The stdin task waits for a key, and no switch is postponed. -/
def Waits (s : StdinState) : Prop :=
  s.pc = .blocked ∧ s.named = false ∧ s.sched.currentTask ≠ 0 ∧ s.sched.postponeSwitchCounter = 0

instance (s : StdinState) : Decidable (Waits s) := inferInstanceAs (Decidable (_ ∧ _ ∧ _ ∧ _))

/-- A key code, and what follows when nothing comes between. -/
def codeEvents (s : StdinState) (code : UInt32) : List StdinEvent :=
  if (keyboardHandleKeycode s.kbFlags code).2 = none then [.key code] else keyRound code

def typeCode (s : StdinState) (code : UInt32) : Option StdinState :=
  if Waits s then (codeEvents s code).foldlM stdinStep s else none

theorem foldlM_of_run {s s' : StdinState} {events : List StdinEvent}
    (h : Run (fun s event s' => stdinStep s event = some s' ∧ event.Timely s) s events s') :
    events.foldlM stdinStep s = some s' := by
  induction h with
  | nil s => rfl
  | cons h _ ih => rw [List.foldlM_cons, h.1, Option.bind_eq_bind, Option.bind_some, ih]

theorem typeCode_run {s s' : StdinState} {code : UInt32} (h : StdinInv s) (hs : typeCode s code = some s') :
    ∃ events, Run (fun s event s' => stdinStep s event = some s' ∧ event.Timely s) s events s' ∧
      events.filterMap StdinEvent.code = [code] ∧ StdinInv s' := by
  obtain ⟨⟨hpc, hn, hc, hp⟩, hs⟩ := Option.ite_none_right_eq_some.mp hs
  unfold codeEvents at hs
  rcases hk : keyboardHandleKeycode s.kbFlags code with ⟨kbFlags, - | keysym⟩
  · rw [if_pos (by rw [hk]), List.foldlM_cons, Option.bind_eq_bind, Option.bind_eq_some_iff] at hs
    obtain ⟨s₁, hstep, hs⟩ := hs
    cases hs
    have ht : (StdinEvent.key code).Timely s := fun hne => absurd (by rw [hk]) hne
    exact ⟨_, .single ⟨hstep, ht⟩, rfl, h.step ht hstep⟩
  · obtain ⟨s₁, hrun, -, -, -⟩ := h.round hpc hn hk hc hp
    rw [if_neg (by rw [hk]; exact Option.some_ne_none keysym), foldlM_of_run hrun] at hs
    cases hs
    exact ⟨_, hrun, rfl, hrun.invariant (fun _ _ _ hinv hstep => hinv.step hstep.2 hstep.1) h⟩

theorem typeCodes_run {s s' : StdinState} {codes : List UInt32} (h : StdinInv s)
    (hs : codes.foldlM typeCode s = some s') :
    ∃ events, Run (fun s event s' => stdinStep s event = some s' ∧ event.Timely s) s events s' ∧
      events.filterMap StdinEvent.code = codes := by
  induction codes generalizing s with
  | nil =>
    cases hs
    exact ⟨[], .nil _, rfl⟩
  | cons code codes ih =>
    rw [List.foldlM_cons, Option.bind_eq_bind, Option.bind_eq_some_iff] at hs
    obtain ⟨s₁, hs₁, hs⟩ := hs
    obtain ⟨events, hrun, hcodes, h₁⟩ := typeCode_run h hs₁
    obtain ⟨events', hrun', hcodes'⟩ := ih h₁ hs
    refine ⟨events ++ events', hrun.append hrun', ?_⟩
    rw [List.filterMap_append, hcodes, hcodes']
    rfl

/-- `lx`, a backspace, and `s`. -/
def demoLine : List UInt8 := [108, 120, 8, 115]

def demoCodes : List UInt32 := (scanBytes ⟨fun _ => 0, 0⟩ (typedBytes ([demoLine].flatMap (· ++ [10])))).2

theorem demoLine_typed : (∀ c ∈ demoLine, c ∈ typable) ∧ 10 ∉ demoLine ∧ Room 512 [] demoLine := by
  refine ⟨by decide +kernel, by decide, ?_⟩
  simp [demoLine, room_cons, room_nil, editStep]

theorem typed_session_ls : ∃ s' : StdinState, ∀ env : ℕ → Env,
    shellMain env 4096 512 2 0 (fun _ => 0) (symbolsOf s'.written) =
      prompt (env 0) ++ ([108, 120, 8, 115, 10].map (fun c => .write [c]) ++ (shellLs (env 0) ++ prompt (env 1))) := by
  have hwaits : (demoCodes.foldlM typeCode demoStdin).any (fun s => decide (Waits s)) = true := by decide +kernel
  obtain ⟨s', hs', hw⟩ := (Option.any_eq_true _ _).mp hwaits
  obtain ⟨hpc, hn, -, -⟩ := of_decide_eq_true hw
  obtain ⟨events, hrun, hcodes⟩ := typeCodes_run demoStdin_start.inv hs'
  refine ⟨s', fun env => ?_⟩
  refine (typed_session demoStdin_start rfl rfl (fun l hl => ?_) hrun hcodes hpc hn env (fun _ => 0) 4096).trans rfl
  rw [List.mem_singleton.mp hl]
  exact demoLine_typed

end BulbOS.Shell
