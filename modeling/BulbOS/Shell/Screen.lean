import BulbOS.Shell.Session
import BulbOS.Stdout.Order

/-!
# The session on the screen

* `writtenText`: what some calls write to stdout; `transcript`: the lines as they are left, with what the commands
  print;
* `echoed_inRow`: an echoed line is edited in its row; `shows_line`: one line and its commands;
* `Fits`: the lines stay in their rows; **`shows_session`**: the calls of a session show its transcript;
* **`session_on_screen`**: from the bytes of the keyboard to the screen.
-/

namespace BulbOS.Shell

open KLib BulbOS.Keyboard BulbOS.Stdin BulbOS.Tty BulbOS.Stdout

variable {t : Terminal} {row text line chars : List UInt8} {rows : List (List UInt8)} {calls calls' : List Call}
  {bufs : List (List UInt8)} {c : UInt8} {env : ℕ → Env} {n : ℕ} {lines : List (List UInt8)}

/-! ## What calls write -/

/-- The texts of the `SYS_WRITE` calls; `bufs` are those that `SYS_READ` has left in the buffer, one for each
`writeBuf`. -/
def writtenText : List Call → List (List UInt8) → List UInt8
  | [], _ => []
  | .write text :: calls, bufs => text ++ writtenText calls bufs
  | .writeBuf :: calls, bufs => bufs.headD [] ++ writtenText calls bufs.tail
  | _ :: calls, bufs => writtenText calls bufs

theorem writtenText_append (calls calls' : List Call) (bufs : List (List UInt8)) : writtenText (calls ++ calls') bufs =
    writtenText calls bufs ++ writtenText calls' (bufs.drop (calls.count .writeBuf)) := by
  induction calls generalizing bufs with
  | nil => rfl
  | cons call calls ih =>
    cases call with
    | write text =>
      rw [List.cons_append, writtenText, writtenText, ih, List.append_assoc, List.count_cons_of_ne (by simp)]
    | writeBuf =>
      rw [List.cons_append, writtenText, writtenText, ih, List.append_assoc, List.count_cons_self, List.drop_tail]
    | chdir path | readdir path | openFile path | fstat fd | read fd | close fd =>
      rw [List.cons_append, writtenText, writtenText, ih, List.count_cons_of_ne (by simp)]
      all_goals simp

theorem writtenText_map (text : List UInt8) (bufs : List (List UInt8)) :
    writtenText (text.map fun c => .write [c]) bufs = text := by
  induction text with
  | nil => rfl
  | cons c text ih => rw [List.map_cons, writtenText, ih]; rfl

/-- A byte that is written is in a text of the calls, or was read. -/
theorem mem_writtenText (h : c ∈ writtenText calls bufs) :
    (∃ text, .write text ∈ calls ∧ c ∈ text) ∨ ∃ buf ∈ bufs, c ∈ buf := by
  induction calls generalizing bufs with
  | nil => cases h
  | cons call calls ih =>
    cases call with
    | write text =>
      rcases List.mem_append.mp h with h | h
      · exact .inl ⟨text, List.mem_cons_self, h⟩
      · rcases ih h with ⟨text', hmem, hc⟩ | hbuf
        · exact .inl ⟨text', List.mem_cons_of_mem _ hmem, hc⟩
        · exact .inr hbuf
    | writeBuf =>
      rcases List.mem_append.mp h with h | h
      · cases bufs with
        | nil => cases h
        | cons buf bufs => exact .inr ⟨buf, List.mem_cons_self, h⟩
      · rcases ih h with ⟨text', hmem, hc⟩ | ⟨buf, hbuf, hc⟩
        · exact .inl ⟨text', List.mem_cons_of_mem _ hmem, hc⟩
        · exact .inr ⟨buf, List.mem_of_mem_tail hbuf, hc⟩
    | chdir path | readdir path | openFile path | fstat fd | read fd | close fd =>
      rcases ih h with ⟨text', hmem, hc⟩ | hbuf
      · exact .inl ⟨text', List.mem_cons_of_mem _ hmem, hc⟩
      · exact .inr hbuf

/-! ## Texts without backspaces -/

/-- No name of the kernel has a backspace in it. -/
def Env.Plain (env : Env) : Prop := 8 ∉ env.dir ∧ ∀ name ∈ env.entries, 8 ∉ name

theorem editStep_plain (h : 8 ∉ line) (c : UInt8) : 8 ∉ editStep line c := by
  unfold editStep
  split_ifs with h₀ hb
  · exact h
  · exact fun hm => h ((List.dropLast_sublist line).subset hm)
  · rw [List.mem_append, List.mem_singleton, not_or]
    exact ⟨h, Ne.symm hb⟩

theorem foldl_editStep_plain (h : 8 ∉ line) (chars : List UInt8) : 8 ∉ chars.foldl editStep line := by
  induction chars generalizing line with
  | nil => exact h
  | cons c chars ih => exact ih (editStep_plain h c)

/-- What follows the name of a command. -/
def Command.argument : Command → List UInt8
  | .nothing | .ls => []
  | .echo text => text
  | .cd path | .cat path => path
  | .unknown line => line

theorem parseLine_argument (line : List UInt8) : (parseLine line).argument <:+ line := by
  unfold parseLine
  split_ifs
  · exact List.nil_suffix
  · exact List.nil_suffix
  · exact List.drop_suffix 5 line
  · exact List.drop_suffix 3 line
  · exact List.drop_suffix 4 line
  · exact List.suffix_rfl

/-- The texts of the code. -/
def messages : List (List UInt8) :=
  [[10], literal "file not found\n", literal "no known command \"", literal "\"\n"]

theorem write_mem_calls {env : Env} {command : Command} (h : .write text ∈ command.calls env) :
    text ∈ messages ∨ text ∈ env.entries ∨ text = command.argument := by
  cases command with
  | nothing => cases h
  | ls =>
    simp only [Command.calls, shellLs, List.mem_append, List.mem_cons, List.mem_flatMap, List.not_mem_nil, or_false,
      reduceCtorEq, false_or, Call.write.injEq] at h
    rcases h with (rfl | ⟨name, hname, rfl | rfl⟩) | rfl
    · exact .inl (by decide)
    · exact .inr (.inl hname)
    · exact .inl (by decide)
    · exact .inl (by decide)
  | echo text' =>
    obtain ⟨-, h⟩ := List.mem_ite_nil_left.mp h
    simp only [List.mem_cons, List.not_mem_nil, or_false, Call.write.injEq] at h
    rcases h with rfl | rfl
    · exact .inr (.inr rfl)
    · exact .inl (by decide)
  | cd path =>
    obtain ⟨-, h⟩ := List.mem_ite_nil_left.mp h
    simp at h
  | cat path =>
    obtain ⟨-, h⟩ := List.mem_ite_nil_left.mp h
    simp only [List.mem_append, List.mem_cons, List.not_mem_nil, or_false, reduceCtorEq, false_or] at h
    obtain ⟨-, h⟩ := List.mem_ite_nil_right.mp h
    rw [List.mem_singleton, Call.write.injEq] at h
    exact .inl (by rw [h]; decide)
  | unknown line =>
    simp only [Command.calls, List.mem_cons, List.not_mem_nil, or_false, Call.write.injEq] at h
    rcases h with rfl | rfl | rfl
    · exact .inl (by decide)
    · exact .inr (.inr rfl)
    · exact .inl (by decide)

/-- The commands write no backspace that was not in the line, the names, or what is read. -/
theorem calls_plain {env : Env} (henv : env.Plain) (hline : 8 ∉ line) (hbufs : ∀ buf ∈ bufs, 8 ∉ buf) :
    8 ∉ writtenText ((parseLine line).calls env) bufs := by
  intro h
  have hmsg : ∀ text ∈ messages, (8 : UInt8) ∉ text := by decide
  rcases mem_writtenText h with ⟨text, hmem, hc⟩ | ⟨buf, hbuf, hc⟩
  · rcases write_mem_calls hmem with htext | hname | rfl
    · exact hmsg text htext hc
    · exact henv.2 text hname hc
    · exact hline ((parseLine_argument line).subset hc)
  · exact hbufs buf hbuf hc

/-! ## One line -/

/-- **An echoed line** is edited in its row: what is left of it stands behind the prompt. -/
theorem echoed_inRow (hroom : Room (vgaWidth - row.length) line chars) (hnl : 10 ∉ chars) :
    InRow (row ++ line) (echoed line chars) ∧
      editRow (row ++ line) (echoed line chars) = row ++ chars.foldl editStep line := by
  induction chars generalizing line with
  | nil => exact ⟨trivial, rfl⟩
  | cons c chars ih =>
    obtain ⟨hlen, hroom⟩ := room_cons.mp hroom
    obtain ⟨hne, hnl⟩ := not_or.mp (mt List.mem_cons.mpr hnl)
    have hrest := ih hroom hnl
    rw [echoed, List.foldl_cons]
    by_cases h₀ : c = 0
    · rw [if_pos (.inl h₀), List.nil_append]
      rwa [show editStep line c = line from if_pos h₀] at hrest ⊢
    by_cases hb : c = 8
    · rw [show editStep line c = line.dropLast by rw [editStep, if_neg h₀, if_pos hb]] at hrest ⊢
      by_cases hempty : line = []
      · subst hempty
        rw [if_pos (.inr ⟨hb, rfl⟩), List.nil_append]
        exact hrest
      · rw [if_neg (by simp [h₀, hempty]), List.singleton_append, InRow, if_pos hb, editRow, List.foldl_cons, if_pos hb,
          List.dropLast_append_of_ne_nil hempty]
        exact ⟨⟨by simp [hempty], hrest.1⟩, hrest.2⟩
    · have hline : editStep line c = line ++ [c] := by rw [editStep, if_neg h₀, if_neg hb]
      have hfits := hroom [] List.nil_prefix
      rw [hline] at hrest hfits ⊢
      rw [List.foldl_nil, List.length_append, List.length_singleton] at hfits
      rw [if_neg (by simp [h₀, hb]), List.singleton_append, InRow, if_neg hb, editRow, List.foldl_cons, if_neg hb,
        List.append_assoc]
      refine ⟨⟨Ne.symm hne, ?_, hrest.1⟩, hrest.2⟩
      rw [List.length_append]
      omega

theorem foldl_editStep_newline (h : 10 ∉ line) (hc : 10 ∉ chars) : 10 ∉ chars.foldl editStep line := by
  induction chars generalizing line with
  | nil => exact h
  | cons c chars ih =>
    obtain ⟨hne, hc⟩ := not_or.mp (mt List.mem_cons.mpr hc)
    refine ih ?_ hc
    unfold editStep
    split_ifs
    · exact h
    · exact fun hm => h ((List.dropLast_sublist line).subset hm)
    · rw [List.mem_append, List.mem_singleton, not_or]
      exact ⟨h, hne⟩

/-- The column behind a text. -/
def column (text : List UInt8) : ℕ := ((Tty.layout text).getLastD []).length

/-- **A line** that stays in its row is on the screen as it is left. -/
theorem shows_line (h : Shows t (Tty.layout text)) (hroom : Room (vgaWidth - column text) [] line) (hnl : 10 ∉ line) :
    Shows (terminalWrite t (echoed [] line)) (Tty.layout (text ++ edited line)) := by
  obtain ⟨rows, row, hrows, hall⟩ := layoutFrom_append [] text (edited line)
  have hcol : column text = row.length := by
    rw [column, Tty.layout, hrows, List.getLastD_concat]
  have hlen : (edited line).length < vgaWidth - column text := hroom line List.prefix_rfl
  rw [hcol] at hroom hlen
  have hshort : layoutFrom row (edited line) = [row ++ edited line] :=
    layoutFrom_short (foldl_editStep_newline List.not_mem_nil hnl) (by omega)
  obtain ⟨hin, hedit⟩ := echoed_inRow hroom hnl
  rw [List.append_nil] at hin hedit
  rw [Tty.layout, hrows] at h
  have hs := h.edits hin
  rwa [hedit, ← edited, ← hshort, ← hall] at hs

/-! ## Sessions -/

def promptText (env : Env) : List UInt8 := env.dir ++ literal " > "

/-- The prompts, the lines without what was taken back, and what the commands write. -/
def transcript (env : ℕ → Env) : ℕ → List (List UInt8) → List (List UInt8) → List UInt8
  | n, _, [] => promptText (env n)
  | n, bufs, line :: lines =>
    let calls := (parseLine (edited line)).calls (env n)
    promptText (env n) ++ edited line ++ [10] ++ writtenText calls bufs ++
      transcript env (n + 1) (bufs.drop (calls.count .writeBuf)) lines

/-- Behind `text`, every line stays in the row of its prompt while it is typed. -/
def Fits (env : ℕ → Env) : ℕ → List (List UInt8) → List UInt8 → List (List UInt8) → Prop
  | _, _, _, [] => True
  | n, bufs, text, line :: lines =>
    let calls := (parseLine (edited line)).calls (env n)
    Room (vgaWidth - column (text ++ promptText (env n))) [] line ∧
      Fits env (n + 1) (bufs.drop (calls.count .writeBuf))
        (text ++ (promptText (env n) ++ edited line ++ [10] ++ writtenText calls bufs)) lines

theorem promptText_plain {env : Env} (henv : env.Plain) : 8 ∉ promptText env := by
  have hlit : (8 : UInt8) ∉ literal " > " := by decide
  rw [promptText, List.mem_append, not_or]
  exact ⟨henv.1, hlit⟩

theorem writtenText_prompt (env : Env) (calls : List Call) (bufs : List (List UInt8)) :
    writtenText (prompt env ++ calls) bufs = promptText env ++ writtenText calls bufs := by
  rw [prompt, List.cons_append, List.singleton_append, writtenText, writtenText, promptText, List.append_assoc]

theorem sessionText_cons (env : ℕ → Env) (n : ℕ) (line : List UInt8) (lines bufs : List (List UInt8)) :
    writtenText (sessionCalls env n (line :: lines)) bufs = promptText (env n) ++ (echoed [] line ++ [10] ++
      (writtenText ((parseLine (edited line)).calls (env n)) bufs ++ writtenText (sessionCalls env (n + 1) lines)
        (bufs.drop (((parseLine (edited line)).calls (env n)).count .writeBuf)))) := by
  have hcount : ((echoed [] line ++ [10]).map fun c => Call.write [c]).count Call.writeBuf = 0 := by
    rw [List.count_eq_zero]
    simp
  rw [sessionCalls, writtenText_prompt, writtenText_append, writtenText_map, hcount, List.drop_zero, writtenText_append]

theorem terminalWrite_append (t : Terminal) (text more : List UInt8) :
    terminalWrite t (text ++ more) = terminalWrite (terminalWrite t text) more := List.foldl_append

/-- **The calls of a session** show its transcript behind what is on the screen. -/
theorem shows_session (h : Shows t (Tty.layout text)) (henv : ∀ n, (env n).Plain) (hbufs : ∀ buf ∈ bufs, 8 ∉ buf)
    (hlines : ∀ l ∈ lines, 10 ∉ l) (hfits : Fits env n bufs text lines) :
    Shows (terminalWrite t (writtenText (sessionCalls env n lines) bufs))
      (Tty.layout (text ++ transcript env n bufs lines)) := by
  induction lines generalizing t text n bufs with
  | nil =>
    rw [sessionCalls, ← List.append_nil (prompt _), writtenText_prompt, writtenText, List.append_nil]
    exact h.behind (promptText_plain (henv n))
  | cons line lines ih =>
    rw [List.forall_mem_cons] at hlines
    obtain ⟨hroom, hfits⟩ := hfits
    have hout : 8 ∉ [10] ++ writtenText ((parseLine (edited line)).calls (env n)) bufs := by
      rw [List.mem_append, not_or]
      exact ⟨by decide, calls_plain (henv n) (foldl_editStep_plain List.not_mem_nil line) hbufs⟩
    have hline := shows_line (h.behind (promptText_plain (henv n))) hroom hlines.1
    have hshown := hline.behind hout
    have hrest := ih (t := terminalWrite (terminalWrite (terminalWrite t (promptText (env n))) (echoed [] line))
      ([10] ++ writtenText ((parseLine (edited line)).calls (env n)) bufs)) (n := n + 1)
      (by simpa only [List.append_assoc] using hshown) (fun buf hb => hbufs buf
        (List.mem_of_mem_drop hb)) hlines.2 hfits
    rw [sessionText_cons, transcript]
    simp only [terminalWrite_append, List.append_assoc] at hrest ⊢
    exact hrest

theorem map_snd_eq_bytesOf {shell : ℕ} {log : List (ℕ × UInt8)} (h : ∀ t, t ≠ shell → bytesOf t log = []) :
    log.map Prod.snd = bytesOf shell log := by
  have hall : ∀ e ∈ log, decide (e.1 = shell) = true := fun e he => by
    by_contra hne
    have hnil := List.filter_eq_nil_iff.mp (List.map_eq_nil_iff.mp (h e.1 (by simpa using hne))) e he
    exact hnil (decide_eq_true rfl)
  rw [bytesOf, List.filter_eq_self.mpr hall]

/-- **The session on the screen.** The keyboard sends the bytes of some lines, and the keys come at the right time;
nobody but the shell writes to stdout, and nothing is printed inside `kprintf`. Once nothing is left to print, the
screen shows, behind what was there, the prompts, the lines without what was taken back, and what the commands write,
as long as every line stays in the row of its prompt. -/
theorem session_on_screen {s s' : StdinState} {events : List StdinEvent} {scanner : Scanner} {mem : Mem} {buffer : ℕ}
    (hstart : StdinStart s) (hflags : s.kbFlags = noFlags) (hscan : scanner.len = 0)
    (hlines : ∀ l ∈ lines, (∀ c ∈ l, c ∈ typable) ∧ 10 ∉ l ∧ Room 512 [] l)
    (hrun : Run (fun s event s' => stdinStep s event = some s' ∧ event.Timely s) s events s')
    (hcodes : events.filterMap StdinEvent.code = (scanBytes scanner (typedBytes (lines.flatMap (· ++ [10])))).2)
    (hpc : s'.pc = .blocked) (hn : s'.named = false)
    {o shell : ℕ} {ring memory : ℕ → UInt8} {ops : List StdoutOp} {c : StdoutState} (hshows : Shows t (Tty.layout text))
    (hout : Run (fun c op c' => stdoutStep o c op = some c') (stdoutInit ring memory t) ops c)
    (hasked : c.asked shell =
      writtenText (shellMain env buffer 512 (lines.length + 1) 0 mem (symbolsOf s'.written)) bufs)
    (hothers : ∀ t, t ≠ shell → c.asked t = []) (hmode : ∀ e ∈ c.printed, e.2 = .terminalOut) (hsettled : Settled c)
    (henv : ∀ n, (env n).Plain) (hbufs : ∀ buf ∈ bufs, 8 ∉ buf) (hfits : Fits env 0 bufs text lines) :
    Shows c.terminal (Tty.layout (text ++ transcript env 0 bufs lines)) := by
  have hkeys := typed_lines hstart hflags hscan (fun l hl => (hlines l hl).1) hrun hcodes hpc hn
  rw [shellMain_lines (by decide) (by decide) hkeys (fun l hl => (hlines l hl).2) (Nat.lt_succ_self _)] at hasked
  have hinv := hout.invariant (fun _ _ _ h hs => h.step hs) (stdoutInv_init o ring memory t)
  obtain ⟨hlog, hall⟩ := hinv.settled hsettled
  have hshown := hinv.shown
  rw [hlog, map_snd_eq_bytesOf fun t ht => by rw [← hall t, hothers t ht], ← hall shell, hasked] at hshown
  have hprinted : onTerminal c.printed = c.printed.map Prod.fst := by
    rw [onTerminal, List.filter_eq_self.mpr fun e he => decide_eq_true (hmode e he)]
  rw [hinv.screen, hprinted, ← hshown]
  exact shows_session hshows henv hbufs (fun l hl => (hlines l hl).2.1) hfits

/-- The root directory with one file, `a`. -/
def demoEnv : Env := ⟨[47], [[97]], fun _ => 0⟩

def demoText : List UInt8 := writtenText (sessionCalls (fun _ => demoEnv) 0 [demoLine]) []

/-- The shell is task 1, the stdout task 0. -/
def demoScreenOps : List StdoutOp :=
  .write 1 demoText :: (List.replicate (demoText.length + 3) (.run 1) ++
    List.replicate (2 * demoText.length + 7) .handler)

/-- The same memory, a blank screen. -/
def demoStdout : StdoutState := stdoutInit (fun _ => 0) (fun _ => 0) ⟨0, 0, 15, fun _ => 32, 0⟩

theorem demoScreenOps_others {t : ℕ} (h₀ : t ≠ 0) (h₁ : t ≠ 1) : ∀ op ∈ demoScreenOps, op.task 0 ≠ some t := by
  intro op hop
  rcases List.mem_cons.mp hop with rfl | hop
  · exact fun e => h₁ (Option.some.inj e).symm
  rcases List.mem_append.mp hop with hop | hop
  · rw [List.eq_of_mem_replicate hop]
    exact fun e => h₁ (Option.some.inj e).symm
  · rw [List.eq_of_mem_replicate hop]
    exact fun e => h₀ (Option.some.inj e).symm

theorem demoScreen_run : ∃ c, Run (fun c op c' => stdoutStep 0 c op = some c') demoStdout demoScreenOps c ∧
    c.asked 1 = demoText ∧ (∀ t, t ≠ 1 → c.asked t = []) ∧ (∀ e ∈ c.printed, e.2 = .terminalOut) ∧ Settled c := by
  have heval : (demoScreenOps.foldlM (stdoutStep 0) demoStdout).any
    (fun c => decide (c.asked 1 = demoText ∧ c.asked 0 = [] ∧
      c.pc = .waiting ∧ (∀ e ∈ c.printed, e.2 = .terminalOut) ∧ c.sys.pipe.bRead = c.sys.pipe.bWrite ∧
      c.sys.threads 0 = .idle ∧ c.sys.threads 1 = .idle)) = true := by decide +kernel
  obtain ⟨c, hc, hv⟩ := (Option.any_eq_true _ _).mp heval
  obtain ⟨hshell, hself, hpc, hmode, hempty, hidle₀, hidle₁⟩ := of_decide_eq_true hv
  have hrun : Run (fun c op c' => stdoutStep 0 c op = some c') demoStdout demoScreenOps c :=
    run_of_foldlM (fun _ _ _ e => e) hc
  refine ⟨c, hrun, hshell, fun t ht => ?_, hmode, hpc, hempty, fun t => ?_⟩
  · by_cases h₀ : t = 0
    · rw [h₀, hself]
    · exact (stdoutRun_frame (demoScreenOps_others h₀ ht) hrun).2
  · by_cases h₀ : t = 0
    · rw [h₀, hidle₀]
    by_cases h₁ : t = 1
    · rw [h₁, hidle₁]
    · exact (stdoutRun_frame (demoScreenOps_others h₀ h₁) hrun).1

/-- What is on the screen at the end is `/ > ls`, an empty line, `a`, another, and the next prompt. -/
theorem session_on_screen_ls : ∃ c, Run (fun c op c' => stdoutStep 0 c op = some c') demoStdout demoScreenOps c ∧
    Shows c.terminal (Tty.layout (literal "/ > ls\n\na\n\n/ > ")) := by
  have hwaits : (demoCodes.foldlM typeCode demoStdin).any (fun s => decide (Waits s)) = true := by decide +kernel
  obtain ⟨s', hs', hw⟩ := (Option.any_eq_true _ _).mp hwaits
  obtain ⟨hpc, hn, -, -⟩ := of_decide_eq_true hw
  obtain ⟨events, hrun, hcodes⟩ := typeCodes_run demoStdin_start.inv hs'
  obtain ⟨c, hout, hasked, hothers, hmode, hsettled⟩ := demoScreen_run
  have hline : ∀ l ∈ [demoLine], (∀ c ∈ l, c ∈ typable) ∧ 10 ∉ l ∧ Room 512 [] l := fun l hl => by
    rw [List.mem_singleton.mp hl]
    exact demoLine_typed
  have hkeys := typed_lines demoStdin_start rfl rfl (fun l hl => (hline l hl).1) hrun hcodes hpc hn
  have hcalls : shellMain (fun _ => demoEnv) 4096 512 ([demoLine].length + 1) 0 (fun _ => 0) (symbolsOf s'.written) =
      sessionCalls (fun _ => demoEnv) 0 [demoLine] :=
    shellMain_lines (by decide) (by decide) hkeys (fun l hl => (hline l hl).2) (Nat.lt_succ_self _)
  have hclear : Cleared ⟨0, 0, 15, fun _ => 32, 0⟩ := ⟨rfl, rfl, fun _ _ _ _ => rfl⟩
  refine ⟨c, hout, ?_⟩
  have hshows : Shows c.terminal (Tty.layout ([] ++ transcript (fun _ => demoEnv) 0 [] [demoLine])) := by
    refine session_on_screen demoStdin_start rfl rfl hline hrun hcodes hpc hn hclear.shows hout
      (hasked.trans (congrArg (writtenText · []) hcalls).symm) hothers hmode hsettled (fun _ => ⟨by decide, by decide⟩)
      (fun _ h => by cases h) ⟨?_, trivial⟩
    have hcol : column ([] ++ promptText demoEnv) = 4 := by decide +kernel
    rw [hcol]
    simp [demoLine, room_cons, room_nil, editStep, vgaWidth]
  have htext : [] ++ transcript (fun _ => demoEnv) 0 [] [demoLine] = literal "/ > ls\n\na\n\n/ > " := by decide +kernel
  rwa [htext] at hshows

end BulbOS.Shell
