import BulbOS.Ide.Model
import Mathlib.Data.List.Basic
import Mathlib.Tactic.Common

/-!
# The command of a read

What `ide_access_disk` does to the controller when nobody interferes.

* `bioRead_eq`: the code of `bio_read`, cut at the command and at `task_block`;
* `ideExec`: what one access does; `foldl_entries`, `foldl_writes`: what the parts of the code do;
* **`programmed`**: the controller when the command is written;
* **`Programmed.serve`**: the disk then brings the bytes of the block.
-/

namespace BulbOS.Ide

open KLib BulbOS.Task

variable {t k : ℕ} {r : BlockRead} {s s₀ : IdeState}

/-! ## The code of a read -/

/-- A block whose bytes fit `ide_mem_buffer` and have 32-bit addresses. -/
structure BlockRead.Ok (r : BlockRead) : Prop where
  device : r.device < 4
  whole : 1024 ∣ r.size
  pos : 0 < r.size
  fits : r.size ≤ 4096
  low : r.block * r.size + r.size ≤ 2 ^ 32

/-- Round `j` of `ide_fill_prd_table`, for `p` bytes. -/
def chunkCode (p : ℕ) (isWrite : Bool) (j : ℕ) : List Instr :=
  ideSetPrdEntry j p ++
    if isWrite then (List.range p).map fun i => .fill (1024 * j + i) (p * j + i) else []

/-- A request that `p` divides is done in rounds of `p` bytes. -/
theorem ideFillLoop_chunks {size fuel p j n : ℕ} {isWrite : Bool}
    (hp : (if size > 1024 then 1024 else size) = p) (hpos : 0 < p) (hsize : size = p * k)
    (hlt : size < 2 ^ 32) (hj : j + n = k) (hf : n < fuel) :
    ideFillLoop size isWrite fuel (p * j) j = some ((List.range' j n).flatMap (chunkCode p isWrite), k) := by
  induction n generalizing fuel j with
  | zero =>
    obtain ⟨fuel, rfl⟩ := Nat.exists_eq_add_one.mpr hf
    obtain rfl : j = k := hj
    have hend : sub32 size (p * j) = 0 := by
      rw [← hsize, sub32_of_le le_rfl hlt, Nat.sub_self]
    rw [ideFillLoop, if_pos hend]
    rfl
  | succ n ih =>
    obtain ⟨fuel, rfl⟩ := Nat.exists_eq_add_one.mpr (Nat.zero_lt_of_lt hf)
    have hle : p * j + p ≤ size := by
      rw [hsize, ← Nat.mul_succ]
      exact Nat.mul_le_mul_left p (by omega)
    have hmore : sub32 size (p * j) ≠ 0 := by
      rw [sub32_of_le (by omega) hlt]
      omega
    have hnext : u32 (p * j + p) = p * (j + 1) := u32_of_lt (by omega)
    rw [ideFillLoop, if_neg hmore]
    simp only [hp, hnext]
    rw [ih (by omega) (by omega)]
    simp [List.range'_succ, chunkCode]

/-- The entries `j`, ..., `j + n - 1` are written. -/
def entries (j n : ℕ) : List Instr := (List.range' j n).flatMap fun i => ideSetPrdEntry i 1024

theorem ideFillLoop_eq (hk : 1024 * k < 2 ^ 32) (fuel : ℕ) {j n : ℕ} (hj : j + n = k)
    (hf : n < fuel) (hk₀ : 0 < k) :
    ideFillLoop (1024 * k) false fuel (1024 * j) j = some (entries j n, k) := by
  have hp : (if 1024 * k > 1024 then 1024 else 1024 * k) = 1024 := by
    split_ifs <;> omega
  have hentries : (List.range' j n).flatMap (chunkCode 1024 false) = entries j n :=
    List.flatMap_congr fun i _ => List.append_nil _
  rw [ideFillLoop_chunks hp (by decide) rfl hk hj hf, hentries]

/-- The accesses after `actual_disk_req` is set, up to the command: the descriptors and the registers. -/
def tableCode (r : BlockRead) : List Instr := .prdt (deviceChannel r.device) :: entries 0 (r.size / 1024)

def registerCode (r : BlockRead) : List Instr :=
  let channel := deviceChannel r.device
  [.prd (r.size / 1024 - 1) fun e => { e with reserved := e.reserved ||| 1 <<< 15 },
    .write channel .busCom 0, .write channel .busCom 1, .poll channel] ++
    ideSetDevice r.device (r.block * r.size / 512) (r.size / 512) ++
    [.write channel .busStat 1, .write channel .control 0]

def commandCode (r : BlockRead) : Instr := .write (deviceChannel r.device) .command ideCmdReadDma

/-- The copy-out from byte `j` on. -/
def copyCode (r : BlockRead) (j : ℕ) : List Instr :=
  (List.range' j (r.size - j)).map (fun i => .copy i i) ++ [.valid]

theorem bioRead_eq (h : r.Ok) : bioRead r.device r.block r.size =
    some (.request r.device ::
      ((tableCode r ++ registerCode r) ++ commandCode r :: .block :: copyCode r 0)) := by
  obtain ⟨k, hk⟩ := h.whole
  have hlow := h.low
  have hpos := h.pos
  have hfits := h.fits
  have hlba : ¬ r.block * r.size / 512 > 0x10000000 := by omega
  have hfill : ideFillLoop r.size false (2 ^ 32) 0 0 = some (entries 0 (r.size / 1024), r.size / 1024) := by
    have hdiv : r.size / 1024 = k := by omega
    rw [hdiv, hk]
    exact ideFillLoop_eq (by omega) _ (j := 0) (Nat.zero_add k) (by omega) (by omega)
  have hsec : (r.size - 1) / 512 + 1 = r.size / 512 := by omega
  rw [bioRead, ideReadDisk, u32_of_lt (by omega), ideAccessDisk, if_neg (by omega), ideFillPrdTable, hfill]
  simp [hsec, hlba, tableCode, registerCode, commandCode, copyCode, ideSetPrdt, ideReadDiskBuffer,
    List.range_eq_range']

/-! ## The controller while a task programs it -/

/-- What an access of task `t` does to the driver and the controller. -/
def ideExec (t : ℕ) (s : IdeState) : Instr → IdeState
  | .request device => { s with reqDevice := device, reqTask := t }
  | .prdt channel => s.setChan channel { s.chan channel with prdt := true }
  | .prd i f => s.setPrd i (f (s.prdTable i))
  | .write channel reg data => ideWrite s t channel reg data
  | _ => s

/-- An access that writes no command and touches no bytes. -/
def Instr.Plain : Instr → Prop
  | .prdt _ | .prd _ _ | .poll _ | .sleep _ => True
  | .write _ reg _ => reg ≠ .command
  | _ => False

/-- No command is being served. -/
def NoCommands (s : IdeState) : Prop := ∀ ch, (s.chan ch).commands = []

theorem setChan_commands {ch : ℕ} {x : Channel} (h : x.commands = (s.chan ch).commands) (ch' : ℕ) :
    ((s.setChan ch x).chan ch').commands = (s.chan ch').commands := by
  rw [IdeState.setChan]
  dsimp only
  by_cases e : ch' = ch
  · subst e
    rw [Function.update_self, h]
  · rw [Function.update_of_ne e]

theorem out_commands {ch : Channel} {reg : Reg} (h : reg ≠ .command) (data : ℕ) :
    (ch.out t (idePort reg) data).commands = ch.commands := by
  cases reg <;> first | rfl | exact absurd rfl h

theorem ideExec_plain {i : Instr} (h : i.Plain) (ch : ℕ) :
    ((ideExec t s i).chan ch).commands = (s.chan ch).commands ∧ (ideExec t s i).disk = s.disk := by
  cases i with
  | prdt channel => exact ⟨setChan_commands (x := { s.chan channel with prdt := true }) rfl ch, rfl⟩
  | write channel reg data => exact ⟨setChan_commands (out_commands h _) ch, rfl⟩
  | prd | poll | sleep => exact ⟨rfl, rfl⟩
  | _ => exact h.elim

theorem foldl_plain {l : List Instr} (h : ∀ i ∈ l, i.Plain) (h₀ : NoCommands s) :
    NoCommands (l.foldl (ideExec t) s) ∧ (l.foldl (ideExec t) s).disk = s.disk := by
  induction l generalizing s with
  | nil => exact ⟨h₀, rfl⟩
  | cons i l ih =>
    have hi := h i List.mem_cons_self
    obtain ⟨h₁, h₂⟩ := ih (fun j hj => h j (List.mem_cons_of_mem _ hj))
      fun ch => (ideExec_plain (t := t) hi ch).1.trans (h₀ ch)
    exact ⟨h₁, h₂.trans (ideExec_plain (t := t) hi 0).2⟩

theorem tableCode_plain : ∀ i ∈ tableCode r, i.Plain := by
  intro i hi
  simp only [tableCode, entries, ideSetPrdEntry, List.mem_flatMap, List.mem_cons,
    List.not_mem_nil, or_false] at hi
  rcases hi with rfl | ⟨_, _, rfl | rfl | rfl⟩ <;> trivial

theorem registerCode_plain : ∀ i ∈ registerCode r, i.Plain := by
  intro i hi
  simp only [registerCode, ideSetDevice, List.mem_append, List.mem_cons, List.not_mem_nil, or_false] at hi
  rcases hi with ((rfl | rfl | rfl | rfl) | rfl | rfl | rfl | rfl | rfl | rfl | rfl | rfl | rfl | rfl |
    rfl | rfl) | rfl | rfl <;> first | trivial | exact Reg.noConfusion

/-- Entry `i` of the table for a read of `1024 * k` bytes. -/
def blockEntry (k i : ℕ) : PrdEntry := ⟨1024 * i, 1024, if i + 1 = k then 1 <<< 15 else 0⟩

theorem foldl_entries (j n : ℕ) :
    (entries j n).foldl (ideExec t) s =
      { s with prdTable := fun i => if j ≤ i ∧ i < j + n then ⟨1024 * i, 1024, 0⟩ else s.prdTable i } := by
  induction n generalizing s j with
  | zero =>
    have : (fun i => if j ≤ i ∧ i < j + 0 then (⟨1024 * i, 1024, 0⟩ : PrdEntry) else s.prdTable i) =
        s.prdTable := by
      funext i
      exact if_neg (by omega)
    rw [this]
    rfl
  | succ n ih =>
    have hcons : entries j (n + 1) = ideSetPrdEntry j 1024 ++ entries (j + 1) n := by
      simp [entries, List.range'_succ]
    rw [hcons, List.foldl_append, ih]
    simp only [ideSetPrdEntry, List.foldl_cons, List.foldl_nil, ideExec, IdeState.setPrd]
    congr 1
    funext i
    by_cases hi : i = j
    · subst hi
      simp
    · have hiff : j + 1 ≤ i ∧ i < j + 1 + n ↔ j ≤ i ∧ i < j + (n + 1) := by omega
      simp only [hiff, Function.update_of_ne hi]

/-- The command of a read. -/
def blockCommand (t : ℕ) (r : BlockRead) (served : Bool) : Command where
  issuer := t
  drive := deviceDrive r.device
  lba := r.block * r.size / 512
  sectors := r.size / 512
  isWrite := false
  served := served

/-- The controller has the command of task `t` and no other. -/
structure Programmed (s : IdeState) (t : ℕ) (r : BlockRead) (served : Bool) : Prop where
  task : s.reqTask = t
  device : s.reqDevice = r.device
  commands : ∀ ch, (s.chan ch).commands =
    if ch = deviceChannel r.device then [blockCommand t r served] else []
  prdt : (s.chan (deviceChannel r.device)).prdt = true
  started : (s.chan (deviceChannel r.device)).busCom.testBit 0 = true
  interrupt : served = true → (s.chan (deviceChannel r.device)).interrupt = true
  table : ∀ i < r.size / 1024, s.prdTable i = blockEntry (r.size / 1024) i

theorem prd_marked {p : ℕ} (hk : 0 < k) {f : ℕ → PrdEntry} (hf : ∀ i < k, f i = ⟨1024 * i, p, 0⟩) {i : ℕ} (hi : i < k) :
    Function.update f (k - 1) { f (k - 1) with reserved := (f (k - 1)).reserved ||| 1 <<< 15 } i =
      ⟨1024 * i, p, if i + 1 = k then 1 <<< 15 else 0⟩ := by
  by_cases e : i = k - 1
  · subst e
    rw [Function.update_self, hf _ hi, if_pos (by omega)]
    exact congrArg (PrdEntry.mk _ _) (Nat.zero_or _)
  · rw [Function.update_of_ne e, hf _ hi, if_neg (by omega)]

theorem table_marked (hk : 0 < k) {f : ℕ → PrdEntry}
    (hf : ∀ i < k, f i = ⟨1024 * i, 1024, 0⟩) {i : ℕ} (hi : i < k) :
    Function.update f (k - 1) { f (k - 1) with reserved := (f (k - 1)).reserved ||| 1 <<< 15 } i =
      blockEntry k i := prd_marked hk hf hi

/-- What a write does to its channel. -/
def Instr.onChan (t : ℕ) (ch : Channel) : Instr → Channel
  | .write _ reg data => ch.out t (idePort reg) (data % 2 ^ 8)
  | _ => ch

/-- A write to `channel`, or an access that changes nothing. -/
def Instr.To (channel : ℕ) : Instr → Prop
  | .write channel' _ _ => channel' = channel
  | .poll _ | .sleep _ => True
  | _ => False

theorem foldl_writes {channel : ℕ} {l : List Instr} (h : ∀ i ∈ l, i.To channel) :
    l.foldl (ideExec t) s = s.setChan channel (l.foldl (Instr.onChan t) (s.chan channel)) := by
  induction l generalizing s with
  | nil =>
    simp [IdeState.setChan]
  | cons i l ih =>
    have hi := h i List.mem_cons_self
    rw [List.foldl_cons, List.foldl_cons, ih fun j hj => h j (List.mem_cons_of_mem _ hj)]
    cases i with
    | write channel' reg data =>
      have hc : channel' = channel := hi
      subst hc
      simp [ideExec, ideWrite, IdeState.setChan, Instr.onChan]
    | poll | sleep => rfl
    | _ => exact hi.elim

/-- The writes of `registerCode`, and the command. -/
def writeCode (r : BlockRead) : List Instr := (registerCode r).tail ++ [commandCode r]

theorem writeCode_to : ∀ i ∈ writeCode r, i.To (deviceChannel r.device) := by
  intro i hi
  simp only [writeCode, commandCode, registerCode, ideSetDevice, List.cons_append, List.nil_append,
    List.tail_cons, List.mem_cons, List.not_mem_nil, or_false] at hi
  rcases hi with rfl | rfl | rfl | rfl | rfl | rfl | rfl | rfl | rfl | rfl | rfl | rfl | rfl | rfl | rfl |
    rfl | rfl | rfl <;> trivial

theorem lba_bytes {lba : ℕ} (h : lba < 2 ^ 24) :
    (lba &&& 0xFF) % 2 ^ 8 + (lba >>> 8 &&& 0xFF) % 2 ^ 8 * 2 ^ 8 +
      (lba >>> 16 &&& 0xFF) % 2 ^ 8 * 2 ^ 16 = lba := by
  simp only [show (0xFF : ℕ) = 2 ^ 8 - 1 from rfl, Nat.and_two_pow_sub_one_eq_mod, Nat.shiftRight_eq_div_pow]
  omega

theorem hddevsel_bits {drive : ℕ} (h : drive < 2) :
    (0xE0 ||| drive <<< 4 ||| 0) % 2 ^ 8 / 16 % 2 = drive ∧
      (0xE0 ||| drive <<< 4 ||| 0) % 2 ^ 8 % 16 = 0 := by
  obtain rfl | rfl : drive = 0 ∨ drive = 1 := by omega
  all_goals decide

/-- The registers and the command, for a sector that 28 bits can name. -/
def sendCode (device lba sectors : ℕ) (isWrite : Bool) : List Instr :=
  ideSetDevice device lba sectors ++
    [.write (deviceChannel device) .busStat 1, .write (deviceChannel device) .control 0,
      .write (deviceChannel device) .command (if isWrite then ideCmdWriteDma else ideCmdReadDma)]

theorem sendCode_commands {device lba sectors : ℕ} {isWrite : Bool} (hlba : lba < 2 ^ 24) (hpos : 0 < sectors)
    (hlt : sectors < 2 ^ 8) (ch : Channel) :
    ((sendCode device lba sectors isWrite).foldl (Instr.onChan t) ch).commands =
      ch.commands ++ [⟨t, deviceDrive device, lba, sectors, isWrite, false⟩] := by
  have hhead : (if lba > 0x10000000 then 0 else lba >>> 24 &&& 0xF) = 0 := by
    rw [if_neg (by omega), Nat.shiftRight_eq_div_pow, Nat.div_eq_of_lt (by omega), Nat.zero_and]
  obtain ⟨hdrive, hlow4⟩ := hddevsel_bits (Nat.mod_lt device (Nat.two_pos))
  have hcount : sectors % 2 ^ 8 = sectors := Nat.mod_eq_of_lt hlt
  have hissue : ∃ ch', ((sendCode device lba sectors isWrite).foldl (Instr.onChan t) ch).commands =
      ch.commands ++ [Channel.decode ch' t isWrite false] ∧ ch'.cur 2 = sectors % 2 ^ 8 ∧
      ch'.cur 3 = (lba &&& 0xFF) % 2 ^ 8 ∧ ch'.cur 4 = (lba >>> 8 &&& 0xFF) % 2 ^ 8 ∧
      ch'.cur 5 = (lba >>> 16 &&& 0xFF) % 2 ^ 8 ∧
      ch'.cur 6 = (0xE0 ||| (device % 2) <<< 4 ||| (if lba > 0x10000000 then 0 else lba >>> 24 &&& 0xF)) % 2 ^ 8 := by
    cases isWrite <;> exact ⟨_, rfl, rfl, rfl, rfl, rfl, rfl⟩
  obtain ⟨ch', hcommands, h2, h3, h4, h5, h6⟩ := hissue
  rw [hhead] at h6
  rw [hcommands, Channel.decode]
  congr 2
  rw [Command.mk.injEq, h2, h3, h4, h5, h6, hcount]
  refine ⟨rfl, hdrive, ?_, ?_, rfl, rfl⟩
  · rw [lba_bytes hlba, hlow4]
    simp
  · simp only [Bool.false_eq_true, if_false]
    rw [if_pos hpos.ne']

theorem writeCode_commands (h : r.Ok) (ch : Channel) :
    ((writeCode r).foldl (Instr.onChan t) ch).commands = ch.commands ++ [blockCommand t r false] := by
  have hlow := h.low
  have hfits := h.fits
  have hpos := h.pos
  have hwhole := h.whole
  have hlba : r.block * r.size / 512 < 2 ^ 24 := by omega
  have hcode : writeCode r = [.write (deviceChannel r.device) .busCom 0, .write (deviceChannel r.device) .busCom 1,
      .poll (deviceChannel r.device)] ++
      sendCode r.device (r.block * r.size / 512) (r.size / 512) false := by
    simp only [writeCode, registerCode, commandCode, sendCode, List.cons_append, List.nil_append, List.tail_cons,
      List.append_assoc, Bool.false_eq_true, if_false]
  rw [hcode, List.foldl_append, sendCode_commands hlba (by omega) (by omega)]
  rfl

/-- **The controller when the command is written.** -/
theorem programmed (h : r.Ok) (h₀ : NoCommands s₀) (ht : s₀.reqTask = t) (hd : s₀.reqDevice = r.device) :
    Programmed (ideExec t ((tableCode r ++ registerCode r).foldl (ideExec t) s₀) (commandCode r)) t r false := by
  have hpos := h.pos
  have hwhole := h.whole
  let channel := deviceChannel r.device
  let k := r.size / 1024
  let s₁ := (tableCode r).foldl (ideExec t) s₀
  let s₂ := s₁.setPrd (k - 1) { s₁.prdTable (k - 1) with
    reserved := (s₁.prdTable (k - 1)).reserved ||| 1 <<< 15 }
  have hcode : ideExec t ((tableCode r ++ registerCode r).foldl (ideExec t) s₀) (commandCode r) =
      (writeCode r).foldl (ideExec t) s₂ := by
    obtain ⟨l, hl, hw⟩ : ∃ l, registerCode r =
        .prd (k - 1) (fun e => { e with reserved := e.reserved ||| 1 <<< 15 }) :: l ∧
        writeCode r = l ++ [commandCode r] := ⟨_, rfl, rfl⟩
    rw [hl, hw, List.foldl_append, List.foldl_append, List.foldl_cons]
    rfl
  have hs₁ : s₁ = { ideExec t s₀ (.prdt channel) with
      prdTable := fun i => if 0 ≤ i ∧ i < 0 + k then ⟨1024 * i, 1024, 0⟩ else s₀.prdTable i } := by
    simp only [s₁, tableCode, List.foldl_cons, foldl_entries]
    rfl
  have hcmd : NoCommands s₁ := (foldl_plain tableCode_plain h₀).1
  rw [hcode, foldl_writes writeCode_to]
  refine ⟨(congrArg IdeState.reqTask hs₁).trans ht, (congrArg IdeState.reqDevice hs₁).trans hd, fun ch => ?_, ?_, ?_,
    (fun h => Bool.noConfusion h), fun i hi => ?_⟩
  · split_ifs with e
    · subst e
      rw [IdeState.setChan]
      dsimp only
      rw [Function.update_self, writeCode_commands h]
      change (s₁.chan _).commands ++ _ = _
      rw [hcmd, List.nil_append]
    · rw [IdeState.setChan]
      dsimp only
      rw [Function.update_of_ne e]
      exact hcmd ch
  · rw [IdeState.setChan]
    dsimp only
    rw [Function.update_self]
    change (s₁.chan channel).prdt = true
    rw [hs₁]
    simp [ideExec, IdeState.setChan]
  · rw [IdeState.setChan]
    dsimp only
    rw [Function.update_self]
    change (1 % 2 ^ 8 : ℕ).testBit 0 = true
    decide
  · refine table_marked (k := k) (f := s₁.prdTable) (by omega) (fun j hj => ?_) hi
    rw [hs₁]
    exact if_pos (by omega)

/-! ## The disk serves a command -/

theorem dmaRead_entries {prd : ℕ → PrdEntry} (hprd : ∀ i < k, prd i = blockEntry k i) (src : ℕ → UInt8)
    {start fuel j n : ℕ} (hj : j + n = k) (hn : 0 < n) (hf : n ≤ fuel) (mem : Mem) {x : ℕ} :
    dmaRead prd src fuel j (start + 1024 * j) (1024 * n) mem x =
      if 1024 * j ≤ x ∧ x < 1024 * k then src (start + x) else mem x := by
  induction n generalizing fuel j mem with
  | zero => omega
  | succ n ih =>
    obtain ⟨fuel, rfl⟩ := Nat.exists_eq_add_one.mpr (Nat.lt_of_lt_of_le hn hf)
    have hbytes : min (1024 * (n + 1)) (blockEntry k j).bytes = 1024 := by
      have : (blockEntry k j).bytes = 1024 := rfl
      omega
    have hmem : (fun x => if 1024 * j ≤ x ∧ x < 1024 * j + 1024 then
        src (start + 1024 * j + (x - 1024 * j)) else mem x) =
        fun x => if 1024 * j ≤ x ∧ x < 1024 * (j + 1) then src (start + x) else mem x := by
      funext x
      by_cases hx : 1024 * j ≤ x ∧ x < 1024 * j + 1024
      · have he : start + 1024 * j + (x - 1024 * j) = start + x := by omega
        rw [if_pos hx, if_pos (by omega), he]
      · rw [if_neg hx, if_neg (by omega)]
    rw [dmaRead, hprd j (by omega)]
    have hphys : (blockEntry k j).physAddr = 1024 * j := rfl
    simp only [hbytes, hphys, hmem]
    by_cases hlast : j + 1 = k
    · have hmark : (blockEntry k j).reserved.testBit 15 = true := by
        simp only [blockEntry, if_pos hlast]
        decide
      rw [if_pos hmark, hlast]
    · have hmark : ¬ (blockEntry k j).reserved.testBit 15 = true := by
        simp [blockEntry, if_neg hlast]
      have hnext : start + 1024 * j + 1024 = start + 1024 * (j + 1) := by omega
      have hleft : 1024 * (n + 1) - 1024 = 1024 * n := by omega
      rw [if_neg hmark, hnext, hleft, ih (by omega) (by omega) (by omega)]
      by_cases h₁ : 1024 * (j + 1) ≤ x ∧ x < 1024 * k
      · rw [if_pos h₁, if_pos (by omega)]
      · rw [if_neg h₁]
        by_cases h₂ : 1024 * j ≤ x ∧ x < 1024 * (j + 1)
        · rw [if_pos h₂, if_pos (by omega)]
        · rw [if_neg h₂, if_neg (by omega)]

/-- The bytes of a block are in `ide_mem_buffer`. -/
def Loaded (s : IdeState) (r : BlockRead) : Prop :=
  ∀ i < r.size, s.memBuffer i = s.disk r.device (r.block * r.size + i)

/-- **The disk serves the command.** -/
theorem Programmed.serve (h : Programmed s t r false) (hr : r.Ok) {ch : ℕ} {s' : IdeState}
    (hs : s.serve ch = some s') : Programmed s' t r true ∧ Loaded s' r ∧ s'.disk = s.disk := by
  have hdev : 2 * deviceChannel r.device + deviceDrive r.device = r.device := by
    rw [deviceChannel, deviceDrive]
    omega
  have hwhole := hr.whole
  have hpos := hr.pos
  have hfits := hr.fits
  have hsector : 512 ∣ r.size := Nat.dvd_trans (by decide) hwhole
  have hstart : r.block * r.size / 512 * 512 = r.block * r.size :=
    Nat.div_mul_cancel (Nat.dvd_mul_left_of_dvd hsector _)
  have hsize : r.size / 512 * 512 = 1024 * (r.size / 1024) := by
    rw [Nat.div_mul_cancel hsector, Nat.mul_div_cancel' hwhole]
  rw [IdeState.serve] at hs
  have hcmd := h.commands ch
  by_cases e : ch = deviceChannel r.device
  · rw [if_pos e] at hcmd
    subst e
    simp only [hcmd, h.prdt, h.started, blockCommand, Bool.false_eq_true, Bool.true_eq_false, or_self,
      if_false, Option.some.injEq] at hs
    subst hs
    refine ⟨⟨h.task, h.device, fun ch => ?_, ?_, ?_, fun _ => ?_, h.table⟩, fun i hi => ?_, rfl⟩
    · rw [IdeState.setChan]
      dsimp only
      split_ifs with e
      · rw [e, Function.update_self]
        rfl
      · rw [Function.update_of_ne e, h.commands, if_neg e]
    · simp [IdeState.setChan]
    · simp [IdeState.setChan, h.started]
    · simp [IdeState.setChan]
    · have hread : dmaRead s.prdTable (s.disk r.device) prdCount 0 (r.block * r.size + 1024 * 0)
          (1024 * (r.size / 1024)) s.memBuffer i =
            if 1024 * 0 ≤ i ∧ i < 1024 * (r.size / 1024) then s.disk r.device (r.block * r.size + i)
              else s.memBuffer i :=
        dmaRead_entries h.table (s.disk r.device) (Nat.zero_add _) (by omega) (by rw [prdCount]; omega) s.memBuffer
      rw [hdev, hstart, hsize]
      rw [if_pos (by omega)] at hread
      exact hread
  · rw [if_neg e] at hcmd
    rw [hcmd] at hs
    cases hs

theorem serve_none (h : NoCommands s) (ch : ℕ) : s.serve ch = none := by
  rw [IdeState.serve, h ch]

end BulbOS.Ide
