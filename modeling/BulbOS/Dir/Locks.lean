import Mathlib.Data.Set.Insert
import BulbOS.Lib.Locks
import BulbOS.Lib.Run

/-!
# Locking dentries (`kernel/fs/dir.c`)

Any number of tasks call `dir_lock`, `dir_unlock`, `dir_dup`, `dir_release` and `dir_set`, each holding
at most one dentry; their `mutex_acquire` and `mutex_release` steps interleave in any way. `dir_set`
takes the mutex of the inode cache twice, in `inode_get` and in `inode_dup`.

`dir_lock` waits for the mutex of the dentry while it holds `dir_head.mutex`, which the `dir_unlock`
that would release the dentry needs first.

* **`dir_locks_no_deadlock`**: no deadlock in runs where `dir_lock` finds the dentry's mutex free;
* `dir_lock_deadlock`: two tasks that lock the same dentry.
-/

namespace BulbOS.Dir

open KLib

/-- `dir_head.mutex`, `ihead.mutex` and the mutex of a dentry. -/
inductive DirMutex
  | head
  | ihead
  | dentry (d : ℕ)
  deriving DecidableEq

/-- The calls. -/
inductive DirCall
  | dirLock (d : ℕ)
  | dirUnlock (d : ℕ)
  | dirDup
  | dirRelease
  | dirSet
  deriving DecidableEq

/-- The acquires and releases of a call. -/
def DirCall.body : DirCall → List (LockOp DirMutex)
  | .dirLock d => [.acquire .head, .acquire (.dentry d), .release .head]
  | .dirUnlock d => [.acquire .head, .release (.dentry d), .release .head]
  | .dirDup | .dirRelease => [.acquire .head, .release .head]
  | .dirSet =>
    [.acquire .head, .acquire .ihead, .release .ihead, .acquire .ihead, .release .ihead, .release .head]

/-- A task that holds `held` may make a call: it locks a dentry when it holds none, and unlocks the one
it holds. -/
def DirCall.Allowed (held : List DirMutex) : DirCall → Prop
  | .dirLock _ => held = []
  | .dirUnlock d => held = [.dentry d]
  | .dirDup | .dirRelease | .dirSet => True

instance (held : List DirMutex) : (f : DirCall) → Decidable (f.Allowed held)
  | .dirLock _ => inferInstanceAs (Decidable (held = []))
  | .dirUnlock d => inferInstanceAs (Decidable (held = [.dentry d]))
  | .dirDup | .dirRelease | .dirSet => inferInstanceAs (Decidable True)

/-- A task enters a call, or does its next acquire or release. -/
inductive DirAct
  | call (t : ℕ) (f : DirCall)
  | go (t : ℕ)
  deriving DecidableEq

abbrev DirSys := LockSys ℕ DirMutex

def dirNext (s : DirSys) : DirAct → Option DirSys
  | .call t f =>
    if s.code t = [] ∧ ¬ s.Waiting t ∧ f.Allowed (s.held t) then some (s.call t f.body) else none
  | .go t => if s.Waiting t then none else s.go t

def dirStep (s : DirSys) (a : DirAct) (s' : DirSys) : Prop := dirNext s a = some s'

/-- No mutex is held, no task is in a call. -/
def dirBoot : DirSys := ⟨fun _ => ⟨none, []⟩, fun _ => [], fun _ => []⟩

/-- If the code is at the acquire of a dentry's mutex, nobody holds it. -/
def FindsFree (s : DirSys) : List (LockOp DirMutex) → Prop
  | .acquire (.dentry d) :: _ => (s.mutex (.dentry d)).holder = none
  | _ => True

instance (s : DirSys) : (code : List (LockOp DirMutex)) → Decidable (FindsFree s code)
  | .acquire (.dentry d) :: _ => inferInstanceAs (Decidable ((s.mutex (.dentry d)).holder = none))
  | .acquire .head :: _ | .acquire .ihead :: _ | .release _ :: _ | [] => isTrue trivial

/-- The mutex of a dentry is held by nobody when a `dir_lock` comes to acquire it. -/
def DirAct.Finds (s : DirSys) : DirAct → Prop
  | .call _ _ => True
  | .go t => FindsFree s (s.code t)

instance (s : DirSys) : (a : DirAct) → Decidable (a.Finds s)
  | .call _ _ => isTrue trivial
  | .go t => inferInstanceAs (Decidable (FindsFree s (s.code t)))

/-- `dir_unlock` holds the dentry when it takes `dir_head.mutex`, and `dir_set` takes `ihead.mutex` last. -/
def dirRank : DirMutex → ℕ
  | .dentry _ => 0
  | .head => 1
  | .ihead => 2

/-- The mutexes of dentries are those that have to be found free. -/
def IsDentry : DirMutex → Prop
  | .dentry _ => True
  | _ => False

/-- What a task holds between two calls. -/
def Between (held : List DirMutex) : Prop := held = [] ∨ ∃ d, held = [.dentry d]

variable {s s' : DirSys}

/-! ## One step -/

theorem ranked_body {held : List DirMutex} {f : DirCall} (hb : Between held) (ha : f.Allowed held) :
    Ranked dirRank IsDentry held f.body := by
  have hlow : ∀ x ∈ held, dirRank x < dirRank .head := by
    obtain rfl | ⟨d, rfl⟩ := hb <;> simp [dirRank]
  have hhead : DirMutex.head ∉ held := fun hm => Nat.lt_irrefl _ (hlow _ hm)
  have hihead : DirMutex.ihead ∉ held := fun hm => by
    have := hlow _ hm
    simp [dirRank] at this
  have hlow' : ∀ x ∈ DirMutex.head :: held, dirRank x < dirRank .ihead :=
    List.forall_mem_cons.mpr ⟨by decide, fun x hx => (hlow x hx).trans (by decide)⟩
  cases f with
  | dirLock d =>
    obtain rfl : held = [] := ha
    exact ⟨hhead, .inr hlow, by simp, .inl trivial, by simp, trivial⟩
  | dirUnlock d =>
    obtain rfl : held = [.dentry d] := ha
    exact ⟨hhead, .inr hlow, by simp, by simp, trivial⟩
  | dirDup => exact ⟨hhead, .inr hlow, by simp, trivial⟩
  | dirRelease => exact ⟨hhead, .inr hlow, by simp, trivial⟩
  | dirSet =>
    have hnew : DirMutex.ihead ∉ DirMutex.head :: held := by simp [hihead]
    refine ⟨hhead, .inr hlow, hnew, .inr hlow', by simp, ?_⟩
    rw [List.erase_cons_head]
    refine ⟨hnew, .inr hlow', by simp, ?_⟩
    rw [List.erase_cons_head]
    exact ⟨by simp, trivial⟩

theorem between_body {held : List DirMutex} {f : DirCall} (hb : Between held) (ha : f.Allowed held) :
    Between (heldAfter held f.body) := by
  cases f with
  | dirLock d =>
    obtain rfl : held = [] := ha
    exact .inr ⟨d, by simp [DirCall.body, heldAfter]⟩
  | dirUnlock d =>
    obtain rfl : held = [.dentry d] := ha
    exact .inl (by simp [DirCall.body, heldAfter])
  | dirDup => simpa [DirCall.body, heldAfter] using hb
  | dirRelease => simpa [DirCall.body, heldAfter] using hb
  | dirSet => simpa [DirCall.body, heldAfter] using hb

/-- The invariant of runs in which `dir_lock` finds the dentries free. -/
structure DirInv (s : DirSys) : Prop where
  ordered : Ordered dirRank IsDentry s
  between : ∀ t, Between (heldAfter (s.held t) (s.code t))

theorem dirInv_boot : DirInv dirBoot := ⟨ordered_start, fun _ => .inl rfl⟩

theorem DirInv.step (h : DirInv s) {a : DirAct} (hf : a.Finds s) (hs : dirStep s a s') : DirInv s' := by
  cases a with
  | call t f =>
    simp only [dirStep, dirNext] at hs
    split_ifs at hs with hc
    obtain ⟨hcode, -, hallowed⟩ := hc
    cases hs
    have hb : Between (s.held t) := by
      have := h.between t
      rwa [hcode] at this
    refine ⟨h.ordered.call (ranked_body hb hallowed), fun u => ?_⟩
    by_cases e : u = t
    · simp only [e, LockSys.call, Function.update_self]
      exact between_body hb hallowed
    · simp only [LockSys.call, Function.update_of_ne e]
      exact h.between u
  | go t =>
    simp only [dirStep, dirNext] at hs
    split_ifs at hs with hw
    refine ⟨h.ordered.go hw (fun m rest hcode hm => ?_) hs, fun u => ?_⟩
    · cases m with
      | dentry d =>
        simp only [DirAct.Finds, hcode] at hf
        exact hf
      | head => exact absurd hm id
      | ihead => exact absurd hm id
    · rw [heldAfter_go hs]
      exact h.between u

/-! ## Runs -/

/-- **Dentry locking does not deadlock** in a run of any number of tasks in which no `dir_lock` comes to
a dentry whose mutex is held. -/
theorem dir_locks_no_deadlock {acts : List DirAct}
    (hrun : Run (fun s a s' => a.Finds s ∧ dirStep s a s') dirBoot acts s) (S : Set ℕ) :
    ¬ Deadlock s.mutex S := by
  have h : DirInv s := hrun.invariant (fun _ _ _ h hs => h.step hs.1 hs.2) dirInv_boot
  have hrank : ∀ m, dirRank m ≤ 2 := fun m => by cases m <;> simp [dirRank]
  exact h.ordered.no_deadlock hrank S

/-- Two tasks lock dentry 0 one after the other. -/
def turnsActs : List DirAct :=
  [.call 1 (.dirLock 0), .go 1, .go 1, .go 1, .call 1 (.dirUnlock 0), .go 1, .go 1, .go 1,
    .call 2 (.dirLock 0), .go 2, .go 2, .go 2]

theorem dir_locks_no_deadlock_demo :
    ∃ s, Run (fun s a s' => a.Finds s ∧ dirStep s a s') dirBoot turnsActs s ∧
      (s.mutex (.dentry 0)).holder = some 2 ∧ ∀ S, ¬ Deadlock s.mutex S := by
  obtain ⟨s, hrun, hholder⟩ : ∃ s, Run (fun s a s' => a.Finds s ∧ dirStep s a s') dirBoot turnsActs s ∧
      (s.mutex (.dentry 0)).holder = some 2 := by
    obtain ⟨s, hs, hholder⟩ : ∃ s, turnsActs.foldlM (fun s a => if a.Finds s then dirNext s a else none)
        dirBoot = some s ∧ (s.mutex (.dentry 0)).holder = some 2 := ⟨_, rfl, rfl⟩
    refine ⟨s, run_of_foldlM (fun s a s' h => ?_) hs, hholder⟩
    split_ifs at h with hf
    exact ⟨hf, h⟩
  exact ⟨s, hrun, hholder, dir_locks_no_deadlock hrun⟩

/-- Task 1 has locked dentry 0 and unlocks it while task 2 waits for it in `dir_lock`. -/
def deadlockActs : List DirAct :=
  [.call 1 (.dirLock 0), .go 1, .go 1, .go 1, .call 2 (.dirLock 0), .go 2, .go 2, .call 1 (.dirUnlock 0), .go 1]

/-- **Two tasks deadlock on one dentry.** -/
theorem dir_lock_deadlock : ∃ s, Run dirStep dirBoot deadlockActs s ∧ Deadlock s.mutex {1, 2} := by
  obtain ⟨s, hs, hq₁, hh₁, hq₂, hh₂⟩ : ∃ s, deadlockActs.foldlM dirNext dirBoot = some s ∧
      1 ∈ (s.mutex .head).queue ∧ (s.mutex .head).holder = some 2 ∧
      2 ∈ (s.mutex (.dentry 0)).queue ∧ (s.mutex (.dentry 0)).holder = some 1 :=
    ⟨_, rfl, by decide, by decide, by decide, by decide⟩
  refine ⟨s, run_of_foldlM (fun _ _ _ h => h) hs, ⟨1, by simp⟩, ?_⟩
  rintro t (rfl | rfl)
  · exact ⟨.head, hq₁, 2, by simp, by decide, hh₁⟩
  · exact ⟨.dentry 0, hq₂, 1, by simp, by decide, hh₂⟩

end BulbOS.Dir
