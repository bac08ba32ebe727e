import Mathlib.Data.Set.Basic
import Mathlib.Data.List.Basic
import Mathlib.Logic.Function.Basic

/-!
# Mutexes and deadlock

A mutex has a holder and the tasks that wait for it, in order; a release hands it to the first of
them. Tasks run code made of acquires and releases, in any interleaving.

* `Deadlock`: every task of a set waits for a mutex that another one of it holds;
* `Ranked`: code in which every acquire that may wait is of a mutex above those already held;
* `Ordered`: the invariant of tasks that run such code, kept by `Ordered.call` and `Ordered.go`;
* **`Ordered.no_deadlock`**.
-/

namespace KLib

/-- A mutex and its queue. -/
structure Mutex (T : Type) where
  holder : Option T
  queue : List T

/-- The steps of a task that matter here. -/
inductive LockOp (M : Type)
  | acquire (m : M)
  | release (m : M)
  deriving DecidableEq

/-- The mutexes; for each task, those it acquired or waits for, the last one first, and the rest of its
code. -/
structure LockSys (T M : Type) where
  mutex : M → Mutex T
  held : T → List M
  code : T → List (LockOp M)

variable {T M : Type}

def Mutex.acquire (x : Mutex T) (t : T) : Mutex T :=
  match x.holder with
  | none => { x with holder := some t }
  | some _ => { x with queue := x.queue ++ [t] }

def Mutex.release (x : Mutex T) : Mutex T :=
  match x.queue with
  | [] => { x with holder := none }
  | t :: queue => ⟨some t, queue⟩

/-- Every task of `S` waits for a mutex held by another task of `S`. -/
def Deadlock (mutex : M → Mutex T) (S : Set T) : Prop :=
  S.Nonempty ∧ ∀ t ∈ S, ∃ m, t ∈ (mutex m).queue ∧ ∃ u ∈ S, u ≠ t ∧ (mutex m).holder = some u

/-- The task is queued for one of its mutexes. -/
def LockSys.Waiting (s : LockSys T M) (t : T) : Prop := ∃ m ∈ s.held t, t ∈ (s.mutex m).queue

instance [DecidableEq T] (s : LockSys T M) (t : T) : Decidable (s.Waiting t) :=
  inferInstanceAs (Decidable (∃ m ∈ s.held t, t ∈ (s.mutex m).queue))

section Steps

variable [DecidableEq T] [DecidableEq M] (s : LockSys T M)

/-- A task enters a function. -/
def LockSys.call (t : T) (body : List (LockOp M)) : LockSys T M :=
  { s with code := Function.update s.code t body }

/-- A task does its next acquire or release. -/
def LockSys.go (t : T) : Option (LockSys T M) :=
  match s.code t with
  | [] => none
  | .acquire m :: rest => some
    { mutex := Function.update s.mutex m ((s.mutex m).acquire t)
      held := Function.update s.held t (m :: s.held t)
      code := Function.update s.code t rest }
  | .release m :: rest => some
    { mutex := Function.update s.mutex m (s.mutex m).release
      held := Function.update s.held t ((s.held t).erase m)
      code := Function.update s.code t rest }

end Steps

/-- What a task holds after its code. -/
def heldAfter [DecidableEq M] : List M → List (LockOp M) → List M
  | held, [] => held
  | held, .acquire m :: rest => heldAfter (m :: held) rest
  | held, .release m :: rest => heldAfter (held.erase m) rest

theorem heldAfter_go [DecidableEq T] [DecidableEq M] {s s' : LockSys T M} {t : T} (h : s.go t = some s') (u : T) :
    heldAfter (s'.held u) (s'.code u) = heldAfter (s.held u) (s.code u) := by
  rw [LockSys.go] at h
  by_cases e : u = t
  · subst e
    split at h
    · cases h
    · next m rest hcode =>
      cases h
      simp only [Function.update_self, hcode]
      rfl
    · next m rest hcode =>
      cases h
      simp only [Function.update_self, hcode]
      rfl
  · split at h <;> cases h <;> simp only [Function.update_of_ne e]

section Order

variable [DecidableEq M] (rank : M → ℕ) (free : M → Prop)

/-- Code for a task that holds `held`: an acquire is of a mutex above all held ones, or of one that is
found `free`. -/
def Ranked : List M → List (LockOp M) → Prop
  | _, [] => True
  | held, .acquire m :: rest => m ∉ held ∧ (free m ∨ ∀ x ∈ held, rank x < rank m) ∧ Ranked (m :: held) rest
  | held, .release m :: rest => m ∈ held ∧ Ranked (held.erase m) rest

/-- Tasks that run ranked code, and wait only for mutexes above those they hold. -/
structure Ordered (s : LockSys T M) : Prop where
  ranked : ∀ t, Ranked rank free (s.held t) (s.code t)
  nodup : ∀ t, (s.held t).Nodup
  holds : ∀ m t, m ∈ s.held t ↔ (s.mutex m).holder = some t ∨ t ∈ (s.mutex m).queue
  apart : ∀ m t, (s.mutex m).holder = some t → t ∉ (s.mutex m).queue
  waits : ∀ m, ∀ t ∈ (s.mutex m).queue, ∃ held, s.held t = m :: held ∧ ∀ x ∈ held, rank x < rank m
  queue : ∀ m, (s.mutex m).queue.Nodup

variable {rank free} {s : LockSys T M}

theorem ordered_start : Ordered rank free (⟨fun _ => ⟨none, []⟩, fun _ => [], fun _ => []⟩ : LockSys T M) where
  ranked _ := trivial
  nodup _ := List.nodup_nil
  holds _ _ := by simp
  apart _ _ h := by cases h
  waits _ _ h := by cases h
  queue _ := List.nodup_nil

namespace Ordered

/-- **No deadlock**: of the tasks of a set, take one that waits for a mutex of the highest rank; its
holder waits for a higher one. -/
theorem no_deadlock (h : Ordered rank free s) {bound : ℕ} (hbound : ∀ m, rank m ≤ bound) (S : Set T) :
    ¬ Deadlock s.mutex S := by
  rintro ⟨⟨t, ht⟩, hS⟩
  -- by induction on the distance to the bound, nobody in `S` waits for a mutex
  have hnone : ∀ n, ∀ t ∈ S, ∀ m, t ∈ (s.mutex m).queue → bound - rank m = n → False := by
    intro n
    induction n using Nat.strong_induction_on with
    | h n ih =>
      intro t ht m hm hn
      obtain ⟨m₁, hm₁, u, hu, _, hholder⟩ := hS t ht
      obtain ⟨held, e, _⟩ := h.waits m t hm
      obtain ⟨held₁, e₁, _⟩ := h.waits m₁ t hm₁
      obtain rfl : m = m₁ := (List.cons.inj (e.symm.trans e₁)).1
      obtain ⟨m₂, hm₂, _⟩ := hS u hu
      obtain ⟨held₂, e₂, hlow⟩ := h.waits m₂ u hm₂
      have hheld : m ∈ s.held u := (h.holds m u).mpr (.inl hholder)
      rw [e₂] at hheld
      have hne : m ≠ m₂ := fun e => h.apart m u hholder (e ▸ hm₂)
      have hrank : rank m < rank m₂ := hlow m ((List.mem_cons.mp hheld).resolve_left hne)
      have := hbound m₂
      exact ih (bound - rank m₂) (by omega) u hu m₂ hm₂ rfl
  obtain ⟨m, hm, _⟩ := hS t ht
  exact hnone _ t ht m hm rfl

theorem not_queued (h : Ordered rank free s) {t : T} (ht : ¬ s.Waiting t) (m : M) : t ∉ (s.mutex m).queue :=
  fun hm => ht ⟨m, (h.holds m t).mpr (.inr hm), hm⟩

variable [DecidableEq T]

theorem call (h : Ordered rank free s) {t : T} {body : List (LockOp M)}
    (hbody : Ranked rank free (s.held t) body) : Ordered rank free (s.call t body) := by
  refine ⟨fun u => ?_, h.nodup, h.holds, h.apart, h.waits, h.queue⟩
  by_cases e : u = t
  · subst e
    simp only [LockSys.call, Function.update_self]
    exact hbody
  · simp only [LockSys.call, Function.update_of_ne e]
    exact h.ranked u

/-- The mutexes and what the tasks hold, after task `t` changed mutex `m` and what it holds. -/
theorem replace (h : Ordered rank free s) {t : T} {m : M} {x : Mutex T} {held : List M}
    {rest : List (LockOp M)} (hrest : Ranked rank free held rest) (hnodup : held.Nodup)
    (hholds : ∀ m' ≠ m, m' ∈ held ↔ m' ∈ s.held t) (ht : ∀ m' ≠ m, t ∉ (s.mutex m').queue)
    (hm : m ∈ held ↔ x.holder = some t ∨ t ∈ x.queue)
    (hother : ∀ u ≠ t, x.holder = some u ∨ u ∈ x.queue ↔ (s.mutex m).holder = some u ∨ u ∈ (s.mutex m).queue)
    (hapart : ∀ u, x.holder = some u → u ∉ x.queue) (hqueue : x.queue.Nodup)
    (hwaits : ∀ u ≠ t, u ∈ x.queue → u ∈ (s.mutex m).queue)
    (hwait : t ∈ x.queue → ∃ held', held = m :: held' ∧ ∀ x ∈ held', rank x < rank m) :
    Ordered rank free
      { mutex := Function.update s.mutex m x
        held := Function.update s.held t held
        code := Function.update s.code t rest } := by
  refine ⟨fun u => ?_, fun u => ?_, fun m' u => ?_, fun m' u hu => ?_, fun m' u hu => ?_, fun m' => ?_⟩
  · by_cases e : u = t
    · simp only [e, Function.update_self]
      exact hrest
    · simp only [Function.update_of_ne e]
      exact h.ranked u
  · by_cases e : u = t
    · simp only [e, Function.update_self]
      exact hnodup
    · simp only [Function.update_of_ne e]
      exact h.nodup u
  · by_cases e : u = t <;> by_cases em : m' = m
    · simp only [e, em, Function.update_self]
      exact hm
    · simp only [e, Function.update_self, Function.update_of_ne em]
      exact (hholds m' em).trans (h.holds m' t)
    · simp only [em, Function.update_self, Function.update_of_ne e]
      exact (h.holds m u).trans (hother u e).symm
    · simp only [Function.update_of_ne em, Function.update_of_ne e]
      exact h.holds m' u
  · by_cases em : m' = m
    · simp only [em, Function.update_self] at hu ⊢
      exact hapart u hu
    · simp only [Function.update_of_ne em] at hu ⊢
      exact h.apart m' u hu
  · by_cases e : u = t <;> by_cases em : m' = m
    · simp only [e, em, Function.update_self] at hu ⊢
      exact hwait hu
    · simp only [e, Function.update_of_ne em] at hu
      exact absurd hu (ht m' em)
    · simp only [em, Function.update_self, Function.update_of_ne e] at hu ⊢
      exact h.waits m u (hwaits u e hu)
    · simp only [Function.update_of_ne em, Function.update_of_ne e] at hu ⊢
      exact h.waits m' u hu
  · by_cases em : m' = m
    · simp only [em, Function.update_self]
      exact hqueue
    · simp only [Function.update_of_ne em]
      exact h.queue m'

theorem acquire (h : Ordered rank free s) {t : T} (ht : ¬ s.Waiting t) {m : M} {rest : List (LockOp M)}
    (hcode : s.code t = .acquire m :: rest) (hfree : free m → (s.mutex m).holder = none) :
    Ordered rank free
      { mutex := Function.update s.mutex m ((s.mutex m).acquire t)
        held := Function.update s.held t (m :: s.held t)
        code := Function.update s.code t rest } := by
  have hr := h.ranked t
  rw [hcode] at hr
  obtain ⟨hnew, hlow, hrest⟩ := hr
  have hout := h.not_queued ht
  have hheld : ∀ m' ≠ m, m' ∈ m :: s.held t ↔ m' ∈ s.held t := fun m' hm' => by simp [hm']
  have hnodup : (m :: s.held t).Nodup := List.nodup_cons.mpr ⟨hnew, h.nodup t⟩
  cases hh : (s.mutex m).holder with
  | none =>
    have hq : (s.mutex m).queue.Nodup := h.queue m
    refine h.replace hrest hnodup hheld (fun m' _ => hout m') ?_ ?_ ?_ ?_ ?_ ?_ <;>
      simp only [Mutex.acquire, hh]
    · simp
    · intro u hu
      simp [Ne.symm hu]
    · intro u hu
      cases hu
      exact hout m
    · exact hq
    · exact fun u _ hu => hu
    · exact fun hu => absurd hu (hout m)
  | some v =>
    have hv : v ≠ t := fun e => hnew ((h.holds m t).mpr (.inl (e ▸ hh)))
    refine h.replace hrest hnodup hheld (fun m' _ => hout m') ?_ ?_ ?_ ?_ ?_ ?_ <;>
      simp only [Mutex.acquire, hh]
    · simp
    · intro u hu
      simp [hu]
    · intro u hu
      cases hu
      simp [h.apart m v hh, hv]
    · refine List.nodup_append.mpr ⟨h.queue m, by simp, fun u hu w hw e => hout m ?_⟩
      rw [List.mem_singleton.mp hw] at e
      exact e ▸ hu
    · intro u hu hmem
      simpa [hu] using hmem
    · exact fun _ => ⟨_, rfl, hlow.resolve_left fun hf => by cases (hfree hf).symm.trans hh⟩

theorem release (h : Ordered rank free s) {t : T} (ht : ¬ s.Waiting t) {m : M} {rest : List (LockOp M)}
    (hcode : s.code t = .release m :: rest) :
    Ordered rank free
      { mutex := Function.update s.mutex m (s.mutex m).release
        held := Function.update s.held t ((s.held t).erase m)
        code := Function.update s.code t rest } := by
  have hr := h.ranked t
  rw [hcode] at hr
  obtain ⟨hmem, hrest⟩ := hr
  have hout := h.not_queued ht
  have hholder : (s.mutex m).holder = some t := ((h.holds m t).mp hmem).resolve_right (hout m)
  have hheld : ∀ m' ≠ m, m' ∈ (s.held t).erase m ↔ m' ∈ s.held t := fun m' hm' => List.mem_erase_of_ne hm'
  have hgone : m ∉ (s.held t).erase m := (h.nodup t).not_mem_erase
  have hq := h.queue m
  cases hqueue : (s.mutex m).queue with
  | nil =>
    refine h.replace hrest ((h.nodup t).erase m) hheld (fun m' _ => hout m') ?_ ?_ ?_ ?_ ?_ ?_ <;>
      simp only [Mutex.release, hqueue]
    · simp [hgone]
    · intro u hu
      simp [hholder, Ne.symm hu]
    · simp
    · exact List.nodup_nil
    · simp
    · simp
  | cons v queue =>
    rw [hqueue] at hq
    obtain ⟨hv, hq'⟩ := List.nodup_cons.mp hq
    have hout' := hout m
    rw [hqueue] at hout'
    refine h.replace hrest ((h.nodup t).erase m) hheld (fun m' _ => hout m') ?_ ?_ ?_ ?_ ?_ ?_ <;>
      simp only [Mutex.release, hqueue]
    · simp only [hgone, Option.some.injEq, false_iff, not_or]
      exact ⟨fun e => hout' (e ▸ List.mem_cons_self), fun hu => hout' (List.mem_cons_of_mem _ hu)⟩
    · intro u hu
      simp [hholder, Ne.symm hu, eq_comm]
    · intro u hu
      cases hu
      exact hv
    · exact hq'
    · exact fun u _ hu => List.mem_cons_of_mem _ hu
    · exact fun hu => absurd (List.mem_cons_of_mem _ hu) hout'

/-- **A step of a task that does not wait.** -/
theorem go (h : Ordered rank free s) {t : T} (ht : ¬ s.Waiting t) {s' : LockSys T M}
    (hfree : ∀ m rest, s.code t = .acquire m :: rest → free m → (s.mutex m).holder = none)
    (hgo : s.go t = some s') : Ordered rank free s' := by
  rw [LockSys.go] at hgo
  split at hgo
  · cases hgo
  · next m rest hcode =>
    cases hgo
    exact h.acquire ht hcode (hfree m rest hcode)
  · next m rest hcode =>
    cases hgo
    exact h.release ht hcode

end Ordered

end Order

end KLib
