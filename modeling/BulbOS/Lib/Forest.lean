import Mathlib.Data.Fintype.Card
import Mathlib.Data.List.Nodup

/-!
# Walks down a forest

A node has a list of items, and an item may lead to another node. The walk goes over the items of a node in order, and
from an item to everything below it before the next item; it does not remember where it has been.

* `Branching.walk`: the items met, for a number of levels; `Branching.collect_append`: one list of items after another;
* `Branching.mem_walk`: what is met; `Branching.exists_walk`: the walk ends when no path is too long;
* `Branching.Forest`: only one item leads to a node, and none to the root; `Forest.depth_unique`, `Forest.depth_lt`: so
  a node has one depth, and that is bounded;
* **`Forest.nodup_walk`**: nothing is met twice.
-/

namespace KLib

/-- The items of a node, and where an item leads. -/
structure Branching (α β : Type) where
  items : α → List β
  next : β → Option α

namespace Branching

variable {α β : Type} {g : Branching α β} {visit : α → Option (List β)} {a b c root : α} {x y z : β}
  {xs ys log : List β} {m n fuel : ℕ}

/-! ## The walk -/

/-- An item and what is below it; `visit` is the walk of a node. -/
def enter (g : Branching α β) (visit : α → Option (List β)) (x : β) : Option (List β) :=
  match g.next x with
  | none => some [x]
  | some a => (visit a).map (x :: ·)

def collect (g : Branching α β) (visit : α → Option (List β)) : List β → Option (List β)
  | [] => some []
  | x :: xs => (g.enter visit x).bind fun l => (g.collect visit xs).map (l ++ ·)

def walk (g : Branching α β) : ℕ → α → Option (List β)
  | 0, _ => none
  | fuel + 1, a => g.collect (g.walk fuel) (g.items a)

theorem collect_cons (h : g.collect visit (x :: xs) = some log) :
    ∃ l l', g.enter visit x = some l ∧ g.collect visit xs = some l' ∧ log = l ++ l' := by
  obtain ⟨l, hl, h⟩ := Option.bind_eq_some_iff.mp h
  obtain ⟨l', hl', rfl⟩ := Option.map_eq_some_iff.mp h
  exact ⟨l, l', hl, hl', rfl⟩

theorem collect_append (xs ys : List β) : g.collect visit (xs ++ ys) =
    (g.collect visit xs).bind fun l => (g.collect visit ys).map (l ++ ·) := by
  induction xs with
  | nil => simp [collect]
  | cons x xs ih =>
    rw [List.cons_append, collect, ih, collect]
    cases g.enter visit x with
    | none => rfl
    | some l =>
      cases g.collect visit xs with
      | none => rfl
      | some l' =>
        cases g.collect visit ys with
        | none => rfl
        | some l'' => simp

/-! ## Paths -/

def Child (g : Branching α β) (a b : α) : Prop := ∃ x ∈ g.items a, g.next x = some b

/-- `n` levels down. -/
inductive Steps (g : Branching α β) (a : α) : ℕ → α → Prop
  | refl : Steps g a 0 a
  | tail {n : ℕ} {b c : α} (h : Steps g a n b) (hchild : g.Child b c) : Steps g a (n + 1) c

theorem Steps.head (hchild : g.Child a b) (h : g.Steps b n c) : g.Steps a (n + 1) c := by
  induction h with
  | refl => exact .tail .refl hchild
  | tail _ hlast ih => exact .tail ih hlast

theorem Steps.cases_head (h : g.Steps a n c) : (n = 0 ∧ a = c) ∨ ∃ b k, n = k + 1 ∧ g.Child a b ∧ g.Steps b k c := by
  induction h with
  | refl => exact .inl ⟨rfl, rfl⟩
  | tail _ hlast ih =>
    rcases ih with ⟨rfl, rfl⟩ | ⟨b, k, rfl, hchild, hsteps⟩
    · exact .inr ⟨_, 0, rfl, hlast, .refl⟩
    · exact .inr ⟨b, k + 1, rfl, hchild, hsteps.tail hlast⟩

theorem Steps.trans (h : g.Steps a m b) (h' : g.Steps b n c) : g.Steps a (m + n) c := by
  induction h' with
  | refl => exact h
  | tail _ hlast ih => exact ih.tail hlast

/-- `z` is `x`, or below it. -/
def Under (g : Branching α β) (x z : β) : Prop :=
  z = x ∨ ∃ a n b, g.next x = some a ∧ g.Steps a n b ∧ z ∈ g.items b

/-! ## What the walk meets -/

theorem mem_enter {l : List β} (h : g.enter visit x = some l) :
    z ∈ l ↔ z = x ∨ ∃ a l', g.next x = some a ∧ visit a = some l' ∧ z ∈ l' := by
  unfold enter at h
  cases hnext : g.next x with
  | none =>
    rw [hnext] at h
    cases h
    simp
  | some a =>
    rw [hnext] at h
    obtain ⟨l', hvisit, rfl⟩ := Option.map_eq_some_iff.mp h
    rw [List.mem_cons]
    refine or_congr_right ⟨fun hz => ⟨a, l', rfl, hvisit, hz⟩, ?_⟩
    rintro ⟨a', l'', ha, hvisit', hz⟩
    cases ha
    cases hvisit.symm.trans hvisit'
    exact hz

theorem mem_collect (h : g.collect visit xs = some log) :
    z ∈ log ↔ ∃ x ∈ xs, z = x ∨ ∃ a l, g.next x = some a ∧ visit a = some l ∧ z ∈ l := by
  induction xs generalizing log with
  | nil =>
    cases h
    simp
  | cons x xs ih =>
    obtain ⟨l, l', hl, hl', rfl⟩ := collect_cons h
    rw [List.mem_append, mem_enter hl, ih hl', List.exists_mem_cons_iff]

theorem exists_visit (h : g.collect visit xs = some log) (hx : x ∈ xs) (hnext : g.next x = some a) :
    ∃ l, visit a = some l := by
  obtain ⟨l₁, l₂, rfl⟩ := List.append_of_mem hx
  rw [collect_append] at h
  obtain ⟨_, -, h⟩ := Option.bind_eq_some_iff.mp h
  obtain ⟨_, h, -⟩ := Option.map_eq_some_iff.mp h
  obtain ⟨_, _, henter, -⟩ := collect_cons h
  rw [enter, hnext] at henter
  obtain ⟨l, hvisit, -⟩ := Option.map_eq_some_iff.mp henter
  exact ⟨l, hvisit⟩

/-- **The walk** meets the items of the nodes below. -/
theorem mem_walk (h : g.walk fuel a = some log) : z ∈ log ↔ ∃ n b, g.Steps a n b ∧ z ∈ g.items b := by
  induction fuel generalizing a log with
  | zero => cases h
  | succ fuel ih =>
    rw [mem_collect h]
    constructor
    · rintro ⟨x, hx, rfl | ⟨b, l, hnext, hvisit, hz⟩⟩
      · exact ⟨0, a, .refl, hx⟩
      · obtain ⟨n, c, hsteps, hz⟩ := (ih hvisit).mp hz
        exact ⟨n + 1, c, hsteps.head ⟨x, hx, hnext⟩, hz⟩
    · rintro ⟨n, c, hsteps, hz⟩
      rcases hsteps.cases_head with ⟨-, rfl⟩ | ⟨b, k, -, ⟨x, hx, hnext⟩, hsteps⟩
      · exact ⟨z, hz, .inl rfl⟩
      · obtain ⟨l, hvisit⟩ := exists_visit h hx hnext
        exact ⟨x, hx, .inr ⟨b, l, hnext, hvisit, (ih hvisit).mpr ⟨k, c, hsteps, hz⟩⟩⟩

theorem exists_collect (h : ∀ x ∈ xs, ∀ a, g.next x = some a → ∃ l, visit a = some l) :
    ∃ log, g.collect visit xs = some log := by
  induction xs with
  | nil => exact ⟨[], rfl⟩
  | cons x xs ih =>
    rw [List.forall_mem_cons] at h
    obtain ⟨rest, hrest⟩ := ih h.2
    obtain ⟨l, hl⟩ : ∃ l, g.enter visit x = some l := by
      rw [enter]
      cases hnext : g.next x with
      | none => exact ⟨_, rfl⟩
      | some a =>
        obtain ⟨l, hvisit⟩ := h.1 a hnext
        exact ⟨x :: l, congrArg (Option.map (x :: ·)) hvisit⟩
    exact ⟨l ++ rest, by rw [collect, hl, hrest]; rfl⟩

/-- **The walk ends** when no path is as long as it has levels. -/
theorem exists_walk (h : ∀ b, ¬ g.Steps a fuel b) : ∃ log, g.walk fuel a = some log := by
  induction fuel generalizing a with
  | zero => exact absurd .refl (h a)
  | succ fuel ih => exact exists_collect fun x hx b hnext => ih fun c hsteps => h c (hsteps.head ⟨x, hx, hnext⟩)

/-! ## Forests -/

/-- Below the root, only one item leads to a node, and none leads back to the root. -/
structure Forest (g : Branching α β) (root : α) : Prop where
  owner : ∀ a b x, x ∈ g.items a → x ∈ g.items b → a = b
  nodup : ∀ a, (g.items a).Nodup
  parent : ∀ m n a b x y c, g.Steps root m a → g.Steps root n b → x ∈ g.items a → y ∈ g.items b →
    g.next x = some c → g.next y = some c → x = y
  top : ∀ n a x, g.Steps root n a → x ∈ g.items a → g.next x ≠ some root

variable {k : ℕ} {a' : α}

theorem Forest.child_unique (hf : g.Forest root) (ha : g.Steps root m a) (hb : g.Steps root n b) (hac : g.Child a c)
    (hbc : g.Child b c) : a = b := by
  obtain ⟨x, hx, hxc⟩ := hac
  obtain ⟨y, hy, hyc⟩ := hbc
  obtain rfl := hf.parent m n a b x y c ha hb hx hy hxc hyc
  exact hf.owner a b x hx hy

/-- **One depth.** -/
theorem Forest.depth_unique (hf : g.Forest root) (h : g.Steps root m c) (h' : g.Steps root n c) : m = n := by
  induction h generalizing n with
  | refl =>
    cases h' with
    | refl => rfl
    | tail hb hchild =>
      obtain ⟨x, hx, hnext⟩ := hchild
      exact absurd hnext (hf.top _ _ x hb hx)
  | tail ha hchild ih =>
    cases h' with
    | refl =>
      obtain ⟨x, hx, hnext⟩ := hchild
      exact absurd hnext (hf.top _ _ x ha hx)
    | tail hb hchild' =>
      obtain rfl := hf.child_unique ha hb hchild hchild'
      rw [ih hb]

theorem Forest.ancestor_unique (hf : g.Forest root) (ha : g.Steps root m a) (ha' : g.Steps root n a')
    (h : g.Steps a k c) (h' : g.Steps a' k c) : a = a' := by
  induction k generalizing c with
  | zero =>
    cases h
    cases h'
    rfl
  | succ k ih =>
    cases h with
    | tail hb hchild =>
      cases h' with
      | tail hb' hchild' =>
        obtain rfl := hf.child_unique (ha.trans hb) (ha'.trans hb') hchild hchild'
        exact ih hb hb'

theorem Steps.exists_level (h : g.Steps a n b) {i : ℕ} (hi : i ≤ n) : ∃ c, g.Steps a i c := by
  induction h with
  | refl => exact ⟨a, (Nat.le_zero.mp hi) ▸ .refl⟩
  | @tail n b c hb hchild ih =>
    rcases Nat.lt_or_ge n i with hlt | hge
    · obtain rfl : i = n + 1 := by omega
      exact ⟨c, hb.tail hchild⟩
    · exact ih hge

/-- **A bound on the depth.** -/
theorem Forest.depth_lt [Fintype α] (hf : g.Forest root) (h : g.Steps root n b) : n < Fintype.card α := by
  choose level hlevel using fun i : Fin (n + 1) => h.exists_level (Nat.le_of_lt_succ i.2)
  have hinj : Function.Injective level := fun i j hij =>
    Fin.ext (hf.depth_unique (hlevel i) (hij ▸ hlevel j))
  have hcard := Fintype.card_le_of_injective level hinj
  rwa [Fintype.card_fin] at hcard

theorem Forest.not_under (hf : g.Forest root) (ha : g.Steps root m a) (hz : z ∈ g.items a) (hchild : g.Child a b)
    (hsteps : g.Steps b n c) : z ∉ g.items c := by
  intro hzc
  obtain rfl := hf.owner a c z hz hzc
  have := hf.depth_unique ha (ha.trans (hsteps.head hchild))
  omega

/-- **Two items of a node** have nothing in common below them. -/
theorem Forest.under_unique (hf : g.Forest root) (ha : g.Steps root m a) (hx : x ∈ g.items a) (hy : y ∈ g.items a)
    (hxz : g.Under x z) (hyz : g.Under y z) : x = y := by
  rcases hxz with rfl | ⟨b, i, d, hxb, hbd, hzd⟩
  · rcases hyz with rfl | ⟨c, j, e, hyc, hce, hze⟩
    · rfl
    · exact absurd hze (hf.not_under ha hx ⟨y, hy, hyc⟩ hce)
  · rcases hyz with rfl | ⟨c, j, e, hyc, hce, hze⟩
    · exact absurd hzd (hf.not_under ha hy ⟨x, hx, hxb⟩ hbd)
    · obtain rfl := hf.owner d e z hzd hze
      have hb : g.Steps root (m + 1) b := ha.tail ⟨x, hx, hxb⟩
      have hc : g.Steps root (m + 1) c := ha.tail ⟨y, hy, hyc⟩
      obtain rfl : i = j := by
        have := hf.depth_unique (hb.trans hbd) (hc.trans hce)
        omega
      obtain rfl := hf.ancestor_unique hb hc hbd hce
      exact hf.parent m m a a x y b ha ha hx hy hxb hyc

theorem under_of_mem_enter {l : List β} (h : g.enter (g.walk fuel) x = some l) (hz : z ∈ l) : g.Under x z := by
  rcases (mem_enter h).mp hz with rfl | ⟨b, l', hnext, hvisit, hz⟩
  · exact .inl rfl
  · obtain ⟨n, c, hsteps, hz⟩ := (mem_walk hvisit).mp hz
    exact .inr ⟨b, n, c, hnext, hsteps, hz⟩

theorem under_of_mem_collect (h : g.collect (g.walk fuel) xs = some log) (hz : z ∈ log) : ∃ x ∈ xs, g.Under x z := by
  obtain ⟨x, hx, hxz⟩ := (mem_collect h).mp hz
  refine ⟨x, hx, ?_⟩
  rcases hxz with rfl | ⟨b, l, hnext, hvisit, hz⟩
  · exact .inl rfl
  · obtain ⟨n, c, hsteps, hz⟩ := (mem_walk hvisit).mp hz
    exact .inr ⟨b, n, c, hnext, hsteps, hz⟩

theorem Forest.nodup_enter {l : List β} (hf : g.Forest root) (ha : g.Steps root m a) (hx : x ∈ g.items a)
    (hvisit : ∀ b l', g.next x = some b → g.walk fuel b = some l' → l'.Nodup)
    (h : g.enter (g.walk fuel) x = some l) : l.Nodup := by
  unfold enter at h
  cases hnext : g.next x with
  | none =>
    rw [hnext] at h
    cases h
    exact List.nodup_singleton x
  | some b =>
    rw [hnext] at h
    obtain ⟨l', hwalk, rfl⟩ := Option.map_eq_some_iff.mp h
    refine List.nodup_cons.mpr ⟨fun hmem => ?_, hvisit b l' hnext hwalk⟩
    obtain ⟨n, c, hsteps, hz⟩ := (mem_walk hwalk).mp hmem
    exact hf.not_under ha hx ⟨x, hx, hnext⟩ hsteps hz

theorem Forest.nodup_collect (hf : g.Forest root) (ha : g.Steps root m a)
    (hvisit : ∀ x ∈ g.items a, ∀ b l, g.next x = some b → g.walk fuel b = some l → l.Nodup)
    (hsub : xs ⊆ g.items a) (hnodup : xs.Nodup) (h : g.collect (g.walk fuel) xs = some log) : log.Nodup := by
  induction xs generalizing log with
  | nil =>
    cases h
    exact List.nodup_nil
  | cons x xs ih =>
    obtain ⟨l, l', hl, hl', rfl⟩ := collect_cons h
    have hx := hsub List.mem_cons_self
    have hxs : xs ⊆ g.items a := fun y hy => hsub (List.mem_cons_of_mem x hy)
    rw [List.nodup_cons] at hnodup
    refine (hf.nodup_enter ha hx (hvisit x hx) hl).append (ih hxs hnodup.2 hl') fun z hz hz' => ?_
    obtain ⟨y, hy, hyz⟩ := under_of_mem_collect hl' hz'
    obtain rfl := hf.under_unique ha hx (hxs hy) (under_of_mem_enter hl hz) hyz
    exact hnodup.1 hy

/-- **Nothing is met twice.** -/
theorem Forest.nodup_walk (hf : g.Forest root) (ha : g.Steps root m a) (h : g.walk fuel a = some log) :
    log.Nodup := by
  induction fuel generalizing a m log with
  | zero => cases h
  | succ fuel ih =>
    exact hf.nodup_collect ha (fun x hx b l hnext hvisit => ih (ha.tail ⟨x, hx, hnext⟩) hvisit) (List.Subset.refl _)
      (hf.nodup a) h

end Branching

end KLib
