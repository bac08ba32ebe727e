import BulbOS.Bio.Lru
import BulbOS.Table.Refine

/-!
# Table, list and cells of the buffer cache

* `BioInv`: the table, the list and the mutexes agree with the cells;
* **`bioEvict_spec`**, **`bioEvictLoop_spec`**: an eviction takes a buffer out of all three;
* `bioSet_spec`, `bioLock_spec`: a new buffer gets into the table, a buffer is locked.
-/

namespace BulbOS.Bio

open KLib BulbOS.Task BulbOS.Sem BulbOS.Table

theorem ok_bind {α β : Type} (a : α) (f : α → Except Stop β) : (Except.ok a >>= f) = f a := rfl

theorem eq_ok_of_bind {α β : Type} {x : Except Stop α} {f : α → Except Stop β} {b : β}
    (h : x >>= f = .ok b) : ∃ a, x = .ok a ∧ f a = .ok b := by
  cases x with
  | error e => cases h
  | ok a => exact ⟨a, rfl, h⟩

theorem update_congr {β : Type} (π : Cell → β) {c : ℕ → Cell} {p q : ℕ} {d : Cell} (h : π d = π (c p)) :
    π (Function.update c p d q) = π (c q) := by
  by_cases hq : q = p
  · subst hq
    rw [Function.update_self, h]
  · rw [Function.update_of_ne hq]

/-- The key of a buffer in the table. -/
def Cell.key (c : Cell) : UInt64 := bioKey (c.field .device) (c.field .block)

/-- The buffers, the table and the list: the buffers of `new` are referenced and not in the table yet. -/
structure Stored (s : BioState) (live new : Set ℕ) (c : ℕ → Cell) (l : List ℕ) (m : UInt64 → Option ℕ) :
    Prop where
  rep : Rep s.mem s.allocated live c
  table : TableInv s.table m
  cached : ∀ k p, m k = some p ↔ p ∈ live ∧ p ∉ new ∧ (c p).key = k
  lru : LruList s c l
  unref : ∀ p, p ∈ l ↔ p ∈ live ∧ (c p).field .refCount = 0
  fresh : ∀ p ∈ new, p ∈ live ∧ (c p).field .refCount ≠ 0

/-- The state of the cache inside a call: the buffers of `new` are not in the table yet, and those of
`taking` are referenced by the call that has yet to take their mutex. -/
structure BioInv (s : BioState) (live new taking : Set ℕ) (c : ℕ → Cell) (l : List ℕ)
    (m : UInt64 → Option ℕ) : Prop where
  rep : Rep s.mem s.allocated live c
  table : TableInv s.table m
  cached : ∀ k p, m k = some p ↔ p ∈ live ∧ p ∉ new ∧ (c p).key = k
  lru : LruList s c l
  unref : ∀ p, p ∈ l ↔ p ∈ live ∧ (c p).field .refCount = 0
  refs : ∀ p ∈ live, (c p).field .refCount ≤ 1
  fresh : ∀ p, p ∈ new ∨ p ∈ taking → p ∈ live ∧ (c p).field .refCount = 1
  free : ∀ p ∈ live, p ∈ taking → (c p).sem = mutexCreate
  sems : ∀ p ∈ live, p ∉ taking → (c p).sem = ⟨1, (c p).field .refCount, 0, 0⟩

/-- What the calls do not change of a buffer. -/
structure Kept (c c' : ℕ → Cell) (p : ℕ) : Prop where
  data : (c' p).data = (c p).data
  field : ∀ f, f ≠ .refCount → f ≠ .next → f ≠ .prev → (c' p).field f = (c p).field f

variable {s s' : BioState} {live new taking : Set ℕ} {c c' c'' : ℕ → Cell} {l l₁ l₂ : List ℕ}
  {m : UInt64 → Option ℕ} {p q : ℕ} {junk : Mem}

theorem Kept.trans (h : Kept c c' p) (h' : Kept c' c'' p) : Kept c c'' p :=
  ⟨h'.data.trans h.data, fun f h₁ h₂ h₃ => (h'.field f h₁ h₂ h₃).trans (h.field f h₁ h₂ h₃)⟩

theorem Kept.of_eq (h : Kept c c' p) (he : c'' p = c' p) : Kept c c'' p :=
  ⟨by rw [he]; exact h.data, by rw [he]; exact h.field⟩

theorem Kept.key (h : Kept c c' p) : (c' p).key = (c p).key := by
  unfold Cell.key
  rw [h.field .device (by decide) (by decide) (by decide), h.field .block (by decide) (by decide) (by decide)]

theorem SameButLinks.kept (h : SameButLinks s s' c c') (hp : p ≠ 0) : Kept c c' p :=
  ⟨h.data p, fun f _ h₂ h₃ => h.field p hp f h₂ h₃⟩

theorem SameButLinks.refCount (h : SameButLinks s s' c c') (hp : p ≠ 0) :
    (c' p).field .refCount = (c p).field .refCount :=
  h.field p hp .refCount (by decide) (by decide)

/-- Unreferenced buffers may have been evicted; the others are as they were. -/
structure Shrunk (s s' : BioState) (live live' : Set ℕ) (c c' : ℕ → Cell) : Prop where
  mutex : s'.mutex = s.mutex
  disk : s'.disk = s.disk
  sub : live' ⊆ live
  held : ∀ q ∈ live, (c q).field .refCount = 1 → q ∈ live'
  kept : ∀ q ∈ live', Kept c c' q ∧ (c' q).field .refCount = (c q).field .refCount

theorem Shrunk.trans {s'' : BioState} {live' live'' : Set ℕ} (h : Shrunk s s' live live' c c')
    (h' : Shrunk s' s'' live' live'' c' c'') : Shrunk s s'' live live'' c c'' := by
  refine ⟨h'.mutex.trans h.mutex, h'.disk.trans h.disk, h'.sub.trans h.sub, fun q hq hq₁ => ?_,
    fun q hq => ?_⟩
  · have := h.held q hq hq₁
    exact h'.held q this ((h.kept q this).2.trans hq₁)
  · obtain ⟨h₁, h₂⟩ := h'.kept q hq
    obtain ⟨h₃, h₄⟩ := h.kept q (h'.sub hq)
    exact ⟨h₃.trans h₁, h₂.trans h₄⟩

theorem BioInv.stored (h : BioInv s live new taking c l m) : Stored s live new c l m :=
  ⟨h.rep, h.table, h.cached, h.lru, h.unref, fun p hp => ⟨(h.fresh p (.inl hp)).1, by
    rw [(h.fresh p (.inl hp)).2]
    decide⟩⟩

theorem BioInv.ne_zero (h : BioInv s live new taking c l m) (hp : p ∈ live) : p ≠ 0 := h.rep.ne_zero hp

theorem BioInv.get (h : BioInv s live new taking c l m) (hp : p ∈ live) (f : Field) :
    s.get p f = (c p).field f := h.rep.field hp f

theorem BioInv.lru_live (h : BioInv s live new taking c l m) : ∀ x ∈ l, x ∈ live :=
  fun x hx => ((h.unref x).mp hx).1

theorem BioInv.not_new (h : BioInv s live new taking c l m) (hp : p ∈ l) : p ∉ new := by
  intro hn
  have h₀ := ((h.unref p).mp hp).2
  rw [(h.fresh p (.inl hn)).2] at h₀
  cases h₀

theorem BioInv.mem_table (h : BioInv s live new taking c l m) (hp : p ∈ live) (hn : p ∉ new) :
    m (c p).key = some p := (h.cached _ p).mpr ⟨hp, hn, rfl⟩

/-! ## The buffers, the table and the list -/

namespace Stored

variable (h : Stored s live new c l m)
include h

theorem get (hp : p ∈ live) (f : Field) : s.get p f = (c p).field f := h.rep.field hp f

theorem lru_live : ∀ x ∈ l, x ∈ live := fun x hx => ((h.unref x).mp hx).1

theorem not_new (hp : p ∈ l) : p ∉ new := fun hn => (h.fresh p hn).2 ((h.unref p).mp hp).2

theorem mem_table (hp : p ∈ live) (hn : p ∉ new) : m (c p).key = some p := (h.cached _ p).mpr ⟨hp, hn, rfl⟩

theorem change {l' : List ℕ} (hrep : Rep s'.mem s'.allocated live c') (ht : s'.table = s.table)
    (hl : LruList s' c' l') (hkey : ∀ q ∈ live, (c' q).key = (c q).key)
    (hunref : ∀ q, q ∈ l' ↔ q ∈ live ∧ (c' q).field .refCount = 0)
    (hfresh : ∀ q ∈ new, (c' q).field .refCount ≠ 0) : Stored s' live new c' l' m := by
  refine ⟨hrep, ht ▸ h.table, fun k q => ?_, hl, hunref, fun q hq => ⟨(h.fresh q hq).1, hfresh q hq⟩⟩
  rw [h.cached]
  refine and_congr_right fun hq => and_congr_right fun _ => ?_
  rw [hkey q hq]

end Stored

/-! ## Eviction -/

/-- The cache after its last buffer was taken out of the table and of the list, and freed. -/
theorem Stored.drop {t : HashTable UInt64 ℕ} (h : Stored s live new c (l ++ [p]) m)
    (ht : TableInv t (Function.update m (c p).key none)) (ht' : s'.table = t)
    (hrep : Rep s'.mem s'.allocated live c') (hl : LruList s' c' l)
    (hsame : ∀ q ∈ live, (c' q).field .refCount = (c q).field .refCount ∧ Kept c c' q) :
    Stored (bioFree junk s' p) (live \ {p}) new c' l (Function.update m (c p).key none) := by
  have hp : p ∈ l ++ [p] := List.mem_append_right _ List.mem_cons_self
  have hpl := h.lru_live p hp
  have hnd := h.lru.forth.nodup
  have hnot : p ∉ l := fun hl => List.disjoint_of_nodup_append hnd hl List.mem_cons_self
  refine ⟨hrep.free hpl, ?_, fun k q => ?_, hl, fun q => ?_, fun q hq => ?_⟩
  · change TableInv s'.table _
    rwa [ht']
  · by_cases hk : k = (c p).key
    · subst hk
      rw [Function.update_self]
      refine ⟨fun e => (by cases e), ?_⟩
      rintro ⟨⟨hq, hqp⟩, hqn, hqk⟩
      rw [(hsame q hq).2.key] at hqk
      have h₁ := (h.cached _ q).mpr ⟨hq, hqn, hqk⟩
      rw [h.mem_table hpl (h.not_new hp), Option.some.injEq] at h₁
      exact absurd h₁.symm hqp
    · rw [Function.update_of_ne hk, h.cached]
      constructor
      · rintro ⟨hq, hqn, rfl⟩
        refine ⟨⟨hq, ?_⟩, hqn, (hsame q hq).2.key⟩
        rintro rfl
        exact hk rfl
      · rintro ⟨⟨hq, _⟩, hqn, rfl⟩
        exact ⟨hq, hqn, (hsame q hq).2.key.symm⟩
  · constructor
    · intro hq
      obtain ⟨hql, hq₀⟩ := (h.unref q).mp (List.mem_append_left _ hq)
      refine ⟨⟨hql, ?_⟩, (hsame q hql).1.trans hq₀⟩
      rintro rfl
      exact hnot hq
    · rintro ⟨⟨hql, hqp⟩, hq₀⟩
      rw [(hsame q hql).1] at hq₀
      rcases List.mem_append.mp ((h.unref q).mpr ⟨hql, hq₀⟩) with hq | hq
      · exact hq
      · exact absurd (List.mem_singleton.mp hq) hqp
  · obtain ⟨hql, hq₁⟩ := h.fresh q hq
    refine ⟨⟨hql, ?_⟩, by rwa [(hsame q hql).1]⟩
    rintro rfl
    exact hq₁ ((h.unref q).mp hp).2

/-- **`bio_evict`** frees the last buffer of the list, unless it is alone there. -/
theorem Stored.evict (h : Stored s live new c (l ++ [p]) m) (junk : Mem) :
    l = [] ∧ bioEvict junk s = .error .notPartOfList ∨
      ∃ s' c', bioEvict junk s = .ok s' ∧ l ≠ [] ∧
        Stored s' (live \ {p}) new c' l (Function.update m (c p).key none) ∧
        s'.mutex = s.mutex ∧ s'.disk = s.disk ∧
        ∀ q ∈ live, (c' q).sem = (c q).sem ∧ (c' q).field .refCount = (c q).field .refCount ∧ Kept c c' q := by
  have hp : p ∈ l ++ [p] := List.mem_append_right _ List.mem_cons_self
  obtain ⟨hpl, hp₀⟩ := (h.unref p).mp hp
  have htail : s.ltail = p := by rw [h.lru.tail_eq, lastOr_concat]
  obtain ⟨t, hrem, ht⟩ := h.table.remove_mem (k := (c p).key) (by
    rw [h.mem_table hpl (h.not_new hp)]
    simp)
  have hkey : bioKey (s.get p .device) (s.get p .block) = (c p).key := by
    rw [h.get hpl, h.get hpl]
    rfl
  have hev : bioEvict junk s = (bioRemove { s with table := t } p).bind fun s => .ok (bioFree junk s p) := by
    rw [bioEvict, htail, if_neg (h.rep.ne_zero hpl), h.get hpl, if_neg (not_not.mpr hp₀)]
    dsimp only
    rw [hkey, hrem]
    rfl
  rw [hev]
  have hlru : LruList { s with table := t } c (l ++ p :: []) := h.lru
  have hspec := bioRemove_spec (s := { s with table := t }) h.rep hlru h.lru_live
  rw [List.append_nil] at hspec
  rcases hspec with ⟨hl, -, he⟩ | ⟨s', c', he, hrep, hl, hsame, _⟩
  · left
    rw [he]
    exact ⟨hl, rfl⟩
  · by_cases hnil : l = []
    · exfalso
      subst hnil
      have hone : LruList s c ([] ++ p :: []) := h.lru
      have h₁ : (c p).field .next = 0 := hone.next_eq
      have h₂ : (c p).field .prev = 0 := hone.prev_eq
      have : bioRemove { s with table := t } p = .error .notPartOfList := by
        rw [bioRemove, if_pos]
        exact ⟨(h.get hpl _).trans h₁, (h.get hpl _).trans h₂⟩
      rw [this] at he
      cases he
    · right
      rw [he]
      exact ⟨_, c', rfl, hnil, h.drop ht hsame.table hrep hl fun q hq =>
        ⟨hsame.refCount (h.rep.ne_zero hq), hsame.kept (h.rep.ne_zero hq)⟩, hsame.mutex, hsame.disk,
        fun q hq => ⟨hsame.sem q, hsame.refCount (h.rep.ne_zero hq), hsame.kept (h.rep.ne_zero hq)⟩⟩

theorem bioEvict_nil (h : BioInv s live new taking c [] m) : bioEvict junk s = .error .noFreeBufs := by
  have : s.ltail = 0 := h.lru.back
  rw [bioEvict, if_pos this]

theorem bioEvict_spec (h : BioInv s live new taking c (l ++ [p]) m) :
    l = [] ∧ bioEvict junk s = .error .notPartOfList ∨
      ∃ s' c', bioEvict junk s = .ok s' ∧ l ≠ [] ∧
        BioInv s' (live \ {p}) new taking c' l (Function.update m (c p).key none) ∧
        Shrunk s s' live (live \ {p}) c c' := by
  have hp : p ∈ l ++ [p] := List.mem_append_right _ List.mem_cons_self
  obtain ⟨-, hp₀⟩ := (h.unref p).mp hp
  rcases h.stored.evict junk with he | ⟨s', c', he, hnil, hst, hmut, hdisk, hsame⟩
  · exact .inl he
  have hnot : ∀ q, (c q).field .refCount = 1 → q ∉ ({p} : Set ℕ) := by
    rintro q hq₁ rfl
    rw [hp₀] at hq₁
    cases hq₁
  refine .inr ⟨s', c', he, hnil, ⟨hst.rep, hst.table, hst.cached, hst.lru, hst.unref, fun q hq => ?_,
    fun q hq => ?_, fun q hq hqt => ?_, fun q hq hqt => ?_⟩, hmut, hdisk, Set.sdiff_subset,
    fun q hq hq₁ => ⟨hq, hnot q hq₁⟩, fun q hq => ⟨(hsame q hq.1).2.2, (hsame q hq.1).2.1⟩⟩
  · rw [(hsame q hq.1).2.1]
    exact h.refs q hq.1
  · obtain ⟨hql, hq₁⟩ := h.fresh q hq
    exact ⟨⟨hql, hnot q hq₁⟩, (hsame q hql).2.1.trans hq₁⟩
  · rw [(hsame q hq.1).1]
    exact h.free q hq.1 hqt
  · rw [(hsame q hq.1).1, (hsame q hq.1).2.1]
    exact h.sems q hq.1 hqt

/-! ## The table -/

theorem overloaded_of_full {fresh : ℕ → ℕ → HashEntry UInt64 ℕ} {t t' : HashTable UInt64 ℕ} {k : UInt64}
    {v : Option ℕ} (h : htSet fresh t k v = some (-1, t')) : t.Overloaded := by
  by_contra hov
  rw [htSet, htSetDepth, if_neg hov] at h
  obtain ⟨_, _, he⟩ := Option.bind_eq_some_iff.mp h
  rw [Option.pure_def, Option.some.injEq, Prod.mk.injEq] at he
  exact absurd he.1 (by decide)

/-- **`ht_set` of the new buffer** stores it, or changes nothing. -/
theorem Stored.set {buf : ℕ} (h : Stored s live {buf} c l m) (hm : m (c buf).key = none) :
    s.table.Overloaded ∧ bioSet s (c buf).key buf = .ok (-1, s) ∨ ∃ s', bioSet s (c buf).key buf = .ok (0, s') ∧
      Stored s' live ∅ c l (Function.update m (c buf).key (some buf)) ∧
      s'.mutex = s.mutex ∧ s'.disk = s.disk ∧ s'.nullLink = s.nullLink := by
  unfold bioSet
  rcases h.table.set hm (fun _ _ => ⟨0, none, .empty⟩) buf with hfull | ⟨t, hok, ht⟩
  · left
    rw [hfull]
    exact ⟨overloaded_of_full hfull, rfl⟩
  · right
    rw [hok]
    refine ⟨_, rfl, ⟨h.rep, ht, fun k q => ?_, h.lru, h.unref, fun q hq => hq.elim⟩, rfl, rfl, rfl⟩
    by_cases hk : k = (c buf).key
    · subst hk
      rw [Function.update_self, Option.some.injEq]
      constructor
      · rintro rfl
        exact ⟨(h.fresh buf rfl).1, id, rfl⟩
      · rintro ⟨hq, _, hqk⟩
        by_contra hne
        have := (h.cached _ q).mpr ⟨hq, fun e => hne e.symm, hqk⟩
        rw [hm] at this
        cases this
    · rw [Function.update_of_ne hk, h.cached]
      constructor
      · rintro ⟨hq, _, hqk⟩
        exact ⟨hq, id, hqk⟩
      · rintro ⟨hq, _, rfl⟩
        refine ⟨hq, ?_, rfl⟩
        rintro rfl
        exact hk rfl

theorem bioSet_spec {buf : ℕ} (h : BioInv s live {buf} taking c l m) (hm : m (c buf).key = none) :
    s.table.Overloaded ∧ bioSet s (c buf).key buf = .ok (-1, s) ∨ ∃ s', bioSet s (c buf).key buf = .ok (0, s') ∧
      BioInv s' live ∅ taking c l (Function.update m (c buf).key (some buf)) ∧
      s'.mutex = s.mutex ∧ s'.disk = s.disk ∧ s'.nullLink = s.nullLink := by
  rcases h.stored.set hm with hfull | ⟨s', hok, hst, hsame⟩
  · exact .inl hfull
  · exact .inr ⟨s', hok, ⟨hst.rep, hst.table, hst.cached, hst.lru, hst.unref, h.refs,
      fun q hq => h.fresh q (.inr (hq.resolve_left id)), h.free, h.sems⟩, hsame⟩

variable (junk) in
/-- **The loop of `bio_get`** ends with the new buffer in the table, or with the abort of a
`bio_evict`. -/
theorem bioEvictLoop_spec {buf fuel : ℕ} (h : BioInv s live {buf} taking c l m)
    (hm : m (c buf).key = none) (hfuel : l.length ≤ fuel) (hpos : 0 < fuel) :
    (bioEvictLoop junk (c buf).key buf fuel s = .error .notPartOfList ∨
      bioEvictLoop junk (c buf).key buf fuel s = .error .noFreeBufs) ∨
      ∃ s' live' c' l' m', bioEvictLoop junk (c buf).key buf fuel s = .ok (0, s') ∧
        BioInv s' live' ∅ taking c' l' m' ∧ Shrunk s s' live live' c c' := by
  induction l using List.reverseRecOn generalizing s live c m fuel with
  | nil =>
    obtain ⟨fuel, rfl⟩ := Nat.exists_eq_succ_of_ne_zero hpos.ne'
    refine .inl (.inr ?_)
    rw [bioEvictLoop, bioEvict_nil h]
    rfl
  | append_singleton l p ih =>
    obtain ⟨fuel, rfl⟩ := Nat.exists_eq_succ_of_ne_zero hpos.ne'
    rw [List.length_append, List.length_singleton] at hfuel
    rw [bioEvictLoop]
    rcases bioEvict_spec h with ⟨-, he⟩ | ⟨s₁, c₁, he, hl, h₁, hsh⟩
    · refine .inl (.inl ?_)
      rw [he]
      rfl
    have hbuf : buf ∈ live \ {p} := (h₁.fresh buf (.inl rfl)).1
    have hkey : (c₁ buf).key = (c buf).key := (hsh.kept buf hbuf).1.key
    have hm₁ : Function.update m (c p).key none (c₁ buf).key = none := by
      rw [hkey]
      by_cases e : (c buf).key = (c p).key
      · rw [e, Function.update_self]
      · rw [Function.update_of_ne e, hm]
    have htail : s₁.ltail ≠ 0 := by
      rw [h₁.lru.tail_eq]
      rcases List.eq_nil_or_concat l with rfl | ⟨l', y, rfl⟩
      · exact absurd rfl hl
      · rw [List.concat_eq_append, lastOr_concat]
        exact h₁.lru.ne_null (by simp)
    have hlen : 0 < l.length := List.length_pos_of_ne_nil hl
    rw [he, ok_bind]
    rcases bioSet_spec h₁ hm₁ with ⟨-, hs⟩ | ⟨s₂, hs, h₂, hmut, hdisk, _⟩
    · rw [← hkey, hs, ok_bind]
      dsimp only
      rw [if_pos ⟨by decide, htail⟩]
      rcases ih h₁ hm₁ (show l.length ≤ fuel by omega) (by omega) with herr | ⟨s', live', c', l', m', hok, h', hsh'⟩
      · exact .inl herr
      · exact .inr ⟨s', live', c', l', m', hok, h', hsh.trans hsh'⟩
    · rw [← hkey, hs, ok_bind]
      dsimp only
      rw [if_neg fun e => e.1 rfl]
      exact .inr ⟨s₂, _, c₁, l, _, rfl, h₂, ⟨hmut.trans hsh.mutex, hdisk.trans hsh.disk, hsh.sub,
        hsh.held, hsh.kept⟩⟩

/-- There are no more buffers in the list than entries in the table. -/
theorem Stored.length_le (h : Stored s live new c l m) : l.length ≤ s.table.capacity := by
  have hsub : l.toFinset ⊆ (Finset.range s.table.capacity).image
      fun i => (s.table.entries i).value.getD 0 := by
    intro p hp
    rw [List.mem_toFinset] at hp
    obtain ⟨i, hi, _, hv⟩ := (h.table.stored _ p).mp (h.mem_table (h.lru_live p hp) (h.not_new hp))
    exact Finset.mem_image.mpr ⟨i, Finset.mem_range.mpr hi, by rw [hv]; rfl⟩
  rw [← List.toFinset_card_of_nodup h.lru.forth.nodup]
  exact (Finset.card_le_card hsub).trans (Finset.card_image_le.trans (Finset.card_range _).le)

/-! ## Mutexes -/

/-- `bio_head.mutex` while a call holds it. -/
def headTaken : Semaphore := ⟨1, 1, 0, 0⟩

theorem onHead_acquire (h : s.mutex = mutexCreate) : s.onHead acquire = .ok { s with mutex := headTaken } := by
  rw [BioState.onHead, h]
  rfl

theorem onHead_release (h : s.mutex = headTaken) : s.onHead release = .ok { s with mutex := mutexCreate } := by
  rw [BioState.onHead, h]
  rfl

theorem onMutex_ok {mutex : ℕ} {sem sem' : Semaphore} {f : Semaphore → Option Semaphore}
    (hsem : semAt s.mem mutex = sem) (hf : f sem = some sem') :
    s.onMutex mutex f = .ok { s with mem := store32 s.mem (mutex + 4) sem'.currentCount } := by
  rw [BioState.onMutex, hsem, hf]

theorem onMutex_blocked {mutex : ℕ} {sem : Semaphore} {f : Semaphore → Option Semaphore}
    (hsem : semAt s.mem mutex = sem) (hf : f sem = none) : s.onMutex mutex f = .error .blocked := by
  rw [BioState.onMutex, hsem, hf]

/-- A change of cells that the table, the list and the mutexes do not see. -/
theorem BioInv.of_same (h : BioInv s live new taking c l m) (hrep : Rep s'.mem s'.allocated live c')
    (ht : s'.table = s.table) (hh : s'.lhead = s.lhead) (htl : s'.ltail = s.ltail)
    (hf : ∀ q f, f ≠ .valid → (c' q).field f = (c q).field f) (hsem : ∀ q, (c' q).sem = (c q).sem) :
    BioInv s' live new taking c' l m := by
  have hkey : ∀ q, (c' q).key = (c q).key := fun q => by
    unfold Cell.key
    rw [hf q .device (by decide), hf q .block (by decide)]
  have href : ∀ q, (c' q).field .refCount = (c q).field .refCount := fun q => hf q _ (by decide)
  refine ⟨hrep, ht ▸ h.table, fun k q => ?_, ?_, fun q => ?_, fun q hq => ?_, fun q hq => ?_,
    fun q hq hqt => ?_, fun q hq hqt => ?_⟩
  · rw [hkey]
    exact h.cached k q
  · unfold LruList
    rw [hh, htl, funext fun x => hf x .next (by decide), funext fun x => hf x .prev (by decide)]
    exact h.lru
  · rw [href]
    exact h.unref q
  · rw [href]
    exact h.refs q hq
  · rw [href]
    exact h.fresh q hq
  · rw [hsem]
    exact h.free q hq hqt
  · rw [hsem, href]
    exact h.sems q hq hqt

theorem bioLock_eq (hrep : Rep s.mem s.allocated live c) (hp : p ∈ live) (hsem : (c p).sem = mutexCreate)
    (hmx : s.mutex = headTaken) : bioLock s p =
      .ok (p, { s with mutex := mutexCreate, mem := store32 s.mem ((c p).field .mutex + 4) 1 }) := by
  have hget : s.get p .mutex = (c p).field .mutex := hrep.field hp _
  rw [bioLock, onHead_release hmx, ok_bind]
  change ((BioState.onMutex _ (s.get p .mutex) acquire) >>= fun s => pure (p, s)) = _
  rw [hget, onMutex_ok (s := { s with mutex := mutexCreate }) ((hrep.sem hp).trans hsem)
    (show acquire mutexCreate = some headTaken from rfl)]
  rfl

/-- **The end of `bio_get`** takes the mutex of the buffer. -/
theorem bioLock_spec (h : BioInv s live ∅ {p} c l m) (hmx : s.mutex = headTaken) :
    ∃ s' c', bioLock s p = .ok (p, s') ∧ BioInv s' live ∅ ∅ c' l m ∧ s'.mutex = mutexCreate ∧
      s'.disk = s.disk ∧ s'.nullLink = s.nullLink ∧
      ∀ q, Kept c c' q ∧ (c' q).field .refCount = (c q).field .refCount := by
  obtain ⟨hp, hp₁⟩ := h.fresh p (.inr rfl)
  have hsem := h.free p hp rfl
  have hlock := bioLock_eq h.rep hp hsem hmx
  let s' : BioState := { s with
    mutex := mutexCreate
    mem := store32 s.mem ((c p).field .mutex + 4) 1 }
  let c' := Function.update c p { c p with sem := { (c p).sem with currentCount := 1 } }
  have hrep : Rep s'.mem s'.allocated live c' := h.rep.setCount hp (by decide)
  have hfield : ∀ q, (c' q).field = (c q).field := fun q => update_congr Cell.field rfl
  have hdata : ∀ q, (c' q).data = (c q).data := fun q => update_congr Cell.data rfl
  have hkey : ∀ q, (c' q).key = (c q).key := fun q => by rw [Cell.key, hfield]; rfl
  refine ⟨s', c', hlock, ⟨hrep, h.table, fun k q => ?_, ?_, fun q => ?_, fun q hq => ?_, fun q hq => ?_,
    fun q _ hqt => hqt.elim, fun q hq _ => ?_⟩, rfl, rfl, rfl, fun q => ⟨⟨hdata q, ?_⟩, ?_⟩⟩
  · rw [hkey]
    exact h.cached k q
  · unfold LruList
    simp only [hfield]
    exact h.lru
  · rw [hfield]
    exact h.unref q
  · rw [hfield]
    exact h.refs q hq
  · exact hq.elim False.elim False.elim
  · by_cases hqp : q = p
    · subst hqp
      rw [hfield, hp₁]
      simp only [c', Function.update_self, hsem]
      rfl
    · rw [hfield]
      change (Function.update c p _ q).sem = _
      rw [Function.update_of_ne hqp]
      exact h.sems q hq hqp
  · rw [hfield]
    exact fun _ _ _ _ => rfl
  · rw [hfield]

end BulbOS.Bio
