import BulbOS.Bio.Tasks
import BulbOS.Table.Duplicates

/-!
# Room for a new buffer

The load check of `ht_set` counts tombstones, and `ht_remove` leaves one unless the next entry is empty. An eviction
makes room only in the second case; until then the loop of `bio_get` goes on, and it aborts at the last buffer of the
list, which `bio_remove` takes for one outside it.

* `Frees`: a key whose removal makes room; `TableInv.remove_room`, `TableInv.remove_tombs`;
* **`Stored.evictLoop`**: what the loop evicts, and when it aborts;
* **`makes_room_iff`**: the states, over all runs of any number of tasks, in which a free buffer is enough;
* `one_free_buffer_aborts`: the table is full, one buffer is free, and `bio_read` aborts.
-/

namespace BulbOS.Bio

open KLib BulbOS.Task BulbOS.Sem BulbOS.Table

/-! ## The table -/

section Table

variable {t t' : HashTable UInt64 ℕ} {m : UInt64 → Option ℕ} {k : UInt64}

/-- The entry after the one of the key is empty. -/
def Frees (t : HashTable UInt64 ℕ) (k : UInt64) : Prop :=
  ∃ j < (t.capacity : ℕ), t.slots j = .used k ∧ t.slots ((j + 1) % t.capacity) = .empty

instance (t : HashTable UInt64 ℕ) (k : UInt64) : Decidable (Frees t k) :=
  inferInstanceAs (Decidable (∃ j, j < (t.capacity : ℕ) ∧ _))

/-- `ht_remove` of one key after the other. -/
def removeKeys (t : HashTable UInt64 ℕ) (ks : List UInt64) : Option (HashTable UInt64 ℕ) :=
  ks.foldlM (fun t k => (htRemove t k).map Prod.snd) t

/-- **`ht_remove` makes room** when the next entry is empty; else it leaves a tombstone, which changes nothing for
the other keys. -/
theorem remove_room (h : TableInv t m) (hk : m k ≠ none) (hrem : htRemove t k = some (0, t')) :
    (Frees t k → ¬ t'.Overloaded) ∧ (¬ Frees t k → (t.Overloaded → t'.Overloaded) ∧
      ∀ k', k' ≠ k → (Frees t' k' ↔ Frees t k')) := by
  obtain ⟨t₁, hrem₁, h'⟩ := h.remove_mem hk
  rw [hrem, Option.some.injEq, Prod.mk.injEq] at hrem₁
  rw [← hrem₁.2] at h'
  rcases htRemove_slots hrem with ⟨-, -, hget⟩ | ⟨j, hj, hused, entries, n, rfl, hcases⟩
  · rw [h.get, Option.some.injEq] at hget
    exact absurd hget hk
  refine ⟨fun ⟨i, hi, hu, hempty⟩ => ?_, fun hnot => ?_⟩
  · rw [h.probing.unique i hi j hj k hu hused] at hempty
    rcases hcases with ⟨-, -, hn⟩ | ⟨hnext, -⟩
    · have hpos := occupied_clear hj (hused ▸ Slot.used_ne_empty k : t.slots j ≠ .empty)
      rw [← h.size_eq] at hpos
      have hlt := h.size_lt
      have hcap := t.capacity.2.2
      have hfit := h.fit
      rw [sub32_of_le (by omega) (by omega)] at hn
      rw [h'.overloaded_iff]
      change ¬ (t.capacity : ℕ) * t.maxLoad < n * 100
      omega
    · exact absurd hempty hnext
  · rcases hcases with ⟨hnext, -⟩ | ⟨-, hslots, hn⟩
    · exact absurd ⟨j, hj, hused, hnext⟩ hnot
    refine ⟨fun hov => ?_, fun k' hk' => exists_congr fun i => and_congr_right fun hi => ?_⟩
    · rw [h'.overloaded_iff]
      change (t.capacity : ℕ) * t.maxLoad < n * 100
      rw [hn]
      exact h.overloaded_iff.mp hov
    · have hempty : ∀ i, (slotOf ∘ entries) i = .empty ↔ t.slots i = .empty := fun i => by
        rw [hslots]
        by_cases hij : i = j
        · rw [hij, Function.update_self, hused]
          exact iff_of_false Slot.dead_ne_empty (Slot.used_ne_empty k)
        · rw [Function.update_of_ne hij]
      refine and_congr ?_ (hempty _)
      change (slotOf ∘ entries) i = .used k' ↔ t.slots i = .used k'
      rw [hslots]
      by_cases hij : i = j
      · rw [hij, Function.update_self, hused]
        exact iff_of_false (Slot.used_ne_dead k').symm fun e => hk' (Slot.used.inj e).symm
      · rw [Function.update_of_ne hij]

theorem remove_tombs {ks : List UInt64} (h : TableInv t m) (hov : t.Overloaded) (hnd : ks.Nodup)
    (hks : ∀ k ∈ ks, m k ≠ none ∧ ¬ Frees t k) : ∃ t' m', removeKeys t ks = some t' ∧ TableInv t' m' ∧
      t'.Overloaded ∧ ∀ k ∉ ks, m' k = m k ∧ (Frees t' k ↔ Frees t k) := by
  induction ks generalizing t m with
  | nil => exact ⟨t, m, rfl, h, hov, fun k _ => ⟨rfl, Iff.rfl⟩⟩
  | cons k ks ih =>
    obtain ⟨hk, hnot⟩ := hks k List.mem_cons_self
    obtain ⟨hkks, hnd⟩ := List.nodup_cons.mp hnd
    obtain ⟨t₁, hrem, h₁⟩ := h.remove_mem hk
    obtain ⟨hov₁, hfrees⟩ := (remove_room h hk hrem).2 hnot
    obtain ⟨t', m', hrest, h', hov', hsame⟩ := ih h₁ (hov₁ hov) hnd fun k' hk' => by
      have hne : k' ≠ k := fun e => hkks (e ▸ hk')
      rw [Function.update_of_ne hne, hfrees k' hne]
      exact hks k' (List.mem_cons_of_mem _ hk')
    refine ⟨t', m', ?_, h', hov', fun k' hk' => ?_⟩
    · rw [removeKeys, List.foldlM_cons, hrem]
      exact hrest
    · obtain ⟨hne, hk'⟩ := not_or.mp (mt List.mem_cons.mpr hk')
      obtain ⟨hm, hf⟩ := hsame k' hk'
      exact ⟨hm.trans (Function.update_of_ne hne ..), hf.trans (hfrees k' hne)⟩

end Table

/-! ## The loop -/

variable {s s' : BioState} {live new : Set ℕ} {c c' : ℕ → Cell} {l : List ℕ} {m : UInt64 → Option ℕ} {p : ℕ}

theorem bioRemove_table (h : bioRemove s p = .ok s') : s'.table = s.table := by
  unfold bioRemove at h
  split_ifs at h
  obtain rfl := Except.ok.inj h
  unfold unlinkMiddle unlinkTail unlinkHead
  split_ifs <;> rfl

theorem bioEvict_table {junk : Mem} (h : bioEvict junk s = .ok s') :
    htRemove s.table (bioKey (s.get s.ltail .device) (s.get s.ltail .block)) = some (0, s'.table) := by
  unfold bioEvict at h
  split_ifs at h
  dsimp only at h
  split at h
  · cases h
  next ret t hrem =>
    split_ifs at h with hret
    obtain ⟨s₁, hs₁, hs'⟩ := eq_ok_of_bind h
    obtain rfl := Except.ok.inj hs'
    rw [hrem, not_not.mp hret, show (bioFree junk s₁ s.ltail).table = s₁.table from rfl, bioRemove_table hs₁]

theorem Stored.evict_table {junk : Mem} (h : Stored s live new c (l ++ [p]) m) (he : bioEvict junk s = .ok s') :
    htRemove s.table (c p).key = some (0, s'.table) := by
  have hrem := bioEvict_table he
  rwa [h.lru.tail_eq, lastOr_concat, h.get (h.lru_live p (List.mem_append_right _ List.mem_cons_self)),
    h.get (h.lru_live p (List.mem_append_right _ List.mem_cons_self))] at hrem

theorem bioSet_full (h : TableInv s.table m) (hov : s.table.Overloaded) (k : UInt64) (p : ℕ) :
    bioSet s k p = .ok (-1, s) := by
  rw [bioSet, htSet, htSetDepth, if_pos hov, h.fixed]
  rfl

theorem Stored.key_inj {q : ℕ} (h : Stored s live new c l m) (hp : p ∈ l) (hq : q ∈ l)
    (he : (c p).key = (c q).key) : p = q := by
  have h₁ := h.mem_table (h.lru_live p hp) (h.not_new hp)
  rw [he, h.mem_table (h.lru_live q hq) (h.not_new hq)] at h₁
  exact (Option.some.inj h₁).symm

theorem diff_concat (live : Set ℕ) (l : List ℕ) (p : ℕ) :
    (live \ {p}) \ {q | q ∈ l} = live \ {q | q ∈ l ++ [p]} := by
  ext q
  simp only [Set.mem_sdiff, Set.mem_ofPred_eq, List.mem_append, List.mem_singleton, Set.mem_singleton_iff]
  tauto

/-- **The loop of `bio_get`** evicts from the end of the list up to the first buffer whose removal makes room, if that
is not the head; else it aborts. -/
theorem Stored.evictLoop {buf fuel : ℕ} (junk : Mem) (h : Stored s live {buf} c l m) (hm : m (c buf).key = none)
    (hov : s.table.Overloaded) (hfuel : l.length ≤ fuel) (hpos : 0 < fuel) :
    ((∀ p ∈ l.tail, ¬ Frees s.table (c p).key) ∧ ∃ e, bioEvictLoop junk (c buf).key buf fuel s = .error e) ∨
      ∃ l₁ p l₂ s' c' m', l = l₁ ++ p :: l₂ ∧ l₁ ≠ [] ∧ Frees s.table (c p).key ∧
        (∀ q ∈ l₂, ¬ Frees s.table (c q).key) ∧ bioEvictLoop junk (c buf).key buf fuel s = .ok (0, s') ∧
        Stored s' (live \ {q | q ∈ p :: l₂}) ∅ c' l₁ m' ∧ s'.mutex = s.mutex ∧ (c' buf).sem = (c buf).sem ∧
          (c' buf).key = (c buf).key := by
  induction l using List.reverseRecOn generalizing s live c m fuel with
  | nil =>
    obtain ⟨fuel, rfl⟩ := Nat.exists_eq_succ_of_ne_zero hpos.ne'
    refine .inl ⟨fun p hp => (by cases hp), .noFreeBufs, ?_⟩
    rw [bioEvictLoop, bioEvict, if_pos (show s.ltail = 0 from h.lru.back)]
    rfl
  | append_singleton l p ih =>
    obtain ⟨fuel, rfl⟩ := Nat.exists_eq_succ_of_ne_zero hpos.ne'
    rw [List.length_append, List.length_singleton] at hfuel
    rw [bioEvictLoop]
    rcases h.evict junk with ⟨rfl, he⟩ | ⟨s₁, c₁, he, hl, h₁, hmut, -, hsame⟩
    · refine .inl ⟨fun p hp => (by cases hp), .notPartOfList, ?_⟩
      rw [he]
      rfl
    have hmem : p ∈ l ++ [p] := List.mem_append_right _ List.mem_cons_self
    have hpl := h.lru_live p hmem
    have hmp : m (c p).key ≠ none := by
      rw [h.mem_table hpl (h.not_new hmem)]
      exact Option.some_ne_none p
    obtain ⟨hroom, htomb⟩ := remove_room h.table hmp (h.evict_table he)
    have hbuf := (h.fresh buf rfl).1
    have hkey : (c₁ buf).key = (c buf).key := (hsame buf hbuf).2.2.key
    have hm₁ : Function.update m (c p).key none (c₁ buf).key = none := by
      rw [hkey]
      by_cases e : (c buf).key = (c p).key
      · rw [e, Function.update_self]
      · rw [Function.update_of_ne e, hm]
    rw [he, ok_bind]
    by_cases hfrees : Frees s.table (c p).key
    · rcases h₁.set hm₁ with ⟨hov₁, -⟩ | ⟨s₂, hs, h₂, hmut₂, -⟩
      · exact absurd hov₁ (hroom hfrees)
      rw [← hkey, hs, ok_bind]
      dsimp only
      rw [if_neg fun e => e.1 rfl]
      have hset : live \ {p} = live \ {q | q ∈ [p]} := by
        simp only [List.mem_singleton, Set.ofPred_eq_eq_singleton]
      rw [hset] at h₂
      exact .inr ⟨l, p, [], s₂, c₁, _, rfl, hl, hfrees, fun q hq => (by cases hq), rfl, h₂, hmut₂.trans hmut,
        (hsame buf hbuf).1, rfl⟩
    · obtain ⟨hov₁, hother⟩ := htomb hfrees
      have hlen : 0 < l.length := List.length_pos_of_ne_nil hl
      have htail : s₁.ltail ≠ 0 := by
        rw [h₁.lru.tail_eq]
        obtain ⟨l', y, rfl⟩ := (List.eq_nil_or_concat l).resolve_left hl
        rw [List.concat_eq_append, lastOr_concat]
        exact h₁.lru.ne_null (by simp)
      have hsameFrees : ∀ q ∈ l, Frees s₁.table (c₁ q).key ↔ Frees s.table (c q).key := fun q hq => by
        have hqm : q ∈ l ++ [p] := List.mem_append_left _ hq
        rw [(hsame q (h.lru_live q hqm)).2.2.key]
        refine hother _ fun e => ?_
        rw [h.key_inj hqm hmem e] at hq
        exact List.disjoint_of_nodup_append h.lru.forth.nodup hq List.mem_cons_self
      rw [← hkey, bioSet_full h₁.table (hov₁ hov), ok_bind]
      dsimp only
      rw [if_pos ⟨by decide, htail⟩]
      rcases ih h₁ hm₁ (hov₁ hov) (show l.length ≤ fuel by omega) (by omega) with ⟨hnone, herr⟩ |
        ⟨l₁, p', l₂, s', c', m', rfl, hl₁, hp', hl₂, hok, h', hmut', hsem', hkey'⟩
      · refine .inl ⟨fun q hq => ?_, herr⟩
        rw [List.tail_append_of_ne_nil hl] at hq
        rcases List.mem_append.mp hq with hq | hq
        · exact fun hf => hnone q hq ((hsameFrees q (List.mem_of_mem_tail hq)).mpr hf)
        · rwa [List.mem_singleton.mp hq]
      · refine .inr ⟨l₁, p', l₂ ++ [p], s', c', m', by simp, hl₁,
          (hsameFrees p' (List.mem_append_right _ List.mem_cons_self)).mp hp', fun q hq => ?_, hok, ?_,
          hmut'.trans hmut, hsem'.trans (hsame buf hbuf).1, hkey'⟩
        · rcases List.mem_append.mp hq with hq | hq
          · exact fun hf => hl₂ q hq ((hsameFrees q (List.mem_append_right _ (List.mem_cons_of_mem _ hq))).mpr hf)
          · rwa [List.mem_singleton.mp hq]
        · rwa [← List.cons_append, ← diff_concat]

/-! ## `bio_read` of a block that is not cached -/

/-- The key of a buffer in the table. -/
def BioState.keyOf (s : BioState) (buf : ℕ) : UInt64 := bioKey (s.get buf .device) (s.get buf .block)

/-- The buffer is in the table. -/
def Cached (s : BioState) (buf : ℕ) : Prop := ∃ key, htGet s.table key = some (some buf)

/-- A new key fits after the first `n` buffers of `order` are taken out of the table. -/
def Room (s : BioState) (order : List ℕ) (n : ℕ) : Prop :=
  ∃ t, removeKeys s.table ((order.take n).map s.keyOf) = some t ∧ ¬ t.Overloaded

/-- `bio_read` returns the new buffer, cached for the block, and has evicted from the end of the list `l` the fewest
buffers that make room. -/
def MakesRoom (h : Heap) (s : BioState) (device block size : ℕ) (l : List ℕ) : Prop :=
  ∃ s' n, bioRead h s device block size = .ok (h.buf, s') ∧
    htGet s'.table (bioKey device block) = some (some h.buf) ∧
    (∀ p, Cached s' p ↔ p = h.buf ∨ Cached s p ∧ p ∉ l.reverse.take n) ∧
    Room s l.reverse n ∧ ∀ i < n, ¬ Room s l.reverse i

theorem Stored.cached_iff (h : Stored s live ∅ c l m) : Cached s p ↔ p ∈ live := by
  constructor
  · rintro ⟨key, hget⟩
    rw [h.table.get, Option.some.injEq] at hget
    exact ((h.cached key p).mp hget).1
  · intro hp
    exact ⟨(c p).key, by rw [h.table.get, h.mem_table hp id]⟩

theorem Stored.keyOf (h : Stored s live new c l m) (hp : p ∈ live) : s.keyOf p = (c p).key := by
  rw [BioState.keyOf, h.get hp, h.get hp]
  rfl

theorem take_reverse (l₁ l₂ : List ℕ) (p : ℕ) :
    (l₁ ++ p :: l₂).reverse.take (l₂.length + 1) = (p :: l₂).reverse := by
  rw [List.reverse_append]
  exact List.take_left' (by rw [List.length_reverse, List.length_cons])

/-- **The fewest evictions that make room** are those up to the first buffer, from the end, whose removal does. -/
theorem Stored.room {l₁ l₂ : List ℕ} (h : Stored s live ∅ c (l₁ ++ p :: l₂) m) (hov : s.table.Overloaded)
    (hp : Frees s.table (c p).key) (hl₂ : ∀ q ∈ l₂, ¬ Frees s.table (c q).key) :
    Room s (l₁ ++ p :: l₂).reverse (l₂.length + 1) ∧ ∀ i < l₂.length + 1, ¬ Room s (l₁ ++ p :: l₂).reverse i := by
  have hpmem : p ∈ l₁ ++ p :: l₂ := List.mem_append_right _ List.mem_cons_self
  have hmem : ∀ q ∈ l₂, q ∈ l₁ ++ p :: l₂ := fun q hq => List.mem_append_right _ (List.mem_cons_of_mem _ hq)
  have hrev : (l₁ ++ p :: l₂).reverse = l₂.reverse ++ p :: l₁.reverse := by
    rw [List.reverse_append, List.reverse_cons, List.append_assoc]
    rfl
  have hnd : (p :: l₂).Nodup := h.lru.forth.nodup.of_append_right
  -- a part of the buffers after `p` leaves tombstones only
  have htombs : ∀ l₃ : List ℕ, l₃.Sublist l₂.reverse → ∃ t m', removeKeys s.table (l₃.map s.keyOf) = some t ∧
      TableInv t m' ∧ t.Overloaded ∧ ∀ k ∉ l₃.map s.keyOf, m' k = m k ∧ (Frees t k ↔ Frees s.table k) := by
    intro l₃ hsub
    have hin : ∀ q ∈ l₃, q ∈ l₂ := fun q hq => List.mem_reverse.mp (hsub.subset hq)
    refine remove_tombs h.table hov ?_ fun k hk => ?_
    · refine List.Nodup.map_on (fun x hx y hy e => ?_) (hsub.nodup (List.nodup_reverse.mpr (List.nodup_cons.mp hnd).2))
      have hx := hmem x (hin x hx)
      have hy := hmem y (hin y hy)
      rw [h.keyOf (h.lru_live x hx), h.keyOf (h.lru_live y hy)] at e
      exact h.key_inj hx hy e
    · obtain ⟨q, hq, rfl⟩ := List.mem_map.mp hk
      have hlive := h.lru_live q (hmem q (hin q hq))
      rw [h.keyOf hlive, h.mem_table hlive id]
      exact ⟨Option.some_ne_none q, hl₂ q (hin q hq)⟩
  refine ⟨?_, fun i hi hroom => ?_⟩
  · obtain ⟨t, m', hrem, ht, hovt, hsame⟩ := htombs _ (List.Sublist.refl _)
    have hnot : (c p).key ∉ l₂.reverse.map s.keyOf := by
      rintro hmap
      obtain ⟨q, hq, he⟩ := List.mem_map.mp hmap
      have hq := List.mem_reverse.mp hq
      rw [h.keyOf (h.lru_live q (hmem q hq))] at he
      rw [h.key_inj (hmem q hq) hpmem he] at hq
      exact (List.nodup_cons.mp hnd).1 hq
    obtain ⟨hm', hfrees⟩ := hsame _ hnot
    have hk : m' (c p).key ≠ none := by
      rw [hm', h.mem_table (h.lru_live p hpmem) id]
      exact Option.some_ne_none p
    obtain ⟨t', hrem', -⟩ := ht.remove_mem hk
    refine ⟨t', ?_, (remove_room ht hk hrem').1 (hfrees.mpr hp)⟩
    rw [take_reverse, List.reverse_cons, List.map_append, removeKeys, List.foldlM_append]
    rw [removeKeys] at hrem
    rw [hrem]
    change (htRemove t (s.keyOf p)).map Prod.snd >>= _ = _
    rw [h.keyOf (h.lru_live p hpmem), hrem']
    rfl
  · obtain ⟨t, hrem, hfree⟩ := hroom
    rw [hrev, List.take_append_of_le_length (by rw [List.length_reverse]; omega)] at hrem
    obtain ⟨t', m', hrem', -, hovt, -⟩ := htombs _ (List.take_sublist i _)
    rw [hrem, Option.some.injEq] at hrem'
    exact hfree (hrem' ▸ hovt)

section Read

variable {hp : Heap} {device block size : ℕ}

/-- `bio_read` when the block is not cached and the table is full. -/
theorem bioRead_full (hp : Heap) (size : ℕ) (h : Stored s live ∅ c l m) (hmx : s.mutex = mutexCreate)
    (hov : s.table.Overloaded)
    (hm : m (bioKey device block) = none) : bioRead hp s device block size =
      (bioEvictLoop hp.junk (bioKey device block) hp.buf s.table.capacity
        (bioAlloc { s with mutex := headTaken } hp device block size) >>= fun r =>
          if r.1 = 0 then bioLock r.2 hp.buf else .error .noFreeBuffer) >>= fun r =>
        .ok (r.1, bioFill r.2 r.1 device block size) := by
  rw [bioRead, bioGet, onHead_acquire hmx, ok_bind]
  dsimp only
  rw [h.table.get, hm]
  dsimp only
  rw [bioGetMiss]
  dsimp only
  rw [bioSet_full (s := bioAlloc { s with mutex := headTaken } hp device block size) h.table hov, ok_bind]
  rfl

theorem bioFill_table (s : BioState) (buf : ℕ) : (bioFill s buf device block size).table = s.table := by
  unfold bioFill
  split_ifs <;> rfl

/-- **`bio_read` makes room** when a buffer after the head of the list can be removed without a tombstone. -/
theorem Stored.makesRoom_iff (h : Stored s live ∅ c l m) (hmx : s.mutex = mutexCreate) (hov : s.table.Overloaded)
    (hm : m (bioKey device block) = none) (hf : hp.Fresh s size) (hd : device < 2 ^ 32) (hb : block < 2 ^ 32) :
    MakesRoom hp s device block size l ↔ ∃ p ∈ l.tail, Frees s.table (c p).key := by
  have htaken : Stored { s with mutex := headTaken } live ∅ c l m :=
    ⟨h.rep, h.table, h.cached, h.lru, h.unref, h.fresh⟩
  obtain ⟨data, h₁⟩ := htaken.alloc hf hd hb
  have hnot := h.rep.not_mem_of_fresh hf
  have hold : ∀ q ∈ live, Function.update c hp.buf (newCell hp device block size data) q = c q := fun q hq =>
    Function.update_of_ne (show q ≠ hp.buf from fun e => hnot (e ▸ hq)) _ _
  have hself := Function.update_self hp.buf (newCell hp device block size data) c
  have hkey : (Function.update c hp.buf (newCell hp device block size data) hp.buf).key = bioKey device block := by
    rw [hself]
    rfl
  have hloop := h₁.evictLoop hp.junk (by rwa [hkey]) hov h₁.length_le s.table.capacity.2.1
  rw [hkey, show (bioAlloc { s with mutex := headTaken } hp device block size).table = s.table from rfl] at hloop
  have hread := bioRead_full hp size h hmx hov hm
  rcases hloop with ⟨hnone, e, he⟩ | ⟨l₁, p, l₂, s', c', m', rfl, hl₁, hp₁, hl₂, hok, h', hmut, hsem, hkey'⟩
  · refine iff_of_false ?_ ?_
    · rintro ⟨s', n, hok, -⟩
      rw [hread, he] at hok
      cases hok
    · rintro ⟨q, hq, hfrees⟩
      have hql := h.lru_live q (List.mem_of_mem_tail hq)
      refine hnone q hq ?_
      rwa [hold q hql]
  · have hpl := h.lru_live p (List.mem_append_right _ List.mem_cons_self)
    have hlive : ∀ q ∈ l₂, q ∈ live := fun q hq =>
      h.lru_live q (List.mem_append_right _ (List.mem_cons_of_mem _ hq))
    rw [hold p hpl] at hp₁
    replace hl₂ : ∀ q ∈ l₂, ¬ Frees s.table (c q).key := fun q hq hfrees => hl₂ q hq (by rwa [hold q (hlive q hq)])
    refine iff_of_true ?_ ⟨p, ?_, hp₁⟩
    · have hbuf : hp.buf ∈ insert hp.buf live \ {q | q ∈ p :: l₂} := by
        refine ⟨Set.mem_insert _ _, fun hmem => hnot ?_⟩
        rcases List.mem_cons.mp hmem with e | hmem
        · rwa [e]
        · exact hlive _ hmem
      rw [hself] at hsem
      have hlock := bioLock_eq h'.rep hbuf hsem hmut
      have htable : ∀ x, (bioFill { s' with mutex := mutexCreate, mem := x } hp.buf device block size).table =
        s'.table :=
        fun x => bioFill_table _ _
      rw [hok, ok_bind, if_pos rfl, hlock, ok_bind] at hread
      obtain ⟨hroom, hleast⟩ := h.room hov hp₁ hl₂
      refine ⟨_, l₂.length + 1, hread, ?_, fun q => ?_, hroom, hleast⟩
      · rw [htable, h'.table.get, (h'.cached _ hp.buf).mpr ⟨hbuf, id, hkey'⟩]
      · have hsame : Cached (bioFill { s' with
            mutex := mutexCreate
            mem := store32 s'.mem ((c' hp.buf).field .mutex + 4) 1 } hp.buf device block size) q ↔ Cached s' q := by
          unfold Cached
          rw [htable]
        refine hsame.trans (h'.cached_iff.trans ?_)
        rw [h.cached_iff, take_reverse, List.mem_reverse]
        constructor
        · rintro ⟨rfl | hq, hnq⟩
          exacts [.inl rfl, .inr ⟨hq, hnq⟩]
        · rintro (rfl | ⟨hq, hnq⟩)
          exacts [hbuf, ⟨.inr hq, hnq⟩]
    · rw [List.tail_append_of_ne_nil hl₁]
      exact List.mem_append_right _ List.mem_cons_self

end Read

/-! ## Runs -/

theorem bioRemove_mutex (h : bioRemove s p = .ok s') : s'.mutex = s.mutex := by
  unfold bioRemove at h
  split_ifs at h
  obtain rfl := Except.ok.inj h
  unfold unlinkMiddle unlinkTail unlinkHead
  split_ifs <;> rfl

theorem bioSet_mutex {k : UInt64} {r : Int} (h : bioSet s k p = .ok (r, s')) : s'.mutex = s.mutex := by
  unfold bioSet at h
  split at h
  · cases h
  · obtain rfl := (Prod.mk.inj (Except.ok.inj h)).2
    rfl

theorem bioEvict_mutex {junk : Mem} (h : bioEvict junk s = .ok s') : s'.mutex = s.mutex := by
  unfold bioEvict at h
  split_ifs at h
  dsimp only at h
  split at h
  · cases h
  · split_ifs at h
    obtain ⟨s₁, hs₁, hs'⟩ := eq_ok_of_bind h
    obtain rfl := Except.ok.inj hs'
    rw [show (bioFree junk s₁ s.ltail).mutex = s₁.mutex from rfl, bioRemove_mutex hs₁]

theorem pushFront_mutex (s : BioState) (buf : ℕ) : (pushFront s buf).mutex = s.mutex := by
  unfold pushFront
  by_cases hhead : s.lhead = 0
  · rw [if_pos hhead]
    rfl
  · rw [if_neg hhead]
    rfl

theorem dropRef_mutex (s : BioState) (buf : ℕ) : (dropRef s buf).mutex = s.mutex := by
  rw [dropRef]
  split_ifs with hlast
  · rw [pushFront_mutex]
    rfl
  · rfl

theorem getHit_mutex {size : ℕ} (h : getHit s p size = .ok s') : s'.mutex = s.mutex := by
  rw [getHit] at h
  split_ifs at h with hsize
  by_cases hfirst : s.get p .refCount = 0
  · have hrem : bioRemove (s.set p .refCount (s.get p .refCount + 1)) p = .ok s' := (if_pos hfirst).symm.trans h
    rw [bioRemove_mutex hrem]
    rfl
  · have hset : Except.ok (s.set p .refCount (s.get p .refCount + 1)) = .ok s' := (if_neg hfirst).symm.trans h
    rw [Except.ok.injEq] at hset
    rw [← hset]
    rfl

theorem bioAlloc_mutex (s : BioState) (hp : Heap) (device block size : ℕ) :
    (bioAlloc s hp device block size).mutex = s.mutex := rfl

theorem bufStep_mutex {k k' : TasksSys} {op : BufOp} (h : bufStep k op = .ok k') : k'.bio.mutex = k.bio.mutex := by
  cases op with
  | get t hp device block size =>
    rw [bufStep] at h
    dsimp only at h
    split at h
    · cases h
    · obtain ⟨s₁, hs₁, hs'⟩ := eq_ok_of_bind h
      obtain rfl := Except.ok.inj hs'
      exact getHit_mutex hs₁
    · obtain ⟨⟨ret, s₁⟩, hs₁, hs'⟩ := eq_ok_of_bind h
      have hmut := (bioSet_mutex hs₁).trans (bioAlloc_mutex ..)
      dsimp only at hs'
      split_ifs at hs' <;>
      · obtain rfl := Except.ok.inj hs'
        exact hmut
  | evict t junk =>
    rw [bufStep] at h
    split at h
    · obtain rfl := Except.ok.inj h
      rfl
    · obtain ⟨s₁, hs₁, h⟩ := eq_ok_of_bind h
      obtain ⟨⟨ret, s₂⟩, hs₂, h⟩ := eq_ok_of_bind h
      have hmut := (bioSet_mutex hs₂).trans (bioEvict_mutex hs₁)
      dsimp only at h
      split_ifs at h <;>
      · obtain rfl := Except.ok.inj h
        exact hmut
  | lock t buf =>
    rw [bufStep] at h
    dsimp only at h
    split_ifs at h <;>
    · obtain rfl := Except.ok.inj h
      rfl
  | fill t buf =>
    obtain rfl := Except.ok.inj h
    change (bioFill _ _ _ _ _).mutex = _
    unfold bioFill
    split_ifs <;> rfl
  | modify t buf bytes =>
    obtain rfl := Except.ok.inj h
    rfl
  | drop t buf =>
    rw [bufStep, Except.ok.injEq] at h
    rw [← h]
    exact dropRef_mutex k.bio buf
  | unlock t buf =>
    rw [bufStep] at h
    dsimp only at h
    split at h <;>
    · obtain rfl := Except.ok.inj h
      rfl
  | other junk =>
    obtain rfl := Except.ok.inj h
    rfl

/-- **A free buffer is enough** exactly when one of the unreferenced buffers, other than the head of the list, can be
removed from the table without leaving a tombstone. -/
theorem makes_room_iff {mem : Mem} {disk : ℕ → ℕ → UInt8} (h₀ : bioInit mem disk = some s) {ops : List BufOp}
    {k : TasksSys} (hrun : Run (fun k op k' => BufMove k op k' ∧ op.Spares k) (tasksBoot s) ops k)
    {t device block size : ℕ} {hp : Heap} (hlegal : (BufOp.get t hp device block size).Legal k)
    (hmiss : htGet k.bio.table (bioKey device block) = some none) (hfull : k.bio.table.Overloaded) :
    ∃ l, Linked (fun p => k.bio.get p .next) 0 k.bio.lhead l ∧
      (∀ p, p ∈ l ↔ Cached k.bio p ∧ k.bio.get p .refCount = 0) ∧
      (MakesRoom hp k.bio device block size l ↔ ∃ p, Cached k.bio p ∧ k.bio.get p .refCount = 0 ∧
        p ≠ k.bio.lhead ∧ Frees k.bio.table (k.bio.keyOf p)) := by
  have hinv : k.bio.mutex = mutexCreate ∧ ∃ live cell l m, UseInv k live cell l m := by
    refine hrun.invariant (I := fun k => k.bio.mutex = mutexCreate ∧ ∃ live cell l m, UseInv k live cell l m) ?_
      ⟨?_, ∅, _, [], _, useInv_boot h₀⟩
    · rintro k op k' ⟨hmut, live, cell, l, m, h⟩ ⟨hs, hg⟩
      obtain ⟨live', cell', l', m', h', _⟩ := h.step hs.1 hg hs.2
      exact ⟨(bufStep_mutex hs.2).trans hmut, live', cell', l', m', h'⟩
    · rw [bioInit_eq, Option.some.injEq] at h₀
      rw [← h₀]
      rfl
  obtain ⟨hmut, live, c, l, m, h⟩ := hinv
  obtain ⟨-, hnone, hf, hd, hb, -⟩ := hlegal
  have hst := h.stored
  rw [hnone, newBufs_none] at hst
  rw [hst.table.get, Option.some.injEq] at hmiss
  have hget : ∀ f, ∀ p ∈ l, k.bio.get p f = (c p).field f := fun f p hp => hst.get (hst.lru_live p hp) f
  have hmem : ∀ p, p ∈ l ↔ Cached k.bio p ∧ k.bio.get p .refCount = 0 := fun p => by
    rw [hst.unref, hst.cached_iff]
    exact and_congr_right fun hp => by rw [hst.get hp]
  refine ⟨l, hst.lru.forth.congr (hget .next), hmem, (hst.makesRoom_iff hmut hfull hmiss hf hd hb).trans ?_⟩
  have htail : ∀ p, p ∈ l.tail ↔ p ∈ l ∧ p ≠ k.bio.lhead := fun p => by
    have hhead := hst.lru.head_eq
    have hnd := hst.lru.forth.nodup
    cases l with
    | nil => simp
    | cons x l =>
      obtain rfl : k.bio.lhead = x := hhead
      rw [List.tail_cons, List.mem_cons]
      constructor
      · intro hp
        exact ⟨.inr hp, fun e => (List.nodup_cons.mp hnd).1 (e ▸ hp)⟩
      · rintro ⟨hp, hne⟩
        exact hp.resolve_left hne
  refine exists_congr fun p => ?_
  rw [htail, hmem]
  constructor
  · rintro ⟨⟨⟨hp, hp₀⟩, hne⟩, hfrees⟩
    exact ⟨hp, hp₀, hne, by rwa [hst.keyOf (hst.cached_iff.mp hp)]⟩
  · rintro ⟨hp, hp₀, hne, hfrees⟩
    exact ⟨⟨⟨hp, hp₀⟩, hne⟩, by rwa [hst.keyOf (hst.cached_iff.mp hp)] at hfrees⟩

/-- Tasks 0 to 50 hold a block each, which fills the table, and those of `released` release theirs in turn. -/
def fullRun (released : List ℕ) : List BufOp :=
  (List.range 51).map (fun i => .get i (demoHeap i) 0 i 1024) ++ released.flatMap fun i =>
    [.lock i (demoHeap i).buf, .drop i (demoHeap i).buf, .unlock i (demoHeap i).buf]

/-- What task 11 finds when it reads block 99 after such a run. -/
def fullCheck (k : TasksSys) : Bool :=
  decide ((BufOp.get 11 (demoHeap 51) 0 99 1024).Legal k) && decide (htGet k.bio.table (bioKey 0 99) = some none) &&
    decide k.bio.table.Overloaded

/-- Block 11 can be removed without a tombstone, block 1 cannot: two evictions make room. -/
theorem makes_room_iff_two : ∃ k l, Run (fun k op k' => BufMove k op k' ∧ op.Spares k) (tasksBoot demoBoot.bio)
    (fullRun [1, 11, 0]) k ∧ MakesRoom (demoHeap 51) k.bio 0 99 1024 l ∧ (demoHeap 1).buf ∈ l := by
  have hl : (((fullRun [1, 11, 0]).foldlM (bufRun fun k op => op.Spares k) (tasksBoot demoBoot.bio)).map fun k =>
      fullCheck k && decide (htGet k.bio.table (bioKey 0 1) = some (some (demoHeap 1).buf)) &&
        decide (k.bio.get (demoHeap 1).buf .refCount = 0) &&
        (decide (htGet k.bio.table (bioKey 0 11) = some (some (demoHeap 11).buf)) &&
        decide (k.bio.get (demoHeap 11).buf .refCount = 0) && decide ((demoHeap 11).buf ≠ k.bio.lhead) &&
        decide (Frees k.bio.table (k.bio.keyOf (demoHeap 11).buf)))) = some true := by decide +kernel
  obtain ⟨k, hk, hobs⟩ := Option.map_eq_some_iff.mp hl
  simp only [fullCheck, Bool.and_eq_true, decide_eq_true_eq] at hobs
  obtain ⟨⟨⟨⟨⟨hlegal, hmiss⟩, hfull⟩, hget₁⟩, href₁⟩, ⟨⟨hget, href⟩, hhead⟩, hfrees⟩ := hobs
  have hrun := run_of_foldlM bufRun_move hk
  obtain ⟨l, -, hmem, hiff⟩ := makes_room_iff (bioInit_eq _ _) hrun hlegal hmiss hfull
  exact ⟨k, l, hrun, hiff.mpr ⟨_, ⟨_, hget⟩, href, hhead, hfrees⟩, (hmem _).mpr ⟨⟨_, hget₁⟩, href₁⟩⟩

/-- **A free buffer is not enough**: the table is full, one buffer is free, and `bio_read` aborts because it is the
only one of the list. -/
theorem one_free_buffer_aborts : ∃ k, Run (fun k op k' => BufMove k op k' ∧ op.Spares k) (tasksBoot demoBoot.bio)
    (fullRun [11]) k ∧ (BufOp.get 11 (demoHeap 51) 0 99 1024).Legal k ∧
      htGet k.bio.table (bioKey 0 99) = some none ∧ k.bio.table.Overloaded ∧
      Cached k.bio (demoHeap 11).buf ∧ k.bio.get (demoHeap 11).buf .refCount = 0 ∧
      bioRead (demoHeap 51) k.bio 0 99 1024 = .error .notPartOfList := by
  have hl : (((fullRun [11]).foldlM (bufRun fun k op => op.Spares k) (tasksBoot demoBoot.bio)).map fun k =>
      fullCheck k && (decide (htGet k.bio.table (bioKey 0 11) = some (some (demoHeap 11).buf)) &&
        decide (k.bio.get (demoHeap 11).buf .refCount = 0) &&
        decide (stopOf (bioRead (demoHeap 51) k.bio 0 99 1024) = some .notPartOfList))) = some true := by
    decide +kernel
  obtain ⟨k, hk, hobs⟩ := Option.map_eq_some_iff.mp hl
  simp only [fullCheck, Bool.and_eq_true, decide_eq_true_eq] at hobs
  obtain ⟨⟨⟨hlegal, hmiss⟩, hfull⟩, ⟨hget, href⟩, hstop⟩ := hobs
  exact ⟨k, run_of_foldlM bufRun_move hk, hlegal, hmiss, hfull, ⟨_, hget⟩, href, eq_error_of_stopOf hstop⟩

end BulbOS.Bio
