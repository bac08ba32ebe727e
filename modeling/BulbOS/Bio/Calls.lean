import BulbOS.Bio.Cache
import BulbOS.Lib.Bits

/-!
# The calls of the buffer cache

* `bioGetHit_spec`, `bioGetMiss_spec`: the two branches of `bio_get`;
* **`bioRead_spec`**, **`bioRelease_spec`**, **`bioWrite_spec`**: what the calls do to the cells and the
  list.
-/

namespace BulbOS.Bio

open KLib BulbOS.Task BulbOS.Sem BulbOS.Table

variable {s s' : BioState} {live new taking : Set ℕ} {c c' c'' : ℕ → Cell} {l l₁ l₂ : List ℕ}
  {m : UInt64 → Option ℕ} {p q : ℕ} {junk : Mem}

/-! ## A cached buffer -/

theorem BioInv.take (h : BioInv s live ∅ ∅ c (l₁ ++ p :: l₂) m) (hrep : Rep s'.mem s'.allocated live c')
    (hl : LruList s' c' (l₁ ++ l₂)) (ht : s'.table = s.table)
    (hkept : ∀ q ∈ live, Kept c c' q ∧ (c' q).sem = (c q).sem)
    (href : ∀ q ∈ live, (c' q).field .refCount = if q = p then 1 else (c q).field .refCount) :
    BioInv s' live ∅ {p} c' (l₁ ++ l₂) m := by
  have hmem : p ∈ l₁ ++ p :: l₂ := List.mem_append_right _ List.mem_cons_self
  obtain ⟨hp, hp₀⟩ := (h.unref p).mp hmem
  have hnot : p ∉ l₁ ++ l₂ := fun hm =>
    (List.nodup_cons.mp (List.perm_middle.nodup_iff.mp h.lru.forth.nodup)).1 hm
  have hrest : ∀ q, q ≠ p → (q ∈ l₁ ++ l₂ ↔ q ∈ l₁ ++ p :: l₂) := fun q hq => by
    rw [List.perm_middle.mem_iff, List.mem_cons, or_iff_right hq]
  refine ⟨hrep, ht ▸ h.table, fun k q => ?_, hl, fun q => ?_, fun q hq => ?_, fun q hq => ?_,
    fun q hq hqt => ?_, fun q hq hqt => ?_⟩
  · rw [h.cached]
    refine and_congr_right fun hq => and_congr_right fun _ => ?_
    rw [(hkept q hq).1.key]
  · by_cases hqp : q = p
    · subst hqp
      refine iff_of_false hnot fun e => ?_
      have := e.2
      rw [href q hp, if_pos rfl] at this
      cases this
    · rw [hrest q hqp, h.unref]
      refine and_congr_right fun hq => ?_
      rw [href q hq, if_neg hqp]
  · rw [href q hq]
    split_ifs
    exacts [le_rfl, h.refs q hq]
  · obtain rfl : q = p := hq.resolve_left id
    exact ⟨hp, by rw [href q hp, if_pos rfl]⟩
  · obtain rfl : q = p := hqt
    rw [(hkept q hq).2, h.sems q hq id, hp₀]
    rfl
  · have hqp : q ≠ p := hqt
    rw [(hkept q hq).2, href q hq, if_neg hqp]
    exact h.sems q hq id

/-- What `bio_get` did when it returned `p`, whose block was cached. -/
structure Hit (s s' : BioState) (live : Set ℕ) (c c' : ℕ → Cell) (p : ℕ) : Prop where
  mutex : s'.mutex = mutexCreate
  disk : s'.disk = s.disk
  kept : ∀ q ∈ live, Kept c c' q
  refs : ∀ q ∈ live, (c' q).field .refCount = if q = p then 1 else (c q).field .refCount

/-- **`bio_get` of a cached block** takes it out of the list, if it can. -/
theorem bioGetHit_spec (h : BioInv s live ∅ ∅ c l m) (hmx : s.mutex = headTaken) (hp : p ∈ live)
    (size : ℕ) :
    (bioGetHit s p size = .error .sizesDiffer ∨ bioGetHit s p size = .error .blocked ∨
      l = [p] ∧ bioGetHit s p size = .error .notPartOfList) ∨
      ∃ l₁ l₂ s' c', l = l₁ ++ p :: l₂ ∧ bioGetHit s p size = .ok (p, s') ∧
        size = (c p).field .size ∧ BioInv s' live ∅ ∅ c' (l₁ ++ l₂) m ∧ Hit s s' live c c' p ∧
        (s'.nullLink = true → s.nullLink = true ∨ l₂ = [] ∨ l₁ = []) := by
  by_cases hsz : size = (c p).field .size
  swap
  · refine .inl (.inl ?_)
    rw [bioGetHit, h.get hp, if_pos hsz]
  have hnf : ¬ Field.refCount.Fixed := by simp [Field.Fixed]
  have hhit : bioGetHit s p size = if (c p).field .refCount = 0 then
      bioRemove (s.set p .refCount ((c p).field .refCount + 1)) p >>= fun s => bioLock s p else
      bioLock (s.set p .refCount ((c p).field .refCount + 1)) p := by
    rw [bioGetHit, h.get hp, if_neg (not_not.mpr hsz), h.get hp]
  rw [hhit]
  by_cases hp₀ : (c p).field .refCount = 0
  swap
  · -- the task waits for itself
    have hp₁ : (c p).field .refCount = 1 := by
      have := h.refs p hp
      omega
    refine .inl (.inr (.inl ?_))
    rw [if_neg hp₀, bioLock, onHead_release (by exact hmx), ok_bind]
    have hrep := h.rep.set hp hnf ((c p).field .refCount + 1)
    have hmut := hrep.field hp .mutex
    have hsem := hrep.sem hp
    rw [Function.update_self] at hmut hsem
    have hsem' := h.sems p hp id
    rw [hp₁] at hsem'
    change ((BioState.onMutex _ (load32 _ _) acquire) >>= _) = _
    dsimp only [BioState.set]
    rw [hmut, onMutex_blocked (hsem.trans hsem') rfl]
    rfl
  obtain ⟨l₁, l₂, rfl⟩ := List.append_of_mem ((h.unref p).mpr ⟨hp, hp₀⟩)
  rw [if_pos hp₀, hp₀]
  let s₁ := s.set p .refCount (0 + 1)
  let c₁ := Function.update c p ((c p).setField .refCount 1)
  have hrep₁ : Rep s₁.mem s₁.allocated live c₁ := h.rep.set hp hnf (0 + 1)
  have hfield : ∀ q f, f ≠ .refCount → (c₁ q).field f = (c q).field f := fun q f hf =>
    update_congr (fun d => d.field f) (Function.update_of_ne hf _ _)
  have hlru₁ : LruList s₁ c₁ (l₁ ++ p :: l₂) := by
    unfold LruList
    simp only [hfield _ .next (by decide), hfield _ .prev (by decide)]
    exact h.lru
  rcases bioRemove_spec hrep₁ hlru₁ h.lru_live with ⟨rfl, rfl, he⟩ | ⟨s₂, c₂, he, hrep₂, hl₂, hsame, hnull⟩
  · refine .inl (.inr (.inr ⟨rfl, ?_⟩))
    rw [he]
    rfl
  have hkept₁ : ∀ q, Kept c c₁ q := fun q => ⟨update_congr Cell.data rfl, fun f hf _ _ => hfield q f hf⟩
  have href₁ : ∀ q, (c₁ q).field .refCount = if q = p then 1 else (c q).field .refCount := fun q => by
    split_ifs with hq
    · subst hq
      simp only [c₁, Function.update_self, setField_field]
    · simp only [c₁, Function.update_of_ne hq]
  have hkept : ∀ q ∈ live, Kept c c₂ q ∧ (c₂ q).sem = (c q).sem := fun q hq =>
    ⟨(hkept₁ q).trans (hsame.kept (h.ne_zero hq)), (hsame.sem q).trans (update_congr Cell.sem rfl)⟩
  have href : ∀ q ∈ live, (c₂ q).field .refCount = if q = p then 1 else (c q).field .refCount :=
    fun q hq => (hsame.refCount (h.ne_zero hq)).trans (href₁ q)
  obtain ⟨s₃, c₃, hlock, h₃, hm₃, hd₃, hn₃, hk₃⟩ :=
    bioLock_spec (h.take hrep₂ hl₂ hsame.table hkept href) (hsame.mutex.trans hmx)
  refine .inr ⟨l₁, l₂, s₃, c₃, rfl, ?_, hsz, h₃, ⟨hm₃, hd₃.trans hsame.disk, fun q hq => ?_, fun q hq => ?_⟩,
    fun hn => hnull (hn₃ ▸ hn)⟩
  · rw [he, ok_bind, hlock]
  · exact (hkept q hq).1.trans (hk₃ q).1
  · exact (hk₃ q).2.trans (href q hq)

/-! ## A new buffer -/

section Miss

variable {hp : Heap} {device block size : ℕ}

theorem Stored.alloc (h : Stored s live ∅ c l m) (hf : hp.Fresh s size) (hd : device < 2 ^ 32)
    (hb : block < 2 ^ 32) : ∃ data, Stored (bioAlloc s hp device block size) (insert hp.buf live) {hp.buf}
      (Function.update c hp.buf (newCell hp device block size data)) l m := by
  obtain ⟨data, hrep⟩ := h.rep.alloc hf hd hb
  have hnot := h.rep.not_mem_of_fresh hf
  have hne : ∀ q ∈ live, q ≠ hp.buf := fun q hq e => hnot (e ▸ hq)
  have hself := Function.update_self hp.buf (newCell hp device block size data) c
  have hold : ∀ q ∈ live, Function.update c hp.buf (newCell hp device block size data) q = c q :=
    fun q hq => Function.update_of_ne (hne q hq) _ _
  refine ⟨data, hrep, h.table, fun k q => ?_, ?_, fun q => ?_, fun q hq => ?_⟩
  · rw [h.cached]
    constructor
    · rintro ⟨hq, _, hk⟩
      exact ⟨.inr hq, hne q hq, by rwa [hold q hq]⟩
    · rintro ⟨hq, hqn, hk⟩
      have hql : q ∈ live := hq.resolve_left hqn
      exact ⟨hql, id, by rwa [hold q hql] at hk⟩
  · exact ⟨h.lru.forth.congr fun x hx => by rw [hold x (h.lru_live x hx)],
      h.lru.back.congr fun x hx => by rw [hold x (h.lru_live x (List.mem_reverse.mp hx))]⟩
  · rw [h.unref]
    constructor
    · rintro ⟨hq, hq₀⟩
      exact ⟨.inr hq, by rwa [hold q hq]⟩
    · rintro ⟨rfl | hq, hq₀⟩
      · rw [hself] at hq₀
        cases hq₀
      · exact ⟨hq, by rwa [hold q hq] at hq₀⟩
  · obtain rfl : q = hp.buf := hq
    refine ⟨.inl rfl, ?_⟩
    rw [hself]
    exact one_ne_zero

theorem BioInv.alloc (h : BioInv s live ∅ ∅ c l m) (hf : hp.Fresh s size) (hd : device < 2 ^ 32)
    (hb : block < 2 ^ 32) : ∃ data, BioInv (bioAlloc s hp device block size) (insert hp.buf live) {hp.buf}
      {hp.buf} (Function.update c hp.buf (newCell hp device block size data)) l m := by
  obtain ⟨data, hst⟩ := h.stored.alloc hf hd hb
  have hnot := h.rep.not_mem_of_fresh hf
  have hself := Function.update_self hp.buf (newCell hp device block size data) c
  have hne : ∀ q ∈ live, q ≠ hp.buf := fun q hq e => hnot (e ▸ hq)
  have hold : ∀ q ∈ live, Function.update c hp.buf (newCell hp device block size data) q = c q :=
    fun q hq => Function.update_of_ne (hne q hq) _ _
  refine ⟨data, hst.rep, hst.table, hst.cached, hst.lru, hst.unref, ?_, fun q hq => ?_, ?_, ?_⟩
  · rintro q (rfl | hq)
    · rw [hself]
      exact le_rfl
    · rw [hold q hq]
      exact h.refs q hq
  · obtain rfl : q = hp.buf := hq.elim id id
    exact ⟨.inl rfl, by rw [hself]; rfl⟩
  · rintro q - rfl
    rw [hself]
    rfl
  · rintro q (rfl | hq) hqt
    · exact absurd rfl hqt
    · rw [hold q hq]
      exact h.sems q hq id

/-- What `bio_get` did when it returned a new buffer `p`. -/
structure Miss (s s' : BioState) (live live' : Set ℕ) (c c' : ℕ → Cell) (p device block size : ℕ) :
    Prop where
  mutex : s'.mutex = mutexCreate
  disk : s'.disk = s.disk
  new : p ∈ live' ∧ p ∉ live
  sub : live' ⊆ insert p live
  held : ∀ q ∈ live, (c q).field .refCount = 1 → q ∈ live'
  kept : ∀ q ∈ live', q ≠ p → Kept c c' q ∧ (c' q).field .refCount = (c q).field .refCount
  device : (c' p).field .device = device
  block : (c' p).field .block = block
  size : (c' p).field .size = size
  valid : (c' p).field .valid = 0
  refCount : (c' p).field .refCount = 1

/-- The new buffer is in the table, after evictions or without. -/
theorem bioLock_miss {data : List UInt8} {s₂ : BioState} {live₂ : Set ℕ} {c₂ : ℕ → Cell} {l₂ : List ℕ}
    {m₂ : UInt64 → Option ℕ} (hmx : s.mutex = headTaken) (hnot : hp.buf ∉ live)
    (h : BioInv s₂ live₂ ∅ {hp.buf} c₂ l₂ m₂)
    (hsh : Shrunk (bioAlloc s hp device block size) s₂ (insert hp.buf live) live₂
      (Function.update c hp.buf (newCell hp device block size data)) c₂) :
    ∃ s' c', bioLock s₂ hp.buf = .ok (hp.buf, s') ∧ BioInv s' live₂ ∅ ∅ c' l₂ m₂ ∧
      Miss s s' live live₂ c c' hp.buf device block size ∧ s'.nullLink = s₂.nullLink := by
  obtain ⟨s₃, c₃, hlock, h₃, hm₃, hd₃, hn₃, hk₃⟩ := bioLock_spec h (hsh.mutex.trans hmx)
  obtain ⟨hbuf, _⟩ := h.fresh hp.buf (.inr rfl)
  obtain ⟨hkeep, href⟩ := hsh.kept _ hbuf
  have hk : ∀ f, f ≠ .refCount → f ≠ .next → f ≠ .prev →
      (c₃ hp.buf).field f = newField hp device block size f := fun f h₁ h₂ h₃ => by
    rw [(hk₃ _).1.field f h₁ h₂ h₃, hkeep.field f h₁ h₂ h₃, Function.update_self]
    rfl
  refine ⟨s₃, c₃, hlock, h₃, ⟨hm₃, hd₃.trans hsh.disk, ⟨hbuf, hnot⟩, hsh.sub, fun q hq hq₁ => ?_,
    fun q hq hqp => ?_, hk _ (by decide) (by decide) (by decide), hk _ (by decide) (by decide) (by decide),
    hk _ (by decide) (by decide) (by decide), hk _ (by decide) (by decide) (by decide), ?_⟩, hn₃⟩
  · have hqp : q ≠ hp.buf := fun e => hnot (e ▸ hq)
    refine hsh.held q (.inr hq) ?_
    rwa [Function.update_of_ne hqp]
  · obtain ⟨h₁, h₂⟩ := hsh.kept q hq
    refine ⟨⟨?_, fun f hf₁ hf₂ hf₃ => ?_⟩, ?_⟩
    · rw [(hk₃ q).1.data, h₁.data, Function.update_of_ne hqp]
    · rw [(hk₃ q).1.field f hf₁ hf₂ hf₃, h₁.field f hf₁ hf₂ hf₃, Function.update_of_ne hqp]
    · rw [(hk₃ q).2, h₂, Function.update_of_ne hqp]
  · rw [(hk₃ _).2, href, Function.update_self]
    rfl

/-- **`bio_get` of a block that is not cached** allocates a buffer, after evicting others when the
table is full. -/
theorem bioGetMiss_spec (h : BioInv s live ∅ ∅ c l m) (hmx : s.mutex = headTaken)
    (hm : m (bioKey device block) = none) (hf : hp.Fresh s size) (hd : device < 2 ^ 32)
    (hb : block < 2 ^ 32) :
    s.table.Overloaded ∧ (bioGetMiss hp s device block size = .error .notPartOfList ∨
      bioGetMiss hp s device block size = .error .noFreeBufs) ∨
      ∃ s' live' c' l' m', bioGetMiss hp s device block size = .ok (hp.buf, s') ∧
        BioInv s' live' ∅ ∅ c' l' m' ∧ Miss s s' live live' c c' hp.buf device block size ∧
        (¬ s.table.Overloaded → l' = l ∧ live' = insert hp.buf live ∧ s'.nullLink = s.nullLink) := by
  obtain ⟨data, h₁⟩ := h.alloc hf hd hb
  have hnot := h.rep.not_mem_of_fresh hf
  have hkey : (Function.update c hp.buf (newCell hp device block size data) hp.buf).key =
      bioKey device block := by
    rw [Function.update_self]
    rfl
  have hm₁ := hm
  rw [← hkey] at hm₁
  rw [bioGetMiss]
  dsimp only
  rcases bioSet_spec h₁ hm₁ with ⟨hfull, hs⟩ | ⟨s₂, hs, h₂, hmut, hdisk, hnull⟩
  · have hloop := bioEvictLoop_spec hp.junk h₁ hm₁ h₁.stored.length_le s.table.capacity.2.1
    rw [hkey] at hs hloop
    rw [hs, ok_bind]
    dsimp only
    rw [if_neg (by decide)]
    rcases hloop with herr | ⟨s₂, live₂, c₂, l₂, m₂, hok, h₂, hsh⟩
    · refine .inl ⟨hfull, ?_⟩
      rcases herr with herr | herr
      · rw [herr]
        exact .inl rfl
      · rw [herr]
        exact .inr rfl
    · obtain ⟨s₃, c₃, hlock, h₃, hmiss, _⟩ := bioLock_miss hmx hnot h₂ hsh
      rw [hok, ok_bind]
      exact .inr ⟨s₃, live₂, c₃, l₂, m₂, hlock, h₃, hmiss, fun e => absurd hfull e⟩
  · obtain ⟨s₃, c₃, hlock, h₃, hmiss, hn₃⟩ := bioLock_miss hmx hnot h₂ ⟨hmut, hdisk, subset_rfl,
      fun q hq _ => hq, fun q _ => ⟨⟨rfl, fun _ _ _ _ => rfl⟩, rfl⟩⟩
    rw [hkey] at hs
    rw [hs, ok_bind]
    exact .inr ⟨s₃, _, c₃, l, _, hlock, h₃, hmiss, fun _ => ⟨rfl, rfl, hn₃.trans hnull⟩⟩

end Miss

/-! ## Release -/

theorem BioInv.give (h : BioInv s live ∅ ∅ c l m) (hp : p ∈ live)
    (hrep : Rep s'.mem s'.allocated live c') (hl : LruList s' c' (p :: l)) (ht : s'.table = s.table)
    (hkept : ∀ q ∈ live, Kept c c' q)
    (href : ∀ q ∈ live, (c' q).field .refCount = if q = p then 0 else (c q).field .refCount)
    (hsem : ∀ q ∈ live, (c' q).sem = if q = p then mutexCreate else (c q).sem) :
    BioInv s' live ∅ ∅ c' (p :: l) m := by
  refine ⟨hrep, ht ▸ h.table, fun k q => ?_, hl, fun q => ?_, fun q hq => ?_,
    fun q hq => hq.elim False.elim False.elim, fun q _ hqt => hqt.elim, fun q hq _ => ?_⟩
  · rw [h.cached]
    refine and_congr_right fun hq => and_congr_right fun _ => ?_
    rw [(hkept q hq).key]
  · rw [List.mem_cons, h.unref]
    constructor
    · rintro (rfl | ⟨hq, hq₀⟩)
      · exact ⟨hp, by rw [href q hp, if_pos rfl]⟩
      · refine ⟨hq, ?_⟩
        rw [href q hq]
        split_ifs
        exacts [rfl, hq₀]
    · rintro ⟨hq, hq₀⟩
      rw [href q hq] at hq₀
      split_ifs at hq₀ with e
      exacts [.inl e, .inr ⟨hq, hq₀⟩]
  · rw [href q hq]
    split_ifs
    exacts [Nat.zero_le _, h.refs q hq]
  · rw [hsem q hq, href q hq]
    split_ifs
    exacts [rfl, h.sems q hq id]

/-- **`bio_release`** of a buffer with one reference whose `prev` is `NULL` puts it in front. -/
theorem bioRelease_spec (h : BioInv s live ∅ ∅ c l m) (hmx : s.mutex = mutexCreate) (hp : p ∈ live)
    (hp₁ : (c p).field .refCount = 1) (hprev : (c p).field .prev = 0) :
    ∃ s' c', bioRelease s p = .ok s' ∧ BioInv s' live ∅ ∅ c' (p :: l) m ∧ s'.mutex = mutexCreate ∧
      s'.disk = s.disk ∧ s'.nullLink = s.nullLink ∧ (∀ q ∈ live, Kept c c' q) ∧
      ∀ q ∈ live, (c' q).field .refCount = if q = p then 0 else (c q).field .refCount := by
  have hnf : ¬ Field.refCount.Fixed := by simp [Field.Fixed]
  have hpl : p ∉ l := fun e => by
    rw [((h.unref p).mp e).2] at hp₁
    cases hp₁
  let s₁ : BioState := { s with mutex := headTaken }.set p .refCount 0
  let c₁ := Function.update c p ((c p).setField .refCount 0)
  have hrep₁ : Rep s₁.mem s₁.allocated live c₁ := h.rep.set hp hnf 0
  have hfield₁ : ∀ q f, f ≠ .refCount → (c₁ q).field f = (c q).field f := fun q f hf =>
    update_congr (fun d => d.field f) (Function.update_of_ne hf _ _)
  have hlru₁ : LruList s₁ c₁ l := by
    unfold LruList
    simp only [hfield₁ _ .next (by decide), hfield₁ _ .prev (by decide)]
    exact h.lru
  obtain ⟨c₂, hrep₂, hl₂, hsame, hn₂⟩ := pushFront_spec hrep₁ hlru₁ h.lru_live hp hpl
    ((hfield₁ p .prev (by decide)).trans hprev)
  let c₃ := Function.update c₂ p { c₂ p with sem := { (c₂ p).sem with currentCount := 0 } }
  have hrep₃ := hrep₂.setCount hp (show 0 < 2 ^ 32 by decide)
  let s₃ : BioState := { pushFront s₁ p with
    mutex := mutexCreate
    mem := store32 (pushFront s₁ p).mem ((c₂ p).field .mutex + 4) 0 }
  have hsem : (c₂ p).sem = headTaken := by
    rw [hsame.sem, show (c₁ p).sem = (c p).sem from update_congr Cell.sem rfl, h.sems p hp id, hp₁]
    rfl
  have hrel : bioRelease s p = .ok s₃ := by
    rw [bioRelease, onHead_acquire hmx, ok_bind]
    have hg : BioState.get { s with mutex := headTaken } p .refCount = 1 := (h.get hp _).trans hp₁
    dsimp only
    rw [hg]
    change (BioState.onHead (pushFront s₁ p) release >>= fun s => s.onMutex (s.get p .mutex) release) = _
    rw [onHead_release hsame.mutex, ok_bind]
    change BioState.onMutex _ (load32 (pushFront s₁ p).mem (p + Field.mutex.offset)) release = _
    rw [hrep₂.field hp]
    exact onMutex_ok (s := { pushFront s₁ p with mutex := mutexCreate }) ((hrep₂.sem hp).trans hsem)
      (show release headTaken = some mutexCreate from rfl)
  have hfield₃ : ∀ q, (c₃ q).field = (c₂ q).field := fun q => update_congr Cell.field rfl
  have hkept : ∀ q ∈ live, Kept c c₃ q := fun q hq => by
    have hkept₁ : Kept c c₁ q := ⟨update_congr Cell.data rfl, fun f hf _ _ => hfield₁ q f hf⟩
    refine hkept₁.trans ?_
    refine (hsame.kept (h.ne_zero hq)).trans ⟨update_congr Cell.data rfl, fun f _ _ _ => ?_⟩
    rw [hfield₃]
  have href : ∀ q ∈ live, (c₃ q).field .refCount = if q = p then 0 else (c q).field .refCount := by
    intro q hq
    rw [hfield₃, hsame.refCount (h.ne_zero hq)]
    split_ifs with e
    · subst e
      simp only [c₁, Function.update_self, setField_field]
    · simp only [c₁, Function.update_of_ne e]
  refine ⟨s₃, c₃, hrel, h.give hp hrep₃ ?_ hsame.table hkept href fun q hq => ?_, rfl, hsame.disk, hn₂, hkept,
    href⟩
  · unfold LruList
    simp only [hfield₃]
    exact hl₂
  · split_ifs with e
    · subst e
      simp only [c₃, Function.update_self, hsem]
      rfl
    · simp only [c₃, Function.update_of_ne e]
      rw [hsame.sem]
      exact update_congr Cell.sem rfl

/-! ## Data -/

/-- **The end of `bio_read`** fills a buffer that is not valid from the disk. -/
theorem bioFill_spec (device block : ℕ) {size : ℕ} (h : BioInv s live ∅ ∅ c l m) (hp : p ∈ live)
    (hs : (c p).field .size = size) :
    ∃ c', BioInv (bioFill s p device block size) live ∅ ∅ c' l m ∧
      (bioFill s p device block size).mutex = s.mutex ∧
      (bioFill s p device block size).disk = s.disk ∧
      (bioFill s p device block size).nullLink = s.nullLink ∧
      (∀ q, q ≠ p → c' q = c q) ∧ (∀ f, f ≠ .valid → (c' p).field f = (c p).field f) ∧
      (c' p).data = if (c p).field .valid = 0 then
        bytesAt (s.disk (device % 2 ^ 8)) (u32 (block * size)) size else (c p).data := by
  rw [bioFill, h.get hp]
  by_cases hv : (c p).field .valid = 0
  swap
  · rw [if_neg hv, if_neg hv]
    exact ⟨c, h, rfl, rfl, rfl, fun _ _ => rfl, fun _ _ => rfl, rfl⟩
  have hnf : ¬ Field.valid.Fixed := by simp [Field.Fixed]
  rw [if_pos hv, if_pos hv, h.get hp, ← hs]
  let bytes := bytesAt (s.disk (device % 2 ^ 8)) (u32 (block * (c p).field .size)) ((c p).field .size)
  let d₁ : Cell := { c p with data := bytes }
  have hrep := ((h.rep.setData hp (s.disk (device % 2 ^ 8)) (u32 (block * (c p).field .size))).set hp hnf 1)
  rw [Function.update_self, Function.update_idem] at hrep
  have hself : Function.update c p (d₁.setField .valid (u32 1)) p = d₁.setField .valid (u32 1) :=
    Function.update_self ..
  have hf : ∀ f, f ≠ .valid → (d₁.setField .valid (u32 1)).field f = (c p).field f := fun f hf =>
    Function.update_of_ne hf _ _
  refine ⟨Function.update c p (d₁.setField .valid (u32 1)), ?_, rfl, rfl, rfl,
    fun q hq => Function.update_of_ne hq _ _, fun f hf' => ?_, ?_⟩
  · exact h.of_same hrep rfl rfl rfl (fun q f hf' => update_congr (fun d => d.field f) (hf f hf'))
      fun q => update_congr Cell.sem rfl
  · rw [hself]
    exact hf f hf'
  · rw [hself]
    rfl

/-- **`bio_write`** stores the data of the buffer at its place on the disk. -/
theorem bioWrite_spec (h : BioInv s live ∅ ∅ c l m) (hp : p ∈ live) :
    ∃ c', BioInv (bioWrite s p) live ∅ ∅ c' l m ∧ (bioWrite s p).mutex = s.mutex ∧
      (bioWrite s p).nullLink = s.nullLink ∧
      (bioWrite s p).disk = Function.update s.disk ((c p).field .device % 2 ^ 8)
        (memcpy (s.disk ((c p).field .device % 2 ^ 8)) (u32 ((c p).field .block * (c p).field .size)) s.mem
          ((c p).field .buffer) ((c p).field .size)) ∧
      (∀ q, q ≠ p → c' q = c q) ∧ (∀ f, f ≠ .valid → (c' p).field f = (c p).field f) ∧
      (c' p).field .valid = 0 ∧ (c' p).data = (c p).data := by
  have hnf : ¬ Field.valid.Fixed := by simp [Field.Fixed]
  have hrep := h.rep.set hp hnf 0
  have hself : Function.update c p ((c p).setField .valid (u32 0)) p = (c p).setField .valid (u32 0) :=
    Function.update_self ..
  have hf : ∀ f, f ≠ .valid → ((c p).setField .valid (u32 0)).field f = (c p).field f := fun f hf =>
    Function.update_of_ne hf _ _
  refine ⟨_, h.of_same hrep rfl rfl rfl (fun q f hf' => update_congr (fun d => d.field f) (hf f hf'))
    (fun q => update_congr Cell.sem rfl), rfl, rfl, ?_, fun q hq => Function.update_of_ne hq _ _,
    fun f hf' => ?_, ?_, ?_⟩
  · rw [← h.get hp, ← h.get hp, ← h.get hp, ← h.get hp]
    rfl
  · rw [hself]
    exact hf f hf'
  · rw [hself, setField_field, Function.update_self]
    rfl
  · rw [hself]
    rfl

theorem modify_spec (h : BioInv s live ∅ ∅ c l m) (hp : p ∈ live) (bytes : Mem) :
    ∃ c', BioInv { s with mem := memcpy s.mem (s.get p .buffer) bytes 0 (s.get p .size) } live ∅ ∅ c' l m ∧
      (∀ q, q ≠ p → c' q = c q) ∧ (c' p).field = (c p).field := by
  rw [h.get hp, h.get hp]
  exact ⟨_, h.of_same (h.rep.setData hp bytes 0) rfl rfl rfl
    (fun q f _ => update_congr (fun d => d.field f) rfl) (fun q => update_congr Cell.sem rfl),
    fun q hq => Function.update_of_ne hq _ _, update_congr Cell.field rfl⟩

/-! ## Reading -/

theorem bioKey_inj {device block device' block' : ℕ} (hd : device < 2 ^ 32) (hb : block < 2 ^ 32)
    (hd' : device' < 2 ^ 32) (hb' : block' < 2 ^ 32) (h : bioKey device block = bioKey device' block') :
    device = device' ∧ block = block' :=
  pack_inj hd hb hd' hb' h

/-- A `bio_read` that unlinks no buffer but one between two others: the block is cached in such a
buffer, or is not cached and the table has room. -/
def ReadGood (s : BioState) (device block : ℕ) : Prop :=
  match htGet s.table (bioKey device block) with
  | some (some p) => s.get p .refCount = 0 → p ≠ s.lhead ∧ p ≠ s.ltail
  | _ => ¬ s.table.Overloaded

instance (s : BioState) (device block : ℕ) : Decidable (ReadGood s device block) :=
  match h : htGet s.table (bioKey device block) with
  | some (some p) => decidable_of_iff (s.get p .refCount = 0 → p ≠ s.lhead ∧ p ≠ s.ltail)
      (by rw [ReadGood, h])
  | some none => decidable_of_iff (¬ s.table.Overloaded) (by rw [ReadGood, h])
  | none => decidable_of_iff (¬ s.table.Overloaded) (by rw [ReadGood, h])

/-- What `bio_read` did when it returned `p`. -/
structure ReadOk (s s' : BioState) (live live' : Set ℕ) (c c' : ℕ → Cell) (l l' : List ℕ)
    (p device block size : ℕ) : Prop where
  mutex : s'.mutex = mutexCreate
  disk : s'.disk = s.disk
  self : p ∈ live'
  unheld : p ∈ live → (c p).field .refCount = 0
  held : ∀ q ∈ live, (c q).field .refCount = 1 → q ∈ live'
  kept : ∀ q ∈ live', q ≠ p → q ∈ live ∧ Kept c c' q ∧ (c' q).field .refCount = (c q).field .refCount
  atDevice : (c' p).field .device = device
  atBlock : (c' p).field .block = block
  ofSize : (c' p).field .size = size
  refCount : (c' p).field .refCount = 1
  data : (c' p).data = bytesAt (s.disk (device % 2 ^ 8)) (u32 (block * size)) size ∨
    p ∈ live ∧ (c p).field .valid ≠ 0 ∧ (c p).field .device = device ∧ (c p).field .block = block ∧
      (c' p).data = (c p).data
  good : ReadGood s device block → l'.Sublist l ∧ (s'.nullLink = true → s.nullLink = true)

section Read

variable {hp : Heap} {device block size : ℕ}

/-- `bio_read` after `bio_get` took the lock and looked the block up. -/
theorem bioRead_eq (h : BioInv s live ∅ ∅ c l m) (hmx : s.mutex = mutexCreate) :
    bioRead hp s device block size = (match m (bioKey device block) with
      | some buf => bioGetHit { s with mutex := headTaken } buf size
      | none => bioGetMiss hp { s with mutex := headTaken } device block size) >>=
      fun r => .ok (r.1, bioFill r.2 r.1 device block size) := by
  unfold bioRead bioGet
  rw [onHead_acquire hmx, ok_bind]
  dsimp only
  rw [h.table.get]
  cases m (bioKey device block) <;> rfl

/-- **`bio_read`** returns a referenced buffer of the block, or stops; it stops for the list only when
it is not good. -/
theorem bioRead_spec (h : BioInv s live ∅ ∅ c l m) (hmx : s.mutex = mutexCreate) (hf : hp.Fresh s size)
    (hd : device < 2 ^ 32) (hb : block < 2 ^ 32) :
    (∃ e, bioRead hp s device block size = .error e ∧
      (ReadGood s device block → e = .sizesDiffer ∨ e = .blocked)) ∨
      ∃ p s' live' c' l' m', bioRead hp s device block size = .ok (p, s') ∧
        BioInv s' live' ∅ ∅ c' l' m' ∧ ReadOk s s' live live' c c' l l' p device block size := by
  rw [bioRead_eq h hmx]
  have h₁ : BioInv { s with mutex := headTaken } live ∅ ∅ c l m := h.of_same h.rep rfl rfl rfl
    (fun _ _ _ => rfl) fun _ => rfl
  have hget := h.table.get (bioKey device block)
  cases hm : m (bioKey device block) with
  | some p =>
    rw [hm] at hget
    dsimp only
    obtain ⟨hpl, _, hkey⟩ := (h.cached _ p).mp hm
    obtain ⟨hdev, hblk⟩ := bioKey_inj (h.rep.field_lt hpl _) (h.rep.field_lt hpl _) hd hb hkey
    have hgood : ReadGood s device block ↔ ((c p).field .refCount = 0 → p ≠ s.lhead ∧ p ≠ s.ltail) := by
      rw [ReadGood, hget]
      dsimp only
      rw [h.get hpl]
    rcases bioGetHit_spec h₁ rfl hpl size with herr | ⟨l₁, l₂, s₂, c₂, rfl, hok, hsz, h₂, hhit, hnull⟩
    · left
      rcases herr with he | he | ⟨hl, he⟩
      · exact ⟨_, by rw [he]; rfl, fun _ => .inl rfl⟩
      · exact ⟨_, by rw [he]; rfl, fun _ => .inr rfl⟩
      · refine ⟨_, by rw [he]; rfl, fun hg => absurd ?_ (hgood.mp hg ?_).1⟩
        · rw [h.lru.head_eq, hl]
          rfl
        · exact ((h.unref p).mp (by rw [hl]; exact List.mem_cons_self)).2
    · right
      have hmem : p ∈ l₁ ++ p :: l₂ := List.mem_append_right _ List.mem_cons_self
      have hp₀ := ((h.unref p).mp hmem).2
      have hsz₂ : (c₂ p).field .size = size :=
        ((hhit.kept p hpl).field _ (by decide) (by decide) (by decide)).trans hsz.symm
      obtain ⟨c₃, h₃, hm₃, hd₃, hn₃, ho₃, hf₃, hdata₃⟩ :=
        bioFill_spec device block h₂ hpl hsz₂
      have hfield : ∀ f, f ≠ .valid → f ≠ .refCount → f ≠ .next → f ≠ .prev →
          (c₃ p).field f = (c p).field f := fun f h₁ h₂ h₃ h₄ =>
        (hf₃ f h₁).trans ((hhit.kept p hpl).field f h₂ h₃ h₄)
      refine ⟨p, _, live, c₃, l₁ ++ l₂, m, by rw [hok]; rfl, h₃, ⟨hm₃.trans hhit.mutex,
        hd₃.trans hhit.disk, hpl, fun _ => hp₀, fun q hq _ => hq, fun q hq hqp => ⟨hq, ?_, ?_⟩, ?_, ?_, ?_,
        ?_, ?_, fun hg => ⟨?_, fun hn => ?_⟩⟩⟩
      · exact (hhit.kept q hq).of_eq (ho₃ q hqp)
      · rw [ho₃ q hqp, hhit.refs q hq, if_neg hqp]
      · rw [hfield _ (by decide) (by decide) (by decide) (by decide), hdev]
      · rw [hfield _ (by decide) (by decide) (by decide) (by decide), hblk]
      · rw [hf₃ _ (by decide), hsz₂]
      · rw [hf₃ _ (by decide), hhit.refs p hpl, if_pos rfl]
      · have hvalid := (hhit.kept p hpl).field .valid (by decide) (by decide) (by decide)
        rw [hvalid, hhit.disk, (hhit.kept p hpl).data] at hdata₃
        split_ifs at hdata₃ with hv
        exacts [.inl hdata₃, .inr ⟨hpl, hv, hdev, hblk, hdata₃⟩]
      · exact (List.append_sublist_append_left _).mpr (List.sublist_cons_self _ _)
      · rw [hn₃] at hn
        obtain ⟨hh, ht⟩ := hgood.mp hg hp₀
        rcases hnull hn with hn | rfl | rfl
        · exact hn
        · exact absurd (by rw [h.lru.tail_eq, lastOr_concat]) ht
        · exact absurd (by rw [h.lru.head_eq]; rfl) hh
  | none =>
    rw [hm] at hget
    dsimp only
    have hgood : ReadGood s device block ↔ ¬ s.table.Overloaded := by
      rw [ReadGood, hget]
    rcases bioGetMiss_spec h₁ rfl hm hf hd hb with ⟨hov, herr⟩ |
      ⟨s₂, live₂, c₂, l₂, m₂, hok, h₂, hmiss, hroom⟩
    · left
      rcases herr with he | he <;>
        exact ⟨_, by rw [he]; rfl, fun hg => absurd hov (hgood.mp hg)⟩
    · right
      obtain ⟨c₃, h₃, hm₃, hd₃, hn₃, ho₃, hf₃, hdata₃⟩ :=
        bioFill_spec device block h₂ hmiss.new.1 hmiss.size
      refine ⟨hp.buf, _, live₂, c₃, l₂, m₂, by rw [hok]; rfl, h₃, ⟨hm₃.trans hmiss.mutex,
        hd₃.trans hmiss.disk, hmiss.new.1, fun e => absurd e hmiss.new.2, hmiss.held,
        fun q hq hqp => ⟨(hmiss.sub hq).resolve_left hqp, ?_, ?_⟩, ?_, ?_, ?_, ?_, .inl ?_,
        fun hg => ⟨?_, fun hn => ?_⟩⟩⟩
      · exact (hmiss.kept q hq hqp).1.of_eq (ho₃ q hqp)
      · rw [ho₃ q hqp]
        exact (hmiss.kept q hq hqp).2
      · rw [hf₃ _ (by decide), hmiss.device]
      · rw [hf₃ _ (by decide), hmiss.block]
      · rw [hf₃ _ (by decide), hmiss.size]
      · rw [hf₃ _ (by decide), hmiss.refCount]
      · rw [hdata₃, if_pos hmiss.valid, hmiss.disk]
      · rw [(hroom (hgood.mp hg)).1]
      · rw [hn₃, (hroom (hgood.mp hg)).2.2] at hn
        exact hn

end Read

end BulbOS.Bio
