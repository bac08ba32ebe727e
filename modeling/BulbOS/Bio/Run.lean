import BulbOS.Bio.Calls
import BulbOS.Lib.Run

/-!
# The list of unreferenced buffers over whole runs

`bio_remove` goes through `NULL` when it unlinks the first or the last buffer, and takes a buffer
that is alone in the list for one outside it; `bio_release` keeps the `prev` that a buffer had when
it was last unlinked. The runs that avoid the three keep the list.

* `SysInv`: the cache between two calls; `SysInv.read`, `SysInv.write`, `SysInv.release`,
  `SysInv.modify`, `SysInv.other`: one call;
* `BioOp.Good`: a call that avoids the three;
* **`lru_list`**: all runs of good calls.
-/

namespace BulbOS.Bio

open KLib BulbOS.Task BulbOS.Sem BulbOS.Table

/-- The cache between two calls: the task holds the buffers that are referenced. -/
structure SysInv (k : BioSys) (live : Set ℕ) (c : ℕ → Cell) (l : List ℕ) (m : UInt64 → Option ℕ) :
    Prop where
  inv : BioInv k.bio live ∅ ∅ c l m
  mutex : k.bio.mutex = mutexCreate
  held : ∀ p, p ∈ k.held ↔ p ∈ live ∧ (c p).field .refCount = 1
  nodup : k.held.Nodup

variable {k k' : BioSys} {live : Set ℕ} {c : ℕ → Cell} {l : List ℕ} {m : UInt64 → Option ℕ} {p : ℕ}

theorem SysInv.read {hp : Heap} {device block size : ℕ} (h : SysInv k live c l m)
    (hl : (BioOp.read hp device block size).Legal k) :
    (∃ e, bioStep k (.read hp device block size) = .error e ∧
      (ReadGood k.bio device block → e = .sizesDiffer ∨ e = .blocked)) ∨
      ∃ p s' live' c' l' m', bioStep k (.read hp device block size) =
          .ok { k with bio := s', held := p :: k.held } ∧
        SysInv { k with bio := s', held := p :: k.held } live' c' l' m' ∧
        ReadOk k.bio s' live live' c c' l l' p device block size := by
  obtain ⟨hf, hd, hb⟩ := hl
  rcases bioRead_spec h.inv h.mutex hf hd hb with ⟨e, he, hgood⟩ | ⟨p, s', live', c', l', m', hok, hinv, hr⟩
  · exact .inl ⟨e, by rw [bioStep, he]; rfl, hgood⟩
  have hnot : p ∉ k.held := fun hmem => by
    obtain ⟨h₁, h₂⟩ := (h.held p).mp hmem
    rw [hr.unheld h₁] at h₂
    cases h₂
  refine .inr ⟨p, s', live', c', l', m', by rw [bioStep, hok]; rfl, ⟨hinv, hr.mutex, fun q => ?_,
    List.nodup_cons.mpr ⟨hnot, h.nodup⟩⟩, hr⟩
  change q ∈ p :: k.held ↔ _
  rw [List.mem_cons, h.held]
  constructor
  · rintro (rfl | ⟨hq, hq₁⟩)
    · exact ⟨hr.self, hr.refCount⟩
    · have hqp : q ≠ p := by
        rintro rfl
        exact hnot ((h.held q).mpr ⟨hq, hq₁⟩)
      have hq' := hr.held q hq hq₁
      exact ⟨hq', (hr.kept q hq' hqp).2.2.trans hq₁⟩
  · rintro ⟨hq, hq₁⟩
    by_cases hqp : q = p
    · exact .inl hqp
    · obtain ⟨hql, _, href⟩ := hr.kept q hq hqp
      exact .inr ⟨hql, href ▸ hq₁⟩

theorem SysInv.of_refs {k' : BioSys} {c' : ℕ → Cell} (h : SysInv k live c l m)
    (hinv : BioInv k'.bio live ∅ ∅ c' l m) (hm : k'.bio.mutex = k.bio.mutex) (hh : k'.held = k.held)
    (href : ∀ q, (c' q).field .refCount = (c q).field .refCount) : SysInv k' live c' l m := by
  refine ⟨hinv, hm.trans h.mutex, fun q => ?_, hh ▸ h.nodup⟩
  rw [hh, href]
  exact h.held q

theorem SysInv.modify {bytes : Mem} (h : SysInv k live c l m) (hp : p ∈ k.held) :
    ∃ k' c', bioStep k (.modify p bytes) = .ok k' ∧ SysInv k' live c' l m ∧
      k'.bio.disk = k.bio.disk ∧ k'.bio.nullLink = k.bio.nullLink ∧
      (∀ q, q ≠ p → c' q = c q) ∧ (c' p).field = (c p).field := by
  obtain ⟨c', hinv, ho, hf⟩ := modify_spec h.inv ((h.held p).mp hp).1 bytes
  refine ⟨_, c', rfl, h.of_refs hinv rfl rfl fun q => ?_, rfl, rfl, ho, hf⟩
  by_cases hq : q = p
  · subst hq
    rw [hf]
  · rw [ho q hq]

theorem SysInv.other {junk : Mem} (h : SysInv k live c l m) :
    ∃ k', bioStep k (.other junk) = .ok k' ∧ SysInv k' live c l m ∧ k'.bio.disk = k.bio.disk ∧
      k'.bio.nullLink = k.bio.nullLink := by
  refine ⟨_, rfl, h.of_refs ?_ rfl rfl fun _ => rfl, rfl, rfl⟩
  exact h.inv.of_same (h.inv.rep.other junk) rfl rfl rfl (fun _ _ _ => rfl) fun _ => rfl

theorem SysInv.write (h : SysInv k live c l m) (hp : p ∈ k.held) :
    ∃ k' c', bioStep k (.write p) = .ok k' ∧ SysInv k' live c' l m ∧
      k'.bio.nullLink = k.bio.nullLink ∧
      k'.bio.disk = Function.update k.bio.disk ((c p).field .device % 2 ^ 8)
        (memcpy (k.bio.disk ((c p).field .device % 2 ^ 8)) (u32 ((c p).field .block * (c p).field .size))
          k.bio.mem ((c p).field .buffer) ((c p).field .size)) ∧
      (∀ q, q ≠ p → c' q = c q) ∧ (∀ f, f ≠ .valid → (c' p).field f = (c p).field f) ∧
      (c' p).field .valid = 0 ∧ (c' p).data = (c p).data := by
  obtain ⟨c', hinv, hm, hn, hd, ho, hf, hv, hdata⟩ := bioWrite_spec h.inv ((h.held p).mp hp).1
  refine ⟨_, c', rfl, h.of_refs hinv hm rfl fun q => ?_, hn, hd, ho, hf, hv, hdata⟩
  by_cases hq : q = p
  · subst hq
    exact hf _ (by decide)
  · rw [ho q hq]

/-- The system after `bio_release` has left the cache in `s'`. -/
def BioSys.released (k : BioSys) (s' : BioState) (p : ℕ) : BioSys :=
  { k with
    bio := s'
    held := k.held.erase p
    clock := k.clock + 1
    releasedAt := Function.update k.releasedAt p k.clock }

theorem SysInv.release (h : SysInv k live c l m) (hp : p ∈ k.held) (hprev : k.bio.get p .prev = 0) :
    ∃ s' c', bioStep k (.release p) = .ok (k.released s' p) ∧ SysInv (k.released s' p) live c' (p :: l) m ∧
      s'.disk = k.bio.disk ∧ s'.nullLink = k.bio.nullLink ∧ ∀ q ∈ live, Kept c c' q := by
  obtain ⟨hpl, hp₁⟩ := (h.held p).mp hp
  rw [h.inv.get hpl] at hprev
  obtain ⟨s', c', hok, hinv, hm, hd, hn, hkept, href⟩ := bioRelease_spec h.inv h.mutex hpl hp₁ hprev
  refine ⟨s', c', by rw [bioStep, hok]; rfl, ⟨hinv, hm, fun q => ?_, h.nodup.erase p⟩, hd, hn, hkept⟩
  change q ∈ k.held.erase p ↔ _
  rw [h.nodup.mem_erase_iff, h.held]
  constructor
  · rintro ⟨hqp, hq, hq₁⟩
    exact ⟨hq, by rw [href q hq, if_neg hqp, hq₁]⟩
  · rintro ⟨hq, hq₁⟩
    rw [href q hq] at hq₁
    split_ifs at hq₁ with hqp
    exact ⟨hqp, hq, hq₁⟩

theorem bioInit_eq (mem : Mem) (disk : ℕ → ℕ → UInt8) :
    bioInit mem disk = some ⟨mem, emptyTable, mutexCreate, 0, 0, disk, [], false⟩ := rfl

theorem sysInv_boot {mem : Mem} {disk : ℕ → ℕ → UInt8} {s : BioState} (h : bioInit mem disk = some s) :
    SysInv (bioBoot s) ∅ (cellAt mem) [] (fun _ => none) ∧ s.nullLink = false := by
  rw [bioInit_eq, Option.some.injEq] at h
  subst h
  have htab : TableInv emptyTable fun _ => none :=
    tableInv_empty (by decide) (by decide) rfl rfl fun _ _ => rfl
  have hrep : Rep mem [] ∅ (cellAt mem) := ⟨fun _ h => h.elim, fun _ h => h.elim, fun _ h => h.elim,
    fun _ h => h.elim, fun r => ⟨fun h => (by cases h), fun ⟨_, h, _⟩ => h.elim⟩⟩
  refine ⟨⟨⟨hrep, htab, fun _ _ => ⟨fun h => (by cases h), fun h => h.1.elim⟩, ⟨rfl, rfl⟩,
    fun _ => ⟨fun h => (by cases h), fun h => h.1.elim⟩, fun _ h => h.elim,
    fun _ h => h.elim False.elim False.elim, fun _ h => h.elim, fun _ h => h.elim⟩, rfl,
    fun _ => ⟨fun h => (by cases h), fun h => h.1.elim⟩, List.nodup_nil⟩, rfl⟩

/-! ## The list -/

/-- A `bio_read` that unlinks no buffer but one between two others, or a `bio_release` of a buffer
whose `prev` is `NULL`. -/
def BioOp.Good (k : BioSys) : BioOp → Prop
  | .read _ device block _ => ReadGood k.bio device block
  | .release buf => k.bio.get buf .prev = 0
  | _ => True

instance (k : BioSys) : (op : BioOp) → Decidable (op.Good k)
  | .read _ device block _ => inferInstanceAs (Decidable (ReadGood k.bio device block))
  | .release buf => inferInstanceAs (Decidable (k.bio.get buf .prev = 0))
  | .modify _ _ | .write _ | .other _ => inferInstanceAs (Decidable True)

/-- The list is `l`: the unreferenced buffers of the cache, the last released one first. -/
structure LruOk (k : BioSys) (l : List ℕ) : Prop where
  forth : Linked (fun p => k.bio.get p .next) 0 k.bio.lhead l
  back : Linked (fun p => k.bio.get p .prev) 0 k.bio.ltail l.reverse
  last : l ≠ [] → l.getLast? = some k.bio.ltail
  unref : ∀ p, p ∈ l ↔ (∃ key, htGet k.bio.table key = some (some p)) ∧ k.bio.get p .refCount = 0
  recent : l.Pairwise fun a b => k.releasedAt b < k.releasedAt a
  empty : k.bio.lhead = 0 ∧ k.bio.ltail = 0 ↔ l = []
  null : k.bio.nullLink = false

/-- What the runs of good calls keep. -/
structure LruInv (k : BioSys) (live : Set ℕ) (c : ℕ → Cell) (l : List ℕ) (m : UInt64 → Option ℕ) :
    Prop where
  sys : SysInv k live c l m
  recent : l.Pairwise fun a b => k.releasedAt b < k.releasedAt a
  past : ∀ p ∈ l, k.releasedAt p < k.clock
  null : k.bio.nullLink = false

theorem LruInv.ok (h : LruInv k live c l m) : LruOk k l := by
  have hinv := h.sys.inv
  have hget : ∀ f, ∀ x ∈ l, k.bio.get x f = (c x).field f := fun f x hx => hinv.get (hinv.lru_live x hx) f
  refine ⟨hinv.lru.forth.congr (hget .next), hinv.lru.back.congr fun x hx => hget _ x (List.mem_reverse.mp hx),
    fun hl => ?_, fun p => ?_, h.recent, ?_, h.null⟩
  · rw [hinv.lru.tail_eq, lastOr, List.getLast?_eq_some_getLast hl]
    rfl
  · rw [hinv.unref]
    constructor
    · rintro ⟨hp, hp₀⟩
      exact ⟨⟨(c p).key, by rw [hinv.table.get, hinv.mem_table hp id]⟩, (hinv.get hp _).trans hp₀⟩
    · rintro ⟨⟨key, hkey⟩, hp₀⟩
      rw [hinv.table.get, Option.some.injEq] at hkey
      have hp := ((hinv.cached key p).mp hkey).1
      exact ⟨hp, (hinv.get hp _).symm.trans hp₀⟩
  · constructor
    · rintro ⟨hh, -⟩
      have := hinv.lru.forth
      rw [hh] at this
      exact this.eq_nil
    · rintro rfl
      exact ⟨hinv.lru.forth, hinv.lru.back⟩

/-- **A good call** keeps the list, or stops before it looks at it. -/
theorem LruInv.step {op : BioOp} (h : LruInv k live c l m) (hl : op.Legal k) (hg : op.Good k) :
    (bioStep k op = .error .sizesDiffer ∨ bioStep k op = .error .blocked) ∨
      ∃ k' live' c' l' m', bioStep k op = .ok k' ∧ LruInv k' live' c' l' m' := by
  cases op with
  | read hp device block size =>
    rcases h.sys.read hl with ⟨e, he, hgood⟩ | ⟨p, s', live', c', l', m', hok, hsys, hr⟩
    · rcases hgood hg with rfl | rfl
      exacts [.inl (.inl he), .inl (.inr he)]
    · obtain ⟨hsub, hnull⟩ := hr.good hg
      refine .inr ⟨_, live', c', l', m', hok, hsys, h.recent.sublist hsub,
        fun q hq => h.past q (hsub.subset hq), ?_⟩
      by_contra hn
      have := hnull (Bool.eq_true_of_not_eq_false hn)
      rw [h.null] at this
      cases this
  | modify buf bytes =>
    obtain ⟨k', c', hok, hsys, _, hn, _⟩ := h.sys.modify hl
    cases hok
    exact .inr ⟨_, live, c', l, m, rfl, hsys, h.recent, h.past, hn.trans h.null⟩
  | write buf =>
    obtain ⟨k', c', hok, hsys, hn, _⟩ := h.sys.write hl
    cases hok
    exact .inr ⟨_, live, c', l, m, rfl, hsys, h.recent, h.past, hn.trans h.null⟩
  | release buf =>
    obtain ⟨s', c', hok, hsys, _, hn, _⟩ := h.sys.release hl hg
    have hnot : buf ∉ l := (List.nodup_cons.mp hsys.inv.lru.forth.nodup).1
    have hself : (k.released s' buf).releasedAt buf = k.clock := Function.update_self ..
    have hold : ∀ q ∈ l, (k.released s' buf).releasedAt q = k.releasedAt q := fun q hq =>
      Function.update_of_ne (show q ≠ buf from fun e => hnot (e ▸ hq)) _ _
    refine .inr ⟨_, live, c', buf :: l, m, hok, hsys, List.pairwise_cons.mpr ⟨fun q hq => ?_, ?_⟩, ?_,
      hn.trans h.null⟩
    · rw [hself, hold q hq]
      exact h.past q hq
    · refine h.recent.imp_of_mem fun ha hb hab => ?_
      rwa [hold _ ha, hold _ hb]
    · rintro q hq
      change _ < k.clock + 1
      rcases List.mem_cons.mp hq with rfl | hq
      · omega
      · rw [hold q hq]
        have := h.past q hq
        omega
  | other junk =>
    obtain ⟨k', hok, hsys, _, hn⟩ := h.sys.other
    cases hok
    exact .inr ⟨_, live, c, l, m, rfl, hsys, h.recent, h.past, hn.trans h.null⟩

/-- **The list of unreferenced buffers.** After every run of good calls the list is right and no link
of `NULL` was used; one more good call keeps it so, or stops because the sizes differ or because the
task holds the buffer already. -/
theorem lru_list {mem : Mem} {disk : ℕ → ℕ → UInt8} {s : BioState} (h₀ : bioInit mem disk = some s)
    {ops : List BioOp} (hrun : Run (fun k op k' => BioMove k op k' ∧ op.Good k) (bioBoot s) ops k) :
    (∃ l, LruOk k l) ∧ ∀ op : BioOp, op.Legal k → op.Good k →
      (bioStep k op = .error .sizesDiffer ∨ bioStep k op = .error .blocked) ∨
        ∃ k' l, bioStep k op = .ok k' ∧ LruOk k' l := by
  have hinv : ∃ live c l m, LruInv k live c l m := by
    refine hrun.invariant (I := fun k => ∃ live c l m, LruInv k live c l m) ?_ ?_
    · rintro k op k' ⟨live, c, l, m, h⟩ ⟨⟨hl, hs⟩, hg⟩
      rcases h.step hl hg with (he | he) | ⟨k₁, live', c', l', m', hok, h'⟩
      · rw [he] at hs
        cases hs
      · rw [he] at hs
        cases hs
      · rw [hok, Except.ok.injEq] at hs
        exact ⟨live', c', l', m', hs ▸ h'⟩
    · obtain ⟨hsys, hnull⟩ := sysInv_boot h₀
      exact ⟨∅, _, [], _, hsys, .nil, fun _ h => (by cases h), hnull⟩
  obtain ⟨live, c, l, m, h⟩ := hinv
  refine ⟨⟨l, h.ok⟩, fun op hl hg => ?_⟩
  rcases h.step hl hg with he | ⟨k', live', c', l', m', hok, h'⟩
  · exact .inl he
  · exact .inr ⟨k', l', hok, h'.ok⟩

/-- The cache after `bio_init`, for a memory of zeros and a disk of sevens. -/
def demoBoot : BioSys := bioBoot ⟨fun _ => 0, emptyTable, mutexCreate, 0, 0, fun _ _ => 7, [], false⟩

/-- Where `kmalloc` put the `i`th buffer. -/
def demoHeap (i : ℕ) : Heap :=
  ⟨0xd0000000 + 0x1000 * i, 0xd0000040 + 0x1000 * i, 0xd0000080 + 0x1000 * i, fun _ => 0⟩

/-- `bio_read` of a block of device 0, with the `i`th buffer if one is needed. -/
def demoRead (i block : ℕ) : BioOp := .read (demoHeap i) 0 block 1024

/-- A call of a run that meets `P`. -/
def runStep (P : BioSys → BioOp → Prop) [∀ k op, Decidable (P k op)] (k : BioSys) (op : BioOp) :
    Option BioSys :=
  if op.Legal k ∧ P k op then (bioStep k op).toOption else none

theorem runStep_move {P : BioSys → BioOp → Prop} [∀ k op, Decidable (P k op)] (k : BioSys) (op : BioOp)
    (k' : BioSys) (h : runStep P k op = some k') : BioMove k op k' ∧ P k op := by
  rw [runStep] at h
  split_ifs at h with hc
  refine ⟨⟨hc.1, ?_⟩, hc.2⟩
  cases he : bioStep k op with
  | error e =>
    rw [he] at h
    cases h
  | ok k₁ =>
    rw [he] at h
    cases h
    rfl

/-- Three blocks are read and released, and the one in the middle is read again. -/
def lruDemo : List BioOp :=
  [demoRead 0 0, demoRead 1 1, demoRead 2 2, .release (demoHeap 0).buf, .release (demoHeap 1).buf,
    .release (demoHeap 2).buf, demoRead 3 1]

theorem lru_list_demo : ∃ k l, Run (fun k op k' => BioMove k op k' ∧ op.Good k) demoBoot lruDemo k ∧
    LruOk k l ∧ k.held = [(demoHeap 1).buf] := by
  have hl : (lruDemo.foldlM (runStep fun k op => op.Good k) demoBoot).map BioSys.held =
      some [(demoHeap 1).buf] := by decide +kernel
  obtain ⟨k, hk, hheld⟩ := Option.map_eq_some_iff.mp hl
  have hrun := run_of_foldlM runStep_move hk
  obtain ⟨l, hl⟩ := (lru_list (bioInit_eq _ _) hrun).1
  exact ⟨k, l, hrun, hl, hheld⟩

/-- Why a call stopped. -/
def stopOf {α : Type} : Except Stop α → Option Stop
  | .error e => some e
  | .ok _ => none

theorem eq_error_of_stopOf {α : Type} {x : Except Stop α} {e : Stop} (h : stopOf x = some e) :
    x = .error e := by
  cases x with
  | error e' =>
    cases h
    rfl
  | ok a => cases h

/-- A block that is read, released and read again aborts: `bio_remove` takes the only buffer of the
list for one that is not in it. -/
theorem bioRemove_only_buffer : ∃ k,
    Run BioMove demoBoot [demoRead 0 0, .release (demoHeap 0).buf] k ∧ (demoRead 1 0).Legal k ∧
      k.bio.lhead = (demoHeap 0).buf ∧ bioStep k (demoRead 1 0) = .error .notPartOfList := by
  have hl : (([demoRead 0 0, .release (demoHeap 0).buf].foldlM (runStep fun _ _ => True) demoBoot).map
      fun k => (decide ((demoRead 1 0).Legal k), k.bio.lhead, stopOf (bioStep k (demoRead 1 0)))) =
      some (true, (demoHeap 0).buf, some .notPartOfList) := by decide +kernel
  obtain ⟨k, hk, hv⟩ := Option.map_eq_some_iff.mp hl
  rw [Prod.mk.injEq, Prod.mk.injEq] at hv
  obtain ⟨hlegal, hhead, hstop⟩ := hv
  have hrun : Run BioMove demoBoot _ k := run_of_foldlM (fun k op k' h => (runStep_move k op k' h).1) hk
  exact ⟨k, hrun, of_decide_eq_true hlegal, hhead, eq_error_of_stopOf hstop⟩

end BulbOS.Bio
