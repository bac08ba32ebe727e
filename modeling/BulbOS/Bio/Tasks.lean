import BulbOS.Bio.Run
import BulbOS.Lib.Locks

/-!
# Many tasks in the buffer cache

Any number of tasks run `bio_read` and `bio_release`. What a call does between the acquire and the
release of `bio_head.mutex` is one step, except that every round of the loop that evicts is a step of
its own, made by the task that holds `bio_head.mutex`. The mutexes of the buffers are kept beside the
memory, by their addresses.

`bio_release` drops `bio_head.mutex`, with the buffer in the list if nobody else references it, before
it releases the mutex of the buffer.

* `Use`: a task that is between the lookup in `bio_get` and the end of `bio_release` of a buffer;
* `UseInv`: a buffer is referenced once for every use that is not leaving; `UseInv.step`;
* **`evict_spares_used`**: no step frees a buffer in use, in runs where `bio_evict` never finds the last
  buffer of the list being left;
* `evict_frees_leaving`: a task that is leaving a buffer loses it.
-/

namespace BulbOS.Bio

open KLib BulbOS.Task BulbOS.Sem BulbOS.Table

/-! ## The calls without the mutexes -/

/-- `bio_get` of a cached block, while it holds `bio_head.mutex`. -/
def getHit (s : BioState) (buf size : ℕ) : Except Stop BioState :=
  if size ≠ s.get buf .size then .error .sizesDiffer
  else
    let refCount := s.get buf .refCount
    let s := s.set buf .refCount (refCount + 1)
    if refCount = 0 then bioRemove s buf else .ok s

theorem bioGetHit_eq (s : BioState) (buf size : ℕ) :
    bioGetHit s buf size = getHit s buf size >>= fun s => bioLock s buf := by
  rw [bioGetHit, getHit]
  dsimp only
  split_ifs <;> rfl

/-- `bio_release`, while it holds `bio_head.mutex`. -/
def dropRef (s : BioState) (buf : ℕ) : BioState :=
  let refCount := sub32 (s.get buf .refCount) 1
  let s := s.set buf .refCount refCount
  if refCount = 0 then pushFront s buf else s

theorem bioRelease_eq (s : BioState) (buf : ℕ) :
    bioRelease s buf = s.onHead acquire >>= fun s => (dropRef s buf).onHead release >>= fun s =>
      s.onMutex (s.get buf .mutex) release := rfl

/-! ## Tasks -/

/-- Where a task is with a buffer. -/
inductive Stage
  /-- the buffer is new and not in the table; the task holds `bio_head.mutex` -/
  | missing
  /-- the `mutex_acquire` of `bio_get` has not returned -/
  | locking
  /-- between `bio_get` and `bio_release` -/
  | holding
  /-- at the last `mutex_release` of `bio_release` -/
  | leaving
  deriving DecidableEq

structure Use where
  task : ℕ
  buf : ℕ
  stage : Stage
  deriving DecidableEq

/-- The cache, the mutexes by address, and what the tasks do with the buffers. `missing` is the task in
the loop of `bio_get`, with its buffer and its key. -/
structure TasksSys where
  bio : BioState
  locks : ℕ → KLib.Mutex ℕ
  uses : List Use
  missing : Option (ℕ × ℕ × UInt64)

inductive BufOp
  /-- `bio_get` up to the release of `bio_head.mutex`, or up to the loop -/
  | get (t : ℕ) (h : Heap) (device block size : ℕ)
  /-- a round of the loop -/
  | evict (t : ℕ) (junk : Mem)
  /-- `mutex_acquire(buf->mutex)` -/
  | lock (t buf : ℕ)
  /-- the end of `bio_read` -/
  | fill (t buf : ℕ)
  /-- the task changes the data -/
  | modify (t buf : ℕ) (bytes : Mem)
  /-- `bio_release` up to the release of `bio_head.mutex` -/
  | drop (t buf : ℕ)
  /-- `mutex_release(buf->mutex)` -/
  | unlock (t buf : ℕ)
  /-- somebody else uses the heap -/
  | other (junk : Mem)

/-- A use goes to another stage. -/
def restage (uses : List Use) (u : Use) (stage : Stage) : List Use :=
  if u ∈ uses then { u with stage := stage } :: uses.erase u else uses

def bufStep (c : TasksSys) : BufOp → Except Stop TasksSys
  | .get t h device block size => do
    let key := bioKey device block
    match htGet c.bio.table key with
    | none => .error .diverges
    | some (some buf) =>
      let s ← getHit c.bio buf size
      return { c with bio := s, uses := ⟨t, buf, .locking⟩ :: c.uses }
    | some none =>
      let (ret, s) ← bioSet (bioAlloc c.bio h device block size) key h.buf
      let c' := { c with bio := s, locks := Function.update c.locks h.mutex ⟨none, []⟩ }
      if ret = 0 then return { c' with uses := ⟨t, h.buf, .locking⟩ :: c.uses }
      else return { c' with uses := ⟨t, h.buf, .missing⟩ :: c.uses, missing := some (t, h.buf, key) }
  | .evict _ junk =>
    match c.missing with
    | none => .ok c
    | some (t, buf, key) => do
      let s ← bioEvict junk c.bio
      let (ret, s) ← bioSet s key buf
      if ret ≠ 0 ∧ s.ltail ≠ 0 then return { c with bio := s }
      else if ret = 0 then
        return { c with bio := s, uses := restage c.uses ⟨t, buf, .missing⟩ .locking, missing := none }
      else .error .noFreeBuffer
  | .lock t buf =>
    let mutex := c.bio.get buf .mutex
    let c' := { c with locks := Function.update c.locks mutex ((c.locks mutex).acquire t) }
    if (c.locks mutex).holder = none then
      .ok { c' with uses := restage c.uses ⟨t, buf, .locking⟩ .holding }
    else .ok c'
  | .fill _ buf =>
    .ok { c with bio := bioFill c.bio buf (c.bio.get buf .device) (c.bio.get buf .block) (c.bio.get buf .size) }
  | .modify _ buf bytes =>
    .ok { c with bio :=
      { c.bio with mem := memcpy c.bio.mem (c.bio.get buf .buffer) bytes 0 (c.bio.get buf .size) } }
  | .drop t buf =>
    .ok { c with bio := dropRef c.bio buf, uses := restage c.uses ⟨t, buf, .holding⟩ .leaving }
  | .unlock t buf =>
    let mutex := c.bio.get buf .mutex
    let uses := c.uses.erase ⟨t, buf, .leaving⟩
    let c' := { c with locks := Function.update c.locks mutex (c.locks mutex).release }
    match (c.locks mutex).queue with
    | [] => .ok { c' with uses := uses }
    | t' :: _ => .ok { c' with uses := restage uses ⟨t', buf, .locking⟩ .holding }
  | .other junk =>
    .ok { c with bio := { c.bio with
      mem := fun x => if ∃ r ∈ c.bio.allocated, Inside r x then c.bio.mem x else junk x } }

/-- The task is in no call. -/
def Idle (c : TasksSys) (t : ℕ) : Prop := ∀ u ∈ c.uses, u.task = t → u.stage = .holding

instance (c : TasksSys) (t : ℕ) : Decidable (Idle c t) :=
  inferInstanceAs (Decidable (∀ u ∈ c.uses, u.task = t → u.stage = .holding))

/-- A task does one thing after the other, `bio_head.mutex` is held by the task in the loop, and there
are fewer references than 32 bits can count. -/
def BufOp.Legal (c : TasksSys) : BufOp → Prop
  | .get t h device block size => Idle c t ∧ c.missing = none ∧ h.Fresh c.bio size ∧ device < 2 ^ 32 ∧
      block < 2 ^ 32 ∧ c.uses.length + 1 < 2 ^ 32
  | .evict t _ => c.missing.map Prod.fst = some t
  | .lock t buf => ⟨t, buf, .locking⟩ ∈ c.uses ∧ t ∉ (c.locks (c.bio.get buf .mutex)).queue
  | .fill t buf | .modify t buf _ => ⟨t, buf, .holding⟩ ∈ c.uses ∧ Idle c t
  | .drop t buf => ⟨t, buf, .holding⟩ ∈ c.uses ∧ Idle c t ∧ c.missing = none
  | .unlock t buf => ⟨t, buf, .leaving⟩ ∈ c.uses
  | .other _ => True

instance (c : TasksSys) : (op : BufOp) → Decidable (op.Legal c)
  | .get _ _ _ _ _ | .lock _ _ | .drop _ _ => inferInstanceAs (Decidable (_ ∧ _))
  | .evict _ _ => inferInstanceAs (Decidable (_ = _))
  | .fill _ _ | .modify _ _ _ => inferInstanceAs (Decidable (_ ∧ _))
  | .unlock _ _ => inferInstanceAs (Decidable (_ ∈ _))
  | .other _ => inferInstanceAs (Decidable True)

/-- A step that does not abort. -/
def BufMove (c : TasksSys) (op : BufOp) (c' : TasksSys) : Prop := op.Legal c ∧ bufStep c op = .ok c'

def tasksBoot (s : BioState) : TasksSys := ⟨s, fun _ => ⟨none, []⟩, [], none⟩

/-- Nobody is leaving the buffer that `bio_evict` will free, and a buffer that goes back to the list has
no `prev`. -/
def BufOp.Spares (c : TasksSys) : BufOp → Prop
  | .evict _ _ => ∀ u ∈ c.uses, u.stage = .leaving → u.buf ≠ c.bio.ltail
  | .drop _ buf => c.bio.get buf .refCount = 1 → c.bio.get buf .prev = 0
  | _ => True

instance (c : TasksSys) : (op : BufOp) → Decidable (op.Spares c)
  | .evict _ _ => inferInstanceAs (Decidable (∀ u ∈ c.uses, u.stage = .leaving → u.buf ≠ c.bio.ltail))
  | .drop _ buf => inferInstanceAs (Decidable (c.bio.get buf .refCount = 1 → c.bio.get buf .prev = 0))
  | .get _ _ _ _ _ | .lock _ _ | .fill _ _ | .modify _ _ _ | .unlock _ _ | .other _ =>
    inferInstanceAs (Decidable True)

/-- The memory of a buffer, its mutex and its data. -/
def piecesOf (s : BioState) (buf : ℕ) : List (ℕ × ℕ) :=
  [(buf, sizeofBuf), (s.get buf .mutex, sizeofSem), (s.get buf .buffer, s.get buf .size)]

/-! ## The sections on the cache -/

variable {s s' : BioState} {live new : Set ℕ} {cell cell' : ℕ → Cell} {l : List ℕ} {m : UInt64 → Option ℕ}
  {p q : ℕ}

/-- The cells after the count of `p` was set to `n`. -/
def setRef (cell : ℕ → Cell) (p n : ℕ) : ℕ → Cell :=
  Function.update cell p ((cell p).setField .refCount n)

theorem setRef_field {n : ℕ} {f : Field} (hf : f ≠ .refCount) :
    (setRef cell p n q).field f = (cell q).field f :=
  update_congr (fun d => d.field f) (Function.update_of_ne hf _ _)

theorem setRef_refCount {n : ℕ} :
    (setRef cell p n q).field .refCount = if q = p then n else (cell q).field .refCount := by
  split_ifs with e
  · rw [e, setRef, Function.update_self, setField_field, Function.update_self]
  · rw [setRef, Function.update_of_ne e]

theorem setRef_kept {n : ℕ} : Kept cell (setRef cell p n) q :=
  ⟨update_congr Cell.data rfl, fun _ hf _ _ => setRef_field hf⟩

theorem Stored.setRef_rep (h : Stored s live new cell l m) (hp : p ∈ live) {n : ℕ} (hn : n < 2 ^ 32) :
    Rep (s.set p .refCount n).mem (s.set p .refCount n).allocated live (setRef cell p n) ∧
      LruList (s.set p .refCount n) (setRef cell p n) l := by
  refine ⟨?_, ?_⟩
  · have := h.rep.set hp (show ¬ Field.refCount.Fixed by simp [Field.Fixed]) n
    rwa [u32_of_lt hn] at this
  · unfold LruList
    simp only [setRef_field (show Field.next ≠ .refCount by decide),
      setRef_field (show Field.prev ≠ .refCount by decide)]
    exact h.lru

theorem getHit_spec {size : ℕ} (h : Stored s live ∅ cell l m) (hp : p ∈ live)
    (hn : (cell p).field .refCount + 1 < 2 ^ 32) (hok : getHit s p size = .ok s') :
    ∃ cell' l', Stored s' live ∅ cell' l' m ∧ (∀ q ∈ live, Kept cell cell' q) ∧
      ∀ q ∈ live, (cell' q).field .refCount =
        if q = p then (cell p).field .refCount + 1 else (cell q).field .refCount := by
  obtain ⟨hrep, hlru⟩ := h.setRef_rep hp hn
  rw [getHit, h.get hp, h.get hp] at hok
  dsimp only at hok
  split_ifs at hok with hsz h₀
  · obtain ⟨l₁, l₂, rfl⟩ := List.append_of_mem ((h.unref p).mpr ⟨hp, h₀⟩)
    rcases bioRemove_spec hrep hlru h.lru_live with ⟨-, -, he⟩ | ⟨s₁, c₁, he, hrep₁, hl₁, hsame, _⟩
    · rw [he] at hok
      cases hok
    rw [he] at hok
    cases hok
    have hkept : ∀ q ∈ live, Kept cell c₁ q := fun q hq => setRef_kept.trans (hsame.kept (h.rep.ne_zero hq))
    have href : ∀ q ∈ live, (c₁ q).field .refCount =
        if q = p then (cell p).field .refCount + 1 else (cell q).field .refCount := fun q hq =>
      (hsame.refCount (h.rep.ne_zero hq)).trans setRef_refCount
    have hnot : p ∉ l₁ ++ l₂ := (List.nodup_cons.mp (List.perm_middle.nodup_iff.mp h.lru.forth.nodup)).1
    refine ⟨c₁, l₁ ++ l₂, h.change hrep₁ hsame.table hl₁ (fun q hq => (hkept q hq).key) (fun q => ?_)
      (fun q hq => hq.elim), hkept, href⟩
    by_cases hqp : q = p
    · subst hqp
      refine iff_of_false hnot fun e => ?_
      rw [href q hp, if_pos rfl] at e
      exact absurd e.2 (Nat.succ_ne_zero _)
    · have hmem : q ∈ l₁ ++ l₂ ↔ q ∈ l₁ ++ p :: l₂ := by
        rw [List.perm_middle.mem_iff, List.mem_cons, or_iff_right hqp]
      rw [hmem, h.unref]
      refine and_congr_right fun hq => ?_
      rw [href q hq, if_neg hqp]
  · cases hok
    refine ⟨_, l, h.change hrep rfl hlru (fun q _ => setRef_kept.key) (fun q => ?_) (fun q hq => hq.elim),
      fun q _ => setRef_kept, fun q _ => setRef_refCount⟩
    rw [h.unref]
    refine and_congr_right fun _ => ?_
    rw [setRef_refCount]
    split_ifs with e
    · subst e
      exact iff_of_false h₀ id
    · rfl

/-- A buffer loses a reference; if it was the last one it goes to the front of the list. -/
theorem dropRef_spec (h : Stored s live ∅ cell l m) (hp : p ∈ live) {n : ℕ}
    (hn : (cell p).field .refCount = n + 1) (hprev : n = 0 → (cell p).field .prev = 0) :
    ∃ cell' l', Stored (dropRef s p) live ∅ cell' l' m ∧ (∀ q ∈ live, Kept cell cell' q) ∧
      ∀ q ∈ live, (cell' q).field .refCount = if q = p then n else (cell q).field .refCount := by
  have hlt := h.rep.field_lt hp .refCount
  rw [hn] at hlt
  obtain ⟨hrep, hlru⟩ := h.setRef_rep hp (show n < 2 ^ 32 by omega)
  have hsub : sub32 (n + 1) 1 = n := by
    simp only [sub32]
    omega
  have hpl : p ∉ l := fun e => by
    rw [((h.unref p).mp e).2] at hn
    cases hn
  rw [dropRef, h.get hp, hn, hsub]
  split_ifs with h₀
  · subst h₀
    obtain ⟨c₁, hrep₁, hl₁, hsame, _⟩ := pushFront_spec hrep hlru h.lru_live hp hpl
      ((setRef_field (by decide)).trans (hprev rfl))
    have hkept : ∀ q ∈ live, Kept cell c₁ q := fun q hq => setRef_kept.trans (hsame.kept (h.rep.ne_zero hq))
    have href : ∀ q ∈ live, (c₁ q).field .refCount = if q = p then 0 else (cell q).field .refCount :=
      fun q hq => (hsame.refCount (h.rep.ne_zero hq)).trans setRef_refCount
    refine ⟨c₁, p :: l, h.change hrep₁ hsame.table hl₁ (fun q hq => (hkept q hq).key) (fun q => ?_)
      (fun q hq => hq.elim), hkept, href⟩
    rw [List.mem_cons, h.unref]
    by_cases hqp : q = p
    · subst hqp
      exact iff_of_true (.inl rfl) ⟨hp, by rw [href q hp, if_pos rfl]⟩
    · rw [or_iff_right hqp]
      refine and_congr_right fun hq => ?_
      rw [href q hq, if_neg hqp]
  · refine ⟨_, l, h.change hrep rfl hlru (fun q _ => setRef_kept.key) (fun q => ?_) (fun q hq => hq.elim),
      fun q _ => setRef_kept, fun q _ => setRef_refCount⟩
    rw [h.unref]
    refine and_congr_right fun _ => ?_
    rw [setRef_refCount]
    split_ifs with e
    · subst e
      rw [hn]
      exact iff_of_false (Nat.succ_ne_zero _) h₀
    · rfl

/-! ## Uses -/

/-- The use holds a reference to `p`. -/
def Use.Counts (p : ℕ) (u : Use) : Bool := u.buf = p && u.stage ≠ .leaving

theorem countP_restage {uses : List Use} {u : Use} {stage : Stage} (hu : u.stage ≠ .leaving)
    (hs : stage ≠ .leaving) (p : ℕ) : (restage uses u stage).countP (Use.Counts p) = uses.countP (Use.Counts p) := by
  rw [restage]
  split_ifs with hmem
  · rw [(List.perm_cons_erase hmem).countP_eq, List.countP_cons, List.countP_cons]
    simp [Use.Counts, hu, hs]
  · rfl

theorem restage_subset {uses : List Use} {u v : Use} {stage : Stage} (hv : v ∈ restage uses u stage) :
    ∃ w ∈ uses, w.buf = v.buf := by
  rw [restage] at hv
  split_ifs at hv with hmem
  · rcases List.mem_cons.mp hv with rfl | hv
    · exact ⟨u, hmem, rfl⟩
    · exact ⟨v, List.mem_of_mem_erase hv, rfl⟩
  · exact ⟨v, hv, rfl⟩

theorem length_restage {uses : List Use} {u : Use} {stage : Stage} :
    (restage uses u stage).length = uses.length := by
  rw [restage]
  split_ifs with hmem
  · rw [(List.perm_cons_erase hmem).length_eq, List.length_cons, List.length_cons]
  · rfl

/-- The buffer of the task in the loop. -/
def newBufs (missing : Option (ℕ × ℕ × UInt64)) : Set ℕ := { p | ∃ t key, missing = some (t, p, key) }

theorem newBufs_none : newBufs none = ∅ := by
  simp [newBufs]

theorem newBufs_some (t p : ℕ) (key : UInt64) : newBufs (some (t, p, key)) = {p} := by
  ext q
  simp [newBufs, eq_comm]

/-- **The uses count the references**, and all their buffers are there. -/
structure UseInv (c : TasksSys) (live : Set ℕ) (cell : ℕ → Cell) (l : List ℕ) (m : UInt64 → Option ℕ) :
    Prop where
  stored : Stored c.bio live (newBufs c.missing) cell l m
  missing : ∀ t p key, c.missing = some (t, p, key) → (cell p).key = key ∧ m key = none
  used : ∀ u ∈ c.uses, u.buf ∈ live
  counts : ∀ p ∈ live, (cell p).field .refCount = c.uses.countP (Use.Counts p)
  few : c.uses.length < 2 ^ 32

/-- What a step keeps: the invariant, and the memory of the buffers in use. -/
def Spared (c c' : TasksSys) (cell : ℕ → Cell) : Prop :=
  ∃ live' cell' l' m', UseInv c' live' cell' l' m' ∧
    ∀ u ∈ c.uses, u.buf ∈ live' ∧ (cell' u.buf).pieces u.buf = (cell u.buf).pieces u.buf

theorem Kept.pieces (h : Kept cell cell' p) : (cell' p).pieces p = (cell p).pieces p := by
  simp only [Cell.pieces, h.field .mutex (by decide) (by decide) (by decide),
    h.field .buffer (by decide) (by decide) (by decide), h.field .size (by decide) (by decide) (by decide)]

variable {c c' : TasksSys}

namespace UseInv

variable (h : UseInv c live cell l m)
include h

theorem allocated {u : Use} (hu : u ∈ c.uses) : ∀ r ∈ (cell u.buf).pieces u.buf, r ∈ c.bio.allocated :=
  fun r hr => (h.stored.rep.allocated r).mpr ⟨u.buf, h.used u hu, hr⟩

theorem piecesOf_eq {u : Use} (hu : u ∈ c.uses) : piecesOf c.bio u.buf = (cell u.buf).pieces u.buf := by
  have hp := h.used u hu
  rw [piecesOf, h.stored.get hp, h.stored.get hp, h.stored.get hp]
  rfl

/-- The list sees nothing of a change of the uses that keeps the counts. -/
theorem of_uses {locks : ℕ → KLib.Mutex ℕ} {uses : List Use} (hbuf : ∀ u ∈ uses, ∃ w ∈ c.uses, w.buf = u.buf)
    (hcount : ∀ p, uses.countP (Use.Counts p) = c.uses.countP (Use.Counts p))
    (hlen : uses.length ≤ c.uses.length) :
    Spared c { c with locks := locks, uses := uses } cell := by
  refine ⟨live, cell, l, m, ⟨h.stored, h.missing, fun u hu => ?_, fun p hp => ?_, hlen.trans_lt h.few⟩,
    fun u hu => ⟨h.used u hu, rfl⟩⟩
  · obtain ⟨w, hw, e⟩ := hbuf u hu
    exact e ▸ h.used w hw
  · rw [h.counts p hp]
    exact (hcount p).symm

theorem of_data {s' : BioState} (hrep : Rep s'.mem s'.allocated live cell') (ht : s'.table = c.bio.table)
    (hhead : s'.lhead = c.bio.lhead) (htail : s'.ltail = c.bio.ltail)
    (hf : ∀ q f, f ≠ .valid → (cell' q).field f = (cell q).field f) : Spared c { c with bio := s' } cell := by
  have hkey : ∀ q, (cell' q).key = (cell q).key := fun q => by
    unfold Cell.key
    rw [hf q .device (by decide), hf q .block (by decide)]
  have href : ∀ q, (cell' q).field .refCount = (cell q).field .refCount := fun q => hf q _ (by decide)
  have hlru : LruList s' cell' l := by
    unfold LruList
    rw [hhead, htail, funext fun x => hf x .next (by decide), funext fun x => hf x .prev (by decide)]
    exact h.stored.lru
  refine ⟨live, cell', l, m, ⟨h.stored.change hrep ht hlru (fun q _ => hkey q) (fun q => ?_) (fun q hq => ?_),
    fun t p key hm => ?_, h.used, fun p hp => ?_, h.few⟩, fun u hu => ⟨h.used u hu, ?_⟩⟩
  · rw [href]
    exact h.stored.unref q
  · rw [href]
    exact (h.stored.fresh q hq).2
  · rw [hkey]
    exact h.missing t p key hm
  · rw [href]
    exact h.counts p hp
  · simp only [Cell.pieces, hf _ .mutex (by decide), hf _ .buffer (by decide), hf _ .size (by decide)]

theorem hit {t size : ℕ} (hmiss : c.missing = none) (hp : p ∈ live) (hfew : c.uses.length + 1 < 2 ^ 32)
    {s' : BioState} (hok : getHit c.bio p size = .ok s') :
    Spared c { c with bio := s', uses := ⟨t, p, .locking⟩ :: c.uses } cell := by
  have hst := h.stored
  rw [hmiss, newBufs_none] at hst
  have hle : (cell p).field .refCount ≤ c.uses.length := by
    rw [h.counts p hp]
    exact List.countP_le_length
  obtain ⟨cell', l', hst', hkept, href⟩ := getHit_spec hst hp (by omega) hok
  rw [← newBufs_none, ← hmiss] at hst'
  refine ⟨live, cell', l', m, ⟨hst', fun t p key hm => ?_, ?_, fun q hq => ?_, hfew⟩,
    fun u hu => ⟨h.used u hu, (hkept _ (h.used u hu)).pieces⟩⟩
  · rw [hmiss] at hm
    cases hm
  · exact List.forall_mem_cons.mpr ⟨hp, h.used⟩
  · rw [href q hq, List.countP_cons, ← h.counts q hq]
    by_cases e : q = p
    · simp [e, Use.Counts]
    · simp [e, Ne.symm e, Use.Counts]

theorem miss {t device block size : ℕ} {hp : Heap} (hmiss : c.missing = none) (hfew : c.uses.length + 1 < 2 ^ 32)
    (hf : hp.Fresh c.bio size) (hd : device < 2 ^ 32) (hb : block < 2 ^ 32)
    (hm : m (bioKey device block) = none) {locks : ℕ → KLib.Mutex ℕ} {ret : ℤ} {s' : BioState}
    (hok : bioSet (bioAlloc c.bio hp device block size) (bioKey device block) hp.buf = .ok (ret, s')) :
    (ret = 0 → Spared c { c with bio := s', locks := locks, uses := ⟨t, hp.buf, .locking⟩ :: c.uses } cell) ∧
      (ret ≠ 0 → Spared c { c with
        bio := s'
        locks := locks
        uses := ⟨t, hp.buf, .missing⟩ :: c.uses
        missing := some (t, hp.buf, bioKey device block) } cell) := by
  have hst := h.stored
  rw [hmiss, newBufs_none] at hst
  obtain ⟨data, hst₁⟩ := hst.alloc hf hd hb
  have hnot := hst.rep.not_mem_of_fresh hf
  have hne : ∀ q ∈ live, q ≠ hp.buf := fun q hq e => hnot (e ▸ hq)
  have hold : ∀ q ∈ live, Function.update cell hp.buf (newCell hp device block size data) q = cell q :=
    fun q hq => Function.update_of_ne (hne q hq) _ _
  have hself : Function.update cell hp.buf (newCell hp device block size data) hp.buf =
      newCell hp device block size data := Function.update_self ..
  have hkey : (Function.update cell hp.buf (newCell hp device block size data) hp.buf).key =
      bioKey device block := by
    rw [hself]
    rfl
  have hzero : c.uses.countP (Use.Counts hp.buf) = 0 := by
    refine List.countP_eq_zero.mpr fun u hu hc => hnot ?_
    simp only [Use.Counts, Bool.and_eq_true, decide_eq_true_eq] at hc
    exact hc.1 ▸ h.used u hu
  have hcounts : ∀ stage ≠ .leaving, ∀ q ∈ insert hp.buf live,
      (Function.update cell hp.buf (newCell hp device block size data) q).field .refCount =
        (⟨t, hp.buf, stage⟩ :: c.uses).countP (Use.Counts q) := by
    intro stage hstage q hq
    rw [List.countP_cons]
    by_cases e : q = hp.buf
    · rw [e, hself, hzero]
      simp [Use.Counts, hstage, newCell, newField]
    · have hql : q ∈ live := hq.resolve_left e
      rw [hold q hql, h.counts q hql]
      simp [Use.Counts, Ne.symm e]
  have hused : ∀ stage, ∀ u ∈ (⟨t, hp.buf, stage⟩ :: c.uses : List Use), u.buf ∈ insert hp.buf live :=
    fun stage => List.forall_mem_cons.mpr ⟨.inl rfl, fun u hu => .inr (h.used u hu)⟩
  have hpieces : ∀ u ∈ c.uses, u.buf ∈ insert hp.buf live ∧
      (Function.update cell hp.buf (newCell hp device block size data) u.buf).pieces u.buf =
        (cell u.buf).pieces u.buf := fun u hu => ⟨.inr (h.used u hu), by rw [hold _ (h.used u hu)]⟩
  have hm₁ := hm
  rw [← hkey] at hm₁ hok
  rcases hst₁.set hm₁ with ⟨-, hfull⟩ | ⟨s₂, hset, hst₂, -⟩
  · rw [hfull] at hok
    cases hok
    rw [← newBufs_some t hp.buf (bioKey device block)] at hst₁
    refine ⟨fun e => absurd e (by decide), fun _ => ⟨_, _, l, m, ⟨hst₁, fun t' p' key' e => ?_, hused _,
      hcounts _ (by decide), hfew⟩, hpieces⟩⟩
    cases e
    exact ⟨hkey, hm⟩
  · rw [hset] at hok
    cases hok
    rw [← newBufs_none, ← hmiss] at hst₂
    refine ⟨fun _ => ⟨_, _, l, _, ⟨hst₂, fun t' p' key' e => ?_, hused _, hcounts _ (by decide), hfew⟩,
      hpieces⟩, fun e => absurd rfl e⟩
    rw [hmiss] at e
    cases e

/-- **A round of the loop** frees a buffer that nobody uses. -/
theorem evict {t buf : ℕ} {key : UInt64} {junk : Mem} (hmiss : c.missing = some (t, buf, key))
    (hgood : ∀ u ∈ c.uses, u.stage = .leaving → u.buf ≠ c.bio.ltail) {ret : ℤ} {s₁ s' : BioState}
    (hev : bioEvict junk c.bio = .ok s₁) (hset : bioSet s₁ key buf = .ok (ret, s')) :
    (ret ≠ 0 → Spared c { c with bio := s' } cell) ∧
      (ret = 0 → Spared c { c with
        bio := s'
        uses := restage c.uses ⟨t, buf, .missing⟩ .locking
        missing := none } cell) := by
  have hst := h.stored
  rw [hmiss, newBufs_some] at hst
  obtain ⟨hkey, hm⟩ := h.missing t buf key hmiss
  rcases List.eq_nil_or_concat l with rfl | ⟨l₁, p, rfl⟩
  · have htail : c.bio.ltail = 0 := hst.lru.back
    rw [bioEvict, if_pos htail] at hev
    cases hev
  rw [List.concat_eq_append] at hst
  have htail : c.bio.ltail = p := by rw [hst.lru.tail_eq, lastOr_concat]
  rcases hst.evict junk with ⟨-, he⟩ | ⟨s₂, c₂, he, -, hst₂, -, -, hsame⟩
  · rw [he] at hev
    cases hev
  obtain rfl : s₂ = s₁ := Except.ok.inj (he.symm.trans hev)
  obtain ⟨hpl, hp₀⟩ := (hst.unref p).mp (List.mem_append_right _ List.mem_cons_self)
  have hfree : ∀ u ∈ c.uses, u.buf ≠ p := by
    intro u hu e
    by_cases hs : u.stage = .leaving
    · exact hgood u hu hs (e.trans htail.symm)
    · rw [h.counts p hpl, List.countP_eq_zero] at hp₀
      exact hp₀ u hu (by simp [Use.Counts, e, hs])
  have hused : ∀ u ∈ c.uses, u.buf ∈ live \ {p} := fun u hu => ⟨h.used u hu, hfree u hu⟩
  have hpieces : ∀ u ∈ c.uses, u.buf ∈ live \ {p} ∧ (c₂ u.buf).pieces u.buf = (cell u.buf).pieces u.buf :=
    fun u hu => ⟨hused u hu, (hsame _ (h.used u hu)).2.2.pieces⟩
  have hcounts : ∀ q ∈ live \ {p}, (c₂ q).field .refCount = c.uses.countP (Use.Counts q) := fun q hq =>
    (hsame q hq.1).2.1.trans (h.counts q hq.1)
  have hbuf : buf ∈ live \ {p} := (hst₂.fresh buf rfl).1
  have hkey₂ : (c₂ buf).key = key := (hsame buf hbuf.1).2.2.key.trans hkey
  have hm₂ : Function.update m (cell p).key none (c₂ buf).key = none := by
    rw [hkey₂]
    by_cases e : key = (cell p).key
    · rw [e, Function.update_self]
    · rw [Function.update_of_ne e, hm]
  rcases hst₂.set hm₂ with ⟨-, hfull⟩ | ⟨s₃, hok, hst₃, -⟩
  · rw [← hkey₂, hfull] at hset
    cases hset
    rw [← newBufs_some t buf key, ← hmiss] at hst₂
    refine ⟨fun _ => ⟨_, c₂, l₁, _, ⟨hst₂, fun t' p' key' e => ?_, hused, hcounts, h.few⟩, hpieces⟩,
      fun e => absurd e (by decide)⟩
    cases hmiss.symm.trans e
    exact ⟨hkey₂, hkey₂ ▸ hm₂⟩
  · rw [← hkey₂, hok] at hset
    cases hset
    rw [← newBufs_none] at hst₃
    refine ⟨fun e => absurd rfl e, fun _ => ⟨_, c₂, l₁, _, ⟨hst₃, fun t' p' key' e => ?_, fun u hu => ?_,
      fun q hq => ?_, ?_⟩, hpieces⟩⟩
    · cases e
    · obtain ⟨w, hw, e⟩ := restage_subset hu
      exact e ▸ hused w hw
    · rw [hcounts q hq]
      exact (countP_restage (by simp) (by simp) q).symm
    · change (restage _ _ _).length < _
      rw [length_restage]
      exact h.few

theorem drop {t : ℕ} (hmiss : c.missing = none) (hu : ⟨t, p, .holding⟩ ∈ c.uses)
    (hgood : c.bio.get p .refCount = 1 → c.bio.get p .prev = 0) :
    Spared c { c with bio := dropRef c.bio p, uses := restage c.uses ⟨t, p, .holding⟩ .leaving } cell := by
  have hp : p ∈ live := h.used _ hu
  have hst := h.stored
  rw [hmiss, newBufs_none] at hst
  rw [hst.get hp, hst.get hp] at hgood
  have huses : restage c.uses ⟨t, p, .holding⟩ .leaving = ⟨t, p, .leaving⟩ :: c.uses.erase ⟨t, p, .holding⟩ :=
    if_pos hu
  have hcount : ∀ q, c.uses.countP (Use.Counts q) =
      (restage c.uses ⟨t, p, .holding⟩ .leaving).countP (Use.Counts q) + if q = p then 1 else 0 := by
    intro q
    rw [huses, (List.perm_cons_erase hu).countP_eq, List.countP_cons, List.countP_cons]
    by_cases e : q = p
    · simp [Use.Counts, e]
    · simp [Use.Counts, e, Ne.symm e]
  have hn : (cell p).field .refCount =
      (restage c.uses ⟨t, p, .holding⟩ .leaving).countP (Use.Counts p) + 1 := by
    rw [h.counts p hp, hcount p, if_pos rfl]
  obtain ⟨cell', l', hst', hkept, href⟩ := dropRef_spec hst hp hn fun e => hgood (by rw [hn, e])
  generalize dropRef c.bio p = s' at hst' ⊢
  rw [← newBufs_none, ← hmiss] at hst'
  refine ⟨live, cell', l', m, ⟨hst', fun t p key hm => ?_, fun u hu => ?_, fun q hq => ?_, ?_⟩,
    fun u hu => ⟨h.used u hu, (hkept _ (h.used u hu)).pieces⟩⟩
  · rw [hmiss] at hm
    cases hm
  · obtain ⟨w, hw, e⟩ := restage_subset hu
    exact e ▸ h.used w hw
  · rw [href q hq]
    split_ifs with e
    · rw [e]
    · rw [h.counts q hq, hcount q, if_neg e, Nat.add_zero]
  · change (restage _ _ _).length < _
    rw [length_restage]
    exact h.few

/-- **A step** of a run that spares the buffers being left. -/
theorem step {op : BufOp} (hl : op.Legal c) (hg : op.Spares c) (hs : bufStep c op = .ok c') :
    Spared c c' cell := by
  cases op with
  | get t hp device block size =>
    obtain ⟨-, hmiss, hf, hd, hb, hfew⟩ := hl
    rw [bufStep] at hs
    dsimp only at hs
    rw [h.stored.table.get] at hs
    cases hm : m (bioKey device block) with
    | some p =>
      rw [hm] at hs
      obtain ⟨s', hok, hs⟩ := eq_ok_of_bind hs
      cases hs
      exact h.hit hmiss ((h.stored.cached _ p).mp hm).1 hfew hok
    | none =>
      rw [hm] at hs
      obtain ⟨⟨ret, s'⟩, hok, hs⟩ := eq_ok_of_bind hs
      dsimp only at hs
      split_ifs at hs with e
      · cases hs
        exact (h.miss hmiss hfew hf hd hb hm hok).1 e
      · cases hs
        exact (h.miss hmiss hfew hf hd hb hm hok).2 e
  | evict t junk =>
    rw [bufStep] at hs
    cases hmiss : c.missing with
    | none =>
      rw [BufOp.Legal, hmiss] at hl
      cases hl
    | some w =>
      obtain ⟨t', buf, key⟩ := w
      rw [hmiss] at hs
      obtain ⟨s₁, hev, hs⟩ := eq_ok_of_bind hs
      obtain ⟨⟨ret, s'⟩, hset, hs⟩ := eq_ok_of_bind hs
      obtain ⟨h₁, h₀⟩ := h.evict hmiss hg hev hset
      rw [hmiss] at h₁
      dsimp only at hs
      split_ifs at hs with e e'
      · cases hs
        exact h₁ e.1
      · cases hs
        exact h₀ e'
  | lock t buf =>
    rw [bufStep] at hs
    dsimp only at hs
    split_ifs at hs with e
    · cases hs
      exact h.of_uses (fun u hu => restage_subset hu) (countP_restage (by simp) (by simp)) length_restage.le
    · cases hs
      exact h.of_uses (fun u hu => ⟨u, hu, rfl⟩) (fun _ => rfl) le_rfl
  | fill t buf =>
    have hp := h.used _ hl.1
    obtain rfl := Except.ok.inj hs
    rw [bioFill, h.stored.get hp, h.stored.get hp, h.stored.get hp, h.stored.get hp]
    split_ifs with hv
    · have hrep := (h.stored.rep.setData hp (c.bio.disk ((cell buf).field .device % 2 ^ 8))
        (u32 ((cell buf).field .block * (cell buf).field .size))).set hp
          (show ¬ Field.valid.Fixed by simp [Field.Fixed]) 1
      rw [Function.update_self, Function.update_idem] at hrep
      rw [h.stored.get hp]
      refine h.of_data hrep rfl rfl rfl fun q f hf => update_congr (fun d => d.field f) ?_
      exact Function.update_of_ne hf _ _
    · exact h.of_uses (fun u hu => ⟨u, hu, rfl⟩) (fun _ => rfl) le_rfl
  | modify t buf bytes =>
    have hp := h.used _ hl.1
    cases hs
    rw [h.stored.get hp, h.stored.get hp]
    exact h.of_data (h.stored.rep.setData hp bytes 0) rfl rfl rfl
      fun q f _ => update_congr (fun d => d.field f) rfl
  | drop t buf =>
    obtain rfl := Except.ok.inj hs
    exact h.drop hl.2.2 hl.1 hg
  | unlock t buf =>
    have hsub : ∀ u ∈ c.uses.erase ⟨t, buf, .leaving⟩, u ∈ c.uses := fun u hu => List.mem_of_mem_erase hu
    have hcount : ∀ p, (c.uses.erase ⟨t, buf, .leaving⟩).countP (Use.Counts p) = c.uses.countP (Use.Counts p) :=
      fun p => by
        rw [(List.perm_cons_erase hl).countP_eq, List.countP_cons]
        simp [Use.Counts]
    have hlen : (c.uses.erase ⟨t, buf, .leaving⟩).length ≤ c.uses.length := List.length_erase_le
    rw [bufStep] at hs
    dsimp only at hs
    split at hs
    · cases hs
      exact h.of_uses (fun u hu => ⟨u, hsub u hu, rfl⟩) hcount hlen
    · cases hs
      refine h.of_uses (fun u hu => ?_) (fun p => ?_) (length_restage.le.trans hlen)
      · obtain ⟨w, hw, e⟩ := restage_subset hu
        exact ⟨w, hsub w hw, e⟩
      · rw [countP_restage (by simp) (by simp), hcount]
  | other junk =>
    cases hs
    exact h.of_data (h.stored.rep.other junk) rfl rfl rfl fun _ _ _ => rfl

end UseInv

/-! ## Runs -/

theorem useInv_boot {mem : Mem} {disk : ℕ → ℕ → UInt8} (h₀ : bioInit mem disk = some s) :
    UseInv (tasksBoot s) ∅ (cellAt mem) [] (fun _ => none) := by
  have hst : Stored s ∅ ∅ (cellAt mem) [] fun _ => none := (sysInv_boot h₀).1.inv.stored
  refine ⟨?_, fun _ _ _ e => (by cases e), fun _ hu => (by cases hu), fun _ hp => hp.elim,
    show 0 < 2 ^ 32 by decide⟩
  rw [show newBufs (tasksBoot s).missing = ∅ from newBufs_none]
  exact hst

/-- **No buffer in use is freed.** In every run of any number of tasks in which `bio_evict` never finds
the last buffer of the list being left, and no buffer goes back to the list with a `prev`, the memory of
every buffer in use, of its mutex and of its data is allocated, and stays so in the next such step. -/
theorem evict_spares_used {mem : Mem} {disk : ℕ → ℕ → UInt8} (h₀ : bioInit mem disk = some s)
    {ops : List BufOp} (hrun : Run (fun c op c' => BufMove c op c' ∧ op.Spares c) (tasksBoot s) ops c)
    {op : BufOp} (hs : BufMove c op c') (hg : op.Spares c) {u : Use} (hu : u ∈ c.uses) :
    ∀ r ∈ piecesOf c.bio u.buf, r ∈ c.bio.allocated ∧ r ∈ c'.bio.allocated := by
  have hinv : ∃ live cell l m, UseInv c live cell l m := by
    refine hrun.invariant (I := fun c => ∃ live cell l m, UseInv c live cell l m) ?_
      ⟨∅, _, [], _, useInv_boot h₀⟩
    rintro c op c' ⟨live, cell, l, m, h⟩ ⟨hs, hg⟩
    obtain ⟨live', cell', l', m', h', _⟩ := h.step hs.1 hg hs.2
    exact ⟨live', cell', l', m', h'⟩
  obtain ⟨live, cell, l, m, h⟩ := hinv
  obtain ⟨live', cell', l', m', h', hkept⟩ := h.step hs.1 hg hs.2
  obtain ⟨hlive, hpieces⟩ := hkept u hu
  intro r hr
  rw [h.piecesOf_eq hu] at hr
  exact ⟨h.allocated hu r hr, (h'.stored.rep.allocated r).mpr ⟨u.buf, hlive, hpieces ▸ hr⟩⟩

/-- A step of a run that meets `P`. -/
def bufRun (P : TasksSys → BufOp → Prop) [∀ c op, Decidable (P c op)] (c : TasksSys) (op : BufOp) :
    Option TasksSys :=
  if op.Legal c ∧ P c op then (bufStep c op).toOption else none

theorem bufRun_move {P : TasksSys → BufOp → Prop} [∀ c op, Decidable (P c op)] (c : TasksSys) (op : BufOp)
    (c' : TasksSys) (h : bufRun P c op = some c') : BufMove c op c' ∧ P c op := by
  rw [bufRun] at h
  split_ifs at h with hc
  refine ⟨⟨hc.1, ?_⟩, hc.2⟩
  cases he : bufStep c op with
  | error e =>
    rw [he] at h
    cases h
  | ok c₁ =>
    rw [he] at h
    cases h
    rfl

/-- Tasks 0 and 1 read block 5; task 1 waits for the mutex until task 0 has released the buffer. -/
def shareDemo : List BufOp :=
  [.get 0 (demoHeap 0) 0 5 1024, .lock 0 (demoHeap 0).buf, .fill 0 (demoHeap 0).buf,
    .get 1 (demoHeap 1) 0 5 1024, .lock 1 (demoHeap 0).buf, .drop 0 (demoHeap 0).buf]

theorem evict_spares_used_demo : ∃ c c', Run (fun c op c' => BufMove c op c' ∧ op.Spares c)
      (tasksBoot demoBoot.bio) shareDemo c ∧ BufMove c (.unlock 0 (demoHeap 0).buf) c' ∧
    (⟨1, (demoHeap 0).buf, .locking⟩ : Use) ∈ c.uses ∧ ((demoHeap 0).mutex, sizeofSem) ∈ c'.bio.allocated := by
  have hl : (shareDemo.foldlM (bufRun fun c op => op.Spares c) (tasksBoot demoBoot.bio)).map
      (fun c => (decide ((⟨1, (demoHeap 0).buf, .locking⟩ : Use) ∈ c.uses),
        decide (((demoHeap 0).mutex, sizeofSem) ∈ piecesOf c.bio (demoHeap 0).buf),
        (bufRun (fun _ _ => True) c (.unlock 0 (demoHeap 0).buf)).isSome)) = some (true, true, true) := by
    decide +kernel
  obtain ⟨c, hc, hobs⟩ := Option.map_eq_some_iff.mp hl
  simp only [Prod.mk.injEq, decide_eq_true_eq, Option.isSome_iff_exists] at hobs
  obtain ⟨hu, hmutex, c', hc'⟩ := hobs
  have hrun := run_of_foldlM bufRun_move hc
  have hstep := (bufRun_move _ _ _ hc').1
  exact ⟨c, c', hrun, hstep, hu, (evict_spares_used (bioInit_eq _ _) hrun hstep trivial hu _ hmutex).2⟩

/-- Tasks 0 to 50 have found a block each; 0 is leaving its buffer when 1, which has released its own,
misses another block. -/
def leavingRun : List BufOp :=
  (List.range 51).map (fun i => .get i (demoHeap i) 0 i 1024) ++
    [.lock 0 (demoHeap 0).buf, .lock 1 (demoHeap 1).buf, .drop 0 (demoHeap 0).buf, .drop 1 (demoHeap 1).buf,
      .unlock 1 (demoHeap 1).buf, .get 1 (demoHeap 51) 0 99 1024]

/-- **A buffer is freed while a task is leaving it**: its mutex is freed before the task releases it. -/
theorem evict_frees_leaving : ∃ c c', Run (fun c op c' => BufMove c op c') (tasksBoot demoBoot.bio) leavingRun c ∧
    BufMove c (.evict 1 fun _ => 0) c' ∧ (⟨0, (demoHeap 0).buf, .leaving⟩ : Use) ∈ c'.uses ∧
    ((demoHeap 0).buf, sizeofBuf) ∉ c'.bio.allocated ∧ ((demoHeap 0).mutex, sizeofSem) ∉ c'.bio.allocated := by
  have hl : ((leavingRun.foldlM (bufRun fun _ _ => True) (tasksBoot demoBoot.bio)).bind fun c =>
      (bufRun (fun _ _ => True) c (.evict 1 fun _ => 0)).map fun c' => (c, c')).map
        (fun x => (decide ((⟨0, (demoHeap 0).buf, .leaving⟩ : Use) ∈ x.2.uses),
          decide (((demoHeap 0).buf, sizeofBuf) ∈ x.2.bio.allocated),
          decide (((demoHeap 0).mutex, sizeofSem) ∈ x.2.bio.allocated))) = some (true, false, false) := by
    decide +kernel
  obtain ⟨⟨c, c'⟩, hx, hobs⟩ := Option.map_eq_some_iff.mp hl
  obtain ⟨c₁, hc, hc'⟩ := Option.bind_eq_some_iff.mp hx
  obtain ⟨c₂, hc₂, e⟩ := Option.map_eq_some_iff.mp hc'
  cases e
  simp only [Prod.mk.injEq, decide_eq_true_eq, decide_eq_false_iff_not] at hobs
  refine ⟨c, c', ?_, (bufRun_move _ _ _ hc₂).1, hobs⟩
  exact run_of_foldlM (fun c op c' h => (bufRun_move c op c' h).1) hc

end BulbOS.Bio
