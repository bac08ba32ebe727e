import BulbOS.Bio.Run

/-!
# Coherence of the buffer cache

One task reads blocks of 1024 bytes, changes buffers, writes and releases them. A `prev` that a
buffer kept from an earlier place in the list may point to memory that was freed and given to
somebody else, and `bio_remove` writes there; the runs that never release such a buffer are coherent.

* `Coherent`: the data of a valid buffer that was not changed is the block on the disk;
* `Coherent.read`, `Coherent.modify`, `Coherent.write`, `Coherent.release`: one call;
* **`bio_read_coherent`**: all runs.
-/

namespace BulbOS.Bio

open KLib BulbOS.Task BulbOS.Sem BulbOS.Table

/-- The bytes of a block. -/
def diskBlock (disk : ℕ → ℕ → UInt8) (device block : ℕ) : List UInt8 :=
  bytesAt (disk device) (block * 1024) 1024

/-- Blocks of 1024 bytes below `2 ^ 22`, and no buffer released between a change and its `bio_write`. -/
def BioOp.Sound (k : BioSys) : BioOp → Prop
  | .read _ device block size => device < 2 ^ 8 ∧ block < 2 ^ 22 ∧ size = 1024
  | .release buf => buf ∉ k.modified
  | _ => True

instance (k : BioSys) : (op : BioOp) → Decidable (op.Sound k)
  | .read _ _ _ _ => inferInstanceAs (Decidable (_ ∧ _))
  | .release buf => inferInstanceAs (Decidable (buf ∉ k.modified))
  | .modify _ _ | .write _ | .other _ => inferInstanceAs (Decidable True)

/-- No buffer is released with a `prev` of an earlier place in the list. -/
def BioOp.PrevNull (k : BioSys) : BioOp → Prop
  | .release buf => k.bio.get buf .prev = 0
  | _ => True

instance (k : BioSys) : (op : BioOp) → Decidable (op.PrevNull k)
  | .release buf => inferInstanceAs (Decidable (k.bio.get buf .prev = 0))
  | .read _ _ _ _ | .modify _ _ | .write _ | .other _ => inferInstanceAs (Decidable True)

/-- Table, buffers and disk. -/
structure Coherent (k : BioSys) (live : Set ℕ) (c : ℕ → Cell) : Prop where
  device : ∀ p ∈ live, (c p).field .device < 2 ^ 8
  block : ∀ p ∈ live, (c p).field .block < 2 ^ 22
  size : ∀ p ∈ live, (c p).field .size = 1024
  clean : ∀ p ∈ live, p ∉ k.modified → (c p).field .valid ≠ 0 →
    (c p).data = diskBlock k.bio.disk ((c p).field .device) ((c p).field .block)
  contents : ∀ d < 2 ^ 8, ∀ b < 2 ^ 22, k.contents d b = diskBlock k.bio.disk d b
  modified : ∀ p ∈ k.modified, p ∈ k.held

variable {k k' : BioSys} {s' : BioState} {live live' : Set ℕ} {c c' : ℕ → Cell} {l l' : List ℕ}
  {m m' : UInt64 → Option ℕ} {p : ℕ}

/-- **`bio_read`** returns the bytes of the block. -/
theorem Coherent.read {device block : ℕ} (h : Coherent k live c) (hsys : SysInv k live c l m)
    (hr : ReadOk k.bio s' live live' c c' l l' p device block 1024) (hd : device < 2 ^ 8)
    (hb : block < 2 ^ 22) : Coherent { k with bio := s', held := p :: k.held } live' c' ∧
      (c' p).data = diskBlock s'.disk device block := by
  have hdata : (c' p).data = diskBlock s'.disk device block := by
    rcases hr.data with hdisk | ⟨hp, hv, hdev, hblk, hold⟩
    · rw [hdisk, Nat.mod_eq_of_lt hd, u32_of_lt (by omega), hr.disk]
      rfl
    · have hmod : p ∉ k.modified := fun hm => by
        have := ((hsys.held p).mp (h.modified p hm)).2
        rw [hr.unheld hp] at this
        cases this
      rw [hold, h.clean p hp hmod hv, hdev, hblk, hr.disk]
  refine ⟨⟨fun q hq => ?_, fun q hq => ?_, fun q hq => ?_, fun q hq hm hv => ?_, fun d hd b hb => ?_,
    fun q hq => List.mem_cons_of_mem _ (h.modified q hq)⟩, hdata⟩
  all_goals try by_cases hqp : q = p
  · rwa [hqp, hr.atDevice]
  · obtain ⟨hql, hk, _⟩ := hr.kept q hq hqp
    rw [hk.field _ (by decide) (by decide) (by decide)]
    exact h.device q hql
  · rwa [hqp, hr.atBlock]
  · obtain ⟨hql, hk, _⟩ := hr.kept q hq hqp
    rw [hk.field _ (by decide) (by decide) (by decide)]
    exact h.block q hql
  · rw [hqp, hr.ofSize]
  · obtain ⟨hql, hk, _⟩ := hr.kept q hq hqp
    rw [hk.field _ (by decide) (by decide) (by decide)]
    exact h.size q hql
  · rw [hqp, hdata, hr.atDevice, hr.atBlock]
  · obtain ⟨hql, hk, _⟩ := hr.kept q hq hqp
    rw [hk.field _ (by decide) (by decide) (by decide)] at hv
    rw [hk.data, h.clean q hql hm hv, hk.field _ (by decide) (by decide) (by decide),
      hk.field _ (by decide) (by decide) (by decide)]
    change _ = diskBlock s'.disk _ _
    rw [hr.disk]
  · change _ = diskBlock s'.disk _ _
    rw [hr.disk]
    exact h.contents d hd b hb

theorem Coherent.modify {bytes : Mem} (h : Coherent k live c) (hp : p ∈ k.held)
    (ho : ∀ q, q ≠ p → c' q = c q) (hf : (c' p).field = (c p).field)
    (hok : bioStep k (.modify p bytes) = .ok k') : Coherent k' live c' := by
  cases hok
  have hfield : ∀ q, (c' q).field = (c q).field := fun q => by
    by_cases hq : q = p
    · rw [hq, hf]
    · rw [ho q hq]
  refine ⟨fun q hq => ?_, fun q hq => ?_, fun q hq => ?_, fun q hq hm hv => ?_, h.contents, fun q hq => ?_⟩
  · rw [hfield]
    exact h.device q hq
  · rw [hfield]
    exact h.block q hq
  · rw [hfield]
    exact h.size q hq
  · have hm' : q ∉ p :: k.modified := hm
    rw [List.mem_cons, not_or] at hm'
    rw [ho q hm'.1] at hv ⊢
    exact h.clean q hq hm'.2 hv
  · rcases List.mem_cons.mp hq with rfl | hq
    exacts [hp, h.modified q hq]

theorem diskBlock_write {disk : ℕ → ℕ → UInt8} {src : Mem} {d b d' b' a : ℕ} (hne : d' ≠ d ∨ b' ≠ b) :
    diskBlock (Function.update disk d (memcpy (disk d) (b * 1024) src a 1024)) d' b' =
      diskBlock disk d' b' := by
  unfold diskBlock
  by_cases hd : d' = d
  · subst hd
    rw [Function.update_self]
    refine bytesAt_congr fun x hx => memcpy_outside fun hx' => ?_
    have hb := hne.resolve_left fun e => e rfl
    unfold Inside at hx hx'
    omega
  · rw [Function.update_of_ne hd]

theorem diskBlock_write_self {disk : ℕ → ℕ → UInt8} {src : Mem} {d b a : ℕ} :
    diskBlock (Function.update disk d (memcpy (disk d) (b * 1024) src a 1024)) d b = bytesAt src a 1024 := by
  unfold diskBlock
  rw [Function.update_self, bytesAt_memcpy]

/-- **`bio_write`** makes the block on the disk what the buffer holds. -/
theorem Coherent.write (h : Coherent k live c) (hsys : SysInv k live c l m) (hp : p ∈ k.held)
    (hd : k'.bio.disk = Function.update k.bio.disk ((c p).field .device % 2 ^ 8)
      (memcpy (k.bio.disk ((c p).field .device % 2 ^ 8)) (u32 ((c p).field .block * (c p).field .size))
        k.bio.mem ((c p).field .buffer) ((c p).field .size)))
    (ho : ∀ q, q ≠ p → c' q = c q) (hf : ∀ f, f ≠ .valid → (c' p).field f = (c p).field f)
    (hv : (c' p).field .valid = 0) (hok : bioStep k (.write p) = .ok k') : Coherent k' live c' := by
  obtain ⟨hpl, _⟩ := (hsys.held p).mp hp
  have hblk := h.block p hpl
  rw [Nat.mod_eq_of_lt (h.device p hpl), h.size p hpl, u32_of_lt (by omega)] at hd
  have hfield : ∀ q f, f ≠ .valid → (c' q).field f = (c q).field f := fun q f hf' => by
    by_cases hq : q = p
    · rw [hq, hf f hf']
    · rw [ho q hq]
  cases hok
  refine ⟨fun q hq => ?_, fun q hq => ?_, fun q hq => ?_, fun q hq hm hqv => ?_, fun d hd' b hb => ?_,
    fun q hq => h.modified q (List.mem_of_mem_filter hq)⟩
  · rw [hfield _ _ (by decide)]
    exact h.device q hq
  · rw [hfield _ _ (by decide)]
    exact h.block q hq
  · rw [hfield _ _ (by decide)]
    exact h.size q hq
  · have hqp : q ≠ p := by
      rintro rfl
      exact hqv hv
    have hm' : q ∉ k.modified := fun e => hm (List.mem_filter.mpr ⟨e, by simpa using hqp⟩)
    rw [ho q hqp] at hqv ⊢
    rw [hd, diskBlock_write, h.clean q hq hm' hqv]
    -- two buffers of one block would have one key
    by_contra hc
    rw [not_or, not_not, not_not] at hc
    have hkey : (c q).key = (c p).key := by rw [Cell.key, hc.1, hc.2]; rfl
    have h₁ := hsys.inv.mem_table hq id
    rw [hkey, hsys.inv.mem_table hpl id, Option.some.injEq] at h₁
    exact hqp h₁.symm
  · have hdev : k.bio.get p .device = (c p).field .device := hsys.inv.get hpl _
    have hbl : k.bio.get p .block = (c p).field .block := hsys.inv.get hpl _
    have hbuf : k.bio.get p .buffer = (c p).field .buffer := hsys.inv.get hpl _
    have hsize : k.bio.get p .size = 1024 := (hsys.inv.get hpl _).trans (h.size p hpl)
    rw [hd, hdev, hbl, hbuf, hsize]
    dsimp only
    by_cases hdd : d = (c p).field .device
    · subst hdd
      rw [Function.update_self]
      by_cases hbb : b = (c p).field .block
      · subst hbb
        rw [Function.update_self, diskBlock_write_self]
      · rw [Function.update_of_ne hbb, diskBlock_write (.inr hbb)]
        exact h.contents _ hd' b hb
    · rw [Function.update_of_ne hdd, diskBlock_write (.inl hdd)]
      exact h.contents d hd' b hb

theorem Coherent.release (h : Coherent k live c) (hm : p ∉ k.modified) (hd : s'.disk = k.bio.disk)
    (hk : ∀ q ∈ live, Kept c c' q) : Coherent (k.released s' p) live c' := by
  refine ⟨fun q hq => ?_, fun q hq => ?_, fun q hq => ?_, fun q hq hqm hv => ?_, fun d hd' b hb => ?_,
    fun q hq => ?_⟩
  · rw [(hk q hq).field _ (by decide) (by decide) (by decide)]
    exact h.device q hq
  · rw [(hk q hq).field _ (by decide) (by decide) (by decide)]
    exact h.block q hq
  · rw [(hk q hq).field _ (by decide) (by decide) (by decide)]
    exact h.size q hq
  · rw [(hk q hq).field _ (by decide) (by decide) (by decide)] at hv
    rw [(hk q hq).data, (hk q hq).field _ (by decide) (by decide) (by decide),
      (hk q hq).field _ (by decide) (by decide) (by decide)]
    change _ = diskBlock s'.disk _ _
    rw [hd]
    exact h.clean q hq hqm hv
  · change _ = diskBlock s'.disk _ _
    rw [hd]
    exact h.contents d hd' b hb
  · refine (List.mem_erase_of_ne ?_).mpr (h.modified q hq)
    rintro rfl
    exact hm hq

/-- **One call** of a sound run keeps the cache coherent. -/
theorem Coherent.step {op : BioOp} (h : Coherent k live c) (hsys : SysInv k live c l m)
    (hl : op.Legal k) (hs : op.Sound k) (hp : op.PrevNull k) (hok : bioStep k op = .ok k') :
    ∃ live' c' l' m', SysInv k' live' c' l' m' ∧ Coherent k' live' c' := by
  cases op with
  | read hp device block size =>
    obtain ⟨hd, hb, rfl⟩ := hs
    rcases hsys.read hl with ⟨e, he, _⟩ | ⟨p, s', live', c', l', m', hok', hsys', hr⟩
    · rw [he] at hok
      cases hok
    · rw [hok'] at hok
      cases hok
      exact ⟨live', c', l', m', hsys', (h.read hsys hr hd hb).1⟩
  | modify buf bytes =>
    obtain ⟨k₁, c', hok', hsys', _, _, ho, hf⟩ := hsys.modify hl
    have := h.modify hl ho hf hok
    rw [hok] at hok'
    cases hok'
    exact ⟨live, c', l, m, hsys', this⟩
  | write buf =>
    obtain ⟨k₁, c', hok', hsys', _, hd, ho, hf, hv, _⟩ := hsys.write hl
    rw [hok] at hok'
    cases hok'
    exact ⟨live, c', l, m, hsys', h.write hsys hl hd ho hf hv hok⟩
  | release buf =>
    obtain ⟨s', c', hok', hsys', hd, _, hk⟩ := hsys.release hl hp
    rw [hok] at hok'
    cases hok'
    exact ⟨live, c', buf :: l, m, hsys', h.release hs hd hk⟩
  | other junk =>
    obtain ⟨k₁, hok', hsys', _⟩ := hsys.other
    rw [hok] at hok'
    cases hok'
    cases hok
    exact ⟨live, c, l, m, hsys', h.device, h.block, h.size, h.clean, h.contents, h.modified⟩

/-- **Coherence.** After every sound run in which no buffer is released with a stale `prev`, a
`bio_read` that returns gives a buffer that holds the block on the disk, which is what was last
written to it, or what it held in the beginning. -/
theorem bio_read_coherent {mem : Mem} {disk : ℕ → ℕ → UInt8} {s : BioState}
    (h₀ : bioInit mem disk = some s) {ops : List BioOp}
    (hrun : Run (fun k op k' => BioMove k op k' ∧ op.Sound k ∧ op.PrevNull k) (bioBoot s) ops k)
    {hp : Heap} {device block : ℕ} (hl : (BioOp.read hp device block 1024).Legal k)
    (hd : device < 2 ^ 8) (hb : block < 2 ^ 22)
    (hok : bioStep k (.read hp device block 1024) = .ok k') :
    ∃ p, k'.held = p :: k.held ∧
      bytesAt k'.bio.mem (k'.bio.get p .buffer) 1024 = diskBlock k'.bio.disk device block ∧
      diskBlock k'.bio.disk device block = k.contents device block := by
  have hinv : ∃ live c l m, SysInv k live c l m ∧ Coherent k live c := by
    refine hrun.invariant (I := fun k => ∃ live c l m, SysInv k live c l m ∧ Coherent k live c) ?_ ?_
    · rintro k op k' ⟨live, c, l, m, hsys, h⟩ ⟨⟨hl, hok⟩, hs, hp⟩
      exact h.step hsys hl hs hp hok
    · obtain ⟨hsys, _⟩ := sysInv_boot h₀
      exact ⟨∅, _, [], _, hsys, fun _ h => h.elim, fun _ h => h.elim, fun _ h => h.elim,
        fun _ h => h.elim, fun _ _ _ _ => (by simp only [bioBoot, diskBlock]), fun _ h => (by cases h)⟩
  obtain ⟨live, c, l, m, hsys, h⟩ := hinv
  rcases hsys.read hl with ⟨e, he, _⟩ | ⟨p, s', live', c', l', m', hok', hsys', hr⟩
  · rw [he] at hok
    cases hok
  rw [hok'] at hok
  cases hok
  obtain ⟨hcoh, hdata⟩ := h.read hsys hr hd hb
  refine ⟨p, rfl, ?_, ((hcoh.contents device hd block hb).symm)⟩
  rw [← hdata, ← hsys'.inv.rep.data hr.self, hr.ofSize]
  change bytesAt s'.mem (s'.get p .buffer) 1024 = _
  rw [hsys'.inv.get hr.self]

/-- A block is read, changed, written, released after another one, and read again. -/
def coherentDemo : List BioOp :=
  [demoRead 0 5, .modify (demoHeap 0).buf fun _ => 9, .write (demoHeap 0).buf, demoRead 1 6,
    .release (demoHeap 1).buf, .release (demoHeap 0).buf]

theorem bio_read_coherent_demo : ∃ k k' p,
    Run (fun k op k' => BioMove k op k' ∧ op.Sound k ∧ op.PrevNull k) demoBoot coherentDemo k ∧
      bioStep k (demoRead 2 5) = .ok k' ∧ k'.held = p :: k.held ∧
      bytesAt k'.bio.mem (k'.bio.get p .buffer) 1024 = diskBlock k'.bio.disk 0 5 ∧
      k'.bio.mem (k'.bio.get p .buffer) = 9 := by
  have hl : ((coherentDemo.foldlM (runStep fun k op => op.Sound k ∧ op.PrevNull k) demoBoot).bind fun k =>
      (runStep (fun _ _ => True) k (demoRead 2 5)).map fun k' =>
        (k'.bio.mem ((demoHeap 0).buffer), k'.bio.get (demoHeap 0).buf .buffer, k'.held)) =
      some (9, (demoHeap 0).buffer, [(demoHeap 0).buf]) := by decide +kernel
  obtain ⟨k, hk, hl⟩ := Option.bind_eq_some_iff.mp hl
  obtain ⟨k', hk', hv⟩ := Option.map_eq_some_iff.mp hl
  rw [Prod.mk.injEq, Prod.mk.injEq] at hv
  obtain ⟨h₉, hbuf, hheld⟩ := hv
  obtain ⟨⟨hlegal, hok⟩, -⟩ := runStep_move _ _ _ hk'
  have hrun := run_of_foldlM runStep_move hk
  obtain ⟨p, hp, hbytes, _⟩ := bio_read_coherent (bioInit_eq _ _) hrun hlegal (by decide) (by decide) hok
  rw [hheld, List.cons.injEq] at hp
  obtain ⟨rfl, hnil⟩ := hp
  refine ⟨k, k', _, hrun, hok, ?_, hbytes, ?_⟩
  · rw [hheld, ← hnil]
  · rw [hbuf, h₉]

/-! ## A stale `prev` -/

/-- Where the list allocator of an empty heap puts the buffers of blocks 0 to 50, their mutexes and
their data, from `KHEAP_LIST_START` on. -/
def staleHeap : List (ℕ × ℕ × ℕ) :=
  [(0xfd8, 0xfc4, 0xbc0), (0xb94, 0xb80, 0x77c), (0x750, 0x73c, 0x338), (0x30c, 0x2f8, 0x1c00),
    (0x2cc, 0x2b8, 0x17fc), (0x28c, 0x278, 0x13f8), (0x24c, 0x238, 0x2c00), (0x20c, 0x1f8, 0x27fc),
    (0x1cc, 0x1b8, 0x23f8), (0x18c, 0x178, 0x3c00), (0x14c, 0x138, 0x37fc), (0x10c, 0xf8, 0x33f8),
    (0xcc, 0xb8, 0x4c00), (0x8c, 0x78, 0x47fc), (0x4c, 0x38, 0x43f8), (0x13cc, 0x24, 0x5c00),
    (0x13a0, 0x10, 0x57fc), (0x1374, 0x1360, 0x53f8), (0x1334, 0x1320, 0x6c00),
    (0x12f4, 0x12e0, 0x67fc), (0x12b4, 0x12a0, 0x63f8), (0x1274, 0x1260, 0x7c00),
    (0x1234, 0x1220, 0x77fc), (0x11f4, 0x11e0, 0x73f8), (0x11b4, 0x11a0, 0x8c00),
    (0x1174, 0x1160, 0x87fc), (0x1134, 0x1120, 0x83f8), (0x10f4, 0x10e0, 0x9c00),
    (0x10b4, 0x10a0, 0x97fc), (0x1074, 0x1060, 0x93f8), (0x1034, 0x1020, 0xac00),
    (0x23cc, 0x23b8, 0xa7fc), (0x238c, 0x2378, 0xa3f8), (0x234c, 0x2338, 0xbc00),
    (0x230c, 0x22f8, 0xb7fc), (0x22cc, 0x22b8, 0xb3f8), (0x228c, 0x2278, 0xcc00),
    (0x224c, 0x2238, 0xc7fc), (0x220c, 0x21f8, 0xc3f8), (0x21cc, 0x21b8, 0xdc00),
    (0x218c, 0x2178, 0xd7fc), (0x214c, 0x2138, 0xd3f8), (0x210c, 0x20f8, 0xec00),
    (0x20cc, 0x20b8, 0xe7fc), (0x208c, 0x2078, 0xe3f8), (0x204c, 0x2038, 0xfc00),
    (0x33cc, 0x2024, 0xf7fc), (0x33a0, 0x2010, 0xf3f8), (0x3374, 0x3360, 0x10c00),
    (0x3334, 0x3320, 0x107fc), (0x32f4, 0x32e0, 0x103f8)]

def heapAt (a : ℕ × ℕ × ℕ) : Heap :=
  ⟨0xd0000000 + a.1, 0xd0000000 + a.2.1, 0xd0000000 + a.2.2, fun _ => 0⟩

/-- Memory that is not used: the block is cached. -/
def spareHeap : Heap := ⟨0xd0100000, 0xd0101000, 0xd0102000, fun _ => 0⟩

/-- Blocks 0 to 50 fill the table. Block 43 is unlinked behind block 0 and keeps it as its `prev`; the
read of block 73 evicts blocks 0 and 30, the read of block 78 puts its data where block 0 had its
buffer. Then block 43 is released and read again. -/
def staleRun : List BioOp :=
  (staleHeap.zipIdx.map fun (a, block) => .read (heapAt a) 0 block 1024) ++
    [.release 0xd00020cc, .release 0xd0000fd8, .read spareHeap 0 43 1024, .release 0xd0001034,
      .release 0xd000220c, .read (heapAt (0x32b4, 0x32a0, 0x11c00)) 0 73 1024,
      .read (heapAt (0x1034, 0x1020, 0xc1c)) 0 78 1024, .release 0xd0001034, .release 0xd00020cc,
      .read spareHeap 0 43 1024]

theorem bytesAt_ne {m m' : Mem} {a a' n i : ℕ} (hi : i < n) (h : m (a + i) ≠ m' (a' + i)) :
    bytesAt m a n ≠ bytesAt m' a' n := by
  intro he
  have := congrArg (·[i]?) he
  simp [bytesAt, hi] at this
  exact h this

/-- After it a read of block 78 returns a link of the list among the bytes of the block. -/
theorem stale_prev_corrupts : ∃ k k',
    Run (fun k op k' => BioMove k op k' ∧ op.Sound k) demoBoot staleRun k ∧
      BioMove k (.read spareHeap 0 78 1024) k' ∧ k'.held = 0xd0001034 :: k.held ∧
      bytesAt k'.bio.mem (k'.bio.get 0xd0001034 .buffer) 1024 ≠ diskBlock k'.bio.disk 0 78 := by
  have hl : ((staleRun.foldlM (runStep fun k op => op.Sound k) demoBoot).bind fun k =>
      (runStep (fun _ _ => True) k (.read spareHeap 0 78 1024)).map fun k' =>
        (decide (k'.held = 0xd0001034 :: k.held), k'.bio.get 0xd0001034 .buffer,
          k'.bio.mem (0xd0000c1c + 988), k'.bio.disk 0 (78 * 1024 + 988))) =
      some (true, 0xd0000c1c, 0x0c, 7) := by decide +kernel
  obtain ⟨k, hk, hl⟩ := Option.bind_eq_some_iff.mp hl
  obtain ⟨k', hk', hv⟩ := Option.map_eq_some_iff.mp hl
  rw [Prod.mk.injEq, Prod.mk.injEq, Prod.mk.injEq] at hv
  obtain ⟨hheld, hbuf, hmem, hdisk⟩ := hv
  have hrun := run_of_foldlM runStep_move hk
  refine ⟨k, k', hrun, (runStep_move _ _ _ hk').1, of_decide_eq_true hheld, ?_⟩
  rw [hbuf]
  refine bytesAt_ne (i := 988) (by decide) ?_
  rw [hmem, hdisk]
  decide

end BulbOS.Bio
