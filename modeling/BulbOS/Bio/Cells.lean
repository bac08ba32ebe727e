import BulbOS.Bio.Model
import Mathlib.Data.List.Pairwise
import Mathlib.Data.Set.Insert

/-!
# The buffers in memory

* `Cell`, `cellAt`: what the memory says of a buffer, its mutex and its data;
* `Rep m allocated live c`: the buffers of `live` own pairwise disjoint memory, and the memory says
  `c p` of each `p` of them;
* `Rep.set`, `Rep.setNull`, `Rep.setCount`, `Rep.setData`, `Rep.alloc`, `Rep.free`, `Rep.other`: what
  the stores of the code do to the cells.
-/

namespace BulbOS.Bio

open KLib BulbOS.Task BulbOS.Sem

/-- A buffer with its mutex and its data. -/
structure Cell where
  field : Field → ℕ
  sem : Semaphore
  data : List UInt8

def cellAt (m : Mem) (p : ℕ) : Cell :=
  ⟨fun f => load32 m (p + f.offset), semAt m (load32 m (p + Field.mutex.offset)),
    bytesAt m (load32 m (p + Field.buffer.offset)) (load32 m (p + Field.size.offset))⟩

/-- The memory of the buffer at `p`. -/
def Cell.pieces (c : Cell) (p : ℕ) : List (ℕ × ℕ) :=
  [(p, sizeofBuf), (c.field .mutex, sizeofSem), (c.field .buffer, c.field .size)]

def Cell.setField (c : Cell) (f : Field) (v : ℕ) : Cell :=
  { c with field := Function.update c.field f v }

theorem setField_field (c : Cell) (f g : Field) (v : ℕ) :
    (c.setField f v).field g = Function.update c.field f v g := rfl

/-- The fields that `bio_alloc` sets for good. -/
def Field.Fixed (f : Field) : Prop := f = .mutex ∨ f = .size ∨ f = .buffer

variable {m m' : Mem} {p q x v : ℕ} {r r' : ℕ × ℕ} {f g : Field} {c c' : ℕ → Cell} {d : Cell}
  {allocated : List (ℕ × ℕ)} {live : Set ℕ}

theorem Apart.symm (h : Apart r r') : Apart r' r := h.elim .inr .inl

instance : Std.Symm Apart := ⟨fun _ _ => Apart.symm⟩

theorem Apart.not_inside (h : Apart r r') (hx : Inside r x) : ¬ Inside r' x := by
  unfold Apart at h
  unfold Inside at hx ⊢
  omega

theorem offset_le (f : Field) : f.offset + 4 ≤ sizeofBuf := by cases f <;> decide

theorem offset_apart (h : f ≠ g) : f.offset + 4 ≤ g.offset ∨ g.offset + 4 ≤ f.offset := by
  revert h
  cases f <;> cases g <;> decide

theorem inside_field (p : ℕ) (f : Field) {x : ℕ} (h₁ : p + f.offset ≤ x) (h₂ : x < p + f.offset + 4) :
    Inside (p, sizeofBuf) x := by
  have := offset_le f
  exact ⟨by change p ≤ x; omega, by change x < p + sizeofBuf; omega⟩

theorem bytesAt_congr {a n : ℕ} (h : ∀ x, Inside (a, n) x → m' x = m x) :
    bytesAt m' a n = bytesAt m a n := by
  refine List.map_congr_left fun i hi => h _ ?_
  rw [List.mem_range] at hi
  exact ⟨Nat.le_add_right _ _, Nat.add_lt_add_left hi _⟩

theorem semAt_congr {a : ℕ} (h : ∀ x, Inside (a, sizeofSem) x → m' x = m x) : semAt m' a = semAt m a := by
  have hl : ∀ k, k + 4 ≤ sizeofSem → load32 m' (a + k) = load32 m (a + k) := fun k hk =>
    load32_congr fun x h₁ h₂ => h x ⟨by change a ≤ x; omega, by change x < a + sizeofSem; omega⟩
  have h₀ : load32 m' a = load32 m a := hl 0 (by decide)
  unfold semAt
  rw [h₀, hl 4 (by decide), hl 8 (by decide), hl 12 (by decide)]

theorem cellAt_congr (h : ∀ r ∈ (cellAt m p).pieces p, ∀ x, Inside r x → m' x = m x) :
    cellAt m' p = cellAt m p := by
  have hf : ∀ f : Field, load32 m' (p + f.offset) = load32 m (p + f.offset) := fun f =>
    load32_congr fun x h₁ h₂ => h _ List.mem_cons_self x (inside_field p f h₁ h₂)
  have hs : semAt m' (load32 m (p + Field.mutex.offset)) = semAt m (load32 m (p + Field.mutex.offset)) :=
    semAt_congr (h _ (List.mem_cons_of_mem _ List.mem_cons_self))
  have hb : bytesAt m' (load32 m (p + Field.buffer.offset)) (load32 m (p + Field.size.offset)) =
      bytesAt m (load32 m (p + Field.buffer.offset)) (load32 m (p + Field.size.offset)) :=
    bytesAt_congr (h _ (List.mem_cons_of_mem _ (List.mem_cons_of_mem _ List.mem_cons_self)))
  unfold cellAt
  rw [hf .mutex, hf .buffer, hf .size, hs, hb, funext hf]

/-- The memory of the live buffers, and what it says of each. -/
structure Rep (m : Mem) (allocated : List (ℕ × ℕ)) (live : Set ℕ) (c : ℕ → Cell) : Prop where
  cells : ∀ p ∈ live, cellAt m p = c p
  bounds : ∀ p ∈ live, ∀ r ∈ (c p).pieces p, 4096 ≤ r.1 ∧ 0 < r.2 ∧ r.1 + r.2 ≤ 2 ^ 32
  own : ∀ p ∈ live, ((c p).pieces p).Pairwise Apart
  apart : ∀ p ∈ live, ∀ q ∈ live, p ≠ q → ∀ r ∈ (c p).pieces p, ∀ r' ∈ (c q).pieces q, Apart r r'
  allocated : ∀ r, r ∈ allocated ↔ ∃ p ∈ live, r ∈ (c p).pieces p

theorem Rep.field (h : Rep m allocated live c) (hp : p ∈ live) (f : Field) :
    load32 m (p + f.offset) = (c p).field f := by
  rw [← h.cells p hp]
  rfl

theorem Rep.sem (h : Rep m allocated live c) (hp : p ∈ live) :
    semAt m ((c p).field .mutex) = (c p).sem := by
  rw [← h.cells p hp]
  rfl

theorem Rep.data (h : Rep m allocated live c) (hp : p ∈ live) :
    bytesAt m ((c p).field .buffer) ((c p).field .size) = (c p).data := by
  rw [← h.cells p hp]
  rfl

theorem Rep.ge (h : Rep m allocated live c) (hp : p ∈ live) : 4096 ≤ p :=
  (h.bounds p hp _ List.mem_cons_self).1

theorem Rep.lt (h : Rep m allocated live c) (hp : p ∈ live) : p < 2 ^ 32 := by
  have := (h.bounds p hp _ List.mem_cons_self).2.2
  change p + 40 ≤ _ at this
  omega

theorem Rep.ne_zero (h : Rep m allocated live c) (hp : p ∈ live) : p ≠ 0 := by
  have := h.ge hp
  omega

theorem Rep.field_lt (h : Rep m allocated live c) (hp : p ∈ live) (f : Field) :
    (c p).field f < 2 ^ 32 := by
  rw [← h.field hp]
  exact load32_lt _ _

theorem Rep.three (h : Rep m allocated live c) (hp : p ∈ live) :
    Apart (p, sizeofBuf) ((c p).field .mutex, sizeofSem) ∧
      Apart (p, sizeofBuf) ((c p).field .buffer, (c p).field .size) ∧
      Apart ((c p).field .mutex, sizeofSem) ((c p).field .buffer, (c p).field .size) := by
  have hown := h.own p hp
  simp only [Cell.pieces, List.pairwise_cons, List.mem_cons, forall_eq_or_imp, List.not_mem_nil,
    false_imp_iff, implies_true, and_true, List.Pairwise.nil] at hown
  exact ⟨hown.1.1, hown.1.2, hown.2⟩

/-- A change of one piece of a cell that leaves its pointers alone. -/
theorem Rep.change (h : Rep m allocated live c) (hp : p ∈ live) (hr : r ∈ (c p).pieces p)
    (hm : ∀ x, ¬ Inside r x → m' x = m x) (hcell : cellAt m' p = d)
    (hptr : d.pieces p = (c p).pieces p) : Rep m' allocated live (Function.update c p d) := by
  have hpieces : ∀ q, (Function.update c p d q).pieces q = (c q).pieces q := by
    intro q
    by_cases hq : q = p
    · subst hq
      rw [Function.update_self, hptr]
    · rw [Function.update_of_ne hq]
  refine ⟨fun q hq => ?_, ?_, ?_, ?_, ?_⟩
  · by_cases hqp : q = p
    · subst hqp
      rw [Function.update_self, hcell]
    · rw [Function.update_of_ne hqp, ← h.cells q hq]
      refine cellAt_congr fun r' hr' x hx => hm x ?_
      rw [h.cells q hq] at hr'
      exact (h.apart q hq p hp hqp r' hr' r hr).not_inside hx
  all_goals simp only [hpieces]
  · exact h.bounds
  · exact h.own
  · exact h.apart
  · exact h.allocated

theorem Rep.set (h : Rep m allocated live c) (hp : p ∈ live) (hf : ¬ f.Fixed) (v : ℕ) :
    Rep (store32 m (p + f.offset) v) allocated live (Function.update c p ((c p).setField f (u32 v))) := by
  have hout : ∀ x, ¬ Inside (p, sizeofBuf) x → store32 m (p + f.offset) v x = m x := by
    intro x hx
    refine store32_of_outside m v ?_
    by_contra hc
    exact hx (inside_field p f (by omega) (by omega))
  have hfield : ∀ g : Field, load32 (store32 m (p + f.offset) v) (p + g.offset) =
      Function.update (c p).field f (u32 v) g := by
    intro g
    by_cases hgf : g = f
    · subst hgf
      rw [load32_store32, Function.update_self]
    · have := offset_apart hgf
      rw [Function.update_of_ne hgf, load32_store32_of_disjoint m v (by omega), h.field hp]
  obtain ⟨hsem, hbuf, _⟩ := h.three hp
  simp only [Field.Fixed, not_or] at hf
  have hkeep : ∀ g : Field, f ≠ g → Function.update (c p).field f (u32 v) g = (c p).field g :=
    fun g hg => Function.update_of_ne (Ne.symm hg) _ _
  refine h.change hp List.mem_cons_self hout ?_ ?_
  · unfold cellAt Cell.setField
    rw [hfield .mutex, hfield .buffer, hfield .size, hkeep _ hf.1, hkeep _ hf.2.1, hkeep _ hf.2.2,
      semAt_congr fun x hx => hout x (hsem.symm.not_inside hx),
      bytesAt_congr fun x hx => hout x (hbuf.symm.not_inside hx), h.sem hp, h.data hp, funext hfield]
  · unfold Cell.pieces Cell.setField
    dsimp only
    rw [hkeep _ hf.1, hkeep _ hf.2.1, hkeep _ hf.2.2]

theorem Rep.frame (h : Rep m allocated live c)
    (hm : ∀ p ∈ live, ∀ r ∈ (c p).pieces p, ∀ x, Inside r x → m' x = m x) : Rep m' allocated live c := by
  refine ⟨fun q hq => ?_, h.bounds, h.own, h.apart, h.allocated⟩
  rw [← h.cells q hq]
  refine cellAt_congr fun r hr => hm q hq r ?_
  rwa [h.cells q hq] at hr

theorem Rep.setNull (h : Rep m allocated live c) (f : Field) (v : ℕ) :
    Rep (store32 m (0 + f.offset) v) allocated live c := by
  refine h.frame fun q hq r hr x hx => store32_of_outside m v (.inr ?_)
  have h₁ := (h.bounds q hq r hr).1
  have h₂ := hx.1
  have h₃ := offset_le f
  unfold sizeofBuf at h₃
  omega

theorem Rep.other (h : Rep m allocated live c) (junk : Mem) :
    Rep (fun x => if ∃ r ∈ allocated, Inside r x then m x else junk x) allocated live c :=
  h.frame fun q hq r hr _ hx => if_pos ⟨r, (h.allocated r).mpr ⟨q, hq, hr⟩, hx⟩

theorem Rep.setCount (h : Rep m allocated live c) (hp : p ∈ live) (hv : v < 2 ^ 32) :
    Rep (store32 m ((c p).field .mutex + 4) v) allocated live
      (Function.update c p { c p with sem := { (c p).sem with currentCount := v } }) := by
  have hr : ((c p).field .mutex, sizeofSem) ∈ (c p).pieces p := List.mem_cons_of_mem _ List.mem_cons_self
  have hout : ∀ x, ¬ Inside ((c p).field .mutex, sizeofSem) x →
      store32 m ((c p).field .mutex + 4) v x = m x := by
    intro x hx
    refine store32_of_outside m v ?_
    by_contra hc
    refine hx ⟨?_, ?_⟩
    · change (c p).field .mutex ≤ x
      omega
    · change x < (c p).field .mutex + 16
      omega
  obtain ⟨hsem, _, hbuf⟩ := h.three hp
  have hfield : ∀ g : Field, load32 (store32 m ((c p).field .mutex + 4) v) (p + g.offset) =
      (c p).field g := by
    intro g
    rw [← h.field hp g]
    exact load32_congr fun x h₁ h₂ => hout x (hsem.not_inside (inside_field p g h₁ h₂))
  have hs := h.sem hp
  have hsem' : semAt (store32 m ((c p).field .mutex + 4) v) ((c p).field .mutex) =
      { (c p).sem with currentCount := v } := by
    rw [← hs]
    unfold semAt
    rw [load32_store32, u32_of_lt hv, load32_store32_of_disjoint m v (.inl le_rfl),
      load32_store32_of_disjoint m v (.inr (by omega)), load32_store32_of_disjoint m v (.inr (by omega))]
  refine h.change hp hr hout ?_ rfl
  unfold cellAt
  rw [hfield .mutex, hfield .buffer, hfield .size, hsem',
    bytesAt_congr fun x hx => hout x (hbuf.symm.not_inside hx), h.data hp, funext hfield]

theorem memcpy_inside {src : Mem} {a b n : ℕ} {i : ℕ} (hi : i < n) : memcpy m a src b n (a + i) = src (b + i) := by
  unfold memcpy
  rw [if_pos ⟨by omega, by omega⟩, Nat.add_sub_cancel_left]

theorem memcpy_outside {src : Mem} {a b n : ℕ} (hx : ¬ Inside (a, n) x) : memcpy m a src b n x = m x :=
  if_neg hx

theorem bytesAt_memcpy {src : Mem} {a b n : ℕ} : bytesAt (memcpy m a src b n) a n = bytesAt src b n :=
  List.map_congr_left fun _ hi => memcpy_inside (List.mem_range.mp hi)

theorem Rep.setData (h : Rep m allocated live c) (hp : p ∈ live) (src : Mem) (b : ℕ) :
    Rep (memcpy m ((c p).field .buffer) src b ((c p).field .size)) allocated live
      (Function.update c p { c p with data := bytesAt src b ((c p).field .size) }) := by
  have hr : ((c p).field .buffer, (c p).field .size) ∈ (c p).pieces p :=
    List.mem_cons_of_mem _ (List.mem_cons_of_mem _ List.mem_cons_self)
  obtain ⟨_, hbuf, hsem⟩ := h.three hp
  have hfield : ∀ g : Field,
      load32 (memcpy m ((c p).field .buffer) src b ((c p).field .size)) (p + g.offset) = (c p).field g := by
    intro g
    rw [← h.field hp g]
    exact load32_congr fun x h₁ h₂ => memcpy_outside (hbuf.not_inside (inside_field p g h₁ h₂))
  refine h.change hp hr (fun x hx => memcpy_outside hx) ?_ rfl
  unfold cellAt
  rw [hfield .mutex, hfield .buffer, hfield .size, bytesAt_memcpy,
    semAt_congr fun x hx => memcpy_outside (hsem.not_inside hx), h.sem hp, funext hfield]

/-! ## Allocation -/

theorem Rep.add {allocated' : List (ℕ × ℕ)} (h : Rep m allocated live c) (hcell : cellAt m' p = d)
    (hkeep : ∀ q ∈ live, ∀ r ∈ (c q).pieces q, ∀ x, Inside r x → m' x = m x)
    (hown : (d.pieces p).Pairwise Apart)
    (hbounds : ∀ r ∈ d.pieces p, 4096 ≤ r.1 ∧ 0 < r.2 ∧ r.1 + r.2 ≤ 2 ^ 32)
    (hnew : ∀ q ∈ live, ∀ r ∈ d.pieces p, ∀ r' ∈ (c q).pieces q, Apart r r')
    (halloc : ∀ r, r ∈ allocated' ↔ r ∈ d.pieces p ∨ r ∈ allocated) :
    Rep m' allocated' (insert p live) (Function.update c p d) := by
  have hold : ∀ q ∈ live, Function.update c p d q = c q := by
    refine fun q hq => Function.update_of_ne ?_ _ _
    rintro rfl
    have := hnew _ hq _ List.mem_cons_self _ List.mem_cons_self
    simp only [Apart, sizeofBuf] at this
    omega
  have hself : Function.update c p d p = d := Function.update_self ..
  constructor
  · rintro q (rfl | hq)
    · rw [hcell, hself]
    · rw [hold q hq, ← h.cells q hq]
      refine cellAt_congr fun r hr => hkeep q hq r ?_
      rwa [h.cells q hq] at hr
  · rintro q (rfl | hq)
    · rwa [hself]
    · rw [hold q hq]
      exact h.bounds q hq
  · rintro q (rfl | hq)
    · rwa [hself]
    · rw [hold q hq]
      exact h.own q hq
  · rintro q (rfl | hq) q' (rfl | hq') hqq
    · exact absurd rfl hqq
    · rw [hself, hold q' hq']
      exact hnew q' hq'
    · rw [hself, hold q hq]
      exact fun r hr r' hr' => (hnew q hq r' hr' r hr).symm
    · rw [hold q hq, hold q' hq']
      exact h.apart q hq q' hq' hqq
  · intro r
    rw [halloc, h.allocated]
    constructor
    · rintro (hr | ⟨q, hq, hr⟩)
      · exact ⟨p, .inl rfl, by rwa [hself]⟩
      · exact ⟨q, .inr hq, by rwa [hold q hq]⟩
    · rintro ⟨q, rfl | hq, hr⟩
      · exact .inl (by rwa [hself] at hr)
      · exact .inr ⟨q, hq, by rwa [hold q hq] at hr⟩

/-- The fields of a new buffer. -/
def newField (h : Heap) (device block size : ℕ) : Field → ℕ
  | .device => device
  | .block => block
  | .refCount => 1
  | .valid => 0
  | .mutex => h.mutex
  | .size => size
  | .buffer => h.buffer
  | .next => 0
  | .prev => 0

/-- What `bio_alloc` makes, its data being what was in memory. -/
def newCell (h : Heap) (device block size : ℕ) (data : List UInt8) : Cell :=
  ⟨newField h device block size, mutexCreate, data⟩

section Alloc

variable {s : BioState} {h : Heap} {device block size : ℕ}

theorem bioAlloc_allocated : (bioAlloc s h device block size).allocated =
    (h.buffer, size) :: (h.mutex, sizeofSem) :: (h.buf, sizeofBuf) :: s.allocated := rfl

theorem bioAlloc_outside (hb : ¬ Inside (h.buf, sizeofBuf) x) (hm : ¬ Inside (h.mutex, sizeofSem) x) :
    (bioAlloc s h device block size).mem x = s.mem x := by
  simp only [Inside, sizeofBuf, sizeofSem] at hb hm
  simp (disch := omega) only [bioAlloc, BioState.kmalloc, BioState.set, Field.offset, store32_of_outside]

theorem bioAlloc_field (ha : Apart (h.buf, sizeofBuf) (h.mutex, sizeofSem)) (hd : device < 2 ^ 32)
    (hk : block < 2 ^ 32) (hs : size < 2 ^ 32) (hm : h.mutex < 2 ^ 32) (hb : h.buffer < 2 ^ 32)
    (f : Field) : load32 (bioAlloc s h device block size).mem (h.buf + f.offset) =
      newField h device block size f := by
  simp only [Apart, sizeofBuf, sizeofSem] at ha
  cases f <;>
    simp (disch := omega) only [bioAlloc, BioState.kmalloc, BioState.set, Field.offset,
      load32_store32_of_disjoint, load32_store32, newField, u32_of_lt]

theorem bioAlloc_sem (ha : Apart (h.buf, sizeofBuf) (h.mutex, sizeofSem)) :
    semAt (bioAlloc s h device block size).mem h.mutex = mutexCreate := by
  simp only [Apart, sizeofBuf, sizeofSem] at ha
  simp (disch := omega) only [bioAlloc, BioState.kmalloc, BioState.set, Field.offset, semAt,
    load32_store32_of_disjoint, load32_store32, u32_of_lt]
  rfl

theorem Rep.not_mem_of_fresh (hrep : Rep s.mem s.allocated live c) (hf : h.Fresh s size) :
    h.buf ∉ live := by
  intro hmem
  have := (hf.2 _ List.mem_cons_self).2.2.2 _ ((hrep.allocated _).mpr ⟨h.buf, hmem, List.mem_cons_self⟩)
  simp only [Apart, sizeofBuf] at this
  omega

/-- **`bio_alloc`** adds a cell. -/
theorem Rep.alloc (hrep : Rep s.mem s.allocated live c) (hf : h.Fresh s size) (hd : device < 2 ^ 32)
    (hk : block < 2 ^ 32) : ∃ data, Rep (bioAlloc s h device block size).mem
      (bioAlloc s h device block size).allocated (insert h.buf live)
      (Function.update c h.buf (newCell h device block size data)) := by
  obtain ⟨hown, hfresh⟩ := hf
  have hmutex := (hfresh (h.mutex, sizeofSem) (List.mem_cons_of_mem _ List.mem_cons_self)).2.2.1
  have hdata := (hfresh (h.buffer, size)
    (List.mem_cons_of_mem _ (List.mem_cons_of_mem _ List.mem_cons_self)))
  simp only [sizeofSem] at hmutex
  have ha : Apart (h.buf, sizeofBuf) (h.mutex, sizeofSem) :=
    List.rel_of_pairwise_cons hown List.mem_cons_self
  have hfield := bioAlloc_field (s := s) ha hd hk (by omega : size < 2 ^ 32)
    (by omega : h.mutex < 2 ^ 32) (by omega : h.buffer < 2 ^ 32)
  let data := bytesAt (bioAlloc s h device block size).mem h.buffer size
  have hcell : cellAt (bioAlloc s h device block size).mem h.buf = newCell h device block size data := by
    unfold cellAt
    rw [hfield .mutex, hfield .buffer, hfield .size]
    change Cell.mk _ (semAt _ h.mutex) data = _
    rw [bioAlloc_sem ha, funext hfield]
    rfl
  have hnew : ∀ q ∈ live, ∀ r ∈ h.pieces size, ∀ r' ∈ (c q).pieces q, Apart r r' :=
    fun q hq r hr r' hr' => (hfresh r hr).2.2.2 r' ((hrep.allocated r').mpr ⟨q, hq, hr'⟩)
  refine ⟨data, hrep.add hcell (fun q hq r hr x hx => bioAlloc_outside ?_ ?_) hown (fun r hr => ?_)
    hnew fun r => ?_⟩
  · exact (hnew q hq _ List.mem_cons_self r hr).symm.not_inside hx
  · exact (hnew q hq _ (List.mem_cons_of_mem _ List.mem_cons_self) r hr).symm.not_inside hx
  · exact ⟨(hfresh r hr).1, (hfresh r hr).2.1, (hfresh r hr).2.2.1⟩
  · change r ∈ _ ↔ r ∈ h.pieces size ∨ _
    rw [bioAlloc_allocated, Heap.pieces]
    simp only [List.mem_cons, List.not_mem_nil, or_false]
    constructor
    · rintro (e | e | e | e)
      exacts [.inl (.inr (.inr e)), .inl (.inr (.inl e)), .inl (.inl e), .inr e]
    · rintro ((e | e | e) | e)
      exacts [.inr (.inr (.inl e)), .inr (.inl e), .inl e, .inr (.inr (.inr e))]

end Alloc

/-! ## Deallocation -/

theorem Rep.piece_unique (h : Rep m allocated live c) (hr : r ∈ allocated) (hr' : r' ∈ allocated)
    (he : r.1 = r'.1) : r = r' := by
  obtain ⟨p, hp, hr⟩ := (h.allocated r).mp hr
  obtain ⟨q, hq, hr'⟩ := (h.allocated r').mp hr'
  have hpos := (h.bounds p hp r hr).2.1
  have hpos' := (h.bounds q hq r' hr').2.1
  have hna : ¬ Apart r r' := by
    unfold Apart
    omega
  by_cases hpq : p = q
  · subst hpq
    by_contra hne
    exact hna ((h.own p hp).forall hr hr' hne)
  · exact absurd (h.apart p hp q hq hpq r hr r' hr') hna

theorem Rep.owner_unique (h : Rep m allocated live c) (hp : p ∈ live) (hq : q ∈ live)
    (hr : r ∈ (c p).pieces p) (hr' : r ∈ (c q).pieces q) : p = q := by
  by_contra hne
  have hpos := (h.bounds p hp r hr).2.1
  have := h.apart p hp q hq hne r hr r hr'
  unfold Apart at this
  omega

theorem kfree_outside {s : BioState} {junk : Mem} (hu : ∀ r' ∈ s.allocated, r'.1 = r.1 → r' = r)
    (hx : ¬ Inside r x) : (s.kfree junk r.1).mem x = s.mem x := by
  refine if_neg ?_
  rintro ⟨r', hr', he, hi⟩
  rw [hu r' hr' he] at hi
  exact hx hi

theorem mem_kfree {s : BioState} {junk : Mem} {ptr : ℕ} :
    r ∈ (s.kfree junk ptr).allocated ↔ r ∈ s.allocated ∧ r.1 ≠ ptr := by
  simp [BioState.kfree]

/-- What `bioFree` leaves allocated, and the memory that it leaves alone. -/
theorem Rep.bioFree {s : BioState} {junk : Mem} (h : Rep s.mem s.allocated live c) (hp : p ∈ live) :
    (∀ r, r ∈ (bioFree junk s p).allocated ↔ r ∈ s.allocated ∧ ∀ r' ∈ (c p).pieces p, r.1 ≠ r'.1) ∧
      ∀ x, (∀ r ∈ (c p).pieces p, ¬ Inside r x) → (bioFree junk s p).mem x = s.mem x := by
  have hmem : ∀ r ∈ (c p).pieces p, r ∈ s.allocated := fun r hr => (h.allocated r).mpr ⟨p, hp, hr⟩
  have hmutex : ((c p).field .mutex, sizeofSem) ∈ (c p).pieces p :=
    List.mem_cons_of_mem _ List.mem_cons_self
  have hdata : ((c p).field .buffer, (c p).field .size) ∈ (c p).pieces p :=
    List.mem_cons_of_mem _ (List.mem_cons_of_mem _ List.mem_cons_self)
  obtain ⟨_, hbuf, _⟩ := h.three hp
  have hunique : ∀ r ∈ (c p).pieces p, ∀ r' ∈ s.allocated, r'.1 = r.1 → r' = r :=
    fun r hr r' hr' he => h.piece_unique hr' (hmem r hr) he
  have h₁ : s.get p .buffer = (c p).field .buffer := h.field hp _
  have hm₁ : ∀ x, ¬ Inside ((c p).field .buffer, (c p).field .size) x →
      (s.kfree junk ((c p).field .buffer)).mem x = s.mem x :=
    fun x hx => kfree_outside (hunique _ hdata) hx
  have h₂ : (s.kfree junk ((c p).field .buffer)).get p .mutex = (c p).field .mutex := by
    rw [← h.field hp .mutex]
    exact load32_congr fun x hx hx' => hm₁ x (hbuf.not_inside (inside_field p .mutex hx hx'))
  have he : BulbOS.Bio.bioFree junk s p = ((s.kfree junk ((c p).field .buffer)).kfree junk
      ((c p).field .mutex)).kfree junk p := by
    unfold BulbOS.Bio.bioFree
    rw [h₁]
    dsimp only
    rw [h₂]
  rw [he]
  constructor
  · intro r
    simp only [mem_kfree, Cell.pieces, List.mem_cons, forall_eq_or_imp, List.not_mem_nil, false_imp_iff,
      implies_true, and_true]
    constructor
    · rintro ⟨⟨⟨hr, h₃⟩, h₂⟩, h₁⟩
      exact ⟨hr, h₁, h₂, h₃⟩
    · rintro ⟨hr, h₁, h₂, h₃⟩
      exact ⟨⟨⟨hr, h₃⟩, h₂⟩, h₁⟩
  · intro x hx
    have hs₂ : ∀ r', r' ∈ (s.kfree junk ((c p).field .buffer)).allocated → r' ∈ s.allocated :=
      fun r' hr' => (mem_kfree.mp hr').1
    have e₃ : (((s.kfree junk ((c p).field .buffer)).kfree junk ((c p).field .mutex)).kfree junk p).mem x =
        ((s.kfree junk ((c p).field .buffer)).kfree junk ((c p).field .mutex)).mem x :=
      kfree_outside (r := (p, sizeofBuf)) (fun r' hr' => hunique _ List.mem_cons_self r'
        (hs₂ r' (mem_kfree.mp hr').1)) (hx _ List.mem_cons_self)
    have e₂ : ((s.kfree junk ((c p).field .buffer)).kfree junk ((c p).field .mutex)).mem x =
        (s.kfree junk ((c p).field .buffer)).mem x :=
      kfree_outside (fun r' hr' => hunique _ hmutex r' (hs₂ r' hr')) (hx _ hmutex)
    rw [e₃, e₂, hm₁ x (hx _ hdata)]

/-- **The end of `bio_evict`** takes a cell away. -/
theorem Rep.free {s : BioState} {junk : Mem} (h : Rep s.mem s.allocated live c) (hp : p ∈ live) :
    Rep (BulbOS.Bio.bioFree junk s p).mem (BulbOS.Bio.bioFree junk s p).allocated (live \ {p}) c := by
  obtain ⟨halloc, hmem⟩ := h.bioFree hp
  refine ⟨fun q hq => ?_, fun q hq => h.bounds q hq.1, fun q hq => h.own q hq.1,
    fun q hq q' hq' => h.apart q hq.1 q' hq'.1, fun r => ?_⟩
  · rw [← h.cells q hq.1]
    refine cellAt_congr fun r hr x hx => hmem x fun r' hr' => ?_
    rw [h.cells q hq.1] at hr
    exact (h.apart q hq.1 p hp hq.2 r hr r' hr').not_inside hx
  · rw [halloc]
    constructor
    · rintro ⟨hr, hne⟩
      obtain ⟨q, hq, hr⟩ := (h.allocated r).mp hr
      refine ⟨q, ⟨hq, ?_⟩, hr⟩
      rintro rfl
      exact hne r hr rfl
    · rintro ⟨q, ⟨hq, hqp⟩, hr⟩
      have hra : r ∈ s.allocated := (h.allocated r).mpr ⟨q, hq, hr⟩
      refine ⟨hra, fun r' hr' he => hqp ?_⟩
      have := h.piece_unique hra ((h.allocated r').mpr ⟨p, hp, hr'⟩) he
      exact h.owner_unique hq hp hr (this ▸ hr')

end BulbOS.Bio
