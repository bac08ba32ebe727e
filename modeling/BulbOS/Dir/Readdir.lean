import BulbOS.Bio.Cells
import BulbOS.Dentry.Children
import Mathlib.Data.List.TakeWhile

/-!
# The listing of a directory (`syscall_readdir` of `kernel/usr/syscall.c`)

* `syscallReaddir`: a `struct dirent` for each child, in memory with arbitrary contents;
* `Filled`, `readdirEntry_filled`: what a round does to the memory;
* `Rounds`, `readdirLoop_spec`: what all rounds do;
* `Listing`: what the list should be; **`readdir_iff`**: when it is.
-/

namespace BulbOS.Dir

open KLib BulbOS.Dentry BulbOS.Inode
open BulbOS.Bio (memcpy memcpy_inside memcpy_outside)

/-- `sizeof(struct dirent)`: `inode_n` is at 0, `name` at 4 and `next` at 260. -/
def sizeofDirent : ℕ := 264

def direntInodeN (m : Mem) (entry : ℕ) : ℕ := load32 m entry

def direntNext (m : Mem) (entry : ℕ) : ℕ := load32 m (entry + 260)

def memset (m : Mem) (a value size : ℕ) : Mem := fun x =>
  if a ≤ x ∧ x < a + size then UInt8.ofNat value else m x

/-- `dentry->inode->n`, of 32 bits. -/
def inodeN (s : Dentries) (dentry : ℕ) : ℕ := u32 (s.inodes.inodes (s.dentries dentry).inode).data.n

/-- The string at `dentry->path`. -/
def pathStr (s : Dentries) (dentry : ℕ) : List UInt8 := cstr (s.str dentry)

/-- A round of the loop. The arguments of `memset` are in this order. -/
def readdirEntry (s : Dentries) (mem : Mem) (prev tmp child : ℕ) : Mem :=
  let mem := if prev ≠ 0 then store32 mem (prev + 260) tmp else mem
  let mem := memset mem tmp sizeofDirent 0
  let mem := store32 mem tmp (inodeN s child)
  let slen := (pathStr s child).length
  memcpy mem (tmp + 4) (fun i => (pathStr s child).getD i 0) 0 (if slen < 256 then slen else 256)

/-- The loop; `none` if it has more rounds than `fuel`. What `tmp->next` gives is not used. -/
def readdirLoop : ℕ → Dentries → Mem → ℕ → ℕ → ℕ → Option (Mem × Dentries)
  | 0, _, _, _, _, _ => none
  | fuel + 1, s, mem, prev, tmp, child =>
    if child = 0 then some (mem, s)
    else
      readdirLoop fuel s.pop (readdirEntry s mem prev tmp child) tmp (s.heap 0) (s.dentries child).nextSib

/-- The value returned, `*entries` if it is set, and the memory. Nothing is returned after the loop. -/
def syscallReaddir (fuel : ℕ) (s : Dentries) (disk : Disk) (mem : Mem) (path : List UInt8) :
    Except Stop (Option Int × Option ℕ × Mem × Dentries) := do
  let (dir, s) ← dirGet s disk path
  if dir = 0 ∨ (s.dentries dir).children = 0 then return (some (-1), none, mem, s)
  else
    let entries := s.heap 0
    match readdirLoop fuel s.pop mem 0 entries (s.dentries dir).children with
    | none => .error .diverges
    | some (mem, s) => return (none, some entries, mem, s)

variable {s s' : Dentries} {disk : Disk} {mem mem₁ mem' : Mem} {prev tmp child dir b n fuel : ℕ}
  {kids blocks : List ℕ} {path : List UInt8}

/-! ## One round -/

/-- The entry at `tmp` has the child's data; what `mem` had in the rest of the name is still there. -/
structure Filled (s : Dentries) (mem mem' : Mem) (tmp child : ℕ) : Prop where
  number : direntInodeN mem' tmp = inodeN s child
  chars : ∀ i, i < (pathStr s child).length → i < 256 → mem' (tmp + 4 + i) = (pathStr s child).getD i 0
  rest : ∀ i, (pathStr s child).length ≤ i → i < 256 → mem' (tmp + 4 + i) = mem (tmp + 4 + i)

theorem u32_inodeN (s : Dentries) (child : ℕ) : u32 (inodeN s child) = inodeN s child := Nat.mod_mod _ _

/-- How many characters of the path are copied. -/
def copied (s : Dentries) (child : ℕ) : ℕ :=
  if (pathStr s child).length < 256 then (pathStr s child).length else 256

theorem copied_le (s : Dentries) (child : ℕ) :
    copied s child ≤ 256 ∧ copied s child ≤ (pathStr s child).length := by
  unfold copied
  split_ifs <;> omega

/-- With its arguments in this order `memset` stores nothing. -/
theorem memset_zero (m : Mem) (a value : ℕ) : memset m a value 0 = m :=
  funext fun _ => if_neg (by omega)

/-- The memory after the link from `prev`. -/
def linkPrev (mem : Mem) (prev tmp : ℕ) : Mem := if prev ≠ 0 then store32 mem (prev + 260) tmp else mem

theorem linkPrev_outside {x : ℕ} (h : prev = 0 ∨ x < prev + 260 ∨ prev + 264 ≤ x) :
    linkPrev mem prev tmp x = mem x := by
  unfold linkPrev
  by_cases h0 : prev = 0
  · rw [if_neg (not_not.mpr h0)]
  · rw [if_pos h0, store32_of_outside _ _ (by omega)]

theorem readdirEntry_eq (s : Dentries) (mem : Mem) (prev tmp child : ℕ) : readdirEntry s mem prev tmp child =
    memcpy (store32 (linkPrev mem prev tmp) tmp (inodeN s child)) (tmp + 4) (fun i => (pathStr s child).getD i 0) 0
      (copied s child) := by
  rw [← memset_zero (linkPrev mem prev tmp) tmp sizeofDirent]
  rfl

theorem readdirEntry_store {x : ℕ} (hx : x < tmp + 4 ∨ tmp + 4 + copied s child ≤ x) :
    readdirEntry s mem prev tmp child x = store32 (linkPrev mem prev tmp) tmp (inodeN s child) x := by
  rw [readdirEntry_eq]
  refine memcpy_outside ?_
  rintro ⟨h₁, h₂⟩
  dsimp only at h₁ h₂
  omega

theorem readdirEntry_outside {x : ℕ} (hprev : prev = 0 ∨ x < prev + 260 ∨ prev + 264 ≤ x)
    (hx : x < tmp ∨ tmp + 260 ≤ x) : readdirEntry s mem prev tmp child x = mem x := by
  have hle := (copied_le s child).1
  rw [readdirEntry_store (by omega), store32_of_outside _ _ (by omega), linkPrev_outside hprev]

theorem readdirEntry_filled (hprev : prev = 0 ∨ prev + 264 ≤ tmp ∨ tmp + 264 ≤ prev) :
    Filled s mem (readdirEntry s mem prev tmp child) tmp child := by
  have hle := copied_le s child
  refine ⟨?_, fun i hi hi' => ?_, fun i hi hi' => ?_⟩
  · rw [direntInodeN, load32_congr fun x _ h₂ => readdirEntry_store (.inl h₂), load32_store32, u32_inodeN]
  · have hcopied : i < copied s child := by
      unfold copied
      split_ifs <;> omega
    rw [readdirEntry_eq, memcpy_inside hcopied, Nat.zero_add]
  · rw [readdirEntry_store (by omega), store32_of_outside _ _ (by omega), linkPrev_outside (by omega)]

theorem readdirEntry_link (hprev : prev ≠ 0) (h : prev + 264 ≤ tmp ∨ tmp + 264 ≤ prev) (htmp : tmp < 2 ^ 32) :
    direntNext (readdirEntry s mem prev tmp child) prev = tmp := by
  have hle := (copied_le s child).1
  have hsame : ∀ x, prev + 260 ≤ x → x < prev + 260 + 4 →
      readdirEntry s mem prev tmp child x = store32 mem (prev + 260) tmp x := by
    intro x h₁ h₂
    rw [readdirEntry_store (by omega), store32_of_outside _ _ (by omega), linkPrev, if_pos hprev]
  rw [direntNext, load32_congr hsame, load32_store32, u32_of_lt htmp]

/-! ## All rounds -/

/-- `kmalloc` gave `n` blocks for entries, none in another. -/
structure Blocks (heap : ℕ → ℕ) (n : ℕ) : Prop where
  pos : ∀ k < n, heap k ≠ 0
  lt : ∀ k < n, heap k < 2 ^ 32
  apart : ∀ j k, j < k → k < n → heap j + 264 ≤ heap k ∨ heap k + 264 ≤ heap j

theorem Blocks.tail (h : Blocks s.heap (n + 1)) : Blocks s.pop.heap n :=
  ⟨fun k hk => h.pos (k + 1) (by omega), fun k hk => h.lt (k + 1) (by omega),
    fun j k hj hk => h.apart (j + 1) (k + 1) (by omega) (by omega)⟩

/-- What the loop does, with `prev` linked to the first block. -/
structure Rounds (s : Dentries) (mem mem' : Mem) (prev : ℕ) (kids : List ℕ) : Prop where
  outside : ∀ x, (prev = 0 ∨ kids = [] ∨ x < prev + 260 ∨ prev + 264 ≤ x) →
    (∀ k < kids.length, x < s.heap k ∨ s.heap k + 264 ≤ x) → mem' x = mem x
  link : kids ≠ [] → prev ≠ 0 → direntNext mem' prev = s.heap 0
  filled : ∀ k (h : k < kids.length), Filled s mem mem' (s.heap k) kids[k]
  next : ∀ k, k + 1 < kids.length → direntNext mem' (s.heap k) = s.heap (k + 1)
  last : ∀ k, k + 1 = kids.length → direntNext mem' (s.heap k) = direntNext mem (s.heap k)

theorem rounds_nil (s : Dentries) (mem : Mem) (prev : ℕ) : Rounds s mem mem prev [] :=
  ⟨fun _ _ _ => rfl, fun h => absurd rfl h, fun _ h => absurd h (Nat.not_lt_zero _),
    fun _ h => absurd h (Nat.not_lt_zero _), fun _ h => absurd h (Nat.succ_ne_zero _)⟩

theorem Filled.of_pop (h : Filled s.pop mem mem' b child) : Filled s mem mem' b child := ⟨h.number, h.chars, h.rest⟩

theorem Filled.congr (h : Filled s mem mem₁ b child) {mem₂ mem₃ : Mem}
    (hbefore : ∀ x, b ≤ x → x < b + 260 → mem₂ x = mem x) (hafter : ∀ x, b ≤ x → x < b + 260 → mem₃ x = mem₁ x) :
    Filled s mem₂ mem₃ b child := by
  refine ⟨?_, fun i hi hi' => ?_, fun i hi hi' => ?_⟩
  · rw [← h.number]
    exact load32_congr fun x h₁ h₂ => hafter x h₁ (by omega)
  · rw [hafter _ (by omega) (by omega), h.chars i hi hi']
  · rw [hafter _ (by omega) (by omega), h.rest i hi hi', hbefore _ (by omega) (by omega)]

theorem Rounds.cons (hblocks : Blocks s.heap (kids.length + 1))
    (hprev : prev = 0 ∨ ∀ k < kids.length + 1, prev + 264 ≤ s.heap k ∨ s.heap k + 264 ≤ prev)
    (h : Rounds s.pop (readdirEntry s mem prev (s.heap 0) child) mem' (s.heap 0) kids) :
    Rounds s mem mem' prev (child :: kids) := by
  have hapart : ∀ k < kids.length, s.heap 0 + 264 ≤ s.heap (k + 1) ∨ s.heap (k + 1) + 264 ≤ s.heap 0 :=
    fun k hk => hblocks.apart 0 (k + 1) (Nat.succ_pos k) (by omega)
  have hfirst : ∀ x, s.heap 0 ≤ x → x < s.heap 0 + 260 ∨ kids = [] ∧ x < s.heap 0 + 264 →
      mem' x = readdirEntry s mem prev (s.heap 0) child x := by
    intro x h₁ h₂
    refine h.outside x ?_ fun k hk => ?_
    · rcases h₂ with h₂ | ⟨h₂, -⟩
      · exact .inr (.inr (.inl h₂))
      · exact .inr (.inl h₂)
    · have hk' := hapart k hk
      change x < s.heap (k + 1) ∨ s.heap (k + 1) + 264 ≤ x
      omega
  have hlater : ∀ k < kids.length, ∀ x, s.heap (k + 1) ≤ x → x < s.heap (k + 1) + 264 →
      mem x = readdirEntry s mem prev (s.heap 0) child x := by
    intro k hk x h₁ h₂
    have hk' := hapart k hk
    refine (readdirEntry_outside (hprev.imp_right fun hp => ?_) (by omega)).symm
    have hp' := hp (k + 1) (by omega)
    omega
  refine ⟨fun x hx hout => ?_, fun _ hne => ?_, fun k hk => ?_, fun k hk => ?_, fun k hk => ?_⟩
  · have h0 := hout 0 (Nat.succ_pos _)
    rw [h.outside x (by omega) fun k hk => hout (k + 1) (by rw [List.length_cons]; omega),
      readdirEntry_outside (hx.imp_right fun hx => hx.resolve_left (List.cons_ne_nil _ _)) (by omega)]
  · have hp := hprev.resolve_left hne
    have h0 := hp 0 (Nat.succ_pos _)
    rw [← readdirEntry_link hne h0 (hblocks.lt 0 (Nat.succ_pos _))]
    refine load32_congr fun x h₁ h₂ => h.outside x (by omega) fun k hk => ?_
    have hk' := hp (k + 1) (by omega)
    change x < s.heap (k + 1) ∨ s.heap (k + 1) + 264 ≤ x
    omega
  · cases k with
    | zero =>
      exact (readdirEntry_filled (hprev.imp_right fun hp => hp 0 (Nat.succ_pos _))).congr
        (fun _ _ _ => rfl) fun x h₁ h₂ => hfirst x h₁ (.inl h₂)
    | succ k =>
      have hk' : k < kids.length := Nat.lt_of_succ_lt_succ hk
      exact (h.filled k hk').of_pop.congr (fun x h₁ h₂ => hlater k hk' x h₁ (Nat.lt_add_right 4 h₂)) fun _ _ _ => rfl
  · cases k with
    | zero => exact h.link (List.ne_nil_of_length_pos (Nat.lt_of_succ_lt_succ hk)) (hblocks.pos 0 (Nat.succ_pos _))
    | succ k => exact h.next k (Nat.lt_of_succ_lt_succ hk)
  · cases k with
    | zero =>
      have hnil : kids = [] := List.eq_nil_of_length_eq_zero (Nat.succ.inj hk).symm
      refine load32_congr fun x h₁ h₂ => (hfirst x (by omega) (.inr ⟨hnil, h₂⟩)).trans ?_
      exact readdirEntry_outside (hprev.imp_right fun hp => by have := hp 0 (Nat.succ_pos _); omega) (by omega)
    | succ k =>
      refine (h.last k (Nat.succ.inj hk)).trans (load32_congr fun x h₁ h₂ => ?_)
      have hk' : k < kids.length := by rw [← Nat.succ.inj hk]; exact Nat.lt_succ_self k
      change s.heap (k + 1) + 260 ≤ x at h₁
      change x < s.heap (k + 1) + 264 at h₂
      exact (hlater k hk' x (by omega) h₂).symm

theorem readdirLoop_spec (hkids : Linked (s.field DentryT.nextSib) 0 child kids) (hfuel : kids.length < fuel)
    (hblocks : Blocks s.heap kids.length)
    (hprev : prev = 0 ∨ ∀ k < kids.length, prev + 264 ≤ s.heap k ∨ s.heap k + 264 ≤ prev) :
    ∃ mem' s', readdirLoop fuel s.pop mem prev (s.heap 0) child = some (mem', s') ∧
      Rounds s mem mem' prev kids := by
  induction kids generalizing s mem prev child fuel with
  | nil =>
    obtain ⟨fuel, rfl⟩ := Nat.exists_eq_succ_of_ne_zero (Nat.ne_of_gt hfuel)
    exact ⟨mem, s.pop, if_pos hkids, rounds_nil s mem prev⟩
  | cons kid kids ih =>
    obtain ⟨rfl, hne, hkids⟩ := hkids
    obtain ⟨fuel, rfl⟩ := Nat.exists_eq_succ_of_ne_zero (Nat.ne_of_gt (Nat.zero_lt_of_lt hfuel))
    rw [List.length_cons] at hfuel hblocks hprev
    have hnext : s.heap 0 = 0 ∨ ∀ k < kids.length, s.heap 0 + 264 ≤ s.pop.heap k ∨ s.pop.heap k + 264 ≤ s.heap 0 :=
      .inr fun k hk => hblocks.apart 0 (k + 1) (Nat.succ_pos k) (by omega)
    have hlen : kids.length < fuel := by omega
    obtain ⟨mem', s', hrun, hrounds⟩ := @ih s.pop (readdirEntry s mem prev (s.heap 0) child) _ _ fuel hkids
      hlen hblocks.tail hnext
    exact ⟨mem', s', (if_neg hne).trans hrun, hrounds.cons hblocks hprev⟩

/-! ## The list -/

/-- The entry of a child, with its path cut to 255 characters. -/
structure EntryOf (s : Dentries) (mem : Mem) (entry child : ℕ) : Prop where
  number : direntInodeN mem entry = inodeN s child
  chars : ∀ i (h : i < ((pathStr s child).take 255).length), mem (entry + 4 + i) = ((pathStr s child).take 255)[i]
  nul : mem (entry + 4 + ((pathStr s child).take 255).length) = 0

/-- A NULL-terminated list with an entry for each child, in their order. -/
def Listing (s : Dentries) (mem : Mem) (entries : ℕ) (kids : List ℕ) : Prop :=
  ∃ blocks, Linked (direntNext mem) 0 entries blocks ∧ List.Forall₂ (EntryOf s mem) blocks kids

/-- What the memory must have in it when `kmalloc` gives it: the NULs that the code does not store. -/
structure Cleared (s : Dentries) (mem : Mem) (kids : List ℕ) : Prop where
  names : ∀ k (h : k < kids.length), (pathStr s kids[k]).length < 256 ∧
    mem (s.heap k + 4 + (pathStr s kids[k]).length) = 0
  last : ∀ k, k + 1 = kids.length → direntNext mem (s.heap k) = 0

theorem zero_not_mem_pathStr (s : Dentries) (child : ℕ) : 0 ∉ pathStr s child := by
  intro h
  have hne := List.mem_takeWhile_imp h
  simp at hne

theorem Filled.entryOf_iff (h : Filled s mem mem' b child) :
    EntryOf s mem' b child ↔ (pathStr s child).length < 256 ∧ mem (b + 4 + (pathStr s child).length) = 0 := by
  constructor
  · intro he
    have hshort : (pathStr s child).length < 256 := by
      by_contra hlong
      have hcut : ((pathStr s child).take 255).length = 255 := by
        rw [List.length_take]
        omega
      have hnul := he.nul
      rw [hcut, h.chars 255 (by omega) (by decide), List.getD_eq_getElem _ _ (by omega)] at hnul
      exact zero_not_mem_pathStr s child (hnul ▸ List.getElem_mem _)
    have hnul := he.nul
    rw [List.take_of_length_le (by omega), h.rest _ le_rfl hshort] at hnul
    exact ⟨hshort, hnul⟩
  · rintro ⟨hshort, hnul⟩
    have hcut : (pathStr s child).take 255 = pathStr s child := List.take_of_length_le (by omega)
    refine ⟨h.number, ?_, ?_⟩
    · rw [hcut]
      intro i hi
      rw [h.chars i hi (by omega), List.getD_eq_getElem _ _ hi]
    · rw [hcut, h.rest _ le_rfl hshort, hnul]

theorem Rounds.listing_iff (hne : kids ≠ []) (hblocks : Blocks s.heap kids.length) (h : Rounds s mem mem' prev kids) :
    Listing s mem' (s.heap 0) kids ↔ Cleared s mem kids := by
  obtain ⟨n, hn⟩ := Nat.exists_eq_succ_of_ne_zero (List.length_pos_iff.mpr hne).ne'
  rw [hn] at hblocks
  have hchain : ∀ blocks, blocks.length = n + 1 → (Linked (direntNext mem') 0 (s.heap 0) blocks ↔
      blocks = (List.range (n + 1)).map s.heap ∧ direntNext mem' (s.heap n) = 0) := fun blocks hlen =>
    linked_chain_iff hblocks.pos (fun k hk => h.next k (by omega)) hlen
  have hentries : List.Forall₂ (EntryOf s mem') ((List.range (n + 1)).map s.heap) kids ↔
      ∀ k (h : k < kids.length), EntryOf s mem' (s.heap k) kids[k] := by
    rw [List.forall₂_iff_get]
    simp [hn]
  constructor
  · rintro ⟨blocks, hlinked, hall⟩
    obtain ⟨rfl, hnil⟩ := (hchain blocks (hall.length_eq.trans hn)).mp hlinked
    refine ⟨fun k hk => (h.filled k hk).entryOf_iff.mp (hentries.mp hall k hk), fun k hk => ?_⟩
    obtain rfl : k = n := by omega
    rw [← h.last k hk, hnil]
  · rintro hc
    refine ⟨_, (hchain _ (by simp)).mpr ⟨rfl, ?_⟩, hentries.mpr fun k hk => ?_⟩
    · rw [h.last n hn.symm, hc.last n hn.symm]
    · exact (h.filled k hk).entryOf_iff.mpr (hc.names k hk)

theorem syscallReaddir_spec (mem : Mem) (hget : dirGet s disk path = .ok (dir, s')) (hdir : dir ≠ 0)
    (hkids : Linked (s'.field DentryT.nextSib) 0 (s'.dentries dir).children kids) (hne : kids ≠ [])
    (hfuel : kids.length < fuel) (hblocks : Blocks s'.heap kids.length) :
    ∃ mem' s₂, syscallReaddir fuel s disk mem path = .ok (none, some (s'.heap 0), mem', s₂) ∧
      Rounds s' mem mem' 0 kids := by
  have hchildren : (s'.dentries dir).children ≠ 0 := fun h0 => hne (h0 ▸ hkids).eq_nil
  obtain ⟨mem', s₂, hrun, hrounds⟩ := @readdirLoop_spec s' mem 0 _ fuel kids hkids hfuel hblocks (.inl rfl)
  refine ⟨mem', s₂, ?_, hrounds⟩
  unfold syscallReaddir
  rw [hget]
  change (if dir = 0 ∨ (s'.dentries dir).children = 0 then _ else _) = _
  rw [if_neg (not_or.mpr ⟨hdir, hchildren⟩), hrun]
  rfl

/-- **The listing** of a directory is right exactly when the memory is, where the code stores nothing. -/
theorem readdir_iff (hget : dirGet s disk path = .ok (dir, s')) (hdir : dir ≠ 0)
    (hkids : Linked (s'.field DentryT.nextSib) 0 (s'.dentries dir).children kids) (hne : kids ≠ [])
    (hfuel : kids.length < fuel) (hblocks : Blocks s'.heap kids.length) :
    ∃ entries mem' s₂, syscallReaddir fuel s disk mem path = .ok (none, some entries, mem', s₂) ∧
      (Listing s' mem' entries kids ↔ Cleared s' mem kids) := by
  obtain ⟨mem', s₂, hrun, hrounds⟩ := syscallReaddir_spec mem hget hdir hkids hne hfuel hblocks
  exact ⟨_, mem', s₂, hrun, hrounds.listing_iff hne hblocks⟩

/-- The root at 8, with the children `a` and `b` at 16 and 24. -/
def lsDentries : Dentries :=
  { demoCaches with
    dentries := fun d => ⟨true, 1, 0, d, d, if d = 16 then 24 else 0, 0, 0, if d = 8 then 16 else 0, 0⟩
    table := ⟨fun _ => ⟨[47], some 8, .valid⟩, Table.demoCapacity, 1, 75, false⟩
    strs := fun p => if p = 8 then [47] else if p = 16 then [47, 97] else [47, 98]
    heap := fun k => 4096 + 264 * k }

def lsDisk : Disk := ⟨fun device n => ⟨device, n, 0, 1, 0, 0, 0, 0, 0, 0, fun _ => 0⟩, fun _ _ _ => 0⟩

theorem lsDentries_get : dirGet lsDentries lsDisk [47] = .ok (8, lsDentries.addRef 8 1) := rfl

theorem lsDentries_kids : Linked ((lsDentries.addRef 8 1).field DentryT.nextSib) 0
    ((lsDentries.addRef 8 1).dentries 8).children [16, 24] :=
  ⟨rfl, by decide, rfl, by decide, rfl⟩

theorem lsDentries_blocks : Blocks (lsDentries.addRef 8 1).heap 2 := by
  refine ⟨fun k hk => ?_, fun k hk => ?_, fun j k hj hk => ?_⟩
  · change 4096 + 264 * k ≠ 0
    omega
  · change 4096 + 264 * k < 2 ^ 32
    omega
  · change 4096 + 264 * j + 264 ≤ 4096 + 264 * k ∨ _
    omega

theorem readdir_clear : ∃ entries mem' s₂,
    syscallReaddir 3 lsDentries lsDisk (fun _ => 0) [47] = .ok (none, some entries, mem', s₂) ∧
      Listing (lsDentries.addRef 8 1) mem' entries [16, 24] := by
  obtain ⟨entries, mem', s₂, hrun, hiff⟩ := @readdir_iff _ _ _ (fun _ => 0) _ 3 _ _ lsDentries_get (by decide)
    lsDentries_kids (List.cons_ne_nil _ _) (by decide) lsDentries_blocks
  refine ⟨entries, mem', s₂, hrun, hiff.mpr ⟨fun k hk => ⟨?_, rfl⟩, fun _ _ => rfl⟩⟩
  match k, hk with
  | 0, _ => exact show 2 < 256 by decide
  | 1, _ => exact show 2 < 256 by decide

/-- Memory that is not clear. -/
theorem readdir_unclear : ∃ entries mem' s₂,
    syscallReaddir 3 lsDentries lsDisk (fun _ => 1) [47] = .ok (none, some entries, mem', s₂) ∧
      ¬ Listing (lsDentries.addRef 8 1) mem' entries [16, 24] := by
  obtain ⟨mem', s₂, hrun, hrounds⟩ := syscallReaddir_spec (fun _ => 1) lsDentries_get (by decide) lsDentries_kids
    (List.cons_ne_nil _ _) (show 2 < 3 by decide) lsDentries_blocks
  refine ⟨_, mem', s₂, hrun, fun hl => ?_⟩
  have hclear := (hrounds.listing_iff (List.cons_ne_nil _ _) lsDentries_blocks).mp hl
  exact absurd (hclear.names 0 (by decide)).2 (by decide)

end BulbOS.Dir
