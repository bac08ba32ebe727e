import BulbOS.Dentry.Children
import BulbOS.Dentry.Rounds
import BulbOS.Inode.Lru

/-!
# References of dentries

A dentry is counted by the callers that hold it, by each of its children and by the directory whose child it is. Only a
`dir_get` that finds the path in the table counts its caller: one that reads directories returns a dentry as it is.

* `CountInv`: `ref_count` is the number of these references, and the list of unreferenced dentries is right;
* `CountInv.hit`, `CountInv.release`, `CountInv.evict`, `CountInv.set`, `CountInv.link`: the calls;
* `Books.parse`, `dirGet_books`: `ext2_parse_dir` and `dir_get`;
* **`dentries_counted`**: runs of the calls from `dir_init`.
-/

namespace BulbOS.Dentry

open KLib BulbOS.Table BulbOS.Inode

variable {s s' : Dentries} {disk : Disk} {held : List ℕ} {kids : ℕ → List ℕ} {up : ℕ → Option ℕ}
  {d dir entry path device inodeN offset : ℕ}

/-! ## The invariant -/

/-- The children of a directory are linked in a list, and they count it; a dentry that is a child counts that, too. -/
structure CountInv (s : Dentries) (held : List ℕ) (kids : ℕ → List ℕ) (up : ℕ → Option ℕ) : Prop where
  nodup : s.live.Nodup
  nonnull : 0 ∉ s.live
  valid : ∀ d ∈ s.live, (s.dentries d).valid = false
  list : ∀ d ∈ s.live, Linked (s.field DentryT.nextSib) 0 (s.dentries d).children (kids d)
  child : ∀ d ∈ s.live, ∀ e, e ∈ kids d ↔ up e = some d
  live : ∀ e d, up e = some d → e ∈ s.live ∧ d ∈ s.live
  count : ∀ d ∈ s.live, (s.dentries d).refCount = held.count d + (kids d).length + (up d).toList.length
  free : ∃ l, s.lru.Lists l ∧ ∀ d, d ∈ l ↔ d ∈ s.live ∧ (s.dentries d).refCount = 0
  held : ∀ d ∈ held, d ∈ s.live

namespace CountInv

theorem nonneg (h : CountInv s held kids up) (hd : d ∈ s.live) : 0 ≤ (s.dentries d).refCount := by
  rw [h.count d hd]
  omega

theorem kid_live (h : CountInv s held kids up) (hd : d ∈ s.live) {e : ℕ} (he : e ∈ kids d) : e ∈ s.live :=
  (h.live e d ((h.child d hd e).mp he)).1

theorem up_eq_none (h : CountInv s held kids up) (hd : d ∉ s.live) : up d = none := by
  by_contra hne
  obtain ⟨dir, hdir⟩ := Option.ne_none_iff_exists'.mp hne
  exact hd (h.live d dir hdir).1

theorem ne_zero_of_held (h : CountInv s held kids up) (hd : d ∈ held) : (s.dentries d).refCount ≠ 0 := by
  have hpos := List.count_pos_iff.mpr hd
  rw [h.count d (h.held d hd)]
  omega

theorem move {held' : List ℕ} (h : CountInv s held kids up) (hlive : s'.live = s.live)
    (hvalid : s'.field DentryT.valid = s.field DentryT.valid)
    (hnext : s'.field DentryT.nextSib = s.field DentryT.nextSib)
    (hchildren : s'.field DentryT.children = s.field DentryT.children)
    (hcount : ∀ d ∈ s.live, (s'.dentries d).refCount + held.count d = (s.dentries d).refCount + held'.count d)
    (hfree : ∃ l, s'.lru.Lists l ∧ ∀ d, d ∈ l ↔ d ∈ s.live ∧ (s'.dentries d).refCount = 0)
    (hheld : ∀ d ∈ held', d ∈ s.live) : CountInv s' held' kids up := by
  have hkids : ∀ d, (s'.dentries d).children = (s.dentries d).children := congrFun hchildren
  refine ⟨hlive ▸ h.nodup, hlive ▸ h.nonnull, fun d hd => ?_, fun d hd => ?_, hlive ▸ h.child, hlive ▸ h.live,
    fun d hd => ?_, hlive ▸ hfree, hlive ▸ hheld⟩
  · exact (congrFun hvalid d).trans (h.valid d (hlive ▸ hd))
  · rw [hnext, hkids]
    exact h.list d (hlive ▸ hd)
  · have hold := h.count d (hlive ▸ hd)
    have hnew := hcount d (hlive ▸ hd)
    omega

theorem quiet (h : CountInv s held kids up) (hlive : s'.live = s.live) (hlru : s'.lru = s.lru)
    (hvalid : s'.field DentryT.valid = s.field DentryT.valid)
    (hnext : s'.field DentryT.nextSib = s.field DentryT.nextSib)
    (hchildren : s'.field DentryT.children = s.field DentryT.children)
    (hcount : s'.field DentryT.refCount = s.field DentryT.refCount) : CountInv s' held kids up := by
  have hrefs : ∀ d, (s'.dentries d).refCount = (s.dentries d).refCount := congrFun hcount
  obtain ⟨l, hl, hmem⟩ := h.free
  refine h.move hlive hvalid hnext hchildren (fun d _ => by rw [hrefs]) ⟨l, hlru ▸ hl, fun d => ?_⟩ h.held
  rw [hmem, hrefs]

end CountInv

theorem addRef_refCount (s : Dentries) (d : ℕ) (k : ℤ) (e : ℕ) :
    ((s.addRef d k).dentries e).refCount = (s.dentries e).refCount + if e = d then k else 0 := by
  by_cases he : e = d
  · rw [he, if_pos rfl, Dentries.addRef, set_self]
  · rw [if_neg he, Dentries.addRef, set_of_ne _ _ he, add_zero]

namespace CountInv

/-! ## Callers -/

/-- **`dir_get`** of a path that is in the table: its caller is counted. -/
theorem hit {r : ℕ} (h : CountInv s held kids up) (hd : d ∈ s.live)
    (hfront : d = s.lru.lhead → d ≠ s.lru.ltail → s.lru.prev d = 0) (hok : dirGetHit s d = .ok (r, s')) :
    CountInv s' (d :: held) kids up := by
  obtain ⟨l, hl, hmem⟩ := h.free
  have hheld : ∀ e ∈ d :: held, e ∈ s.live := fun e he => by
    rcases List.mem_cons.mp he with rfl | he
    · exact hd
    · exact h.held e he
  have hcount : ∀ e ∈ s.live, ((s.addRef d 1).dentries e).refCount + held.count e =
      (s.dentries e).refCount + (d :: held).count e := fun e _ => by
    rw [addRef_refCount, List.count_cons]
    by_cases he : e = d
    · rw [if_pos he, he, if_pos (beq_self_eq_true d)]
      omega
    · rw [if_neg he, if_neg (by simpa using Ne.symm he)]
      omega
  unfold dirGetHit at hok
  dsimp only at hok
  by_cases h₀ : (s.dentries d).refCount = 0
  · rw [if_pos h₀] at hok
    obtain ⟨lru, hrem, hok⟩ := eq_ok_of_bind hok
    cases hok
    have hlist : lru.Lists (l.erase d) := by
      unfold dirRemove at hrem
      split_ifs at hrem
      exact hl.remove ((hmem d).mpr ⟨hd, h₀⟩) hfront hrem
    change CountInv { s.addRef d 1 with lru := lru } (d :: held) kids up
    refine h.move rfl (field_set_same s _ rfl) (field_set_same s _ rfl)
      (field_set_same s _ rfl) hcount ⟨_, hlist, fun e => ?_⟩ hheld
    rw [hl.forth.nodup.mem_erase_iff, hmem]
    change e ≠ d ∧ _ ↔ _ ∧ ((s.addRef d 1).dentries e).refCount = 0
    rw [addRef_refCount]
    by_cases he : e = d
    · rw [if_pos he, he, h₀]
      exact iff_of_false (fun hne => hne.1 rfl) fun hne => absurd hne.2 (by decide)
    · rw [if_neg he, add_zero]
      exact and_iff_right he
  · rw [if_neg h₀] at hok
    cases hok
    change CountInv (s.addRef d 1) (d :: held) kids up
    refine h.move rfl (field_set_same s _ rfl) (field_set_same s _ rfl)
      (field_set_same s _ rfl) hcount ⟨l, hl, fun e => ?_⟩ hheld
    rw [hmem, addRef_refCount]
    by_cases he : e = d
    · have hpos := h.nonneg hd
      rw [if_pos he, he]
      exact iff_of_false (fun e₀ => h₀ e₀.2) fun e₀ => absurd e₀.2 (by omega)
    · rw [if_neg he, add_zero]

/-- **`dir_release`** of a dentry that a caller holds. -/
theorem release (h : CountInv s held kids up) (hd : d ∈ held) : CountInv (dirRelease s d) (held.erase d) kids up := by
  obtain ⟨l, hl, hmem⟩ := h.free
  have hlive := h.held d hd
  have hcount : ∀ e ∈ s.live, ((s.addRef d (-1)).dentries e).refCount + held.count e =
      (s.dentries e).refCount + (held.erase d).count e := fun e _ => by
    rw [addRef_refCount]
    by_cases he : e = d
    · have hpos := List.count_pos_iff.mpr hd
      rw [if_pos he, he, List.count_erase_self]
      omega
    · rw [if_neg he, List.count_erase_of_ne he]
      omega
  have hheld : ∀ e ∈ held.erase d, e ∈ s.live := fun e he => h.held e (List.mem_of_mem_erase he)
  have hout : d ∉ l := fun hdl => h.ne_zero_of_held hd ((hmem d).mp hdl).2
  have hother : ∀ e, e ≠ d → ((s.addRef d (-1)).dentries e).refCount = (s.dentries e).refCount := fun e he => by
    rw [addRef_refCount, if_neg he, add_zero]
  unfold dirRelease
  dsimp only
  split_ifs with h₀
  · refine h.move rfl (field_set_same s _ rfl) (field_set_same s _ rfl) (field_set_same s _ rfl) hcount
      ⟨d :: l, hl.push hout (fun e₀ => h.nonnull (e₀ ▸ hlive)), fun e => ?_⟩ hheld
    rw [List.mem_cons, hmem]
    by_cases he : e = d
    · rw [he]
      exact iff_of_true (.inl rfl) ⟨hlive, h₀⟩
    · change _ ↔ _ ∧ ((s.addRef d (-1)).dentries e).refCount = 0
      rw [hother e he, or_iff_right he]
  · change CountInv (s.addRef d (-1)) (held.erase d) kids up
    refine h.move rfl (field_set_same s _ rfl) (field_set_same s _ rfl)
      (field_set_same s _ rfl) hcount ⟨l, hl, fun e => ?_⟩ hheld
    rw [hmem]
    by_cases he : e = d
    · rw [he]
      exact iff_of_false (fun e₀ => h.ne_zero_of_held hd e₀.2) fun e₀ => h₀ e₀.2
    · rw [hother e he]

/-! ## New dentries -/

/-- The children of a new dentry: `dentry_alloc` does not set the link. -/
theorem alloc {inode : ℕ} {inodes : Inodes} (h : CountInv s held kids up) (hd : d = s.heap 1) (hd₀ : d ≠ 0)
    (hnew : d ∉ s.live) (hchildren : (s.dentries d).children = 0) :
    CountInv (newDentry s device path inodeN offset inode inodes) (d :: held) (Function.update kids d []) up := by
  subst hd
  obtain ⟨l, hl, hmem⟩ := h.free
  have hup := h.up_eq_none hnew
  have hne : ∀ e ∈ s.live, e ≠ s.heap 1 := fun e he e₀ => hnew (e₀ ▸ he)
  have hself : (newDentry s device path inodeN offset inode inodes).dentries (s.heap 1) =
      { s.dentries (s.heap 1) with valid := false, refCount := 1, offset := offset, inode := inode, path := path } :=
    set_self ..
  have hold : ∀ e ∈ s.live, (newDentry s device path inodeN offset inode inodes).dentries e = s.dentries e :=
    fun e he => set_of_ne s.pop.pop _ (hne e he)
  have hnext : (newDentry s device path inodeN offset inode inodes).field DentryT.nextSib =
    s.field DentryT.nextSib := field_set_same s _ rfl
  refine ⟨List.nodup_cons.mpr ⟨hnew, h.nodup⟩, ?_, List.forall_mem_cons.mpr ⟨by rw [hself], fun e he => ?_⟩,
    List.forall_mem_cons.mpr ⟨?_, fun e he => ?_⟩, List.forall_mem_cons.mpr ⟨fun e => ?_, fun e he => ?_⟩,
    fun e dir hdir => ?_, List.forall_mem_cons.mpr ⟨?_, fun e he => ?_⟩, ⟨l, ?_, fun e => ?_⟩,
    List.forall_mem_cons.mpr ⟨List.mem_cons_self, fun e he => List.mem_cons_of_mem _ (h.held e he)⟩⟩
  · exact List.not_mem_cons_of_ne_of_not_mem hd₀.symm h.nonnull
  · rw [hold e he]
    exact h.valid e he
  · rw [hself, Function.update_self]
    exact hchildren
  · rw [hold e he, Function.update_of_ne (hne e he), hnext]
    exact h.list e he
  · rw [Function.update_self]
    exact iff_of_false List.not_mem_nil fun he => hnew (h.live e _ he).2
  · rw [Function.update_of_ne (hne e he)]
    exact h.child e he
  · obtain ⟨he, hlive⟩ := h.live e dir hdir
    exact ⟨List.mem_cons_of_mem _ he, List.mem_cons_of_mem _ hlive⟩
  · have hcount : held.count (s.heap 1) = 0 := List.count_eq_zero.mpr fun hheld => hnew (h.held _ hheld)
    rw [hself, Function.update_self, hup, List.count_cons_self, hcount]
    rfl
  · rw [hold e he, Function.update_of_ne (hne e he), List.count_cons_of_ne (hne e he).symm]
    exact h.count e he
  · have hout : ∀ e ∈ l, e ≠ s.heap 1 := fun e he => hne e ((hmem e).mp he).1
    exact hl.congr (fun e he => Function.update_of_ne (hout e he) ..) (fun e he => Function.update_of_ne (hout e he) ..)
      rfl rfl
  · rw [hmem]
    change _ ↔ e ∈ s.heap 1 :: s.live ∧ _
    by_cases he : e = s.heap 1
    · rw [he, hself]
      exact iff_of_false (fun e₀ => hnew e₀.1) fun e₀ => one_ne_zero e₀.2
    · rw [List.mem_cons, or_iff_right he]
      exact and_congr_right fun hlive => by rw [hold e hlive]

theorem put {ret : ℤ} (h : CountInv s held kids up) (hok : dirPut s path d = .ok (ret, s')) :
    CountInv s' held kids up := by
  obtain ⟨table, -, rfl⟩ := dirPut_cases hok
  exact h.quiet rfl rfl rfl rfl rfl rfl

end CountInv

/-- **`dir_evict`** of a dentry that is not valid. -/
theorem dirEvict_spec (hvalid : ∀ d ∈ s.live, (s.dentries d).valid = false) (h : dirEvict s = .ok s') :
    s.lru.ltail ∈ s.live ∧ (s.dentries s.lru.ltail).refCount = 0 ∧ s'.dentries = s.dentries ∧
      s'.live = s.live.erase s.lru.ltail ∧ s.lru.remove .dentry s.lru.ltail = .ok s'.lru := by
  unfold dirEvict at h
  dsimp only at h
  by_cases h₀ : s.lru.ltail = 0
  · rw [if_pos h₀] at h
    cases h
  rw [if_neg h₀] at h
  by_cases hlive : s.lru.ltail ∉ s.live
  · rw [if_pos hlive] at h
    cases h
  rw [if_neg hlive] at h
  by_cases href : (s.dentries s.lru.ltail).refCount ≠ 0
  · rw [if_pos href] at h
    cases h
  rw [if_neg href] at h
  rw [not_not] at hlive href
  refine ⟨hlive, href, ?_⟩
  split at h
  · cases h
  · rename_i ret table hrem
    by_cases hret : ret ≠ 0
    · rw [if_pos hret] at h
      cases h
    rw [if_neg hret] at h
    unfold dirFree at h
    obtain ⟨lru, hlru, h⟩ := eq_ok_of_bind h
    dsimp only at h
    rw [if_neg (by rw [hvalid _ hlive]; decide)] at h
    obtain ⟨s₁, h₁, h⟩ := eq_ok_of_bind h
    cases h₁
    obtain ⟨s₂, h₂, h⟩ := eq_ok_of_bind h
    cases h
    obtain ⟨liveTables, rfl⟩ := tableFree_cases h₂
    unfold dirRemove at hlru
    split_ifs at hlru
    exact ⟨rfl, rfl, hlru⟩

namespace CountInv

theorem evict (h : CountInv s held kids up) (hok : dirEvict s = .ok s') :
    CountInv s' held kids up ∧ s'.dentries = s.dentries ∧
      ∀ d ∈ s.live, (s.dentries d).refCount ≠ 0 → d ∈ s'.live := by
  obtain ⟨hold, href, hdentries, hlive, hrem⟩ := dirEvict_spec h.valid hok
  generalize hx : s.lru.ltail = old at hold href hlive hrem
  obtain ⟨l, hl, hmem⟩ := h.free
  have hcount := h.count old hold
  have hcalm : held.count old = 0 ∧ (kids old).length = 0 ∧ (up old).toList.length = 0 := by omega
  have hkids : kids old = [] := List.eq_nil_of_length_eq_zero hcalm.2.1
  have hup : up old = none := by
    rcases hup : up old with _ | dir
    · rfl
    · rw [hup] at hcalm
      exact absurd hcalm.2.2 (Nat.succ_ne_zero 0)
  have hsub : ∀ d ∈ s'.live, d ∈ s.live ∧ d ≠ old := fun d hd => by
    rw [hlive, h.nodup.mem_erase_iff] at hd
    exact hd.symm
  have hstay : ∀ d ∈ s.live, d ≠ old → d ∈ s'.live := fun d hd hne => by
    rw [hlive, h.nodup.mem_erase_iff]
    exact ⟨hne, hd⟩
  refine ⟨⟨hlive ▸ h.nodup.erase _, fun h₀ => h.nonnull (hsub 0 h₀).1, fun d hd => ?_, fun d hd => ?_, fun d hd =>
    h.child d (hsub d hd).1, fun e d hd => ?_, fun d hd => ?_, ⟨l.erase old, ?_, fun d => ?_⟩, fun d hd => ?_⟩,
    hdentries, fun d hd hne => hstay d hd fun e => hne (e ▸ href)⟩
  · rw [hdentries]
    exact h.valid d (hsub d hd).1
  · unfold Dentries.field
    rw [hdentries]
    exact h.list d (hsub d hd).1
  · obtain ⟨he, hdir⟩ := h.live e d hd
    refine ⟨hstay e he ?_, hstay d hdir ?_⟩
    · rintro rfl
      rw [hup] at hd
      cases hd
    · rintro rfl
      have hmem := (h.child d hdir e).mpr hd
      rw [hkids] at hmem
      cases hmem
  · rw [hdentries]
    exact h.count d (hsub d hd).1
  · exact hl.remove ((hmem old).mpr ⟨hold, href⟩) (fun _ hne => absurd hx.symm hne) hrem
  · rw [hl.forth.nodup.mem_erase_iff, hmem, hlive, h.nodup.mem_erase_iff, hdentries, and_assoc]
  · refine hstay d (h.held d hd) ?_
    rintro rfl
    exact h.ne_zero_of_held hd href

theorem stays {fuel : ℕ} {ret : ℤ} (h : CountInv s held kids up) (hdir : dir ∈ s.live)
    (href : (s.dentries dir).refCount ≠ 0) (hok : dirEvictLoop path d fuel s = .ok (ret, s')) :
    CountInv s' held kids up ∧ dir ∈ s'.live := by
  have hrefs : ∀ t : Dentries, CountInv t held kids up → dir ∈ t.live → (t.dentries dir).refCount ≠ 0 :=
    fun t ht hlive => by
      rw [h.count dir hdir] at href
      rwa [ht.count dir hlive]
  refine dirEvictLoop_rule (I := fun s => CountInv s held kids up ∧ dir ∈ s.live) ?_ ?_ hok ⟨h, hdir⟩
  · intro t t' ht hevict
    obtain ⟨h', -, hstay⟩ := ht.1.evict hevict
    exact ⟨h', hstay dir ht.2 (hrefs t ht.1 ht.2)⟩
  · intro t r t' ht hput
    obtain ⟨table, -, rfl⟩ := dirPut_cases hput
    exact ⟨ht.1.put hput, ht.2⟩

/-- **`dir_set`**: the new dentry is held by its caller. -/
theorem set (h : CountInv s held kids up) (hclear : (setCall s device path inodeN).cleared = true)
    (hok : dirSet s device path inodeN offset = .ok (d, s')) :
    CountInv s' (d :: held) (Function.update kids d []) up ∧ d ∈ s'.live ∧ d ∉ s.live ∧
      ∀ dir ∈ s.live, (s.dentries dir).refCount ≠ 0 → dir ∈ s'.live := by
  obtain ⟨inode, inodes, ret, s₁, -, hd, hd₀, hnew, hput, hs⟩ := dirSet_cases hok
  have hchildren : (s.dentries d).children = 0 := hd ▸ (of_decide_eq_true hclear).1
  have halloc : CountInv (newDentry s device path inodeN offset inode inodes) (d :: held)
    (Function.update kids d []) up :=
    h.alloc hd hd₀ hnew hchildren
  have h₁ := halloc.put hput
  obtain ⟨table, -, rfl⟩ := dirPut_cases hput
  have hold : ∀ dir ∈ s.live, (newDentry s device path inodeN offset inode inodes).dentries dir = s.dentries dir :=
    fun dir hdir => set_of_ne s.pop.pop _ fun e => hnew (hd ▸ e ▸ hdir)
  have hself : d ∈ (newDentry s device path inodeN offset inode inodes).live := hd ▸ List.mem_cons_self
  have hlive : ∀ dir ∈ s.live, dir ∈ (newDentry s device path inodeN offset inode inodes).live :=
    fun dir hdir => List.mem_cons_of_mem _ hdir
  rcases hs with ⟨-, rfl⟩ | ⟨-, hloop⟩
  · exact ⟨h₁, hself, hnew, fun dir hdir _ => hlive dir hdir⟩
  · obtain ⟨h', hd'⟩ := h₁.stays hself (h₁.ne_zero_of_held List.mem_cons_self) hloop
    refine ⟨h', hd', hnew, fun dir hdir href => (h₁.stays (hlive dir hdir) ?_ hloop).2⟩
    exact fun e => href ((congrArg DentryT.refCount (hold dir hdir)).symm.trans e)

end CountInv

/-! ## Children -/

theorem linkChild_refCount (s : Dentries) (hne : dir ≠ entry) (d : ℕ) :
    ((linkChild s dir entry).dentries d).refCount = (s.dentries d).refCount +
      ((if d = dir then 1 else 0) + if d = entry then 1 else 0) := by
  obtain ⟨s₁, s₂, s₃, s₄, s₅, s₆, h₁, h₂, h₃, h₄, h₅, h₆, h⟩ := linkChild_stages s dir entry
  have e₁ : s₁.field DentryT.refCount =
    Function.update (s.field DentryT.refCount) dir ((s.dentries dir).refCount + 1) := h₁ ▸ field_set ..
  have e₂ : s₂.field DentryT.refCount = s₁.field DentryT.refCount := h₂ ▸ field_set_same _ _ rfl
  have e₃ : s₃.field DentryT.refCount = s₂.field DentryT.refCount := h₃ ▸ field_ite_same _ _ _ rfl
  have e₄ : s₄.field DentryT.refCount = s₃.field DentryT.refCount := h₄ ▸ field_set_same _ _ rfl
  have e₅ : s₅.field DentryT.refCount = s₄.field DentryT.refCount := h₅ ▸ field_set_same _ _ rfl
  have e₆ : s₆.field DentryT.refCount =
    Function.update (s₅.field DentryT.refCount) entry (s₅.field DentryT.refCount entry + 1) := h₆ ▸ field_set ..
  have e₇ : (linkChild s dir entry).field DentryT.refCount = s₆.field DentryT.refCount := h ▸ field_set_same _ _ rfl
  change (linkChild s dir entry).field DentryT.refCount d = _
  rw [e₇, e₆, e₅, e₄, e₃, e₂, e₁]
  by_cases hde : d = entry
  · rw [hde, Function.update_self, Function.update_of_ne hne.symm, if_neg hne.symm, if_pos rfl, zero_add]
    rfl
  · rw [Function.update_of_ne hde, if_neg hde, add_zero]
    by_cases hdd : d = dir
    · rw [hdd, Function.update_self, if_pos rfl]
    · rw [Function.update_of_ne hdd, if_neg hdd, add_zero]
      rfl

theorem linkChild_lru (s : Dentries) (dir entry : ℕ) : (linkChild s dir entry).lru = s.lru := by
  unfold linkChild
  dsimp only
  split_ifs <;> rfl

/-- **`dir_add_child`** counts the directory and the entry. -/
theorem CountInv.link (h : CountInv s held kids up) (hdir : dir ∈ s.live) (hentry : entry ∈ s.live) (hne : dir ≠ entry)
    (hup : up entry = none) (hd : (s.dentries dir).refCount ≠ 0) (he : (s.dentries entry).refCount ≠ 0) :
    CountInv (linkChild s dir entry) held (Function.update kids dir (entry :: kids dir))
      (Function.update up entry (some dir)) := by
  have hsame := same_linkChild s dir entry
  have hnext := linkChild_nextSib s dir entry
  have hout : ∀ d ∈ s.live, entry ∉ kids d := fun d hd hmem => by
    have hc := (h.child d hd entry).mp hmem
    rw [hup] at hc
    cases hc
  have hchildren : ∀ d, ((linkChild s dir entry).dentries d).children =
    Function.update (s.field DentryT.children) dir entry d := congrFun (linkChild_children s dir entry)
  have hrefs := linkChild_refCount s hne
  obtain ⟨l, hl, hmem⟩ := h.free
  refine ⟨hsame.live ▸ h.nodup, hsame.live ▸ h.nonnull, fun d hd => ?_, fun d hd => ?_, fun d hlive e => ?_,
    fun e d hd => ?_, fun d hd => ?_, ⟨l, (linkChild_lru s dir entry).symm ▸ hl, fun d => ?_⟩, hsame.live ▸ h.held⟩
  · rw [hsame.valid]
    exact h.valid d (hsame.live ▸ hd)
  · rw [hsame.live] at hd
    have hlist : Linked (Function.update (s.field DentryT.nextSib) entry (s.dentries dir).children) 0
        (s.dentries d).children (kids d) :=
      (h.list d hd).congr fun x hx => Function.update_of_ne (fun e₀ : x = entry => hout d hd (e₀ ▸ hx)) ..
    rw [hchildren, hnext]
    by_cases hdd : d = dir
    · subst hdd
      rw [Function.update_self, Function.update_self, linked_cons, Function.update_self]
      exact ⟨rfl, fun e₀ => h.nonnull (e₀ ▸ hentry), hlist⟩
    · rw [Function.update_of_ne hdd, Function.update_of_ne hdd]
      exact hlist
  · rw [hsame.live] at hlive
    by_cases hdd : d = dir
    · rw [hdd, Function.update_self, List.mem_cons]
      by_cases hee : e = entry
      · rw [hee, Function.update_self]
        exact iff_of_true (.inl rfl) rfl
      · rw [Function.update_of_ne hee, or_iff_right hee]
        exact h.child dir hdir e
    · rw [Function.update_of_ne hdd]
      by_cases hee : e = entry
      · rw [hee, Function.update_self, Option.some.injEq]
        exact iff_of_false (hout d hlive) (Ne.symm hdd)
      · rw [Function.update_of_ne hee]
        exact h.child d hlive e
  · rw [hsame.live]
    by_cases hee : e = entry
    · rw [hee, Function.update_self, Option.some.injEq] at hd
      exact ⟨hee ▸ hentry, hd ▸ hdir⟩
    · rw [Function.update_of_ne hee] at hd
      exact h.live e d hd
  · rw [hsame.live] at hd
    have hold := h.count d hd
    rw [hrefs]
    by_cases hdd : d = dir
    · rw [if_pos hdd, if_neg fun e₀ => hne (hdd.symm.trans e₀), hdd, Function.update_self, Function.update_of_ne hne,
        List.length_cons]
      rw [hdd] at hold
      push_cast
      omega
    · rw [if_neg hdd, Function.update_of_ne hdd]
      by_cases hde : d = entry
      · rw [hde, hup] at hold
        rw [if_pos hde, hde, Function.update_self]
        simp only [Option.toList_none, List.length_nil, Option.toList_some, List.length_singleton] at hold ⊢
        omega
      · rw [if_neg hde, Function.update_of_ne hde]
        omega
  · rw [hmem, hsame.live, hrefs]
    refine and_congr_right fun hlive => ?_
    by_cases hdd : d = dir
    · have hpos := h.nonneg hdir
      rw [if_pos hdd, hdd, if_neg hne]
      exact iff_of_false hd (by omega)
    · rw [if_neg hdd]
      by_cases hde : d = entry
      · have hpos := h.nonneg hentry
        rw [if_pos hde, hde]
        exact iff_of_false he (by omega)
      · rw [if_neg hde, add_zero, add_zero]

/-! ## Directories -/

/-- `dentry_alloc` found clear memory every time. -/
def Dentries.Cleared (s : Dentries) : Prop := ∀ call ∈ s.sets, call.cleared = true

theorem Dentries.Cleared.before (h : s'.Cleared) (hs : s.sets <:+ s'.sets) : s.Cleared :=
  fun call hc => h call (hs.subset hc)

/-- The books are right, and the directory is counted. -/
def Books (s : Dentries) (held : List ℕ) (dir : ℕ) : Prop :=
  (∃ kids up, CountInv s held kids up) ∧ dir ∈ s.live ∧ (s.dentries dir).refCount ≠ 0

theorem Books.newPath {str : List UInt8} (h : Books s held dir) (hok : newPath s str = .ok (path, s')) :
    Books s' held dir := by
  obtain ⟨-, -, rfl⟩ := newPath_cases hok
  obtain ⟨⟨kids, up, h⟩, hdir, href⟩ := h
  exact ⟨⟨kids, up, h.quiet rfl rfl rfl rfl rfl rfl⟩, hdir, href⟩

/-- **`dir_set`, `dir_add_child` and `_dir_release`** of `ext2_parse_dir`: only the directory counts the entry. -/
theorem Books.addEntry {s₁ s₂ : Dentries} (h : Books s held dir)
    (hclear : (setCall s device path inodeN).cleared = true)
    (hset : dirSet s device path inodeN offset = .ok (entry, s₁)) (hadd : dirAddChild s₁ dir entry = .ok s₂) :
    Books (dirRelease s₂ entry) held dir := by
  obtain ⟨⟨kids, up, h⟩, hdir, href⟩ := h
  obtain ⟨h₁, hentry, hnew, hstay⟩ := h.set hclear hset
  have hdir₁ := hstay dir hdir href
  have hne : dir ≠ entry := fun e => hnew (e ▸ hdir)
  have hother : ∀ t : Dentries, ((dirRelease t entry).dentries dir).refCount = (t.dentries dir).refCount := fun t => by
    have hrefs := addRef_refCount t entry (-1) dir
    rw [if_neg hne, add_zero] at hrefs
    unfold dirRelease
    dsimp only
    split_ifs
    · exact hrefs
    · exact hrefs
  have hlive : ∀ t : Dentries, (dirRelease t entry).live = t.live := fun t => (same_release t entry).live
  have herase : (entry :: held).erase entry = held := List.erase_cons_head ..
  have hup := h.up_eq_none hnew
  have href₁ : (s₁.dentries dir).refCount ≠ 0 := by
    rw [h.count dir hdir] at href
    rw [h₁.count dir hdir₁, List.count_cons_of_ne hne.symm, Function.update_of_ne hne]
    exact href
  rcases dirAddChild_cases hadd with ⟨-, rfl | ⟨tables, rfl⟩⟩
  · have h₂ := h₁.release List.mem_cons_self
    rw [herase] at h₂
    exact ⟨⟨_, _, h₂⟩, by rwa [hlive], by rwa [hother]⟩
  · have h₂ : CountInv { s₁ with tables := tables } (entry :: held) (Function.update kids entry []) up :=
      h₁.quiet rfl rfl rfl rfl rfl rfl
    have hlink := h₂.link hdir₁ hentry hne hup href₁ (h₁.ne_zero_of_held List.mem_cons_self)
    have h₃ := hlink.release List.mem_cons_self
    rw [herase] at h₃
    refine ⟨⟨_, _, h₃⟩, ?_, ?_⟩
    · rw [hlive, (same_linkChild _ _ _).live]
      exact hdir₁
    · have hpos := h₁.nonneg hdir₁
      rw [hother, linkChild_refCount _ hne, if_pos rfl, if_neg hne]
      change (s₁.dentries dir).refCount + (1 + 0) ≠ 0
      omega

theorem Books.parseEntry {e : Entry} (h : Books s held dir) (hok : parseEntry s dir device e = .ok s')
    (hclear : s'.Cleared) : Books s' held dir := by
  obtain ⟨-, path, s₁, hpath, ⟨-, rfl⟩ | ⟨-, child, s₂, s₃, hset, hadd, rfl⟩⟩ := parseEntry_cases hok
  · exact h.newPath hpath
  · refine (h.newPath hpath).addEntry (hclear _ ?_) hset hadd
    rw [(same_release _ _).sets, (same_addChild hadd).sets, dirSet_sets hset]
    exact List.mem_cons_self

theorem Books.parse (h : Books s held dir) (hok : ext2ParseDir s disk dir = .ok s') (hclear : s'.Cleared) :
    Books s' held dir := by
  obtain ⟨-, s₁, inodes, es, htable, -, -, hfold⟩ := ext2ParseDir_cases hok
  obtain ⟨⟨kids, up, h⟩, hdir, href⟩ := h
  have hstart : Books { s₁ with inodes := inodes } held dir := by
    rcases dirTable_cases htable with rfl | ⟨table, tables, liveTables, rfl⟩
    · exact ⟨⟨kids, up, h.quiet rfl rfl rfl rfl rfl rfl⟩, hdir, href⟩
    · have hrefs : (s.pop.set dir { s.dentries dir with table := table }).field DentryT.refCount =
        s.field DentryT.refCount := field_set_same s _ rfl
      refine ⟨⟨kids, up, h.quiet rfl rfl (field_set_same s _ rfl) (field_set_same s _ rfl) (field_set_same s _ rfl)
        hrefs⟩, hdir, ?_⟩
      exact fun e => href ((congrFun hrefs dir).symm.trans e)
  refine foldlM_invariant (I := fun s => s.Cleared → Books s held dir) (fun t e t' _ ht hentry hclear' => ?_) hfold
    (fun _ => hstart) hclear
  exact (ht (hclear'.before (keeps_parseEntry hentry).1)).parseEntry hentry hclear'

/-- A lookup in which every directory that is read is counted. -/
theorem descend_books {origLen fuel len r : ℕ} {buf : List UInt8}
    (h : s.Cleared → ∃ kids up, CountInv s held kids up)
    (hlog : ∀ call ∈ (descendLog disk origLen fuel s d buf len).1, (call.1.dentries call.2).refCount ≠ 0)
    (hok : (descendLog disk origLen fuel s d buf len).2 = .ok (r, s')) (hclear : s'.Cleared) :
    ∃ kids up, CountInv s' held kids up := by
  induction fuel generalizing s d buf len with
  | zero => cases hok
  | succ fuel ih =>
    rw [descendLog] at hlog hok
    by_cases hlen : len = origLen
    · rw [if_pos hlen] at hok
      cases hok
      exact h hclear
    rw [if_neg hlen] at hlog hok
    dsimp only at hlog hok
    cases hparse : ext2ParseDir s disk d with
    | error e =>
      rw [hparse] at hok
      cases hok
    | ok s₁ =>
      rw [hparse] at hlog hok
      dsimp only at hlog hok
      obtain ⟨href, hlog⟩ := List.forall_mem_cons.mp hlog
      have h₁ : s₁.Cleared → ∃ kids up, CountInv s₁ held kids up := fun hc =>
        (Books.parse ⟨h (hc.before (keeps_parseDir hparse).1), (ext2ParseDir_cases hparse).1, href⟩ hparse hc).1
      generalize buf.set len 47 = path at hlog hok
      generalize nextNul path origLen (origLen - len) len = len' at hlog hok
      by_cases hdot : 1 < len' ∧ path.getD (len' - 1) 0 = 46
      · rw [if_pos hdot] at hlog hok
        by_cases hdots : 2 < len' ∧ path.getD (len' - 2) 0 = 46
        · rw [if_pos hdots] at hlog hok
          exact ih h₁ hlog hok
        · rw [if_neg hdots] at hlog hok
          exact ih h₁ hlog hok
      · rw [if_neg hdot] at hlog hok
        generalize (if 1 < origLen ∧ path.getD (origLen - 1) 0 = 47 then path.set (origLen - 1) 0 else path) = path
          at hlog hok
        rcases hget : htGet s₁.table (cstr path) with _ | _ | e
        · rw [hget] at hok
          cases hok
        · rw [hget] at hok
          cases hok
          exact h₁ hclear
        · rw [hget] at hlog hok
          exact ih h₁ hlog hok

/-! ## Runs -/

/-- The path that `dir_get` looks for in the table. -/
def lookupPath (s : Dentries) (name : List UInt8) : List UInt8 :=
  let path := absPath s name
  if 1 < path.length ∧ path.getD (path.length - 1) 0 = 47 then path.take (path.length - 1) else path

/-- The dentry of the table. -/
def cached (s : Dentries) (name : List UInt8) : Option ℕ := (htGet s.table (lookupPath s name)).join

/-- **`dir_get`** counts its caller if it finds the path in the table, and only then. -/
theorem dirGet_books {name : List UInt8} {r : ℕ} (h : CountInv s held kids up)
    (hcached : ∀ d, cached s name = some d → d ∈ s.live ∧ (d = s.lru.lhead → d ≠ s.lru.ltail → s.lru.prev d = 0))
    (hlog : ∀ call ∈ (dirGetLog s disk name).1, (call.1.dentries call.2).refCount ≠ 0)
    (hok : dirGet s disk name = .ok (r, s')) (hclear : s'.Cleared) :
    ∃ kids up, CountInv s' ((cached s name).toList ++ held) kids up := by
  rw [← dirGetLog_result] at hok
  unfold dirGetLog at hlog hok
  dsimp only at hlog hok
  unfold cached lookupPath at hcached ⊢
  dsimp only at hcached ⊢
  generalize (if 1 < (absPath s name).length ∧ (absPath s name).getD ((absPath s name).length - 1) 0 = 47
    then (absPath s name).take ((absPath s name).length - 1) else absPath s name) = path at hlog hok hcached ⊢
  rcases hget : htGet s.table path with _ | _ | d
  · rw [hget] at hok
    cases hok
  · rw [hget] at hlog hok
    dsimp only at hlog hok
    unfold dirIterGetLog at hlog hok
    rcases hfirst : prefixLoop s ((absPath s name).length + 1)
      (path ++ List.replicate ((absPath s name).length + 1 - path.length) 0) (absPath s name).length
        with e | ⟨d, buf, start⟩
    · rw [hfirst] at hok
      cases hok
    · rw [hfirst] at hlog hok
      dsimp only at hlog hok
      by_cases hd : d = 0
      · rw [if_pos hd] at hok
        cases hok
        exact ⟨kids, up, h⟩
      · rw [if_neg hd] at hlog hok
        exact descend_books (fun _ => ⟨kids, up, h⟩) hlog hok hclear
  · rw [hget] at hok hcached
    obtain ⟨hlive, hfront⟩ := hcached d rfl
    exact ⟨kids, up, h.hit hlive hfront hok⟩

inductive CountOp
  | get (disk : Disk) (name : List UInt8)
  | release (dentry : ℕ)
  | parse (disk : Disk) (dentry : ℕ)
  /-- Another task runs, or the current one changes its directory. -/
  | chdir (dentry : ℕ)
  | other (junk : Junk)

def countStep (c : PathCfg) : CountOp → Except Stop PathCfg
  | .get disk name => do
    let (_, s) ← dirGet c.dir disk name
    return ⟨s, (cached c.dir name).toList ++ c.held⟩
  | .release dentry => .ok ⟨dirRelease c.dir dentry, c.held.erase dentry⟩
  | .parse disk dentry => do
    let s ← ext2ParseDir c.dir disk dentry
    return { c with dir := s }
  | .chdir dentry => .ok { c with dir := { c.dir with currentDir := dentry } }
  | .other junk => .ok { c with dir := c.dir.other junk }

/-- A dentry that is found in the table is in use, and it is not the first of several in the list of unreferenced
dentries with a `prev` from before; a directory that is read is counted; a caller releases a dentry that it holds. -/
def CountOp.Legal (c : PathCfg) : CountOp → Prop
  | .get disk name =>
    (∀ d ∈ cached c.dir name, d ∈ c.dir.live ∧
      (d = c.dir.lru.lhead → d ≠ c.dir.lru.ltail → c.dir.lru.prev d = 0)) ∧
    ∀ call ∈ (dirGetLog c.dir disk name).1, (call.1.dentries call.2).refCount ≠ 0
  | .release dentry => dentry ∈ c.held
  | .parse _ dentry => (c.dir.dentries dentry).refCount ≠ 0
  | .chdir _ | .other _ => True

/-- A call that returns. -/
def CountMove (c : PathCfg) (op : CountOp) (c' : PathCfg) : Prop := op.Legal c ∧ countStep c op = .ok c'

/-- A dentry is counted by those that hold it, by its children, and by its directory, of which there is at most one; the
list of unreferenced dentries has exactly those that nothing counts. -/
structure Counted (c : PathCfg) : Prop where
  count : ∀ d ∈ c.dir.live, ∃ (kids dirs : List ℕ),
    Linked (c.dir.field DentryT.nextSib) 0 (c.dir.dentries d).children kids ∧
    (∀ dir, dir ∈ dirs ↔ dir ∈ c.dir.live ∧ Child c.dir dir d) ∧ dirs.length ≤ 1 ∧
    (c.dir.dentries d).refCount = c.held.count d + kids.length + dirs.length
  free : ∃ l, c.dir.lru.Lists l ∧ ∀ d, d ∈ l ↔ d ∈ c.dir.live ∧ (c.dir.dentries d).refCount = 0
  held : ∀ d ∈ c.held, d ∈ c.dir.live

theorem child_of_linked {a : ℕ} {l : List ℕ} (h : Linked (s.field DentryT.nextSib) 0 a l)
    (ha : a ≠ 0 → Child s dir a) : ∀ d ∈ l, Child s dir d := by
  induction l generalizing a with
  | nil => exact fun d hd => absurd hd List.not_mem_nil
  | cons x l ih =>
    obtain ⟨rfl, hx, hl⟩ := h
    exact List.forall_mem_cons.mpr ⟨ha hx, ih hl (Child.next (ha hx))⟩

theorem child_iff {l : List ℕ} (h : Linked (s.field DentryT.nextSib) 0 (s.dentries dir).children l) :
    Child s dir d ↔ d ∈ l := by
  constructor
  · intro hc
    induction hc with
    | first h₀ =>
      obtain ⟨l', rfl, -⟩ := h.exists_cons h₀
      exact List.mem_cons_self
    | @next e _ h₀ ih =>
      obtain ⟨l₁, l₂, rfl⟩ := List.append_of_mem ih
      obtain ⟨b, -, hl⟩ := linked_append.mp h
      obtain ⟨rfl, -, hl⟩ := hl
      obtain ⟨l', rfl, -⟩ := hl.exists_cons h₀
      simp [Dentries.field]
  · exact child_of_linked h Child.first d

theorem CountInv.counted {c : PathCfg} (h : CountInv c.dir c.held kids up) : Counted c := by
  refine ⟨fun d hd => ⟨kids d, (up d).toList, h.list d hd, fun dir => ?_, ?_, h.count d hd⟩, h.free, h.held⟩
  · rw [Option.mem_toList]
    constructor
    · intro hup
      have hdir := (h.live d dir hup).2
      exact ⟨hdir, (child_iff (h.list dir hdir)).mpr ((h.child dir hdir d).mpr hup)⟩
    · rintro ⟨hdir, hc⟩
      exact (h.child dir hdir d).mp ((child_iff (h.list dir hdir)).mp hc)
  · cases up d with
    | none => exact Nat.zero_le 1
    | some dir => exact le_rfl

theorem CountInv.other (h : CountInv s held kids up) (junk : Junk) : CountInv (s.other junk) held kids up := by
  have hold : ∀ d ∈ s.live, (s.other junk).dentries d = s.dentries d := fun d hd => if_pos hd
  obtain ⟨l, hl, hmem⟩ := h.free
  refine ⟨h.nodup, h.nonnull, fun d hd => ?_, fun d hd => ?_, h.child, h.live, fun d hd => ?_, ⟨l, hl, fun d => ?_⟩,
    h.held⟩
  · rw [hold d hd]
    exact h.valid d hd
  · rw [hold d hd]
    exact (h.list d hd).congr fun e he => congrArg DentryT.nextSib (hold e (h.kid_live hd he))
  · rw [hold d hd]
    exact h.count d hd
  · rw [hmem]
    exact and_congr_right fun hd => by rw [hold d hd]

/-- What holds as long as new dentries are in clear memory. -/
def CountOk (c : PathCfg) : Prop := c.dir.Cleared → ∃ kids up, CountInv c.dir c.held kids up

theorem CountOk.step {c c' : PathCfg} {op : CountOp} (h : CountOk c) (hs : CountMove c op c') : CountOk c' := by
  obtain ⟨hlegal, hs⟩ := hs
  cases op with
  | get disk name =>
    obtain ⟨⟨r, s'⟩, hget, hs⟩ := eq_ok_of_bind hs
    cases hs
    intro hc
    obtain ⟨kids, up, hinv⟩ := h (hc.before (keeps_get hget).1.1)
    exact dirGet_books hinv hlegal.1 hlegal.2 hget hc
  | release dentry =>
    cases hs
    intro hc
    obtain ⟨kids, up, hinv⟩ := h (hc.before (by rw [(same_release _ _).sets]))
    exact ⟨kids, up, hinv.release hlegal⟩
  | parse disk dentry =>
    obtain ⟨s', hparse, hs⟩ := eq_ok_of_bind hs
    cases hs
    intro hc
    have hinv := h (hc.before (keeps_parseDir hparse).1)
    exact (Books.parse ⟨hinv, (ext2ParseDir_cases hparse).1, hlegal⟩ hparse hc).1
  | chdir dentry =>
    cases hs
    intro hc
    obtain ⟨kids, up, hinv⟩ := h hc
    exact ⟨kids, up, hinv.quiet rfl rfl rfl rfl rfl rfl⟩
  | other junk =>
    cases hs
    intro hc
    obtain ⟨kids, up, hinv⟩ := h hc
    exact ⟨kids, up, hinv.other junk⟩

/-- `dir_init` before it gets the root. -/
def dirInitRoot (s : Dentries) (disk : Disk) : Except Stop Dentries :=
  match htCreate 50 75 false with
  | none => .error .diverges
  | some table => ext2ParseRoot { s with table := table, lru := { s.lru with lhead := 0, ltail := 0 } } disk 0

/-- The rest of `dir_init` is a `dir_get`, and a change of the directory. -/
theorem dirInit_eq (s : Dentries) (disk : Disk) : dirInit s disk = (do
    let s ← dirInitRoot s disk
    let (dentry, s) ← dirGet s disk [47]
    return { s with currentDir := dentry }) := by
  unfold dirInit dirInitRoot
  cases (htCreate 50 75 false : Option (HashTable (List UInt8) ℕ)) with
  | none => rfl
  | some table => rfl

theorem countOk_boot (hlive : s.live = []) (hboot : dirInitRoot s disk = .ok s') : CountOk ⟨s', []⟩ := by
  unfold dirInitRoot at hboot
  split at hboot
  · cases hboot
  rename_i table _
  unfold ext2ParseRoot at hboot
  obtain ⟨⟨path, s₁⟩, hpath, hboot⟩ := eq_ok_of_bind hboot
  obtain ⟨⟨d, s₂⟩, hset, hboot⟩ := eq_ok_of_bind hboot
  obtain ⟨s₃, hparse, hboot⟩ := eq_ok_of_bind hboot
  cases hboot
  let s₀ := { s with table := table, lru := { s.lru with lhead := 0, ltail := 0 } }
  have hnone : ∀ e, e ∉ s₀.live := fun e he => List.not_mem_nil (hlive ▸ he)
  have h₀ : CountInv s₀ [] (fun _ => []) fun _ => none :=
    ⟨hlive ▸ List.nodup_nil, hnone 0, fun e he => absurd he (hnone e), fun e he => absurd he (hnone e),
      fun e he => absurd he (hnone e), fun e e' he => (by cases he), fun e he => absurd he (hnone e),
      ⟨[], .empty rfl, fun e => iff_of_false List.not_mem_nil fun he => hnone e he.1⟩,
      fun e he => absurd he List.not_mem_nil⟩
  intro hc
  have hc₃ : s₃.Cleared := hc.before (by rw [(same_release _ _).sets])
  have hc₂ : s₂.Cleared := hc₃.before (keeps_parseDir hparse).1
  obtain ⟨-, -, rfl⟩ := newPath_cases hpath
  have h₁ : CountInv { s₀.pop with strs := Function.update s₀.strs path [47], paths := path :: s₀.paths } []
      (fun _ => []) fun _ => none := h₀.quiet rfl rfl rfl rfl rfl rfl
  obtain ⟨h₂, hd, -, -⟩ := h₁.set (hc₂ _ (by rw [dirSet_sets hset]; exact List.mem_cons_self)) hset
  obtain ⟨⟨kids, up, h₃⟩, -, -⟩ :=
    Books.parse ⟨⟨_, _, h₂⟩, hd, h₂.ne_zero_of_held List.mem_cons_self⟩ hparse hc₃
  have h₄ := h₃.release List.mem_cons_self
  rw [List.erase_cons_head] at h₄
  exact ⟨kids, up, h₄⟩

/-- **References of dentries.** In every run of calls from `dir_init` in which the memory of new dentries is clear, a
dentry is counted once for every `dir_get` that found it in the table and was not released, once for every child, and
once for its directory; the list of unreferenced dentries is right, and no dentry that a caller holds is freed. -/
theorem dentries_counted {ops : List CountOp} {c : PathCfg} (hlive : s.live = []) (hboot : dirInitRoot s disk = .ok s')
    (hrun : Run CountMove ⟨s', []⟩ ops c) (hclear : c.dir.Cleared) : Counted c := by
  obtain ⟨kids, up, h⟩ :=
    hrun.invariant (I := CountOk) (fun _ _ _ => CountOk.step) (countOk_boot hlive hboot) hclear
  exact h.counted

instance (c : PathCfg) : (op : CountOp) → Decidable (op.Legal c)
  | .get _ _ => inferInstanceAs (Decidable (_ ∧ _))
  | .release _ => inferInstanceAs (Decidable (_ ∈ _))
  | .parse _ _ => inferInstanceAs (Decidable (_ ≠ _))
  | .chdir _ | .other _ => inferInstanceAs (Decidable True)

/-- `"/"` is got, `"/a/b"` is looked up and found, and it is got twice and released once. -/
theorem dentries_counted_tree : ∃ s c, dirInitRoot demoCaches treeDisk = .ok s ∧
    Run CountMove ⟨s, []⟩ [.get treeDisk [47], .chdir 102, .get treeDisk [47, 97, 47, 98],
      .get treeDisk [47, 97, 47, 98], .get treeDisk [97, 47, 98], .release 114] c ∧
    c.held = [114, 102] ∧ (c.dir.dentries 114).refCount = 2 ∧ Counted c := by
  have hrun : (((dirInitRoot demoCaches treeDisk).toOption).any fun s =>
      (([.get treeDisk [47], .chdir 102, .get treeDisk [47, 97, 47, 98], .get treeDisk [47, 97, 47, 98],
        .get treeDisk [97, 47, 98], .release 114] : List CountOp).foldlM (tryStep CountOp.Legal countStep) ⟨s, []⟩).any
        fun c => decide (c.held = [114, 102] ∧ (c.dir.dentries 114).refCount = 2 ∧
          ∀ call ∈ c.dir.sets, call.cleared = true)) = true := by
    decide +kernel
  obtain ⟨s, hboot, hrun⟩ := (Option.any_eq_true ..).mp hrun
  obtain ⟨c, hrun, hp⟩ := exists_run CountOp.Legal countStep _ _ _ hrun
  obtain ⟨hheld, href, hclear⟩ := of_decide_eq_true hp
  have hboot := eq_ok_of_toOption hboot
  exact ⟨s, c, hboot, hrun, hheld, href, dentries_counted rfl hboot hrun hclear⟩

end BulbOS.Dentry
