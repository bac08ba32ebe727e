import BulbOS.Inode.Model
import BulbOS.Lib.Doubly

/-!
# The list of unreferenced objects

An object that is put in front keeps the `prev` that it had in the list before.

* `Lru.Lists`: the objects of the list, where the `prev` of the head may be anything;
* `Lru.Lists.push`: an object is put in front;
* **`Lru.Lists.remove`**: an object is taken out, unless it is the first of several and has a `prev` from before.
-/

namespace BulbOS.Inode

open KLib

variable {l l' : Lru} {xs : List ℕ} {x : ℕ} {cache : Cache}

/-- `ltail` is the last object, if there is one. -/
structure Lru.Lists (l : Lru) (xs : List ℕ) : Prop where
  forth : Linked l.next 0 l.lhead xs
  doubly : xs ≠ [] → Doubly l.next (Function.update l.prev l.lhead 0) 0 l.lhead l.ltail xs

namespace Lru.Lists

theorem empty (h : l.lhead = 0) : l.Lists [] := ⟨h, fun hne => absurd rfl hne⟩

theorem tail_behind {ys : List ℕ} (h : l.Lists (x :: ys)) (hne : ys ≠ []) : l.ltail ∈ ys := by
  rw [(h.doubly (List.cons_ne_nil x ys)).tail_eq, ← List.singleton_append, lastOr_append hne]
  exact lastOr_mem hne

theorem congr (h : l.Lists xs) (hn : ∀ y ∈ xs, l'.next y = l.next y) (hp : ∀ y ∈ xs, l'.prev y = l.prev y)
    (hhead : l'.lhead = l.lhead) (htail : l'.ltail = l.ltail) : l'.Lists xs := by
  have hforth := h.forth.congr hn
  refine ⟨hhead ▸ hforth, fun hne => ⟨hhead ▸ hforth, ?_⟩⟩
  rw [htail]
  refine (h.doubly hne).back.congr fun y hy => ?_
  rw [hhead]
  by_cases hy' : y = l.lhead
  · rw [hy', Function.update_self, Function.update_self]
  · rw [Function.update_of_ne hy', Function.update_of_ne hy', hp y (List.mem_reverse.mp hy)]

theorem push (h : l.Lists xs) (hx : x ∉ xs) (hx₀ : x ≠ 0) : (l.push x).Lists (x :: xs) := by
  rcases eq_or_ne xs [] with rfl | hne
  · have hhead : l.lhead = 0 := h.forth
    unfold Lru.push
    rw [if_pos hhead]
    have hnext : Function.update l.next x l.lhead x = 0 := (Function.update_self ..).trans hhead
    have hforth : Linked (Function.update l.next x l.lhead) 0 x [x] := ⟨rfl, hx₀, hnext⟩
    exact ⟨hforth, fun _ => ⟨hforth, rfl, hx₀, Function.update_self ..⟩⟩
  have hd := h.doubly hne
  have hhead : l.lhead ≠ 0 := fun h₀ => by
    have hnil := h.forth
    rw [h₀] at hnil
    exact hne hnil.eq_nil
  have hmem : l.lhead ∈ xs := by
    obtain ⟨r, rfl, -⟩ := h.forth.exists_cons hhead
    exact List.mem_cons_self
  have hxh : x ≠ l.lhead := fun e => hx (e ▸ hmem)
  -- the links as if the `prev` of the new object were `NULL`, too
  have hd' : Doubly l.next (Function.update (Function.update l.prev l.lhead 0) x 0) 0 l.lhead l.ltail xs :=
    ⟨hd.forth, hd.back.congr fun y hy => Function.update_of_ne (fun e : y = x => hx (e ▸ List.mem_reverse.mp hy)) ..⟩
  unfold Lru.push
  rw [if_neg hhead]
  have hpush : Doubly (Function.update l.next x l.lhead) (Function.update (Function.update l.prev l.lhead x) x 0) 0 x
      (if l.lhead = 0 then x else l.ltail) (x :: xs) := by
    refine hd'.push hx hx₀ (Function.update_self ..)
      (fun y hy => Function.update_of_ne (fun e : y = x => hx (e ▸ hy)) ..) (Function.update_self ..) fun y _ => ?_
    by_cases hyx : y = x
    · rw [hyx, if_neg hxh, Function.update_self, Function.update_self]
    · rw [Function.update_of_ne hyx, Function.update_of_ne hyx]
      by_cases hyh : y = l.lhead
      · rw [if_pos hyh, hyh, Function.update_self]
      · rw [if_neg hyh, Function.update_of_ne hyh, Function.update_of_ne hyh]
  rw [if_neg hhead] at hpush
  exact ⟨hpush.forth, fun _ => hpush⟩

end Lru.Lists

/-! ## Removal -/

theorem Lru.remove_eq (h : l.remove cache x = .ok l') : l' = ((l.unlinkHead x).unlinkTail x).unlinkMiddle x := by
  unfold Lru.remove at h
  split_ifs at h
  cases h
  rfl

namespace Lru.Lists

variable {l₁ l₂ : List ℕ}

theorem remove_single (h : l.Lists [x]) (hok : l.remove cache x = .ok l') : l'.Lists [] := by
  refine empty ?_
  obtain ⟨hhead, -, hnext⟩ := h.forth
  have hn : l.next x = 0 := hnext
  have h₁ : (l.unlinkHead x).lhead = 0 := by
    rw [Lru.unlinkHead, if_pos hhead.symm]
    exact hn
  have h₂ : ((l.unlinkHead x).unlinkTail x).lhead = 0 := by
    unfold Lru.unlinkTail
    split_ifs
    · exact h₁
    · exact h₁
  rw [Lru.remove_eq hok, Lru.unlinkMiddle]
  split_ifs
  · exact h₂
  · exact h₂

theorem remove_head (h : l.Lists (x :: l₂)) (hne : l₂ ≠ []) (hprev : l.prev x = 0)
    (hok : l.remove cache x = .ok l') : l'.Lists l₂ := by
  have hd := h.doubly (List.cons_ne_nil x l₂)
  have hx : x ∉ l₂ := (List.nodup_cons.mp h.forth.nodup).1
  obtain ⟨hhead, hx₀, hforth⟩ := h.forth
  have htail : x ≠ l.ltail := fun e => hx (e ▸ h.tail_behind hne)
  have hn : l.next x ∈ l₂ := by
    rw [linked_head hforth]
    obtain ⟨y, r, rfl⟩ := List.exists_cons_of_ne_nil hne
    exact List.mem_cons_self
  have hxn : x ≠ l.next x := fun e => hx (e ▸ hn)
  have hprev₁ : Function.update l.prev (l.next x) 0 x = 0 := (Function.update_of_ne hxn ..).trans hprev
  have hl' : l' = ⟨Function.update l.next 0 (l.next x),
    Function.update (Function.update l.prev (l.next x) 0) (l.next x) 0,
      l.next x, l.ltail⟩ := by
    rw [Lru.remove_eq hok, Lru.unlinkHead, if_pos hhead.symm, Lru.unlinkTail, if_neg (by exact htail), Lru.unlinkMiddle,
      if_pos (by exact ⟨htail, hxn⟩)]
    dsimp only
    rw [hprev₁, Function.update_of_ne hx₀]
  have hrem : Doubly l'.next (Function.update l'.prev l'.lhead 0) 0 (if x = l.lhead then l.next x else l.lhead)
      (if x = l.ltail then Function.update l.prev l.lhead 0 x else l.ltail) ([] ++ l₂) := by
    refine Doubly.remove hd (fun y hy => ?_) fun y hy => ?_
    · have hy₀ : y ≠ 0 := hforth.ne_null hy
      rw [hl', ← hhead, Function.update_self, if_neg hy₀]
      exact Function.update_of_ne hy₀ ..
    · rw [hl']
      dsimp only
      have hyx : y ≠ l.lhead := fun e => hx (hhead ▸ e ▸ hy)
      rw [Function.update_idem, Function.update_idem, Function.update_of_ne hyx, ← hhead, Function.update_self]
      exact Function.update_apply ..
  rw [if_pos hhead.symm, if_neg htail] at hrem
  have hlhead : l'.lhead = l.next x := by rw [hl']
  have hltail : l'.ltail = l.ltail := by rw [hl']
  rw [← hltail, ← hlhead] at hrem
  exact ⟨hrem.forth, fun _ => hrem⟩

theorem remove_behind (h : l.Lists (l₁ ++ x :: l₂)) (hne : l₁ ≠ []) (hok : l.remove cache x = .ok l') :
    l'.Lists (l₁ ++ l₂) := by
  have hd := h.doubly (by simp)
  have hnd := h.forth.nodup
  have hx : x ∉ l₁ ++ l₂ := (List.nodup_middle.mp hnd |> List.nodup_cons.mp).1
  have hx₀ : x ≠ 0 := h.forth.ne_null (List.mem_append_right _ List.mem_cons_self)
  have hh : l.lhead ∈ l₁ := by
    rw [hd.head_eq]
    obtain ⟨y, r, rfl⟩ := List.exists_cons_of_ne_nil hne
    exact List.mem_cons_self
  have hhead : x ≠ l.lhead := fun e => hx (List.mem_append_left _ (e ▸ hh))
  have hp : l.prev x = lastOr 0 l₁ := by
    rw [← hd.prev_eq, Function.update_of_ne hhead]
  have hpm : l.prev x ∈ l₁ := hp ▸ lastOr_mem hne
  have hxp : x ≠ l.prev x := fun e => hx (List.mem_append_left _ (e ▸ hpm))
  have hnx : l.lhead ≠ l.next x := by
    rw [hd.next_eq]
    cases l₂ with
    | nil => exact h.forth.ne_null (List.mem_append_left _ hh)
    | cons y r =>
      intro e
      exact List.disjoint_of_nodup_append hnd hh (e ▸ List.mem_cons_of_mem _ List.mem_cons_self)
  have hl' : l' = ⟨Function.update l.next (l.prev x) (l.next x), Function.update l.prev (l.next x) (l.prev x), l.lhead,
      if x = l.ltail then l.prev x else l.ltail⟩ := by
    rw [Lru.remove_eq hok, Lru.unlinkHead, if_neg hhead, Lru.unlinkTail]
    by_cases htail : x = l.ltail
    · rw [if_pos htail, if_pos htail, Lru.unlinkMiddle, if_pos (by exact ⟨hxp, hhead⟩)]
      dsimp only
      rw [Function.update_idem, Function.update_of_ne hxp, Function.update_of_ne hxp]
    · rw [if_neg htail, if_neg htail, Lru.unlinkMiddle, if_pos ⟨htail, hhead⟩]
      dsimp only
      rw [Function.update_of_ne hxp]
  have hrem : Doubly l'.next (Function.update l'.prev l'.lhead 0) 0 (if x = l.lhead then l.next x else l.lhead)
      (if x = l.ltail then Function.update l.prev l.lhead 0 x else l.ltail) (l₁ ++ l₂) := by
    refine hd.remove (fun y _ => ?_) fun y hy => ?_
    · rw [hl', Function.update_of_ne hhead]
      exact Function.update_apply ..
    · rw [hl', Function.update_of_ne hhead]
      dsimp only
      by_cases hyh : y = l.lhead
      · rw [hyh, if_neg hnx, Function.update_self, Function.update_self]
      · rw [Function.update_of_ne hyh, Function.update_of_ne hyh]
        exact Function.update_apply ..
  rw [if_neg hhead, Function.update_of_ne hhead] at hrem
  have hlhead : l'.lhead = l.lhead := by rw [hl']
  have hltail : l'.ltail = if x = l.ltail then l.prev x else l.ltail := by rw [hl']
  rw [← hltail, ← hlhead] at hrem
  exact ⟨hrem.forth, fun _ => hrem⟩

/-- **An object is taken out.** -/
theorem remove (h : l.Lists xs) (hx : x ∈ xs) (hprev : x = l.lhead → x ≠ l.ltail → l.prev x = 0)
    (hok : l.remove cache x = .ok l') : l'.Lists (xs.erase x) := by
  obtain ⟨l₁, l₂, rfl⟩ := List.append_of_mem hx
  have hnd := h.forth.nodup
  have hx₁ : x ∉ l₁ := fun hx₁ => List.disjoint_of_nodup_append hnd hx₁ List.mem_cons_self
  rw [List.erase_append_right _ hx₁, List.erase_cons_head]
  rcases eq_or_ne l₁ [] with rfl | hne₁
  · rcases eq_or_ne l₂ [] with rfl | hne₂
    · exact h.remove_single hok
    · have hx₂ : x ∉ l₂ := (List.nodup_cons.mp hnd).1
      exact h.remove_head hne₂ (hprev h.forth.1.symm fun e => hx₂ (e ▸ h.tail_behind hne₂)) hok
  · exact h.remove_behind hne₁ hok

end Lru.Lists

end BulbOS.Inode
