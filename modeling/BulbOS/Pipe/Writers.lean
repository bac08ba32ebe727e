import BulbOS.Pipe.Moves

/-!
# Writers of a ring, and one that drains it

* `PipePc.Writes`, `PipeMove.writes`: the places of `pipe_write`, and what is left to store;
* `PipePc.Drains`, `PipeMove.drains`: the places of `pipe_read`, and what is in hand;
* `PipeInv.hand_eq`: what one reader has in hand; **`PipeInv.room`**: no read returns more than the ring holds.
-/

namespace BulbOS.Pipe

open KLib

variable {p : PipeState} {pc : PipePc} {out : PipeOut} {s s' : PipeSys} {t : ℕ}

/-- A place of `pipe_write` on a ring. -/
def PipePc.Writes : PipePc → Prop
  | .idle | .write _ | .unbufWrite .. | .waitWrite .. | .endWrite .. => True
  | _ => False

/-- What a writer has not stored yet. -/
def PipePc.left : PipePc → List UInt8
  | .write data => data
  | .unbufWrite data i | .waitWrite data i => data.drop i
  | _ => []

theorem PipePc.Writes.inHand (h : pc.Writes) : pc.inHand = [] := by
  cases pc with
  | readLoop | endRead => exact h.elim
  | idle | write | unbufWrite | waitWrite | writeFailed | waitBufWrite | bufWrite | endWrite | read | waitRead => rfl

/-- **A step of a writer.** -/
theorem PipeMove.writes (h : PipeMove p pc out) (htype : p.type ≠ .bufBlock) (hopen : p.readOpen = true)
    (hpc : pc.Writes) : out.pc.Writes ∧ out.stored ++ out.pc.left = pc.left ∧ out.taken = [] ∧ out.returned = [] := by
  cases h with
  | writeStart | full | writeWake => exact ⟨trivial, rfl, rfl, rfl⟩
  | blockStart _ _ heq | blockWait _ _ heq => exact absurd heq htype
  | store data i b hb =>
    obtain ⟨hi, rfl⟩ := List.getElem?_eq_some_iff.mp hb
    exact ⟨trivial, (List.drop_eq_getElem_cons hi).symm, rfl, rfl⟩
  | fail _ _ _ _ hclosed =>
    rw [hopen] at hclosed
    cases hclosed
  | stored data i hi => exact ⟨trivial, (List.drop_eq_nil_of_le hi).symm, rfl, rfl⟩
  | writeEnd => exact ⟨trivial, rfl, rfl, rfl⟩
  | failed | blockWake | copy | readClosed | readRefused | readWait | readStart | readWake | take | takeLast | taken
  | takeBlock | readEnd => exact hpc.elim

/-- A place of `pipe_read` on a ring; at the end it returns the number of bytes copied. -/
def PipePc.Drains : PipePc → Prop
  | .read _ | .waitRead _ | .readLoop .. => True
  | .endRead ret got => ret = got.length
  | _ => False

theorem PipePc.Drains.left (h : pc.Drains) : pc.left = [] := by
  cases pc with
  | write | unbufWrite | waitWrite => exact h.elim
  | idle | writeFailed | waitBufWrite | bufWrite | endWrite | read | waitRead | readLoop | endRead => rfl

/-- **A step of a reader**: it goes on, or returns what it has in hand. -/
theorem PipeMove.drains (h : PipeMove p pc out) (htype : p.type ≠ .bufBlock) (hopen : p.writeOpen = true)
    (hpc : pc.Drains) : out.stored = [] ∧
      (out.pc.Drains ∧ pc.inHand ++ out.taken = out.pc.inHand ∧ out.returned = [] ∨
        ∃ got, pc = .endRead got.length got ∧ out.pc = .idle ∧ out.taken = [] ∧ out.returned = got) := by
  cases h with
  | readClosed _ _ hclosed =>
    rw [hopen] at hclosed
    cases hclosed
  | readRefused _ _ _ heq | takeBlock _ _ heq => exact absurd heq htype
  | readWait | readStart | readWake => exact ⟨rfl, .inl ⟨trivial, rfl, rfl⟩⟩
  | take | taken => exact ⟨rfl, .inl ⟨by trivial, by simp [PipePc.inHand], rfl⟩⟩
  | takeLast _ got =>
    refine ⟨rfl, .inl ⟨?_, rfl, rfl⟩⟩
    change ((got.length + 1 : ℕ) : ℤ) = ((got ++ [_]).length : ℕ)
    rw [List.length_append, List.length_singleton]
  | readEnd ret got =>
    obtain rfl : ret = got.length := hpc
    exact ⟨rfl, .inr ⟨got, rfl, rfl, rfl, rfl⟩⟩
  | writeStart | blockStart | blockWait | store | full | fail | stored | writeWake | failed | blockWake | copy
  | writeEnd => exact hpc.elim

theorem PipePc.inHand_of_outside (h : ¬ pc.Holds) : pc.inHand = [] := by
  cases pc with
  | readLoop | endRead => exact absurd trivial h
  | idle | write | unbufWrite | waitWrite | writeFailed | waitBufWrite | bufWrite | endWrite | read | waitRead => rfl

/-- One thread reads: it has in hand what is taken and not returned. -/
theorem PipeInv.hand_eq (h : PipeInv s) {o : ℕ} (hothers : ∀ t, t ≠ o → (s.threads t).inHand = []) :
    s.returned ++ (s.threads o).inHand = s.taken := by
  cases h.locked with
  | free _ hnone hret => rw [PipePc.inHand_of_outside (hnone o), List.append_nil, hret]
  | held t _ _ hone hret =>
    by_cases hto : t = o
    · exact hto ▸ hret
    · rw [hothers t hto, List.append_nil] at hret
      rw [PipePc.inHand_of_outside fun hh => hto (hone o hh).symm, List.append_nil, hret]

theorem PipeInv.returned_eq_of_holds (h : PipeInv s) (ht : (s.threads t).Holds) (hhand : (s.threads t).inHand = []) :
    s.returned = s.taken := by
  cases h.locked with
  | free _ hnone => exact absurd ht (hnone t)
  | held t₀ _ _ hone hret =>
    obtain rfl := hone t ht
    rwa [hhand, List.append_nil] at hret

theorem PipeMove.stored_cases (h : PipeMove p pc out) :
    out.stored = [] ∨ pc.Holds ∧ pc.inHand = [] ∧ out.taken = [] ∧ out.returned = [] := by
  cases h with
  | store => exact .inr ⟨trivial, rfl, rfl, rfl⟩
  | writeStart | blockStart | blockWait | full | fail | stored | writeWake | failed | blockWake | copy | writeEnd
  | readClosed | readRefused | readWait | readStart | readWake | take | takeLast | taken | takeBlock | readEnd =>
    exact .inl rfl

/-- **Room.** What is stored and not returned fits the ring: a thread stores only when the others have returned all
that they have taken. -/
theorem PipeInv.room (h : PipeInv s) (hroom : s.stored.length ≤ s.returned.length + pipeSize) {op : PipeOp}
    (hs : sysStep s op = some s') : s'.stored.length ≤ s'.returned.length + pipeSize := by
  have h' := h.step hs
  cases op with
  | write t data | read t size =>
    obtain ⟨-, hs⟩ := Option.ite_none_right_eq_some.mp hs
    cases hs
    exact hroom
  | run t =>
    obtain ⟨out, ho, rfl⟩ := Option.map_eq_some_iff.mp hs
    dsimp only
    rcases (pipeStep_move ho).stored_cases with hnil | ⟨hholds, hhand, htaken, hret⟩
    · rw [hnil, List.append_nil, List.length_append]
      omega
    · have hring := h'.ring.le
      dsimp only at hring
      rw [htaken, List.append_nil] at hring
      rw [hret, List.append_nil, h.returned_eq_of_holds hholds hhand]
      exact hring

end BulbOS.Pipe
