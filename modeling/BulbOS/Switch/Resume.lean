import BulbOS.Switch.Create

/-!
# Calls of `task_switch` return

Runs in which the running task works, creates and frees tasks and switches to others, in any order.

* `CtxMove`: the steps; `CtxInv.step`: every task that does not run keeps its frame;
* **`switch_returns`**: a call of `task_switch` returns, when some task switches back, with the registers and the stack
  that it was made with;
* **`created_starts`**: a new task starts in its init function, which returns to the function of the task, and this to
  `task_terminate`.
-/

namespace BulbOS.Switch

open KLib KLib.X86

variable {y : Symbols} {s s' s₀ s₁ s₂ s₃ s₄ : CtxCfg} {t u new ret ret' : ℕ} {n : NewTask}

/-! ## Steps -/

inductive CtxOp
  /-- `task_switch(new)` is called, and returns to `ret`. -/
  | switch (new ret : ℕ)
  /-- The running task does anything else. -/
  | work (cpu : Cpu)
  | create (n : NewTask) (owner : ℕ → Option Owner)
  | free (task : ℕ)

/-- What belongs to a task. -/
def Owner.Of (t : ℕ) (o : Option Owner) : Prop := o = some (.stack t) ∨ o = some (.info t) ∨ o = some (.link t)

instance (t : ℕ) (o : Option Owner) : Decidable (Owner.Of t o) := inferInstanceAs (Decidable (_ ∨ _))

def ctxStep (y : Symbols) (s : CtxCfg) : CtxOp → CtxCfg
  | .switch new ret =>
    { s with
      cpu := taskSwitchAsm y (callTaskSwitch s.cpu new ret)
      ctx := Function.update s.ctx (s.current y) (leaving s.cpu new ret) }
  | .work cpu => { s with cpu := cpu }
  | .create n owner =>
    { s with
      cpu := { s.cpu with mem := taskCreate s.cpu.mem n }
      owner := owner
      tasks := n.task :: s.tasks
      ctx := Function.update s.ctx n.task (n.context s.cpu.mem) }
  | .free t =>
    { s with
      owner := fun x => if Owner.Of t (s.owner x) then none else s.owner x
      tasks := s.tasks.filter (· ≠ t) }

/-- The running task may write its stack, the links and states of tasks, `esp0` of the `tss`, and what belongs to
nobody. -/
def Worked (cur : ℕ) (owner : ℕ → Option Owner) (m m' : Mem) : Prop :=
  ∀ x o, owner x = some o → o ≠ .stack cur → (∀ t, o ≠ .link t) → o ≠ .esp0 → m' x = m x

/-- The memory of a new task was nobody's. -/
structure Allots (s : CtxCfg) (n : NewTask) (owner : ℕ → Option Owner) : Prop where
  same : ∀ x, ¬ Owner.Of n.task (owner x) → owner x = s.owner x
  none : ∀ x, n.task ≤ x ∧ x < n.task + 0x78 ∨ n.stack ≤ x ∧ x < n.stack + 4096 ∨ Owner.Of n.task (owner x) →
    s.owner x = none
  stack : ∀ i < 4096, owner (n.stack + i) = some (.stack n.task)
  info : ∀ i < STATE - ESP, owner (n.task + ESP + i) = some (.info n.task)
  link : ∀ i < NEXT + 4 - STATE, owner (n.task + STATE + i) = some (.link n.task)

def CtxOp.Legal (y : Symbols) (s : CtxCfg) : CtxOp → Prop
  | .switch new ret => new ∈ s.tasks ∧ new ≠ s.current y ∧ Room y s ret
  | .work cpu => Worked (s.current y) s.owner s.cpu.mem cpu.mem
  | .create n owner => n.task ∉ s.tasks ∧ n.Fits ∧ Allots s n owner
  | .free t => t ≠ s.current y

def CtxMove (y : Symbols) (s : CtxCfg) (op : CtxOp) (s' : CtxCfg) : Prop := op.Legal y s ∧ s' = ctxStep y s op

/-! ## The invariant -/

theorem Framed.owner {owner owner' : ℕ → Option Owner} {m : Mem} {k : Context} (h : Framed owner m t k)
    (ho : ∀ x, owner x = some (.stack t) ↔ owner' x = some (.stack t)) : Framed owner' m t k :=
  ⟨h.le, h.lt, fun i hi j hj => (ho _).mp (h.owns i hi j hj), h.esp, h.edi, h.esi, h.ebx, h.ebp, h.eip,
    fun x hx hle => h.stack x ((ho x).mpr hx) hle⟩

theorem Placed.same {owner : ℕ → Option Owner} {m m' : Mem} {tasks : List ℕ} (h : Placed y owner m tasks)
    (ht : ∀ x, owner x = some .tss → m' x = m x) : Placed y owner m' tasks := by
  have htss : load32 m' y.tss = load32 m y.tss := h.tss.same ht
  exact ⟨h.currentTask, h.tss, htss ▸ h.esp0, htss ▸ h.tss_lt, h.lt, h.info, h.link⟩

theorem CtxInv.switched {cpu : Cpu} {k : Context} (h : CtxInv y s) (hnew : new ∈ s.tasks)
    (hall : ∀ x, Untouched (s.current y) new (s.owner x) → cpu.mem x = s.cpu.mem x)
    (hcur : load32 cpu.mem y.currentTask = new) (hframe : Framed s.owner cpu.mem (s.current y) k) :
    CtxInv y { s with cpu := cpu, ctx := Function.update s.ctx (s.current y) k } := by
  have hsame : ∀ o, o ≠ .stack (s.current y) → o ≠ .info (s.current y) → o ≠ .link new → o ≠ .currentTask → o ≠ .esp0 →
      ∀ x, s.owner x = some o → cpu.mem x = s.cpu.mem x := fun o h₁ h₂ h₃ h₄ h₅ x hx =>
    hall x ⟨by simpa [hx] using h₁, by simpa [hx] using h₂, by simpa [hx] using h₃, by simpa [hx] using h₄,
      by simpa [hx] using h₅⟩
  refine ⟨h.placed.same (hsame .tss (by simp) (by simp) (by simp) (by simp) (by simp)), ?_, fun t ht htne => ?_⟩
  · change load32 cpu.mem y.currentTask ∈ s.tasks
    rwa [hcur]
  change t ≠ load32 cpu.mem y.currentTask at htne
  rw [hcur] at htne
  dsimp only
  by_cases htc : t = s.current y
  · subst htc
    rw [Function.update_self]
    exact hframe
  · rw [Function.update_of_ne htc]
    exact (h.framed t ht htc).same (h.placed.info t ht).1
      (hsame (.info t) (by simp) (by simpa using htc) (by simp) (by simp) (by simp))
      (hsame (.stack t) (by simpa using htc) (by simp) (by simp) (by simp) (by simp))

theorem CtxInv.work {cpu : Cpu} (h : CtxInv y s) (hw : Worked (s.current y) s.owner s.cpu.mem cpu.mem) :
    CtxInv y (ctxStep y s (.work cpu)) ∧ (ctxStep y s (.work cpu)).current y = s.current y := by
  have hcur : (ctxStep y s (.work cpu)).current y = s.current y :=
    h.placed.currentTask.same fun x hx => hw x _ hx (by simp) (by simp) (by simp)
  refine ⟨⟨h.placed.same fun x hx => hw x _ hx (by simp) (by simp) (by simp), hcur.symm ▸ h.current,
    fun t ht hne => ?_⟩, hcur⟩
  rw [hcur] at hne
  exact (h.framed t ht hne).same (h.placed.info t ht).1 (fun x hx => hw x _ hx (by simp) (by simp) (by simp))
    fun x hx => hw x _ hx (by simpa using hne) (by simp) (by simp)

theorem Allots.keeps {owner : ℕ → Option Owner} {x : ℕ} {o : Owner} (h : Allots s n owner) (hx : s.owner x = some o) :
    owner x = some o := by
  by_cases hof : Owner.Of n.task (owner x)
  · rw [h.none x (.inr (.inr hof))] at hx
    cases hx
  · rw [h.same x hof, hx]

/-- The stores for a new task are where nobody owns anything. -/
theorem Allots.taskCreate_same {owner : ℕ → Option Owner} (ha : Allots s n owner) (hfits : n.Fits) {x : ℕ} {o : Owner}
    (hx : s.owner x = some o) : taskCreate s.cpu.mem n x = s.cpu.mem x := by
  refine taskCreate_outside hfits ?_ ?_
  · by_contra hin
    rw [not_or, not_lt, not_le] at hin
    rw [ha.none x (.inl hin)] at hx
    cases hx
  · by_contra hin
    rw [not_or, not_lt, not_le] at hin
    rw [ha.none x (.inr (.inl hin))] at hx
    cases hx

theorem CtxInv.created {owner : ℕ → Option Owner} {m : Mem} {k : Context} (h : CtxInv y s) (hnew : n.task ∉ s.tasks)
    (hfits : n.Fits) (ha : Allots s n owner) (hsame : ∀ x o, s.owner x = some o → m x = s.cpu.mem x)
    (hframe : Framed owner m n.task k) :
    CtxInv y { s with
      cpu := { s.cpu with mem := m }, owner := owner, tasks := n.task :: s.tasks,
      ctx := Function.update s.ctx n.task k } := by
  have hp := h.placed
  have howns : ∀ {o a}, Owns s.owner o a → Owns owner o a := fun ho i hi => ha.keeps (ho i hi)
  have hcur : load32 m y.currentTask = s.current y := hp.currentTask.same fun x hx => hsame x _ hx
  have htss : load32 m y.tss = load32 s.cpu.mem y.tss := hp.tss.same fun x hx => hsame x _ hx
  have hlt := hfits.task_lt
  refine ⟨⟨howns hp.currentTask, howns hp.tss, ?_, ?_, ?_, ?_, ?_⟩, ?_, ?_⟩
  · exact howns (htss.symm ▸ hp.esp0)
  · exact htss.symm ▸ hp.tss_lt
  · refine List.forall_mem_cons.mpr ⟨?_, hp.lt⟩
    unfold NEXT
    omega
  · refine List.forall_mem_cons.mpr ⟨⟨?_, ?_, ?_⟩, fun t ht => ?_⟩
    · exact fun i hi => ha.info i (by unfold STATE ESP; omega)
    · intro i hi
      have hx := ha.info (4 + i) (by unfold STATE ESP; omega)
      rwa [show n.task + ESP + (4 + i) = n.task + ESP0 + i by unfold ESP ESP0; omega] at hx
    · intro i hi
      have hx := ha.info (12 + i) (by unfold STATE ESP; omega)
      rwa [show n.task + ESP + (12 + i) = n.task + PAGE_DIR + i by unfold ESP PAGE_DIR; omega] at hx
    · obtain ⟨h₁, h₂, h₃⟩ := hp.info t ht
      exact ⟨howns h₁, howns h₂, howns h₃⟩
  · refine List.forall_mem_cons.mpr ⟨⟨?_, ?_⟩, fun t ht => ?_⟩
    · exact fun i hi => ha.link i (by unfold NEXT STATE; omega)
    · intro i hi
      have hx := ha.link (4 + i) (by unfold NEXT STATE; omega)
      rwa [show n.task + STATE + (4 + i) = n.task + NEXT + i by unfold STATE NEXT; omega] at hx
    · obtain ⟨h₁, h₂⟩ := hp.link t ht
      exact ⟨howns h₁, howns h₂⟩
  · change load32 m y.currentTask ∈ _
    rw [hcur]
    exact List.mem_cons_of_mem _ h.current
  · change ∀ t ∈ _, t ≠ load32 m y.currentTask → _
    rw [hcur]
    dsimp only
    refine List.forall_mem_cons.mpr ⟨fun _ => ?_, fun t ht hne => ?_⟩
    · rw [Function.update_self]
      exact hframe
    · have htn : t ≠ n.task := fun e => hnew (e ▸ ht)
      rw [Function.update_of_ne htn]
      refine ((h.framed t ht hne).same (hp.info t ht).1 (fun x hx => hsame x _ hx) fun x hx => hsame x _ hx).owner
        fun x => ⟨ha.keeps, fun hx => ?_⟩
      rw [← ha.same x (by rw [hx]; simpa [Owner.Of] using htn), hx]

theorem CtxInv.free (h : CtxInv y s) (hne : t ≠ s.current y) : CtxInv y (ctxStep y s (.free t)) := by
  have hp := h.placed
  have hkeeps : ∀ x o, s.owner x = some o → ¬ Owner.Of t (some o) → (ctxStep y s (.free t)).owner x = some o :=
    fun x o hx ho => by
      change (if Owner.Of t (s.owner x) then none else s.owner x) = some o
      rw [hx, if_neg ho]
  have howns : ∀ {o a}, Owns s.owner o a → ¬ Owner.Of t (some o) → Owns (ctxStep y s (.free t)).owner o a :=
    fun ho hof i hi => hkeeps _ _ (ho i hi) hof
  have hmem : ∀ u ∈ (ctxStep y s (.free t)).tasks, u ∈ s.tasks ∧ u ≠ t := fun u hu => by
    have hu := List.mem_filter.mp hu
    exact ⟨hu.1, of_decide_eq_true hu.2⟩
  refine ⟨⟨howns hp.currentTask (by simp [Owner.Of]), howns hp.tss (by simp [Owner.Of]),
    howns hp.esp0 (by simp [Owner.Of]), hp.tss_lt,
    fun u hu => hp.lt u (hmem u hu).1, fun u hu => ?_, fun u hu => ?_⟩, ?_, fun u hu hucur => ?_⟩
  · obtain ⟨h₁, h₂, h₃⟩ := hp.info u (hmem u hu).1
    have hof : ¬ Owner.Of t (some (.info u)) := by simpa [Owner.Of] using (hmem u hu).2
    exact ⟨howns h₁ hof, howns h₂ hof, howns h₃ hof⟩
  · obtain ⟨h₁, h₂⟩ := hp.link u (hmem u hu).1
    have hof : ¬ Owner.Of t (some (.link u)) := by simpa [Owner.Of] using (hmem u hu).2
    exact ⟨howns h₁ hof, howns h₂ hof⟩
  · exact List.mem_filter.mpr ⟨h.current, decide_eq_true hne.symm⟩
  · refine (h.framed u (hmem u hu).1 hucur).owner fun x => ⟨fun hx => hkeeps x _ hx ?_, fun hx => ?_⟩
    · simpa [Owner.Of] using (hmem u hu).2
    · change (if Owner.Of t (s.owner x) then none else s.owner x) = _ at hx
      split_ifs at hx
      exact hx

theorem ctx_create {owner : ℕ → Option Owner} (t : ℕ) : (ctxStep y s (.create n owner)).ctx t =
    Function.update s.ctx n.task (n.context s.cpu.mem) t := by rw [ctxStep]

theorem current_create {owner : ℕ → Option Owner} (h : CtxInv y s) (hfits : n.Fits) (ha : Allots s n owner) :
    (ctxStep y s (.create n owner)).current y = s.current y := by
  have hcur : load32 (taskCreate s.cpu.mem n) y.currentTask = load32 s.cpu.mem y.currentTask :=
    h.placed.currentTask.same fun x hx => ha.taskCreate_same hfits hx
  unfold CtxCfg.current ctxStep
  dsimp only
  exact hcur

/-- **One step.** -/
theorem CtxInv.step {op : CtxOp} (h : CtxInv y s) (hs : CtxMove y s op s') : CtxInv y s' := by
  obtain ⟨hlegal, rfl⟩ := hs
  cases op with
  | switch new ret =>
    obtain ⟨hall, hruns, hframe⟩ := switch_spec h hlegal.1 hlegal.2.1 hlegal.2.2 rfl
    exact h.switched hlegal.1 hall hruns.current hframe
  | work cpu => exact (h.work hlegal).1
  | create n owner =>
    obtain ⟨hnew, hfits, ha⟩ := hlegal
    exact h.created hnew hfits ha (fun x o => ha.taskCreate_same hfits) (taskCreate_framed hfits ha.stack).1
  | free t => exact h.free hlegal

/-! ## Tasks that do not run -/

/-- The task is not the current one, goes on at `k`, and has the stack that it had. -/
structure Away (y : Symbols) (owner : ℕ → Option Owner) (t : ℕ) (k : Context) (s : CtxCfg) : Prop where
  mem : t ∈ s.tasks
  ne : t ≠ s.current y
  ctx : s.ctx t = k
  owner : ∀ x, owner x = some (.stack t) → s.owner x = some (.stack t)

/-- A step that switches to the task, or frees it. -/
def CtxOp.Names (t : ℕ) : CtxOp → Prop
  | .switch new _ => new = t
  | .free u => u = t
  | .work _ | .create _ _ => False

theorem current_switch (h : CtxInv y s) (hs : CtxMove y s (.switch new ret) s') : s'.current y = new := by
  obtain ⟨hlegal, rfl⟩ := hs
  exact (switch_spec h hlegal.1 hlegal.2.1 hlegal.2.2 rfl).2.1.current

theorem Away.step {owner : ℕ → Option Owner} {k : Context} {op : CtxOp} (ha : Away y owner t k s) (h : CtxInv y s)
    (hs : CtxMove y s op s') (hop : ¬ op.Names t) : Away y owner t k s' := by
  cases op with
  | switch new ret =>
    have hcur := current_switch h hs
    obtain ⟨-, rfl⟩ := hs
    exact ⟨ha.mem, fun e => hop (hcur.symm.trans e.symm), (Function.update_of_ne ha.ne ..).trans ha.ctx, ha.owner⟩
  | work cpu =>
    obtain ⟨hlegal, rfl⟩ := hs
    exact ⟨ha.mem, (h.work hlegal).2.symm ▸ ha.ne, ha.ctx, ha.owner⟩
  | create n owner' =>
    obtain ⟨⟨hnew, hfits, hal⟩, rfl⟩ := hs
    have hne : t ≠ n.task := fun e => hnew (e ▸ ha.mem)
    refine ⟨List.mem_cons_of_mem _ ha.mem, ?_, ?_, fun x hx => hal.keeps (ha.owner x hx)⟩
    · rw [current_create h hfits hal]
      exact ha.ne
    · rw [ctx_create, Function.update_of_ne hne, ha.ctx]
  | free u =>
    obtain ⟨-, rfl⟩ := hs
    have hne : t ≠ u := fun e => hop e.symm
    refine ⟨List.mem_filter.mpr ⟨ha.mem, decide_eq_true hne⟩, ha.ne, ha.ctx, fun x hx => ?_⟩
    change (if Owner.Of u (s.owner x) then none else s.owner x) = _
    rw [ha.owner x hx, if_neg (by simpa [Owner.Of] using hne)]

theorem Away.run {owner : ℕ → Option Owner} {k : Context} {ops : List CtxOp} (hrun : Run (CtxMove y) s ops s')
    (ha : Away y owner t k s) (h : CtxInv y s) (hops : ∀ op ∈ ops, ¬ op.Names t) : Away y owner t k s' ∧
    CtxInv y s' := by
  induction hrun with
  | nil s => exact ⟨ha, h⟩
  | cons hs _ ih =>
    obtain ⟨hop, hops⟩ := List.forall_mem_cons.mp hops
    exact ih (ha.step h hs hop) (h.step hs) hops

theorem Away.back {owner : ℕ → Option Owner} {k : Context} (ha : Away y owner t k s) (h : CtxInv y s)
    (hs : CtxMove y s (.switch t ret) s') : Runs y s'.cpu t k ∧
      ∀ x, owner x = some (.stack t) → k.esp ≤ x → s'.cpu.mem x = k.stack x := by
  obtain ⟨hlegal, rfl⟩ := hs
  obtain ⟨hall, hruns, -⟩ := switch_spec h hlegal.1 hlegal.2.1 hlegal.2.2 rfl
  rw [ha.ctx] at hruns
  refine ⟨hruns, fun x hx hle => ?_⟩
  have hx' := ha.owner x hx
  have hframe := h.framed t ha.mem ha.ne
  rw [ha.ctx] at hframe
  refine (hall x ?_).trans (hframe.stack x hx' hle)
  rw [hx']
  exact ⟨by simpa using ha.ne, by simp, by simp, by simp, by simp⟩

/-! ## Runs -/

/-- `multitask_init` before it creates tasks. -/
structure Boots (y : Symbols) (s : CtxCfg) : Prop where
  placed : Placed y s.owner s.cpu.mem s.tasks
  tasks : s.tasks = [s.current y]

theorem Boots.inv (h : Boots y s) : CtxInv y s := by
  refine ⟨h.placed, ?_, fun t ht hne => ?_⟩
  · rw [h.tasks]
    exact List.mem_singleton_self _
  · rw [h.tasks] at ht
    exact absurd (List.mem_singleton.mp ht) hne

theorem ctxInv_run {ops : List CtxOp} (hboot : Boots y s) (hrun : Run (CtxMove y) s ops s') : CtxInv y s' :=
  hrun.invariant (I := CtxInv y) (fun _ _ _ => CtxInv.step) hboot.inv

/-- **A call of `task_switch` returns** in every run, when some task switches back to its caller: it finds the registers
that a call keeps, its stack, and its page directory and `esp0`. -/
theorem switch_returns {ops₀ ops : List CtxOp} (hboot : Boots y s₀) (hrun₀ : Run (CtxMove y) s₀ ops₀ s₁)
    (hleave : CtxMove y s₁ (.switch u ret) s₂) (hrun : Run (CtxMove y) s₂ ops s₃)
    (hops : ∀ op ∈ ops, ¬ op.Names (s₁.current y)) (hback : CtxMove y s₃ (.switch (s₁.current y) ret') s₄) :
    Runs y s₄.cpu (s₁.current y) (leaving s₁.cpu u ret) ∧
      ∀ x, s₁.owner x = some (.stack (s₁.current y)) → s₁.cpu.reg .esp ≤ x → s₄.cpu.mem x = s₁.cpu.mem x := by
  have h₁ := ctxInv_run hboot hrun₀
  have hcur := current_switch h₁ hleave
  have h₂ := h₁.step hleave
  obtain ⟨hlegal, rfl⟩ := hleave
  have haway : Away y s₁.owner (s₁.current y) (leaving s₁.cpu u ret) (ctxStep y s₁ (.switch u ret)) :=
    ⟨h₁.current, fun e => hlegal.2.1 (hcur.symm.trans e.symm), Function.update_self .., fun x hx => hx⟩
  obtain ⟨ha, h₃⟩ := haway.run hrun h₂ hops
  obtain ⟨hruns, hstack⟩ := ha.back h₃ hback
  refine ⟨hruns, fun x hx hle => ?_⟩
  have hroom := hlegal.2.2.le
  have hlt : (leaving s₁.cpu u ret).esp ≤ x := by
    change s₁.cpu.reg .esp - 4 ≤ x
    omega
  refine (hstack x hx hlt).trans ?_
  exact store32_of_outside _ _ (by omega)

/-- **A new task** starts in its init function; this returns to the function of the task, and it to `task_terminate`. -/
theorem created_starts {ops₀ ops : List CtxOp} {owner : ℕ → Option Owner} (hboot : Boots y s₀)
    (hrun₀ : Run (CtxMove y) s₀ ops₀ s₁) (hcreate : CtxMove y s₁ (.create n owner) s₂)
    (hrun : Run (CtxMove y) s₂ ops s₃)
    (hops : ∀ op ∈ ops, ¬ op.Names n.task) (hgo : CtxMove y s₃ (.switch n.task ret) s₄) :
    Runs y s₄.cpu n.task (n.context s₁.cpu.mem) ∧ s₄.cpu.eip = n.init ∧ s₄.cpu.reg .esp = n.stack + 4088 ∧
      load32 s₄.cpu.mem (n.stack + 4088) = n.func ∧ load32 s₄.cpu.mem (n.stack + 4092) = n.terminate := by
  have h₁ := ctxInv_run hboot hrun₀
  have h₂ := h₁.step hcreate
  obtain ⟨⟨hnew, hfits, hal⟩, rfl⟩ := hcreate
  have haway : Away y owner n.task (n.context s₁.cpu.mem) (ctxStep y s₁ (.create n owner)) := by
    refine ⟨List.mem_cons_self, fun e => hnew ?_, ?_, fun x hx => hx⟩
    · rw [e, current_create h₁ hfits hal]
      exact h₁.current
    · rw [ctx_create, Function.update_self]
  obtain ⟨ha, h₃⟩ := haway.run hrun h₂ hops
  obtain ⟨hruns, hstack⟩ := ha.back h₃ hgo
  obtain ⟨hframe, hfunc, hterm⟩ := taskCreate_framed (m := s₁.cpu.mem) hfits hal.stack
  have hebp : n.ebp = n.stack + 4092 := rfl
  have hword : ∀ a, n.stack + 4088 ≤ a → a + 4 ≤ n.stack + 4096 →
      load32 s₄.cpu.mem a = load32 (taskCreate s₁.cpu.mem n) a := fun a ha₁ ha₂ => load32_congr fun x hx₁ hx₂ => by
    have hown := hal.stack (x - n.stack) (by omega)
    rw [show n.stack + (x - n.stack) = x by omega] at hown
    rw [hstack x hown (by rw [context_esp]; omega), context_stack]
  refine ⟨hruns, hruns.eip.trans (context_eip ..), (hruns.esp.trans (context_esp ..)).trans (by omega), ?_, ?_⟩
  · rw [hword _ le_rfl (by omega), ← hfunc, show n.ebp - 4 = n.stack + 4088 by omega]
  · rw [hword _ (by omega) le_rfl, ← hterm, hebp]

/-! ## Two tasks -/

def demoSymbols : Symbols := ⟨0x100, 0x104⟩

/-- The bytes of the first task, of its stack and of the variables. -/
def demoOwner (x : ℕ) : Option Owner :=
  if 0x100 ≤ x ∧ x < 0x104 then some .currentTask
  else if 0x104 ≤ x ∧ x < 0x108 then some .tss
  else if 0x204 ≤ x ∧ x < 0x208 then some .esp0
  else if 0x1004 ≤ x ∧ x < 0x1014 then some (.info 0x1000)
  else if 0x1014 ≤ x ∧ x < 0x101C then some (.link 0x1000)
  else if 0x3000 ≤ x ∧ x < 0x4000 then some (.stack 0x1000)
  else none

/-- A second task. -/
def demoTask : NewTask := ⟨0x2000, 2, 0x5000, 0x7000, 0x111, 0x222, 0x333, 0x444, (0, 0), none⟩

def demoOwner₂ (x : ℕ) : Option Owner :=
  if 0x2004 ≤ x ∧ x < 0x2014 then some (.info 0x2000)
  else if 0x2014 ≤ x ∧ x < 0x201C then some (.link 0x2000)
  else if 0x5000 ≤ x ∧ x < 0x6000 then some (.stack 0x2000)
  else demoOwner x

def demoBoot : CtxCfg where
  cpu := ⟨fun r => if r = .esp then 0x3800 else 7, 0, 0, 0, store32 (store32 (fun _ => 0) 0x104 0x200) 0x100 0x1000⟩
  owner := demoOwner
  tasks := [0x1000]
  ctx _ := ⟨0, 0, 0, 0, 0, 0, fun _ => 0⟩

def demoCreated : CtxCfg := ctxStep demoSymbols demoBoot (.create demoTask demoOwner₂)

def demoLeft : CtxCfg := ctxStep demoSymbols demoCreated (.switch 0x2000 0x777)

def demoBack : CtxCfg := ctxStep demoSymbols demoLeft (.switch 0x1000 0x888)

theorem demoBoot_boots : Boots demoSymbols demoBoot := by
  have hcur : demoBoot.current demoSymbols = 0x1000 := by decide +kernel
  refine ⟨⟨by decide +kernel, by decide +kernel, by decide +kernel, by decide +kernel, by decide +kernel, ?_, ?_⟩, ?_⟩
  · exact List.forall_mem_singleton.mpr ⟨by decide +kernel, by decide +kernel, by decide +kernel⟩
  · exact List.forall_mem_singleton.mpr ⟨by decide +kernel, by decide +kernel⟩
  · rw [hcur]
    rfl

theorem demoOwner_not_of (x : ℕ) : ¬ Owner.Of 0x2000 (demoOwner x) := by
  unfold demoOwner
  split_ifs <;> decide

theorem demo_create : CtxMove demoSymbols demoBoot (.create demoTask demoOwner₂) demoCreated := by
  refine ⟨⟨by decide, ⟨by decide, by decide, by decide, by decide, by decide, by decide, by decide⟩, fun x hx => ?_,
    fun x hx => ?_, fun i hi => ?_, by decide +kernel, by decide +kernel⟩, rfl⟩
  · unfold demoOwner₂ at hx ⊢
    split_ifs at hx ⊢
    · exact absurd (by decide) hx
    · exact absurd (by decide) hx
    · exact absurd (by decide) hx
    · rfl
  · have hin : 0x2000 ≤ x ∧ x < 0x2078 ∨ 0x5000 ≤ x ∧ x < 0x6000 := by
      rcases hx with hx | hx | hx
      · exact .inl hx
      · exact .inr hx
      · by_contra hout
        change Owner.Of 0x2000 (demoOwner₂ x) at hx
        rw [demoOwner₂, if_neg (by omega), if_neg (by omega), if_neg (by omega)] at hx
        exact demoOwner_not_of x hx
    change demoOwner x = none
    rw [demoOwner, if_neg (by omega), if_neg (by omega), if_neg (by omega), if_neg (by omega), if_neg (by omega),
      if_neg (by omega)]
  · change demoOwner₂ (0x5000 + i) = some (.stack 0x2000)
    unfold demoOwner₂
    rw [if_neg (by omega), if_neg (by omega), if_pos (by omega)]

theorem demo_leave : CtxMove demoSymbols demoCreated (.switch 0x2000 0x777) demoLeft := by
  refine ⟨⟨by decide, by decide +kernel, by decide +kernel, fun r => ?_, by decide, by decide +kernel⟩, rfl⟩
  cases r <;> decide +kernel

theorem demo_back : CtxMove demoSymbols demoLeft (.switch 0x1000 0x888) demoBack := by
  refine ⟨⟨by decide, by decide +kernel, by decide +kernel, fun r => ?_, by decide, by decide +kernel⟩, rfl⟩
  cases r <;> decide +kernel

theorem demo_current : demoCreated.current demoSymbols = 0x1000 := by decide +kernel

/-- The first task creates the second one and switches to it, and this switches back. -/
theorem switch_returns_demo : Runs demoSymbols demoBack.cpu 0x1000 (leaving demoCreated.cpu 0x2000 0x777) ∧
    demoBack.cpu.eip = 0x777 ∧ demoBack.cpu.reg .ebp = 7 := by
  have hback := demo_back
  rw [← demo_current] at hback
  have h := switch_returns demoBoot_boots (.single demo_create) demo_leave (.nil _)
    (fun op hop => absurd hop List.not_mem_nil) hback
  rw [demo_current] at h
  exact ⟨h.1, h.1.eip, h.1.ebp⟩

/-- The second task runs first in its init function. -/
theorem created_starts_demo : demoLeft.cpu.eip = 0x222 ∧ load32 demoLeft.cpu.mem (0x5000 + 4088) = 0x111 := by
  have h := created_starts demoBoot_boots (.nil _) demo_create (.nil _) (fun op hop => absurd hop List.not_mem_nil)
    (show CtxMove demoSymbols demoCreated (.switch demoTask.task 0x777) demoLeft from demo_leave)
  exact ⟨h.2.1, h.2.2.2.1⟩

end BulbOS.Switch
