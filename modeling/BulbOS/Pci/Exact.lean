import BulbOS.Pci.Scan

/-!
# Which functions the scan checks

* `Reachable`: the buses of the host bridge and those behind its bridges; `PciTree`: the bridges form a tree;
* `Exact`: the scan ends, checks every function of a reachable bus once, and no absent one;
* `Dense`: every device has function 0 alone, with the bit in the header clear, or all functions, with the bit set;
* `PciTree.forest`: then a scan from bus 0 is a walk down a forest;
* **`pci_exact_iff`**: when the scan is exact.
-/

namespace BulbOS.Pci

open KLib

variable {config : ℕ → UInt32}

inductive Reachable (config : ℕ → UInt32) : Fin 256 → Prop
  | root {bus : Fin 256} (h : Root config bus) : Reachable config bus
  | bridge {f : PciFunction} {bus : Fin 256} (h : Reachable config f.bus) (hpresent : Present config f)
      (hbridge : secondary config f = some bus) : Reachable config bus

/-- There is a host bridge, and the reachable bridges form a tree. -/
structure PciTree (config : ℕ → UInt32) : Prop where
  allOnes : AllOnes config
  host : Present config ⟨0, 0, 0⟩
  parent : ∀ f g bus, Reachable config f.bus → Reachable config g.bus → Present config f → Present config g →
    secondary config f = some bus → secondary config g = some bus → f = g
  root : ∀ f bus, Reachable config f.bus → Present config f → secondary config f = some bus → ¬ Root config bus

/-- `pci_check_all_bus` ends, and it calls `pci_check_function` once for every function of a reachable bus, and never
for an absent one. -/
def Exact (config : ℕ → UInt32) : Prop :=
  ∃ levels s, pciCheckAllBus levels ⟨config, [], []⟩ = some s ∧
    (∀ f, Present config f → Reachable config f.bus → s.checked.count f = 1) ∧
    ∀ f, ¬ Present config f → s.checked.count f = 0

/-- What the presence tests of the scan miss. -/
structure Dense (config : ℕ → UInt32) : Prop where
  all : ∀ bus device func, Reachable config bus → Present config ⟨bus, device, 0⟩ → MultiFunction config bus device →
    Present config ⟨bus, device, func⟩
  single : ∀ bus device func, Reachable config bus → Present config ⟨bus, device, func⟩ → func ≠ 0 →
    Present config ⟨bus, device, 0⟩ ∧ MultiFunction config bus device
  hosts : MultiFunction config 0 0 → ∀ f, Present config f → ¬ (1 ≤ (f.bus : ℕ) ∧ (f.bus : ℕ) ≤ 7)

variable {n : ℕ} {bus : Fin 256} {f : PciFunction} {log : List PciFunction} {levels : ℕ}

/-! ## The buses below bus 0 -/

theorem bus_of_mem_items (h : f ∈ (buses config).items bus) : f.bus = bus := (mem_items.mp h).1

theorem PciTree.reachable (h : PciTree config) (hsteps : (buses config).Steps 0 n bus) : Reachable config bus := by
  induction hsteps with
  | refl => exact .root (.inl rfl)
  | tail _ hchild ih =>
    obtain ⟨f, hf, hnext⟩ := hchild
    by_cases hpresent : Present config f
    · exact .bridge (bus_of_mem_items hf ▸ ih) hpresent hnext
    · exact absurd hnext (by rw [show (buses config).next f = none from h.allOnes.secondary hpresent]; simp)

theorem PciTree.present (h : PciTree config) {bus : Fin 256} (hnext : (buses config).next f = some bus) :
    Present config f := by
  by_contra hpresent
  rw [show (buses config).next f = none from h.allOnes.secondary hpresent] at hnext
  cases hnext

/-- **The walk from bus 0** goes down a forest. -/
theorem PciTree.forest (h : PciTree config) : (buses config).Forest 0 where
  owner _ _ _ hx hy := (bus_of_mem_items hx).symm.trans (bus_of_mem_items hy)
  nodup _ := nodup_items
  parent _ _ _ _ f g bus ha hb hf hg hnf hng :=
    h.parent f g bus (bus_of_mem_items hf ▸ h.reachable ha) (bus_of_mem_items hg ▸ h.reachable hb) (h.present hnf)
      (h.present hng) hnf hng
  top _ _ f ha hf hnext :=
    h.root f 0 (bus_of_mem_items hf ▸ h.reachable ha) (h.present hnext) hnext (.inl rfl)

theorem PciTree.not_root (h : PciTree config) (hsteps : (buses config).Steps 0 n bus) (hbus : bus ≠ 0) :
    ¬ Root config bus := by
  cases hsteps with
  | refl => exact absurd rfl hbus
  | tail ha hchild =>
    obtain ⟨f, hf, hnext⟩ := hchild
    exact h.root f bus (bus_of_mem_items hf ▸ h.reachable ha) (h.present hnext) hnext

theorem PciTree.exists_walk (h : PciTree config) : ∃ log, (buses config).walk 256 0 = some log :=
  Branching.exists_walk fun _ hsteps => absurd (h.forest.depth_lt hsteps) (by rw [Fintype.card_fin]; exact lt_irrefl _)

theorem mem_log (hwalk : (buses config).walk levels 0 = some log) :
    f ∈ log ↔ (∃ n, (buses config).Steps 0 n f.bus) ∧ Present config ⟨f.bus, f.device, 0⟩ ∧
      (f.func = 0 ∨ MultiFunction config f.bus f.device) := by
  rw [Branching.mem_walk hwalk]
  constructor
  · rintro ⟨n, bus, hsteps, hf⟩
    obtain ⟨rfl, hf⟩ := mem_items.mp hf
    exact ⟨⟨n, hsteps⟩, hf⟩
  · rintro ⟨⟨n, hsteps⟩, hf⟩
    exact ⟨n, f.bus, hsteps, mem_items.mpr ⟨rfl, hf⟩⟩

/-! ## What an exact scan asks for -/

/-- Every function of a device with the bit is checked, so that none is absent. -/
theorem present_of_exact (h : PciTree config) {s : PciState}
    (hrun : pciCheckAllBus levels ⟨config, [], []⟩ = some s)
    (habsent : ∀ f, ¬ Present config f → s.checked.count f = 0) (hsteps : (buses config).Steps 0 n f.bus)
    (hzero : Present config ⟨f.bus, f.device, 0⟩) (hmulti : MultiFunction config f.bus f.device) :
    Present config f := by
  obtain ⟨log, hwalk, hpre, -⟩ := pciCheckAllBus_checked h.allOnes hrun
  by_contra hpresent
  refine List.count_eq_zero.mp (habsent f hpresent) (hpre.subset ?_)
  exact (mem_log hwalk).mpr ⟨⟨n, hsteps⟩, hzero, .inr hmulti⟩

/-- Then the loop over the host bridge's functions does nothing. -/
theorem checked_of_exact (h : PciTree config) {s : PciState}
    (hrun : pciCheckAllBus levels ⟨config, [], []⟩ = some s)
    (habsent : ∀ f, ¬ Present config f → s.checked.count f = 0) :
    (buses config).walk levels 0 = some s.checked := by
  obtain ⟨log, hwalk, -, hchecked⟩ := pciCheckAllBus_checked h.allOnes hrun
  rw [hwalk, hchecked fun hmulti => present_of_exact (f := ⟨0, 0, 1⟩) h hrun habsent .refl h.host hmulti]

theorem Exact.dense (h : PciTree config) (hexact : Exact config) : Dense config := by
  obtain ⟨levels, s, hrun, honce, habsent⟩ := hexact
  have hwalk := checked_of_exact h hrun habsent
  have hmem : ∀ f, Present config f → Reachable config f.bus → f ∈ s.checked := fun f hpresent hreach =>
    List.count_pos_iff.mp (by rw [honce f hpresent hreach]; exact Nat.one_pos)
  -- a bus of a function of the host bridge is not walked
  have hroot : ∀ f, Present config f → Root config f.bus → f.bus = 0 := by
    intro f hpresent hroot
    obtain ⟨⟨n, hsteps⟩, -⟩ := (mem_log hwalk).mp (hmem f hpresent (.root hroot))
    by_contra hbus
    exact h.not_root hsteps hbus hroot
  have hsteps : ∀ f, Present config f → Reachable config f.bus → ∃ n, (buses config).Steps 0 n f.bus :=
    fun f hpresent hreach => ((mem_log hwalk).mp (hmem f hpresent hreach)).1
  refine ⟨fun bus device func hreach hzero hmulti => ?_, fun bus device func hreach hpresent hfunc => ?_,
    fun hmulti f hpresent hbus => ?_⟩
  · obtain ⟨n, hsteps⟩ := hsteps _ hzero hreach
    exact present_of_exact (f := ⟨bus, device, func⟩) h hrun habsent hsteps hzero hmulti
  · obtain ⟨-, hzero, hor⟩ := (mem_log hwalk).mp (hmem _ hpresent hreach)
    exact ⟨hzero, hor.resolve_left hfunc⟩
  · have hlt : (f.bus : ℕ) < 8 := by omega
    have hhost : Present config ⟨0, 0, ⟨f.bus, hlt⟩⟩ :=
      present_of_exact (f := ⟨0, 0, ⟨f.bus, hlt⟩⟩) h hrun habsent .refl h.host hmulti
    have hne : (⟨f.bus, hlt⟩ : Fin 8) ≠ 0 := fun e => by
      have := congrArg Fin.val e
      change (f.bus : ℕ) = 0 at this
      omega
    have hzero := hroot f hpresent (.inr ⟨hmulti, _, hne, hhost, rfl⟩)
    rw [hzero] at hbus
    exact absurd hbus.1 (by decide)

/-! ## Dense topologies -/

/-- Every function of a reachable bus is one that the scan checks there. -/
theorem Dense.checks (hd : Dense config) (hpresent : Present config f) (hreach : Reachable config f.bus) :
    Present config ⟨f.bus, f.device, 0⟩ ∧ (f.func = 0 ∨ MultiFunction config f.bus f.device) := by
  by_cases hfunc : f.func = 0
  · exact ⟨hfunc ▸ hpresent, .inl hfunc⟩
  · obtain ⟨hzero, hmulti⟩ := hd.single f.bus f.device f.func hreach hpresent hfunc
    exact ⟨hzero, .inr hmulti⟩

theorem Dense.exists_steps (hd : Dense config) (hpresent : Present config f) (hreach : Reachable config f.bus) :
    ∃ n, (buses config).Steps 0 n f.bus := by
  have hall : ∀ bus, Reachable config bus → (∃ n, (buses config).Steps 0 n bus) ∨
      MultiFunction config 0 0 ∧ 1 ≤ (bus : ℕ) ∧ (bus : ℕ) ≤ 7 := by
    intro bus hreach
    induction hreach with
    | @root bus hroot =>
      rcases hroot with rfl | ⟨hmulti, func, hne, -, hbus⟩
      · exact .inl ⟨0, .refl⟩
      · have hpos : (func : ℕ) ≠ 0 := fun e => hne (Fin.ext e)
        exact .inr ⟨hmulti, by omega, by omega⟩
    | @bridge g bus hreach hpresent hbridge ih =>
      rcases ih with ⟨n, hsteps⟩ | ⟨hmulti, hbus⟩
      · -- a bridge on a bus that the scan comes to is checked
        exact .inl ⟨n + 1, hsteps.tail ⟨g, mem_items.mpr ⟨rfl, hd.checks hpresent hreach⟩, hbridge⟩⟩
      · exact absurd hbus (hd.hosts hmulti g hpresent)
  refine (hall f.bus hreach).resolve_right ?_
  rintro ⟨hmulti, hbus⟩
  exact hd.hosts hmulti f hpresent hbus

theorem Dense.exact (h : PciTree config) (hd : Dense config) : Exact config := by
  obtain ⟨log, hwalk⟩ := h.exists_walk
  have hhost : MultiFunction config 0 0 → Present config ⟨0, 0, 1⟩ := hd.all 0 0 1 (.root (.inl rfl)) h.host
  obtain ⟨s, hrun⟩ := exists_pciCheckAllBus h.allOnes hwalk hhost
  obtain ⟨log', hwalk', -, hchecked⟩ := pciCheckAllBus_checked h.allOnes hrun
  obtain rfl := Option.some.inj (hwalk.symm.trans hwalk')
  refine ⟨256, s, hrun, fun f hpresent hreach => ?_, fun f hpresent => ?_⟩
  · rw [hchecked hhost]
    refine List.count_eq_one_of_mem (h.forest.nodup_walk .refl hwalk) ((mem_log hwalk).mpr ?_)
    exact ⟨hd.exists_steps hpresent hreach, hd.checks hpresent hreach⟩
  · rw [hchecked hhost]
    refine List.count_eq_zero.mpr fun hmem => hpresent ?_
    obtain ⟨⟨n, hsteps⟩, hzero, hfunc⟩ := (mem_log hwalk).mp hmem
    rcases hfunc with hfunc | hmulti
    · rwa [show f = ⟨f.bus, f.device, 0⟩ from hfunc ▸ rfl]
    · exact hd.all f.bus f.device f.func (h.reachable hsteps) hzero hmulti

/-- **The scan is exact** when every device has function 0 alone or all functions, and no function is on a bus 1, …, 7
of a host bridge with several functions. -/
theorem pci_exact_iff (h : PciTree config) : Exact config ↔ Dense config :=
  ⟨fun hexact => hexact.dense h, fun hdense => hdense.exact h⟩

/-! ## Two configuration spaces -/

/-- A host bridge, a bridge to bus 1, and a device there. -/
def demoRegs (f : PciFunction) (offset : ℕ) : UInt32 :=
  if f = functionAt 0 0 0 then if offset = 8 then 0x06000000 else 0
  else if f = functionAt 0 1 0 then if offset = 8 then 0x06040000 else if offset = 24 then 0x100 else 0
  else if f = functionAt 1 0 0 then 0
  else 0xFFFFFFFF

theorem read_demo (h : ¬ (f = functionAt 0 0 0 ∨ f = functionAt 0 1 0 ∨ f = functionAt 1 0 0)) (offset : ℕ) :
    pciReadReg (spaceOf demoRegs) f offset = 0xFFFFFFFF := by
  rw [not_or, not_or] at h
  rw [pciReadReg_spaceOf, demoRegs, if_neg h.1, if_neg h.2.1, if_neg h.2.2]

theorem present_demo :
    Present (spaceOf demoRegs) f ↔ f = functionAt 0 0 0 ∨ f = functionAt 0 1 0 ∨ f = functionAt 1 0 0 := by
  refine ⟨fun hf => by_contra fun h => hf ?_, ?_⟩
  · rw [read_demo h]
    decide
  · rintro (rfl | rfl | rfl) <;> decide

theorem allOnes_demo : AllOnes (spaceOf demoRegs) := fun _ hf => read_demo (mt present_demo.mpr hf)

theorem bridge_demo (hpresent : Present (spaceOf demoRegs) f) (h : secondary (spaceOf demoRegs) f = some bus) :
    f = functionAt 0 1 0 ∧ bus = 1 := by
  rcases present_demo.mp hpresent with rfl | rfl | rfl
  · rw [show secondary (spaceOf demoRegs) (functionAt 0 0 0) = none by decide] at h
    cases h
  · rw [show secondary (spaceOf demoRegs) (functionAt 0 1 0) = some 1 by decide] at h
    exact ⟨rfl, (Option.some.inj h).symm⟩
  · rw [show secondary (spaceOf demoRegs) (functionAt 1 0 0) = none by decide] at h
    cases h

theorem pciTree_demo : PciTree (spaceOf demoRegs) where
  allOnes := allOnes_demo
  host := by decide
  parent f g bus _ _ hpf hpg hf hg := (bridge_demo hpf hf).1.trans (bridge_demo hpg hg).1.symm
  root f bus _ hpresent hf hroot := by
    obtain rfl := (bridge_demo hpresent hf).2
    rcases hroot with h | ⟨hmulti, -⟩
    · exact absurd h (by decide)
    · exact absurd hmulti (by decide)

theorem pci_exact_iff_demo : Exact (spaceOf demoRegs) ↔ Dense (spaceOf demoRegs) := pci_exact_iff pciTree_demo

/-- A host bridge with the bit in its header, but with function 0 alone. -/
def sparseRegs (f : PciFunction) (offset : ℕ) : UInt32 :=
  if f = functionAt 0 0 0 then if offset = 8 then 0x06000000 else if offset = 12 then 0x00800000 else 0
  else 0xFFFFFFFF

theorem read_sparse (h : f ≠ functionAt 0 0 0) (offset : ℕ) :
    pciReadReg (spaceOf sparseRegs) f offset = 0xFFFFFFFF := by
  rw [pciReadReg_spaceOf, sparseRegs, if_neg h]

theorem eq_of_present_sparse (h : Present (spaceOf sparseRegs) f) : f = functionAt 0 0 0 := by
  by_contra hne
  refine h ?_
  rw [read_sparse hne]
  decide

theorem no_bridge_sparse (hpresent : Present (spaceOf sparseRegs) f) : secondary (spaceOf sparseRegs) f ≠ some bus := by
  obtain rfl := eq_of_present_sparse hpresent
  rw [show secondary (spaceOf sparseRegs) (functionAt 0 0 0) = none by decide]
  exact (Option.some_ne_none bus).symm

theorem pciTree_sparse : PciTree (spaceOf sparseRegs) where
  allOnes f hf := read_sparse fun h => hf (h ▸ (by decide))
  host := by decide
  parent _ _ _ _ _ hpresent _ hf _ := absurd hf (no_bridge_sparse hpresent)
  root _ _ _ hpresent hf := absurd hf (no_bridge_sparse hpresent)

/-- **The absent functions** of that bridge are checked. -/
theorem pci_checks_absent : PciTree (spaceOf sparseRegs) ∧ ¬ Exact (spaceOf sparseRegs) := by
  refine ⟨pciTree_sparse, ?_⟩
  rintro ⟨levels, s, hrun, -, habsent⟩
  have hone := present_of_exact (f := functionAt 0 0 1) pciTree_sparse hrun habsent .refl pciTree_sparse.host
    (by decide)
  exact absurd (eq_of_present_sparse hone) (by decide)

end BulbOS.Pci
