import BulbOS.Lib.Forest
import BulbOS.Pci.Model

/-!
# The scan as a walk

* `buses`: the functions that `pci_check_bus` checks on a bus, and the buses behind them;
* `Follows`: a part of the scan is the walk over a list of functions; `Follows.bind`: one part after another;
* **`pciCheckBus_eq`**: `pci_check_bus` is the walk of the bus;
* `pciCheckAllBus_checked`: and so is `pci_check_all_bus`, unless it goes to the buses of absent functions.
-/

namespace BulbOS.Pci

open KLib

def buses (config : ℕ → UInt32) : Branching (Fin 256) PciFunction where
  items bus := (List.finRange 32).flatMap (deviceFunctions config bus)
  next := secondary config

/-- A function that is absent reads as ones. -/
def AllOnes (config : ℕ → UInt32) : Prop :=
  ∀ f, ¬ Present config f → ∀ offset, pciReadReg config f offset = 0xFFFFFFFF

variable {config : ℕ → UInt32} {visit : Fin 256 → Option (List PciFunction)}
  {checkBus : PciState → Fin 256 → Option PciState} {run run' : PciState → Option PciState}
  {fs gs log : List PciFunction} {s s' : PciState} {bus : Fin 256} {device : Fin 32} {f : PciFunction} {levels : ℕ}

theorem AllOnes.vendor_ne (h : AllOnes config) (f : PciFunction) : pciReadReg config f 0 ≠ 0xFFFF := by
  intro hvendor
  have hread := h f (by rw [Present, hvendor]; decide) 0
  rw [hvendor] at hread
  exact absurd hread (by decide)

theorem AllOnes.secondary (h : AllOnes config) (hf : ¬ Present config f) : secondary config f = none := by
  rw [Pci.secondary, classes, h f hf]
  rfl

theorem otherFuncs_cons : List.finRange 8 = 0 :: otherFuncs := rfl

theorem mem_otherFuncs {func : Fin 8} : func ∈ otherFuncs ↔ func ≠ 0 := by
  revert func
  decide

theorem mem_deviceFunctions : f ∈ deviceFunctions config bus device ↔ f.bus = bus ∧ f.device = device ∧
    Present config ⟨bus, device, 0⟩ ∧ (f.func = 0 ∨ MultiFunction config bus device) := by
  obtain ⟨b, d, func⟩ := f
  unfold deviceFunctions
  split_ifs with hpresent hmulti
  · rw [List.mem_cons, List.mem_map]
    constructor
    · rintro (hf | ⟨func', -, hf⟩)
      · cases hf
        exact ⟨rfl, rfl, hpresent, .inl rfl⟩
      · cases hf
        exact ⟨rfl, rfl, hpresent, .inr hmulti⟩
    · rintro ⟨rfl, rfl, -, -⟩
      by_cases hzero : func = 0
      · exact .inl (hzero ▸ rfl)
      · exact .inr ⟨func, mem_otherFuncs.mpr hzero, rfl⟩
  · rw [List.mem_singleton, PciFunction.mk.injEq]
    constructor
    · rintro ⟨hb, hd, hfunc⟩
      exact ⟨hb, hd, hpresent, .inl hfunc⟩
    · rintro ⟨hb, hd, -, hfunc⟩
      exact ⟨hb, hd, hfunc.resolve_right hmulti⟩
  · exact iff_of_false List.not_mem_nil fun h => hpresent h.2.2.1

theorem mem_items : f ∈ (buses config).items bus ↔ f.bus = bus ∧ Present config ⟨bus, f.device, 0⟩ ∧
    (f.func = 0 ∨ MultiFunction config bus f.device) := by
  change f ∈ (List.finRange 32).flatMap (deviceFunctions config bus) ↔ _
  rw [List.mem_flatMap]
  constructor
  · rintro ⟨device, -, hf⟩
    obtain ⟨hbus, rfl, hpresent, hfunc⟩ := mem_deviceFunctions.mp hf
    exact ⟨hbus, hpresent, hfunc⟩
  · rintro ⟨hbus, hpresent, hfunc⟩
    exact ⟨f.device, List.mem_finRange _, mem_deviceFunctions.mpr ⟨hbus, rfl, hpresent, hfunc⟩⟩

theorem nodup_deviceFunctions : (deviceFunctions config bus device).Nodup := by
  have hinj : Function.Injective fun func : Fin 8 => (⟨bus, device, func⟩ : PciFunction) :=
    fun _ _ h => (PciFunction.mk.inj h).2.2
  have hall := (List.nodup_finRange 8).map hinj
  rw [otherFuncs_cons, List.map_cons] at hall
  unfold deviceFunctions
  split_ifs
  · exact hall
  · exact List.nodup_singleton _
  · exact List.nodup_nil

theorem nodup_items : ((buses config).items bus).Nodup := by
  refine List.nodup_flatMap.mpr ⟨fun device _ => nodup_deviceFunctions, ?_⟩
  refine (List.nodup_finRange 32).imp fun {d d'} hne f hf hf' => hne ?_
  exact (mem_deviceFunctions.mp hf).2.1.symm.trans (mem_deviceFunctions.mp hf').2.1

/-! ## Parts of the scan -/

theorem same_foldl_touch (h : Same config s.config) (log : List PciFunction) :
    Same config (log.foldl touch s).config := by
  induction log generalizing s with
  | nil => exact h
  | cons f log ih => exact ih (same_touch h f)

theorem checked_foldl_touch (s : PciState) (log : List PciFunction) :
    (log.foldl touch s).checked = s.checked ++ log := by
  induction log generalizing s with
  | nil => exact (List.append_nil _).symm
  | cons f log ih => rw [List.foldl_cons, ih, checked_touch, List.append_assoc, List.singleton_append]

/-- From every state with this topology, `run` checks `fs` and what is behind them. -/
def Follows (config : ℕ → UInt32) (visit : Fin 256 → Option (List PciFunction))
    (run : PciState → Option PciState) (fs : List PciFunction) : Prop :=
  ∀ s : PciState, Same config s.config → run s = ((buses config).collect visit fs).map fun log => log.foldl touch s

theorem Follows.nil : Follows config visit some [] := fun _ _ => rfl

theorem Follows.bind (h : Follows config visit run fs) (h' : Follows config visit run' gs) :
    Follows config visit (fun s => run s >>= run') (fs ++ gs) := by
  intro s hs
  dsimp only
  rw [h s hs, Branching.collect_append]
  cases (buses config).collect visit fs with
  | none => rfl
  | some l =>
    change run' (l.foldl touch s) = _
    rw [h' _ (same_foldl_touch hs l), Option.bind_some, Option.map_map]
    exact congrArg (Option.map · _) (funext fun l' => (List.foldl_append ..).symm)

/-- `checkBus` is the walk of a bus. -/
def Visits (config : ℕ → UInt32) (visit : Fin 256 → Option (List PciFunction))
    (checkBus : PciState → Fin 256 → Option PciState) : Prop :=
  ∀ (s : PciState) (bus : Fin 256), Same config s.config →
    checkBus s bus = (visit bus).map fun log => log.foldl touch s

theorem Visits.checkFunction (h : Visits config visit checkBus) (f : PciFunction) :
    Follows config visit (fun s => pciCheckFunction checkBus s f) [f] := by
  intro s hs
  have hcollect : (buses config).collect visit [f] = (buses config).enter visit f := by
    rw [Branching.collect]
    cases (buses config).enter visit f with
    | none => rfl
    | some l => exact congrArg some (List.append_nil l)
  dsimp only
  rw [pciCheckFunction_eq, hs.secondary, hcollect, Branching.enter,
    show (buses config).next f = secondary config f from rfl]
  cases secondary config f with
  | none => rfl
  | some bus =>
    change checkBus (touch s f) bus = _
    rw [h _ _ (same_touch hs f), Option.map_map]
    rfl

theorem Visits.checkFuncs (h : Visits config visit checkBus) (hones : AllOnes config) (funcs : List (Fin 8)) :
    Follows config visit (pciCheckFuncs checkBus bus device funcs) (funcs.map (⟨bus, device, ·⟩)) := by
  induction funcs with
  | nil => exact Follows.nil
  | cons func funcs ih =>
    intro s hs
    rw [pciCheckFuncs, if_neg (by rw [hs.vendor]; exact hones.vendor_ne _)]
    exact (h.checkFunction ⟨bus, device, func⟩).bind ih s hs

/-- **`pci_check_device`**. -/
theorem Visits.checkDevice (h : Visits config visit checkBus) (hones : AllOnes config) (device : Fin 32) :
    Follows config visit (fun s => pciCheckDevice checkBus bus s device) (deviceFunctions config bus device) := by
  -- behind function 0
  have hrest : Follows config visit (fun s =>
      if ¬ MultiFunction s.config bus device then some s else pciCheckFuncs checkBus bus device otherFuncs s)
      (if MultiFunction config bus device then otherFuncs.map (⟨bus, device, ·⟩) else []) := by
    intro s hs
    dsimp only
    by_cases hmulti : MultiFunction config bus device
    · rw [if_neg (not_not.mpr ((hs.multiFunction _ _).mpr hmulti)), if_pos hmulti]
      exact h.checkFuncs hones otherFuncs s hs
    · rw [if_pos (mt (hs.multiFunction _ _).mp hmulti), if_neg hmulti]
      rfl
  intro s hs
  unfold pciCheckDevice deviceFunctions
  dsimp only
  by_cases hpresent : Present config ⟨bus, device, 0⟩
  · rw [if_neg (not_not.mpr ((hs.present _).mpr hpresent)), if_pos hpresent]
    exact (h.checkFunction ⟨bus, device, 0⟩).bind hrest s hs
  · rw [if_pos (mt (hs.present _).mp hpresent), if_neg hpresent]
    rfl

theorem Visits.checkDevices (h : Visits config visit checkBus) (hones : AllOnes config) (devices : List (Fin 32)) :
    Follows config visit (fun s => devices.foldlM (pciCheckDevice checkBus bus) s)
      (devices.flatMap (deviceFunctions config bus)) := by
  induction devices with
  | nil => exact Follows.nil
  | cons device devices ih =>
    intro s hs
    rw [List.flatMap_cons]
    exact (h.checkDevice hones device).bind ih s hs

/-- **`pci_check_bus`** is the walk of the bus. -/
theorem pciCheckBus_eq (hones : AllOnes config) (levels : ℕ) :
    Visits config ((buses config).walk levels) (pciCheckBus levels) := by
  induction levels with
  | zero => exact fun _ _ _ => rfl
  | succ levels ih => exact fun s bus hs => ih.checkDevices hones (List.finRange 32) s hs

/-! ## The buses of the host bridge -/

/-- The loop of `pci_check_all_bus` checks more functions, if anything. -/
theorem checked_pciCheckHosts (hones : AllOnes config) (hs : Same config s.config) {funcs : List (Fin 8)}
    (h : pciCheckHosts levels funcs s = some s') : s.checked <+: s'.checked := by
  induction funcs generalizing s with
  | nil =>
    cases h
    exact List.prefix_rfl
  | cons func funcs ih =>
    rw [pciCheckHosts] at h
    split_ifs at h
    · cases h
      exact List.prefix_rfl
    · obtain ⟨s₁, hbus, h⟩ := Option.bind_eq_some_iff.mp h
      rw [pciCheckBus_eq hones levels s _ hs] at hbus
      obtain ⟨log, -, rfl⟩ := Option.map_eq_some_iff.mp hbus
      have hrest := ih (same_foldl_touch hs log) h
      rw [checked_foldl_touch] at hrest
      exact (List.prefix_append _ _).trans hrest

theorem pciCheckHosts_present (hs : Same config s.config) (hpresent : Present config ⟨0, 0, 1⟩) :
    pciCheckHosts levels otherFuncs s = some s :=
  if_pos ((hs.present _).mpr hpresent)

/-- **`pci_check_all_bus`** checks what is below bus 0, and nothing else if the host bridge has one function or all
functions. -/
theorem pciCheckAllBus_checked (hones : AllOnes config)
    (h : pciCheckAllBus levels ⟨config, [], []⟩ = some s') : ∃ log, (buses config).walk levels 0 = some log ∧
      log <+: s'.checked ∧ ((MultiFunction config 0 0 → Present config ⟨0, 0, 1⟩) → s'.checked = log) := by
  obtain ⟨s₁, hbus, h⟩ := Option.bind_eq_some_iff.mp h
  rw [pciCheckBus_eq hones levels _ _ (Same.refl config)] at hbus
  obtain ⟨log, hwalk, rfl⟩ := Option.map_eq_some_iff.mp hbus
  have hsame : Same config (log.foldl touch ⟨config, [], []⟩).config := same_foldl_touch (Same.refl config) log
  have hchecked : (log.foldl touch ⟨config, [], []⟩).checked = log := checked_foldl_touch ..
  refine ⟨log, hwalk, ?_⟩
  dsimp only at h
  by_cases hmulti : MultiFunction config 0 0
  · rw [if_neg (not_not.mpr hmulti)] at h
    have hpre := checked_pciCheckHosts hones hsame h
    rw [hchecked] at hpre
    refine ⟨hpre, fun hpresent => ?_⟩
    rw [pciCheckHosts_present hsame (hpresent hmulti)] at h
    exact (Option.some.inj h) ▸ hchecked
  · rw [if_pos hmulti] at h
    obtain rfl := Option.some.inj h
    exact ⟨hchecked.symm ▸ List.prefix_rfl, fun _ => hchecked⟩

theorem exists_pciCheckAllBus (hones : AllOnes config) (hwalk : (buses config).walk levels 0 = some log)
    (hhost : MultiFunction config 0 0 → Present config ⟨0, 0, 1⟩) :
    ∃ s', pciCheckAllBus levels ⟨config, [], []⟩ = some s' := by
  have hbus := pciCheckBus_eq hones levels ⟨config, [], []⟩ 0 (Same.refl config)
  rw [hwalk, Option.map_some] at hbus
  unfold pciCheckAllBus
  dsimp only
  rw [hbus, Option.bind_eq_bind, Option.bind_some]
  by_cases hmulti : MultiFunction config 0 0
  · rw [if_neg (not_not.mpr hmulti)]
    exact ⟨_, pciCheckHosts_present (same_foldl_touch (Same.refl config) log) (hhost hmulti)⟩
  · exact ⟨_, if_pos hmulti⟩

end BulbOS.Pci
