import Mathlib.Algebra.GroupWithZero.Nat
import Mathlib.Data.Fin.Basic
import Mathlib.Data.List.FinRange
import Mathlib.Logic.Function.Basic
import Mathlib.Tactic.Common

/-!
# The scan of the PCI buses (`drivers/pci.c`)

The messages are left out. A call on a bus gets a number of levels for the bridges below; `none` is a scan that goes
deeper.

* `pciReadReg`, `pciWriteReg`: the configuration space, a double word for each address;
* `pciCheckFunction`, `pciCheckDevice`, `pciCheckBus`, `pciCheckAllBus`: the scan;
* `Present`, `MultiFunction`, `secondary`: what it reads of a function; `Root`: the buses it starts from;
* `spaceOf`: the configuration space of functions with their registers; `touch`: what it does to the state there;
* `Same`: configuration spaces with the same topology; `same_touch`: the scan does not change the topology.
-/

namespace BulbOS.Pci

/-- `bus`, `device` and `func` of the calls. -/
structure PciFunction where
  bus : Fin 256
  device : Fin 32
  func : Fin 8
  deriving DecidableEq

/-- `(bus << 16) | (device << 11) | (func << 8) | (offset & 0xFC) | (1 << 31)`. -/
def PciFunction.address (f : PciFunction) (offset : ℕ) : ℕ :=
  (f.bus : ℕ) <<< 16 ||| (f.device : ℕ) <<< 11 ||| (f.func : ℕ) <<< 8 ||| (offset &&& 0xFC) ||| 1 <<< 31

/-- The configuration space, the calls of `ide_set` and the calls of `pci_check_function`. -/
structure PciState where
  config : ℕ → UInt32
  ideSet : List PciFunction
  checked : List PciFunction

def pciReadReg (config : ℕ → UInt32) (f : PciFunction) (offset : ℕ) : UInt32 := config (f.address offset)

/-- `outw` writes the low half of the double word. -/
def pciWriteReg (s : PciState) (f : PciFunction) (offset : ℕ) (data : UInt16) : PciState :=
  { s with
    config := Function.update s.config (f.address offset)
      (pciReadReg s.config f offset &&& 0xFFFF0000 ||| data.toUInt32) }

/-- `class` and `subclass`. -/
def classes (config : ℕ → UInt32) (f : PciFunction) : UInt32 × UInt32 :=
  let pciClasses := pciReadReg config f (2 <<< 2)
  (pciClasses >>> 24, pciClasses >>> 16 &&& 0xFF)

/-- `checkBus` is `pci_check_bus`. -/
def pciCheckFunction (checkBus : PciState → Fin 256 → Option PciState) (s : PciState) (f : PciFunction) :
    Option PciState :=
  let s := { s with checked := s.checked ++ [f] }
  let (cls, subclass) := classes s.config f
  let s :=
    if cls = 1 ∧ subclass = 1 then
      let s := { s with ideSet := s.ideSet ++ [f] }
      let pciCommandReg := (pciReadReg s.config f (1 <<< 2) &&& 0xFFFF).toUInt16
      pciWriteReg s f 0x6 (pciCommandReg ||| (1 : UInt16) <<< 2)
    else s
  if cls ≠ 0x6 ∨ subclass ≠ 0x4 then some s
  else
    let reg := pciReadReg s.config f (6 <<< 2)
    let secondaryBus := reg >>> 8 &&& 0xFF
    checkBus s (Fin.ofNat 256 secondaryBus.toNat)

/-- The loop of `pci_check_device`, over the functions that are left. -/
def pciCheckFuncs (checkBus : PciState → Fin 256 → Option PciState) (bus : Fin 256) (device : Fin 32) :
    List (Fin 8) → PciState → Option PciState
  | [], s => some s
  | func :: funcs, s =>
    let vendor := pciReadReg s.config ⟨bus, device, func⟩ 0
    if vendor = 0xFFFF then some s
    else do
      let s ← pciCheckFunction checkBus s ⟨bus, device, func⟩
      pciCheckFuncs checkBus bus device funcs s

/-- The functions 1, …, 7. -/
def otherFuncs : List (Fin 8) := (List.finRange 8).tail

/-- `pci_header` of function 0 has the bit `0x80`. -/
def MultiFunction (config : ℕ → UInt32) (bus : Fin 256) (device : Fin 32) : Prop :=
  let pciHeader := pciReadReg config ⟨bus, device, 0⟩ (3 <<< 2) >>> 16 &&& 0xFF
  ~~~pciHeader &&& 0x80 = 0

instance (config : ℕ → UInt32) (bus : Fin 256) (device : Fin 32) : Decidable (MultiFunction config bus device) :=
  inferInstanceAs (Decidable (_ = _))

/-- The vendor is not `0xFFFF`. -/
def Present (config : ℕ → UInt32) (f : PciFunction) : Prop := pciReadReg config f 0 &&& 0xFFFF ≠ 0xFFFF

instance (config : ℕ → UInt32) (f : PciFunction) : Decidable (Present config f) :=
  inferInstanceAs (Decidable (_ ≠ _))

def pciCheckDevice (checkBus : PciState → Fin 256 → Option PciState) (bus : Fin 256) (s : PciState)
    (device : Fin 32) : Option PciState :=
  if ¬ Present s.config ⟨bus, device, 0⟩ then some s
  else do
    let s ← pciCheckFunction checkBus s ⟨bus, device, 0⟩
    if ¬ MultiFunction s.config bus device then some s
    else pciCheckFuncs checkBus bus device otherFuncs s

def pciCheckBus : ℕ → PciState → Fin 256 → Option PciState
  | 0, _, _ => none
  | levels + 1, s, bus => (List.finRange 32).foldlM (pciCheckDevice (pciCheckBus levels) bus) s

/-- The loop of `pci_check_all_bus`. -/
def pciCheckHosts (levels : ℕ) : List (Fin 8) → PciState → Option PciState
  | [], s => some s
  | func :: funcs, s =>
    if Present s.config ⟨0, 0, func⟩ then some s
    else do
      let s ← pciCheckBus levels s (Fin.ofNat 256 func)
      pciCheckHosts levels funcs s

def pciCheckAllBus (levels : ℕ) (s : PciState) : Option PciState :=
  let multi := MultiFunction s.config 0 0
  do
    let s ← pciCheckBus levels s 0
    if ¬ multi then some s else pciCheckHosts levels otherFuncs s

/-! ## Addresses -/

theorem shiftLeft_or {a b i : ℕ} (h : b < 2 ^ i) : a <<< i ||| b = a * 2 ^ i + b := by
  rw [← Nat.shiftLeft_add_eq_or_of_lt h, Nat.shiftLeft_eq]

theorem and_fc_lt (offset : ℕ) : offset &&& 0xFC < 2 ^ 8 := Nat.and_lt_two_pow offset (by decide)

theorem address_eq (f : PciFunction) (offset : ℕ) :
    f.address offset = 2 ^ 31 + 2 ^ 16 * f.bus + 2 ^ 11 * f.device + 2 ^ 8 * f.func + (offset &&& 0xFC) := by
  have hbus := f.bus.2
  have hdevice := f.device.2
  have hfunc := f.func.2
  have hoffset := and_fc_lt offset
  have h₁ : (f.bus : ℕ) <<< 16 ||| (f.device : ℕ) <<< 11 = (32 * f.bus + f.device : ℕ) <<< 11 := by
    rw [Nat.shiftLeft_eq (f.device : ℕ), shiftLeft_or (by omega), Nat.shiftLeft_eq]
    omega
  have h₂ : (32 * f.bus + f.device : ℕ) <<< 11 ||| (f.func : ℕ) <<< 8 =
      (8 * (32 * f.bus + f.device) + f.func : ℕ) <<< 8 := by
    rw [Nat.shiftLeft_eq (f.func : ℕ), shiftLeft_or (by omega), Nat.shiftLeft_eq]
    omega
  rw [PciFunction.address, h₁, h₂, shiftLeft_or hoffset, Nat.or_comm, shiftLeft_or (by omega)]
  omega

theorem address_ne {offset offset' : ℕ} (h : offset &&& 0xFC ≠ offset' &&& 0xFC) (f g : PciFunction) :
    f.address offset ≠ g.address offset' := by
  have h₁ := and_fc_lt offset
  have h₂ := and_fc_lt offset'
  rw [address_eq, address_eq]
  omega

def functionAt (bus device func : ℕ) : PciFunction := ⟨Fin.ofNat 256 bus, Fin.ofNat 32 device, Fin.ofNat 8 func⟩

/-- The configuration space of functions with their registers. -/
def spaceOf (regs : PciFunction → ℕ → UInt32) (address : ℕ) : UInt32 :=
  regs (functionAt (address / 2 ^ 16) (address / 2 ^ 11) (address / 2 ^ 8)) (address % 2 ^ 8)

theorem ofNat_eq {n a : ℕ} [NeZero n] {i : Fin n} (h : a % n = i) : Fin.ofNat n a = i := Fin.ext h

theorem pciReadReg_spaceOf (regs : PciFunction → ℕ → UInt32) (f : PciFunction) (offset : ℕ) :
    pciReadReg (spaceOf regs) f offset = regs f (offset &&& 0xFC) := by
  have hbus := f.bus.2
  have hdevice := f.device.2
  have hfunc := f.func.2
  have hoffset := and_fc_lt offset
  rw [pciReadReg, spaceOf, functionAt, address_eq, ofNat_eq (i := f.bus) (by omega),
    ofNat_eq (i := f.device) (by omega),
    ofNat_eq (i := f.func) (by omega)]
  congr 1
  omega

/-! ## The topology -/

/-- Function 0 and, with the bit in the header, all others; absent ones, too. -/
def deviceFunctions (config : ℕ → UInt32) (bus : Fin 256) (device : Fin 32) : List PciFunction :=
  if Present config ⟨bus, device, 0⟩ then
    ⟨bus, device, 0⟩ :: if MultiFunction config bus device then otherFuncs.map (⟨bus, device, ·⟩) else []
  else []

/-- The bus of function 0 of the host bridge, and those of its other functions. -/
def Root (config : ℕ → UInt32) (bus : Fin 256) : Prop :=
  bus = 0 ∨ MultiFunction config 0 0 ∧ ∃ func : Fin 8, func ≠ 0 ∧ Present config ⟨0, 0, func⟩ ∧ (bus : ℕ) = func

/-- The bus behind a bridge. -/
def secondary (config : ℕ → UInt32) (f : PciFunction) : Option (Fin 256) :=
  let (cls, subclass) := classes config f
  if cls ≠ 0x6 ∨ subclass ≠ 0x4 then none
  else some (Fin.ofNat 256 (pciReadReg config f (6 <<< 2) >>> 8 &&& 0xFF).toNat)

/-- The registers that the scan goes by are the same. -/
structure Same (config config' : ℕ → UInt32) : Prop where
  vendor : ∀ f, pciReadReg config' f 0 = pciReadReg config f 0
  classes : ∀ f, pciReadReg config' f (2 <<< 2) = pciReadReg config f (2 <<< 2)
  header : ∀ f, pciReadReg config' f (3 <<< 2) = pciReadReg config f (3 <<< 2)
  bridge : ∀ f, pciReadReg config' f (6 <<< 2) = pciReadReg config f (6 <<< 2)

variable {config config' : ℕ → UInt32}

theorem Same.refl (config : ℕ → UInt32) : Same config config :=
  ⟨fun _ => rfl, fun _ => rfl, fun _ => rfl, fun _ => rfl⟩

theorem Same.present (h : Same config config') (f : PciFunction) : Present config' f ↔ Present config f := by
  rw [Present, Present, h.vendor]

theorem Same.multiFunction (h : Same config config') (bus : Fin 256) (device : Fin 32) :
    MultiFunction config' bus device ↔ MultiFunction config bus device := by
  rw [MultiFunction, MultiFunction, h.header]

theorem Same.secondary (h : Same config config') (f : PciFunction) : secondary config' f = secondary config f := by
  rw [Pci.secondary, Pci.secondary, Pci.classes, Pci.classes, h.classes, h.bridge]

theorem pciReadReg_write {f g : PciFunction} {offset offset' : ℕ} (h : offset' &&& 0xFC ≠ offset &&& 0xFC)
    (s : PciState) (data : UInt16) :
    pciReadReg (pciWriteReg s f offset data).config g offset' = pciReadReg s.config g offset' := by
  rw [pciReadReg, pciWriteReg]
  dsimp only
  rw [Function.update_of_ne (address_ne h g f), pciReadReg]

theorem Same.write {s : PciState} (h : Same config s.config) (f : PciFunction) {offset : ℕ}
    (hoffset : offset &&& 0xFC = 4) (data : UInt16) : Same config (pciWriteReg s f offset data).config := by
  have hread : ∀ offset', offset' &&& 0xFC ≠ 4 → ∀ g,
      pciReadReg (pciWriteReg s f offset data).config g offset' = pciReadReg s.config g offset' :=
    fun offset' hne g => pciReadReg_write (hoffset ▸ hne) s data
  exact ⟨fun g => (hread 0 (by decide) g).trans (h.vendor g), fun g => (hread _ (by decide) g).trans (h.classes g),
    fun g => (hread _ (by decide) g).trans (h.header g), fun g => (hread _ (by decide) g).trans (h.bridge g)⟩

/-- What `pci_check_function` does before it goes to the bus behind a bridge. -/
def touch (s : PciState) (f : PciFunction) : PciState :=
  let s := { s with checked := s.checked ++ [f] }
  if classes s.config f = (1, 1) then
    let s := { s with ideSet := s.ideSet ++ [f] }
    pciWriteReg s f 0x6 ((pciReadReg s.config f (1 <<< 2) &&& 0xFFFF).toUInt16 ||| (1 : UInt16) <<< 2)
  else s

theorem same_touch {s : PciState} (h : Same config s.config) (f : PciFunction) : Same config (touch s f).config := by
  unfold touch
  dsimp only
  split_ifs
  · exact Same.write (s := { s with checked := s.checked ++ [f], ideSet := s.ideSet ++ [f] }) h f (by decide) _
  · exact h

theorem checked_touch (s : PciState) (f : PciFunction) : (touch s f).checked = s.checked ++ [f] := by
  unfold touch
  dsimp only
  split_ifs <;> rfl

/-- **`pci_check_function`** goes to the bus behind a bridge. -/
theorem pciCheckFunction_eq (checkBus : PciState → Fin 256 → Option PciState) (s : PciState) (f : PciFunction) :
    pciCheckFunction checkBus s f = match secondary s.config f with
      | none => some (touch s f)
      | some bus => checkBus (touch s f) bus := by
  -- the register of the bridge is read after the write
  have hbridge := (same_touch (Same.refl s.config) f).bridge f
  unfold touch at hbridge ⊢
  unfold pciCheckFunction secondary
  dsimp only at hbridge ⊢
  simp only [Prod.ext_iff] at hbridge ⊢
  rw [hbridge]
  split_ifs <;> rfl

end BulbOS.Pci
