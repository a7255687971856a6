import Pciemu.Backend

/-!
What of the interrupts is set up in realize and taken down in exit. A call of
the PCI core stands for what it adds or removes, each with its container.
-/

namespace Pciemu.Frontend

open Device AuroraHw

inductive IrqResource
  | msiCapability
  | msixTable
  | msixPba
  deriving DecidableEq

/-- `msix_init` makes the table and the pending bits subregions of the regions it is given. -/
def PciCall.adds : PciCall → List (IrqResource × Option MemoryRegion)
  | .msiInit _ => [(.msiCapability, none)]
  | .msixInit _ table _ pba _ => [(.msixTable, some table), (.msixPba, some pba)]
  | _ => []

def PciCall.removes : PciCall → List (IrqResource × Option MemoryRegion)
  | .msiUninit => [(.msiCapability, none)]
  | .msixUninit table pba => [(.msixTable, some table), (.msixPba, some pba)]
  | _ => []

def Undone (calls : List PciCall) : Prop := ∀ r ∈ calls.flatMap PciCall.adds, r ∈ calls.flatMap PciCall.removes

def realizeCalls : List PciCall :=
  [.pciRegisterBar regBar .reg, .pciRegisterBar intBar .internal, .pciRegisterBar memBar .dmem,
    .pciConfigSetInterruptPin (irqIntx + 1), .msiInit irqCnt] ++ msixCalls

theorem deviceInit_calls (o : Outcome) (hmsi : o.msiInit = 0) (hmsix : 0 ≤ o.msixInit) (host : ℕ → UInt8)
    (fd : ℤ) : (pciemuDeviceInit o host fd).1.calls = realizeCalls := by
  obtain ⟨msi, msix, adev⟩ := o
  have hirq (dev : PciemuDevice) : (pciemuIrqInit dev ⟨msi, msix, adev⟩).1.calls =
      dev.calls ++ [.pciConfigSetInterruptPin (irqIntx + 1)] ++ [.msiInit irqCnt] ++ msixCalls := by
    rcases initMsi_cases (pciemuIrqInitIntx dev) msi with ⟨hi, -⟩ | ⟨-, hi⟩
    · exact absurd hmsi hi
    · rcases initMsix_cases ((pciemuIrqInitIntx dev).call (.msiInit irqCnt)) msix with ⟨hx, -⟩ | ⟨-, hx⟩
      · exact absurd hmsix (not_le.mpr hx)
      · simp only [pciemuIrqInit, hi, hx]
        rfl
  cases adev with
  | none => exact hirq _
  | some raw => exact hirq _

theorem realizeCalls_adds : realizeCalls.flatMap PciCall.adds =
    [(.msiCapability, none), (.msixTable, some .internal), (.msixPba, some .internal)] := by
  simp [realizeCalls, msixCalls, PciCall.adds, List.flatMap_map]

theorem realizeCalls_removes : realizeCalls.flatMap PciCall.removes = [] := by
  simp [realizeCalls, msixCalls, PciCall.removes, List.flatMap_map]

theorem exit_resources (bus : Bus) {o : Outcome} (hmsi : o.msiInit = 0) (hmsix : 0 ≤ o.msixInit)
    (halloc : o.malloc.isSome) (host : ℕ → UInt8) (fd : ℤ) (as : List Action) :
    ∃ dev, runToExit bus (pciemuDeviceInit o host fd).1 as = some dev ∧
      dev.calls.flatMap PciCall.adds =
        [(.msiCapability, none), (.msixTable, some .internal), (.msixPba, some .internal)] ∧
      dev.calls.flatMap PciCall.removes =
        [(.msiCapability, none), (.msixTable, some .reg), (.msixPba, some .reg)] := by
  rw [← deviceInit_backend o host fd] at halloc
  obtain ⟨dev, hexit, hcalls⟩ := runToExit_present bus as halloc
  rw [deviceInit_calls o hmsi hmsix] at hcalls
  refine ⟨dev, hexit, ?_, ?_⟩
  · rw [hcalls, List.flatMap_append, List.flatMap_append, realizeCalls_adds]
    rfl
  · rw [hcalls, List.flatMap_append, List.flatMap_append, realizeCalls_removes]
    rfl

theorem exit_leaves_msix (bus : Bus) (o : Outcome) (hmsi : o.msiInit = 0) (hmsix : 0 ≤ o.msixInit)
    (halloc : o.malloc.isSome) (host : ℕ → UInt8) (fd : ℤ) (as : List Action) :
    ∃ dev, runToExit bus (pciemuDeviceInit o host fd).1 as = some dev ∧ ¬Undone dev.calls ∧
      (.msiCapability, none) ∈ dev.calls.flatMap PciCall.removes ∧
      (∀ region, (.msixTable, some region) ∈ dev.calls.flatMap PciCall.adds →
        (.msixTable, some region) ∉ dev.calls.flatMap PciCall.removes) ∧
      ∀ region, (.msixPba, some region) ∈ dev.calls.flatMap PciCall.adds →
        (.msixPba, some region) ∉ dev.calls.flatMap PciCall.removes := by
  obtain ⟨dev, hexit, hadds, hremoves⟩ := exit_resources bus hmsi hmsix halloc host fd as
  refine ⟨dev, hexit, ?_⟩
  rw [Undone, hadds, hremoves]
  refine ⟨by decide, by decide, ?_, ?_⟩
  · intro region
    cases region <;> decide
  · intro region
    cases region <;> decide

def started : Outcome := ⟨0, 0, some ⟨⟨⟨0, 0, 0⟩, 0, 0⟩, .off, fun _ => 0⟩⟩

theorem exit_leaves_msix_started :
    let as := [.op (.write .reg reg0 5 8), .op .reset]
    started.msiInit = 0 ∧ started.malloc.isSome ∧
      ∃ dev, runToExit copyBus (pciemuDeviceInit started (fun _ => 0) (-1)).1 as = some dev ∧ ¬Undone dev.calls := by
  intro as
  obtain ⟨dev, hexit, hundone, -⟩ := exit_leaves_msix copyBus started rfl (by decide) rfl (fun _ => 0) (-1) as
  exact ⟨rfl, rfl, dev, hexit, hundone⟩

theorem exit_names_wrong_region :
    ∃ dev, runToExit copyBus (pciemuDeviceInit started (fun _ => 0) (-1)).1 [] = some dev ∧ ¬Undone dev.calls := by
  obtain ⟨dev, hexit, hadds, hremoves⟩ :=
    exit_resources copyBus (rfl : started.msiInit = 0) (by decide) rfl (fun _ => 0) (-1) []
  refine ⟨dev, hexit, ?_⟩
  rw [Undone, hadds, hremoves]
  decide

end Pciemu.Frontend
