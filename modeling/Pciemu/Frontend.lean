import Pciemu.RegisterMap
import Pciemu.LockStep

/-!
The object of the front end, from realize to exit. Its backend is a pointer,
and the functions have no result where they follow it although it is NULL.
-/

namespace Pciemu.Frontend

open Device AuroraHw TcpClient Runs

inductive MemoryRegion
  | reg
  | dmem
  | internal
  deriving DecidableEq

inductive PciCall
  | pciRegisterBar (bar : ℕ) (region : MemoryRegion)
  | pciConfigSetInterruptPin (pin : ℕ)
  | msiInit (vectors : ℕ)
  | msixInit (entries : ℕ) (table : MemoryRegion) (tableOfs : UInt64) (pba : MemoryRegion) (pbaOfs : UInt64)
  | msixVectorUse (vector : ℕ)
  | msiUninit
  | msixUninit (table pba : MemoryRegion)
  deriving DecidableEq

/-- `calls` lists the calls of the PCI core that succeeded; `fd` is the global variable of the client. -/
structure PciemuDevice where
  msixEnabled : Bool
  msiEnabled : Bool
  irq : ℕ → UInt8
  backend : Option DmaEngine
  host : ℕ → UInt8
  log : List Event
  calls : List PciCall
  fd : ℤ

def PciemuDevice.machine (dev : PciemuDevice) (adev : DmaEngine) : Machine :=
  ⟨dev.msixEnabled, dev.msiEnabled, dev.irq, adev, dev.host, dev.log⟩

def PciemuDevice.update (dev : PciemuDevice) (m : Machine) : PciemuDevice :=
  { dev with
    msixEnabled := m.msixEnabled, msiEnabled := m.msiEnabled, irq := m.irq, backend := some m.dma
    host := m.host, log := m.log }

def PciemuDevice.call (dev : PciemuDevice) (c : PciCall) : PciemuDevice := { dev with calls := dev.calls ++ [c] }

def PciemuDevice.deref (dev : PciemuDevice) (f : Machine → Machine) : Option PciemuDevice :=
  dev.backend.map fun adev => dev.update (f (dev.machine adev))

def PciemuDevice.derefReg (dev : PciemuDevice) (i : ℕ) : Option UInt64 :=
  dev.backend.map fun adev => (dev.machine adev).reg i

def PciemuDevice.irqOnly (dev : PciemuDevice) (f : Machine → Machine) : PciemuDevice :=
  let m := f (dev.machine ⟨⟨⟨0, 0, 0⟩, 0, 0⟩, .off, fun _ => 0⟩)
  { dev with irq := m.irq, log := m.log }

def auroraDmaRegWrite (bus : Bus) (dev : PciemuDevice) (addr value : UInt64) : Option PciemuDevice :=
  if !auroraDmaValidAccess addr then some dev
  else if addr = regDmaCfgTxdescSrc then dev.deref (auroraDmaConfigTxdescSrc · value)
  else if addr = regDmaCfgTxdescDst then dev.deref (auroraDmaConfigTxdescDst · value)
  else if addr = regDmaCfgTxdescLen then dev.deref (auroraDmaConfigTxdescLen · value)
  else if addr = regDmaCfgCmd then dev.deref (auroraDmaConfigCmd · value)
  else if addr = regDmaDoorbellRing then dev.deref (auroraDmaDoorbellRing bus)
  else some dev

def auroraWriteRegByAddr (bus : Bus) (dev : PciemuDevice) (addr value : UInt64) : Option PciemuDevice :=
  if !auroraRegbarValidAccess addr then some dev
  else if addr = reg0 then dev.deref (·.setReg 0 value)
  else if addr = reg1 then dev.deref (·.setReg 1 value)
  else if addr = reg2 then dev.deref (·.setReg 2 value)
  else if addr = reg3 then dev.deref (·.setReg 3 value)
  else if addr = regIrq0Raise then dev.deref (pciemuIrqRaise · 0)
  else if addr = regIrq0Lower then dev.deref (pciemuIrqLower · 0)
  else if regDmaCfgTxdescSrc ≤ addr ∧ addr ≤ regDmaDoorbellRing then auroraDmaRegWrite bus dev addr value
  else some dev

def auroraReadRegByAddr (dev : PciemuDevice) (addr value : UInt64) : Option UInt64 :=
  if !auroraRegbarValidAccess addr then some 0xdeadbeef
  else if addr = reg0 then dev.derefReg 0
  else if addr = reg1 then dev.derefReg 1
  else if addr = reg2 then dev.derefReg 2
  else if addr = reg3 then dev.derefReg 3
  else some value

def auroraBackendReset (dev : PciemuDevice) : Option PciemuDevice := dev.deref auroraDmaReset

def auroraBackendInit (dev : PciemuDevice) (adev : Option DmaEngine) : PciemuDevice :=
  match adev with
  | none => dev
  | some raw => { dev with backend := some (auroraDmaInit (dev.machine raw)).dma }

def auroraBackendFini (dev : PciemuDevice) : Option PciemuDevice :=
  (dev.deref auroraDmaFini).map fun dev => { dev with backend := none }

def glueWriteRegByAddr (bus : Bus) (dev : PciemuDevice) (addr value : UInt64) : Option PciemuDevice :=
  auroraWriteRegByAddr bus dev addr value

def glueReadRegByAddr (dev : PciemuDevice) (addr value : UInt64) : Option UInt64 := auroraReadRegByAddr dev addr value

def glueBackendReset (dev : PciemuDevice) : Option PciemuDevice := auroraBackendReset dev

def glueBackendInit (dev : PciemuDevice) (adev : Option DmaEngine) : PciemuDevice := auroraBackendInit dev adev

def glueBackendFini (dev : PciemuDevice) : Option PciemuDevice := auroraBackendFini dev

def pciemuRegbarRead (dev : PciemuDevice) (addr : UInt64) (_size : ℕ) : Option UInt64 :=
  glueReadRegByAddr dev addr (~~~0)

def pciemuRegbarWrite (bus : Bus) (dev : PciemuDevice) (addr val : UInt64) (_size : ℕ) : Option PciemuDevice :=
  glueWriteRegByAddr bus dev addr val

def pciemuInternalBarRead (dev : PciemuDevice) (addr : UInt64) (_size : ℕ) : Option UInt64 :=
  glueReadRegByAddr dev addr (~~~0)

def pciemuInternalBarWrite (bus : Bus) (dev : PciemuDevice) (addr val : UInt64) (_size : ℕ) : Option PciemuDevice :=
  glueWriteRegByAddr bus dev addr val

def pciemuReset (dev : PciemuDevice) : Option PciemuDevice := glueBackendReset (dev.irqOnly pciemuIrqReset)

structure Outcome where
  msiInit : ℤ
  msixInit : ℤ
  malloc : Option DmaEngine

def pciemuIrqInitIntx (dev : PciemuDevice) : PciemuDevice := dev.call (.pciConfigSetInterruptPin (irqIntx + 1))

/-- The second component tells whether an error was stored through `errp`. -/
def pciemuIrqInitMsi (dev : PciemuDevice) (rc : ℤ) : PciemuDevice × Bool :=
  if rc ≠ 0 then (dev, true) else (dev.call (.msiInit irqCnt), false)

def pciemuIrqInitMsix (dev : PciemuDevice) (rc : ℤ) : PciemuDevice × Bool :=
  if rc < 0 then (dev, true)
  else
    let dev := dev.call (.msixInit irqMsixCnt .internal msixTableOffset .internal msixPbaOffset)
    ((List.range irqMsixCnt).foldl (fun dev i => dev.call (.msixVectorUse i)) dev, false)

def pciemuIrqInit (dev : PciemuDevice) (o : Outcome) : PciemuDevice × Bool :=
  let dev := pciemuIrqInitIntx dev
  let msi := pciemuIrqInitMsi dev o.msiInit
  let msix := pciemuIrqInitMsix msi.1 o.msixInit
  (msix.1, msi.2 || msix.2)

def pciemuDeviceInit (o : Outcome) (host : ℕ → UInt8) (fd : ℤ) : PciemuDevice × Bool :=
  let dev : PciemuDevice := ⟨false, false, fun _ => 0, none, host, [], [], fd⟩
  let dev := ((dev.call (.pciRegisterBar regBar .reg)).call (.pciRegisterBar intBar .internal)).call
    (.pciRegisterBar memBar .dmem)
  let r := pciemuIrqInit dev o
  (glueBackendInit r.1 o.malloc, r.2)

def pciemuIrqFini (dev : PciemuDevice) : PciemuDevice :=
  ((dev.irqOnly pciemuIrqReset).call .msiUninit).call (.msixUninit .reg .reg)

def pciemuDeviceFini (dev : PciemuDevice) : Option PciemuDevice := (glueBackendFini dev).map pciemuIrqFini

inductive Action
  | op (op : Op)
  | memRead (addr : UInt64) (size : ℕ) (x : Exchange) (stack : MemRwReq)
  | memWrite (addr val : UInt64) (size : ℕ) (x : Exchange) (stack : MemRwReq)

def barRead (dev : PciemuDevice) : Bar → UInt64 → ℕ → Option UInt64
  | .reg => pciemuRegbarRead dev
  | .internal => pciemuInternalBarRead dev

def barWrite (bus : Bus) (dev : PciemuDevice) : Bar → UInt64 → UInt64 → ℕ → Option PciemuDevice
  | .reg => pciemuRegbarWrite bus dev
  | .internal => pciemuInternalBarWrite bus dev

def step (bus : Bus) (dev : PciemuDevice) : Action → Option PciemuDevice
  | .op (.read bar addr size) => (barRead dev bar addr size).map fun _ => dev
  | .op (.write bar addr val size) => barWrite bus dev bar addr val size
  | .op .reset => pciemuReset dev
  | .op (.setMode msix msi) => some { dev with msixEnabled := msix, msiEnabled := msi }
  | .op (.hostStore host) => some { dev with host := host }
  | .memRead addr size x stack => some { dev with fd := (pciemuMembarRead dev.fd x stack addr size).1 }
  | .memWrite addr val size x stack => some { dev with fd := pciemuMembarWrite dev.fd x stack addr val size }

def runToExit (bus : Bus) (dev : PciemuDevice) (as : List Action) : Option PciemuDevice :=
  (Runs.run (step bus) dev as).bind pciemuDeviceFini

end Pciemu.Frontend
