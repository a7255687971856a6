import Pciemu.Dma

namespace Pciemu.Device

open Bytes AuroraHw

def auroraRegbarValidAccess (addr : UInt64) : Bool := regbarStart ≤ addr && addr ≤ regbarEnd

def auroraWriteRegByAddr (bus : Bus) (m : Machine) (addr value : UInt64) : Machine × ℤ :=
  if !auroraRegbarValidAccess addr then (m, -1)
  else
    (if addr = reg0 then m.setReg 0 value
    else if addr = reg1 then m.setReg 1 value
    else if addr = reg2 then m.setReg 2 value
    else if addr = reg3 then m.setReg 3 value
    else if addr = regIrq0Raise then pciemuIrqRaise m 0
    else if addr = regIrq0Lower then pciemuIrqLower m 0
    else if regDmaCfgTxdescSrc ≤ addr ∧ addr ≤ regDmaDoorbellRing then
      (auroraDmaRegWrite bus m addr value).1
    else m, 0)

/-- The second component is `*value` afterwards, `value` being what it was before. -/
def auroraReadRegByAddr (m : Machine) (addr value : UInt64) : ℤ × UInt64 :=
  if !auroraRegbarValidAccess addr then (-1, 0xdeadbeef)
  else
    (0, if addr = reg0 then m.reg 0
    else if addr = reg1 then m.reg 1
    else if addr = reg2 then m.reg 2
    else if addr = reg3 then m.reg 3
    else value)

def auroraBackendReset (m : Machine) : Machine := auroraDmaReset m

/-- `raw` is what `malloc` returned, uninitialised. -/
def auroraBackendInit (m : Machine) (raw : DmaEngine) : Machine := auroraDmaInit { m with dma := raw }

def glueWriteRegByAddr (bus : Bus) (m : Machine) (addr value : UInt64) : Machine × ℤ :=
  auroraWriteRegByAddr bus m addr value

def glueReadRegByAddr (m : Machine) (addr value : UInt64) : ℤ × UInt64 :=
  auroraReadRegByAddr m addr value

def glueBackendReset (m : Machine) : Machine := auroraBackendReset m

def glueBackendInit (m : Machine) (raw : DmaEngine) : Machine := auroraBackendInit m raw

def pciemuRegbarRead (m : Machine) (addr : UInt64) (_size : ℕ) : UInt64 :=
  (glueReadRegByAddr m addr (~~~0)).2

def pciemuRegbarWrite (bus : Bus) (m : Machine) (addr val : UInt64) (_size : ℕ) : Machine :=
  (glueWriteRegByAddr bus m addr val).1

def pciemuInternalBarRead (m : Machine) (addr : UInt64) (_size : ℕ) : UInt64 :=
  (glueReadRegByAddr m addr (~~~0)).2

def pciemuInternalBarWrite (bus : Bus) (m : Machine) (addr val : UInt64) (_size : ℕ) : Machine :=
  (glueWriteRegByAddr bus m addr val).1

def pciemuReset (m : Machine) : Machine := glueBackendReset (pciemuIrqReset m)

def pciemuDeviceInit (raw : DmaEngine) (host : ℕ → UInt8) : Machine :=
  glueBackendInit ⟨false, false, fun _ => 0, raw, host, []⟩ raw

inductive Bar
  | reg
  | internal
  deriving DecidableEq

inductive Op
  | read (bar : Bar) (addr : UInt64) (size : ℕ)
  | write (bar : Bar) (addr val : UInt64) (size : ℕ)
  | reset
  | setMode (msix msi : Bool)
  | hostStore (host : ℕ → UInt8)

def barWrite (bus : Bus) (m : Machine) : Bar → UInt64 → UInt64 → ℕ → Machine
  | .reg => pciemuRegbarWrite bus m
  | .internal => pciemuInternalBarWrite bus m

def barRead (m : Machine) : Bar → UInt64 → ℕ → UInt64
  | .reg => pciemuRegbarRead m
  | .internal => pciemuInternalBarRead m

def apply (bus : Bus) (m : Machine) : Op → Machine
  | .read _ _ _ => m
  | .write bar addr val size => barWrite bus m bar addr val size
  | .reset => pciemuReset m
  | .setMode msix msi => { m with msixEnabled := msix, msiEnabled := msi }
  | .hostStore host => { m with host := host }

def Op.returned (m : Machine) : Op → Option UInt64
  | .read bar addr size => some (barRead m bar addr size)
  | _ => none

def run (bus : Bus) (m : Machine) (ops : List Op) : Machine := ops.foldl (apply bus) m

end Pciemu.Device
