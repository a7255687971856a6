import Pciemu.AuroraHw
import Pciemu.Bytes

/-!
State of the emulated device. `DmaEngine.buff` holds the bytes of the
`AURORADevice` object from `dma->buff` on, whatever lies behind the array
included: the array is the first `dmaAreaSize` of them, and with the x86-64
layout of the structures the scratch registers start at `regsOfs`. Likewise
`Machine.irq` holds the bytes of the union `IRQStatus.status`.
-/

namespace Pciemu.Device

open Bytes AuroraHw

structure DmaTransferDesc where
  src : UInt64
  dst : UInt64
  len : UInt64
  deriving DecidableEq

structure DmaConfig where
  txdesc : DmaTransferDesc
  cmd : UInt64
  mask : UInt64
  deriving DecidableEq

inductive DmaStatus
  | idle
  | executing
  | off
  deriving DecidableEq

structure DmaEngine where
  config : DmaConfig
  status : DmaStatus
  buff : ℕ → UInt8

inductive GuestError
  | masked (masked addr : UInt64)
  | dstOutOfBounds
  | srcOutOfBounds
  | pciDmaRead (err : ℕ)
  | pciDmaWrite (err : ℕ)
  deriving DecidableEq

inductive Event
  | pciDmaRead (addr ofs len : UInt64)
  | pciDmaWrite (addr ofs len : UInt64)
  | msixNotify (vector : ℕ)
  | msiNotify (vector : ℕ)
  | pciSetIrq (level : ℕ)
  | guestError (e : GuestError)
  deriving DecidableEq

structure Machine where
  msixEnabled : Bool
  msiEnabled : Bool
  irq : ℕ → UInt8
  dma : DmaEngine
  host : ℕ → UInt8
  log : List Event

/-- `pci_dma_read` and `pci_dma_write`: bus address, index into `dma->buff` and length;
the second component is the result code, zero for success. -/
@[ext]
structure Bus where
  pciDmaRead : Machine → UInt64 → UInt64 → UInt64 → Machine × ℕ
  pciDmaWrite : Machine → UInt64 → UInt64 → UInt64 → Machine × ℕ

@[simps]
def Machine.emit (m : Machine) (e : Event) : Machine := { m with log := m.log ++ [e] }

@[simps]
def Machine.setStatus (m : Machine) (s : DmaStatus) : Machine :=
  { m with dma := { m.dma with status := s } }

@[simps]
def Machine.setConfig (m : Machine) (c : DmaConfig) : Machine :=
  { m with dma := { m.dma with config := c } }

@[simps]
def Machine.setBuff (m : Machine) (b : ℕ → UInt8) : Machine :=
  { m with dma := { m.dma with buff := b } }

def areaSize : ℕ := dmaAreaSize.toNat

def regsOfs : ℕ := areaSize + 4

def Machine.reg (m : Machine) (i : ℕ) : UInt64 := wordAt m.dma.buff (regsOfs + 8 * i)

def Machine.setReg (m : Machine) (i : ℕ) (v : UInt64) : Machine :=
  m.setBuff (storeWord m.dma.buff (regsOfs + 8 * i) v)

def dmaCalls (log : List Event) : List Event :=
  log.filter fun e => match e with
    | .pciDmaRead .. | .pciDmaWrite .. => true
    | _ => false

def raises (log : List Event) : ℕ :=
  log.countP fun e => match e with
    | .msixNotify v | .msiNotify v => v = irqDmaEndedVector
    | .pciSetIrq level => level = 1
    | _ => false

@[simp] theorem dmaCalls_append (l l' : List Event) :
    dmaCalls (l ++ l') = dmaCalls l ++ dmaCalls l' := List.filter_append ..

@[simp] theorem raises_append (l l' : List Event) : raises (l ++ l') = raises l + raises l' :=
  List.countP_append

end Pciemu.Device
