import Pciemu.Irq

namespace Pciemu.Device

open Bytes AuroraHw

def dmaBitMask (n : ℕ) : UInt64 :=
  if n = 64 then ~~~0 else (1 <<< UInt64.ofNat n) - 1

def auroraDmaValidAccess (addr : UInt64) : Bool :=
  regDmaCfgTxdescSrc ≤ addr && addr ≤ regDmaDoorbellRing

def auroraDmaAddrMask (m : Machine) (addr : UInt64) : Machine × UInt64 :=
  let masked := addr &&& m.dma.config.mask
  if masked ≠ addr then (m.emit (.guestError (.masked masked addr)), masked) else (m, masked)

def auroraDmaInsideDeviceBoundaries (addr : UInt64) : Bool :=
  dmaAreaStart ≤ addr && addr ≤ dmaAreaStart + dmaAreaSize

def dmaTransfer (call : UInt64 → UInt64 → UInt64 → Event)
    (access : Machine → UInt64 → UInt64 → UInt64 → Machine × ℕ) (report : ℕ → GuestError)
    (m : Machine) (addr ofs len : UInt64) : Machine :=
  let r := access (m.emit (call addr ofs len)) addr ofs len
  if r.2 ≠ 0 then r.1.emit (.guestError (report r.2)) else r.1

def auroraDmaExecute (bus : Bus) (m : Machine) : Machine :=
  let txdesc := m.dma.config.txdesc
  let cmd := m.dma.config.cmd
  if cmd ≠ dmaDirectionToDevice ∧ cmd ≠ dmaDirectionFromDevice then m
  else if cmd = dmaDirectionToDevice then
    if !auroraDmaInsideDeviceBoundaries txdesc.dst then m.emit (.guestError .dstOutOfBounds)
    else
      let src := auroraDmaAddrMask m txdesc.src
      let dst := txdesc.dst - dmaAreaStart
      let m := dmaTransfer .pciDmaRead bus.pciDmaRead .pciDmaRead src.1 src.2 dst txdesc.len
      pciemuIrqRaise m irqDmaEndedVector
  else
    if !auroraDmaInsideDeviceBoundaries txdesc.src then m.emit (.guestError .srcOutOfBounds)
    else
      let src := txdesc.src - dmaAreaStart
      let dst := auroraDmaAddrMask m txdesc.dst
      let m := dmaTransfer .pciDmaWrite bus.pciDmaWrite .pciDmaWrite dst.1 dst.2 src txdesc.len
      pciemuIrqRaise m irqDmaEndedVector

def configWhenIdle (f : DmaConfig → DmaConfig) (m : Machine) : Machine :=
  if m.dma.status = .idle then m.setConfig (f m.dma.config) else m

def auroraDmaConfigTxdescSrc (m : Machine) (src : UInt64) : Machine :=
  configWhenIdle (fun c => { c with txdesc := { c.txdesc with src := src } }) m

def auroraDmaConfigTxdescDst (m : Machine) (dst : UInt64) : Machine :=
  configWhenIdle (fun c => { c with txdesc := { c.txdesc with dst := dst } }) m

def auroraDmaConfigTxdescLen (m : Machine) (size : UInt64) : Machine :=
  configWhenIdle (fun c => { c with txdesc := { c.txdesc with len := size } }) m

def auroraDmaConfigCmd (m : Machine) (cmd : UInt64) : Machine :=
  configWhenIdle (fun c => { c with cmd := cmd }) m

def cmpxchgStatus (m : Machine) : DmaStatus × Machine :=
  (m.dma.status, if m.dma.status = .idle then m.setStatus .executing else m)

def auroraDmaDoorbellRing (bus : Bus) (m : Machine) : Machine :=
  let r := cmpxchgStatus m
  if r.1 = .executing then r.2
  else (auroraDmaExecute bus r.2).setStatus .idle

def auroraDmaRegWrite (bus : Bus) (m : Machine) (addr value : UInt64) : Machine × ℤ :=
  if !auroraDmaValidAccess addr then (m, -1)
  else
    (if addr = regDmaCfgTxdescSrc then auroraDmaConfigTxdescSrc m value
    else if addr = regDmaCfgTxdescDst then auroraDmaConfigTxdescDst m value
    else if addr = regDmaCfgTxdescLen then auroraDmaConfigTxdescLen m value
    else if addr = regDmaCfgCmd then auroraDmaConfigCmd m value
    else if addr = regDmaDoorbellRing then auroraDmaDoorbellRing bus m
    else m, 0)

def auroraDmaReset (m : Machine) : Machine :=
  { m with dma := {
      config := { m.dma.config with txdesc := ⟨0, 0, 0⟩, cmd := 0 }
      status := .idle
      buff := splice m.dma.buff 0 areaSize fun _ => 0 } }

def auroraDmaInit (m : Machine) : Machine :=
  let m := auroraDmaReset m
  m.setConfig { m.dma.config with mask := dmaBitMask dmaAddrCapability }

def auroraDmaFini (m : Machine) : Machine := (auroraDmaReset m).setStatus .off

end Pciemu.Device
