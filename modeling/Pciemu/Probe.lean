import Mathlib.Data.Int.Bitwise
import Pciemu.Driver
import Pciemu.Programs

/-!
`pciemu_probe` and `pciemu_remove`. Pointers are integers, `NULL` being zero; the
kernel calls that return nothing are answered all the same. `struct pciemu_dev`
comes from `kmalloc`, so its fields hold anything before they are stored to.
-/

namespace Pciemu.Driver

open Programs AuroraHw

def enospc : ℤ := 28

def einval : ℤ := 22

inductive Field
  | regbarMmio
  | membarMmio
  | internalBarMmio
  | irqNum
  | mmioAckIrq
  deriving DecidableEq

inductive Capability
  | msi
  | msix
  deriving DecidableEq

/-- The calls of the two functions and of those they call; `load` and `store` are the accesses to the
structure, and `fallOff` is answered by what a function returns that ends without `return`. -/
inductive KernelCall
  | kmalloc
  | kfree
  | pciEnableDevice
  | pciDisableDevice
  | dmaSetMaskAndCoherent
  | pciSetMaster
  | pciClearMaster
  | pciSelectBars
  | pciRequestSelectedRegions (bars : ℤ)
  | pciReleaseSelectedRegions (bars : ℤ)
  | pciIomap (bar : ℕ)
  | pciIounmap (mmio : ℤ)
  | allocChrdevRegion
  | unregisterChrdevRegion
  | cdevAdd
  | cdevDel
  | deviceCreate
  | deviceDestroy
  | pciFindCapability (cap : Capability)
  | vecCount (cap : Capability)
  | numOnlineCpus
  | pciAllocIrqVectors (n : ℤ) (cap : Capability)
  | pciFreeIrqVectors
  | pciIrqVector
  | requestIrq (irq : ℤ)
  | freeIrq (irq : ℤ)
  | mutexInit
  | load (f : Field)
  | store (f : Field) (v : ℤ)
  | fallOff
  deriving DecidableEq

abbrev Code (α : Type) := Prog KernelCall ℤ α

def unmapBar (f : Field) : Code Unit := do
  let mmio ← request (.load f)
  if mmio ≠ 0 then do
    let _ ← request (.pciIounmap mmio)
  else pure ()

def pciemuDevClean : Code Unit := do
  unmapBar .regbarMmio
  unmapBar .membarMmio
  unmapBar .internalBarMmio

def mapBar (f : Field) (bar : ℕ) (next : Code ℤ) : Code ℤ := do
  let mmio ← request (.pciIomap bar)
  let _ ← request (.store f mmio)
  if mmio = 0 then do
    pciemuDevClean
    return -enomem
  else next

def pciemuDevInit : Code ℤ :=
  mapBar .regbarMmio regBar (mapBar .membarMmio memBar (mapBar .internalBarMmio intBar (pure 0)))

def irqRequest : Code ℤ := do
  let irq ← request .pciIrqVector
  let _ ← request (.store .irqNum irq)
  if irq < 0 then do
    let _ ← request .pciFreeIrqVectors
    return -einval
  else do
    let err ← request (.requestIrq irq)
    if err ≠ 0 then do
      let _ ← request .pciFreeIrqVectors
      return err
    else do
      let mmio ← request (.load .regbarMmio)
      let _ ← request (.store .mmioAckIrq (mmio + irqDmaAckAddr.toNat))
      return 0

def irqEnable (cap : Capability) : Code ℤ := do
  let count ← request (.vecCount cap)
  let cpus ← request .numOnlineCpus
  let vecsReq := min count (cpus + 1)
  let vecs ← request (.pciAllocIrqVectors vecsReq cap)
  if vecs < 0 then return -enospc
  else if vecs ≠ vecsReq then do
    let _ ← request .pciFreeIrqVectors
    return -enospc
  else irqRequest

def pciemuIrqEnableMsi : Code ℤ := irqEnable .msi

def pciemuIrqEnableMsix : Code ℤ := irqEnable .msix

def pciemuIrqEnable : Code ℤ := do
  let msix ← request (.pciFindCapability .msix)
  if msix ≠ 0 then pciemuIrqEnableMsix
  else do
    let msi ← request (.pciFindCapability .msi)
    if msi ≠ 0 then pciemuIrqEnableMsi
    -- no return statement here
    else request .fallOff

-- the labels of `pciemu_probe`, each falling through to the next

def errPciEnable (err : ℤ) : Code ℤ := do
  let _ ← request .kfree
  return err

def errDmaSetMask (err : ℤ) : Code ℤ := do
  let _ ← request .pciDisableDevice
  errPciEnable err

def errSelectRegion (err : ℤ) : Code ℤ := do
  let _ ← request .pciClearMaster
  errDmaSetMask err

def errDevInit (err : ℤ) : Code ℤ := do
  let bars ← request .pciSelectBars
  let _ ← request (.pciReleaseSelectedRegions bars)
  errSelectRegion err

def errAllocChrdev (err : ℤ) : Code ℤ := do
  pciemuDevClean
  errDevInit err

def errCdevAdd (err : ℤ) : Code ℤ := do
  let _ ← request .unregisterChrdevRegion
  errAllocChrdev err

def errDeviceCreate (err : ℤ) : Code ℤ := do
  let _ ← request .cdevDel
  errCdevAdd err

def errIrqEnable (err : ℤ) : Code ℤ := do
  let _ ← request .deviceDestroy
  errDeviceCreate err

-- the body of `pciemu_probe` from each of its checked calls on

def probeIrqEnable : Code ℤ := do
  let err ← pciemuIrqEnable
  if err ≠ 0 then errIrqEnable err
  else do
    let _ ← request .mutexInit
    return 0

def probeDeviceCreate : Code ℤ := do
  let err ← request .deviceCreate
  if err ≠ 0 then errDeviceCreate err else probeIrqEnable

def probeCdevAdd : Code ℤ := do
  let err ← request .cdevAdd
  if err ≠ 0 then errCdevAdd err else probeDeviceCreate

def probeAllocChrdev : Code ℤ := do
  let err ← request .allocChrdevRegion
  if err ≠ 0 then errAllocChrdev err else probeCdevAdd

def probeDevInit : Code ℤ := do
  let err ← pciemuDevInit
  if err ≠ 0 then errDevInit err else probeAllocChrdev

def probeRequestRegions (memBars : ℤ) : Code ℤ := do
  let err ← request (.pciRequestSelectedRegions memBars)
  if err ≠ 0 then errSelectRegion err else probeDevInit

/-- `err` is what the last checked call returned. -/
def probeSelectBars (err : ℤ) : Code ℤ := do
  let _ ← request .pciSetMaster
  let memBars ← request .pciSelectBars
  if ¬memBars.testBit regBar then errSelectRegion err else probeRequestRegions memBars

def probeDmaSetMask : Code ℤ := do
  let err ← request .dmaSetMaskAndCoherent
  if err ≠ 0 then errDmaSetMask err else probeSelectBars err

def probeEnableDevice : Code ℤ := do
  let err ← request .pciEnableDevice
  if err ≠ 0 then errPciEnable err else probeDmaSetMask

def pciemuProbe : Code ℤ := do
  let pciemuDev ← request .kmalloc
  if pciemuDev = 0 then return -enomem else probeEnableDevice

def removeClearMaster : Code Unit := do
  let _ ← request .pciClearMaster
  let irq ← request (.load .irqNum)
  let _ ← request (.freeIrq irq)
  let _ ← request .pciFreeIrqVectors
  let bars ← request .pciSelectBars
  let _ ← request (.pciReleaseSelectedRegions bars)
  let _ ← request .pciDisableDevice
  let _ ← request .kfree

def pciemuRemove : Code Unit := do
  let _ ← request .deviceDestroy
  let _ ← request .cdevDel
  let _ ← request .unregisterChrdevRegion
  pciemuDevClean
  removeClearMaster

inductive Resource
  | pciemuDev
  | device
  | master
  | regions (bars : ℤ)
  | mapping (mmio : ℤ)
  | chrdev
  | cdev
  | node
  | vectors
  | handler (irq : ℤ)
  deriving DecidableEq

inductive Effect
  | acquire (r : Resource)
  | release (r : Resource)
  | neither

def KernelCall.effect (z : ℤ) : KernelCall → Effect
  | .kmalloc => if z ≠ 0 then .acquire .pciemuDev else .neither
  | .kfree => .release .pciemuDev
  | .pciEnableDevice => if z = 0 then .acquire .device else .neither
  | .pciDisableDevice => .release .device
  | .pciSetMaster => .acquire .master
  | .pciClearMaster => .release .master
  | .pciRequestSelectedRegions bars => if z = 0 then .acquire (.regions bars) else .neither
  | .pciReleaseSelectedRegions bars => .release (.regions bars)
  | .pciIomap _ => if z ≠ 0 then .acquire (.mapping z) else .neither
  | .pciIounmap mmio => .release (.mapping mmio)
  | .allocChrdevRegion => if z = 0 then .acquire .chrdev else .neither
  | .unregisterChrdevRegion => .release .chrdev
  | .cdevAdd => if z = 0 then .acquire .cdev else .neither
  | .cdevDel => .release .cdev
  | .deviceCreate => if z = 0 then .acquire .node else .neither
  | .deviceDestroy => .release .node
  | .pciAllocIrqVectors _ _ => if 0 ≤ z then .acquire .vectors else .neither
  | .pciFreeIrqVectors => .release .vectors
  | .requestIrq irq => if z = 0 then .acquire (.handler irq) else .neither
  | .freeIrq irq => .release (.handler irq)
  | _ => .neither

def Effect.apply (held : Option (Multiset Resource)) : Effect → Option (Multiset Resource)
  | .acquire r => held.map (r ::ₘ ·)
  | .release r => held.bind fun h => if r ∈ h then some (h.erase r) else none
  | .neither => held

structure Life where
  dev : Field → ℤ
  log : List (KernelCall × ℤ)

def KernelCall.stored (dev : Field → ℤ) : KernelCall → Field → ℤ
  | .store f v => Function.update dev f v
  | _ => dev

def Life.after (s : Life) (c : KernelCall) (z : ℤ) : Life := ⟨c.stored s.dev, s.log ++ [(c, z)]⟩

def Life.answer (kernel : KernelCall → ℤ) (s : Life) : KernelCall → ℤ
  | .load f => s.dev f
  | c => kernel c

def Life.held (s : Life) : Option (Multiset Resource) :=
  s.log.foldl (fun held call => (call.1.effect call.2).apply held) (some 0)

theorem Life.held_after (s : Life) (c : KernelCall) (z : ℤ) :
    (s.after c z).held = (c.effect z).apply s.held := by
  rw [held, after, List.foldl_append]
  rfl

theorem Life.held_acquire {s : Life} {c : KernelCall} {z : ℤ} {r : Resource} {h : Multiset Resource}
    (hs : s.held = some h) (he : c.effect z = .acquire r) : (s.after c z).held = some (r ::ₘ h) := by
  rw [held_after, he, hs]
  rfl

theorem Life.held_release {s : Life} {c : KernelCall} {z : ℤ} {r : Resource} {h : Multiset Resource}
    (hs : s.held = some (r ::ₘ h)) (he : c.effect z = .release r) : (s.after c z).held = some h := by
  rw [held_after, he, hs, Effect.apply, Option.bind_some, if_pos (Multiset.mem_cons_self r h), Multiset.erase_cons_head]

theorem Life.held_neither {s : Life} {c : KernelCall} {z : ℤ} (he : c.effect z = .neither) :
    (s.after c z).held = s.held := by
  rw [held_after, he]
  rfl

theorem Life.held_wild {s : Life} {c : KernelCall} {z : ℤ} {r : Resource} {h : Multiset Resource}
    (hs : s.held = some h) (hr : r ∉ h) (he : c.effect z = .release r) : (s.after c z).held = none := by
  rw [held_after, he, hs, Effect.apply, Option.bind_some, if_neg hr]

theorem Life.held_none {s : Life} (hs : s.held = none) (c : KernelCall) (z : ℤ) : (s.after c z).held = none := by
  rw [held_after, hs]
  cases c.effect z <;> rfl

section Undoing

def KernelCall.undoes : KernelCall → Bool
  | .kfree | .pciDisableDevice | .pciClearMaster | .pciSelectBars | .pciReleaseSelectedRegions _ | .pciIounmap _
  | .unregisterChrdevRegion | .cdevDel | .deviceDestroy | .pciFreeIrqVectors | .freeIrq _ | .load _ => true
  | _ => false

abbrev Undoes {α : Type} (R : α → Prop) (p : Code α) : Prop :=
  p.Within (fun _ _ => True) (fun c => c.undoes) R

theorem unmapBar_undoes (f : Field) : Undoes (fun _ => True) (unmapBar f) := by
  refine ⟨rfl, fun mmio _ => ?_⟩
  change Undoes _ (if mmio ≠ 0 then do
    let _ ← request (.pciIounmap mmio)
    else pure ())
  split_ifs
  · exact ⟨rfl, fun _ _ => trivial⟩
  · trivial

theorem devClean_undoes {α : Type} {R : α → Prop} {next : Code α} (h : Undoes R next) :
    Undoes R (pciemuDevClean >>= fun _ => next) := by
  have hunmap (f : Field) {β : Type} {Q : β → Prop} {rest : Code β} (hrest : Undoes Q rest) :
      Undoes Q (unmapBar f >>= fun _ => rest) :=
    .bind ((unmapBar_undoes f).mono (fun _ _ h => h) (fun _ h => h) fun _ _ => hrest)
  have hclean : Undoes (fun _ => True) pciemuDevClean := hunmap _ (hunmap _ (unmapBar_undoes _))
  exact .bind (hclean.mono (fun _ _ h => h) (fun _ h => h) fun _ _ => h)

variable (err : ℤ)

theorem errPciEnable_undoes : Undoes (· = err) (errPciEnable err) := ⟨rfl, fun _ _ => rfl⟩

theorem errDmaSetMask_undoes : Undoes (· = err) (errDmaSetMask err) := ⟨rfl, fun _ _ => errPciEnable_undoes err⟩

theorem errSelectRegion_undoes : Undoes (· = err) (errSelectRegion err) := ⟨rfl, fun _ _ => errDmaSetMask_undoes err⟩

theorem errDevInit_undoes : Undoes (· = err) (errDevInit err) :=
  ⟨rfl, fun _ _ => ⟨rfl, fun _ _ => errSelectRegion_undoes err⟩⟩

theorem errAllocChrdev_undoes : Undoes (· = err) (errAllocChrdev err) := devClean_undoes (errDevInit_undoes err)

theorem errCdevAdd_undoes : Undoes (· = err) (errCdevAdd err) := ⟨rfl, fun _ _ => errAllocChrdev_undoes err⟩

theorem errDeviceCreate_undoes : Undoes (· = err) (errDeviceCreate err) := ⟨rfl, fun _ _ => errCdevAdd_undoes err⟩

theorem errIrqEnable_undoes : Undoes (· = err) (errIrqEnable err) := ⟨rfl, fun _ _ => errDeviceCreate_undoes err⟩

theorem removeClearMaster_undoes : Undoes (fun _ => True) removeClearMaster :=
  ⟨rfl, fun _ _ => ⟨rfl, fun _ _ => ⟨rfl, fun _ _ => ⟨rfl, fun _ _ => ⟨rfl, fun _ _ => ⟨rfl, fun _ _ =>
    ⟨rfl, fun _ _ => ⟨rfl, fun _ _ => trivial⟩⟩⟩⟩⟩⟩⟩⟩

theorem remove_undoes : Undoes (fun _ => True) pciemuRemove :=
  ⟨rfl, fun _ _ => ⟨rfl, fun _ _ => ⟨rfl, fun _ _ => devClean_undoes removeClearMaster_undoes⟩⟩⟩

end Undoing

end Pciemu.Driver
