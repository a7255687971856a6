import Pciemu.Aurora
import Pciemu.Runs

/-!
The kernel driver over the device. Any number of callers, named by `T`, are
inside `pciemu_ioctl` at the same time; each action is one atomic step of a
caller or of the interrupt handler. Calls are numbered as they come in, so that
the log can say which call did what.
-/

namespace Pciemu.Driver

open Device AuroraHw

def pageSize : ℕ := 4096

def pageMask : UInt64 := ~~~(4096 - 1)

def sizeofInt : ℕ := 4

def ioc (dir type nr size : UInt32) : UInt32 := dir <<< 30 ||| size <<< 16 ||| type <<< 8 ||| nr

def ioctlMagic : UInt32 := 0xE1

def ioctlDmaToDevice : UInt32 := ioc 1 ioctlMagic 1 8

def ioctlDmaFromDevice : UInt32 := ioc 2 ioctlMagic 2 8

def enotty : ℤ := 25

def enomem : ℤ := 12

def dmaMappingError : UInt64 := 0xffffffffffffffff

inductive DmaDataDirection
  | toDevice
  | fromDevice
  deriving DecidableEq

/-- What an interrupt was raised by: the doorbell of a call, or a process that mapped the BAR. -/
inductive Source
  | doorbell (call : ℕ)
  | mmap
  deriving DecidableEq

/-- `struct pciemu_dma`. The completion holds the interrupt that completed it, the mutex its owner. -/
structure PciemuDma (T : Type) where
  dmaHandle : UInt64
  offset : ℕ
  len : ℕ
  direction : DmaDataDirection
  page : ℕ
  completion : Option Source
  mtx : Option T

inductive Stage
  | user
  | getUserPages
  | readPage
  | lock
  | structInit
  | mapPage
  | iowrite (n : ℕ)
  | wait
  | unlock (ret : ℤ)
  | ret (code : ℤ)
  deriving DecidableEq

structure Thread where
  stage : Stage
  call : ℕ
  direction : DmaDataDirection
  ofs : ℕ
  len : ℕ
  page : ℕ

inductive HandlerStage
  | unmap
  | putPage
  | ack
  | complete
  deriving DecidableEq

inductive KernelEvent
  | getUserPagesFast (call : ℕ) (page : Option ℕ)
  | dmaMapPage (call page ofs len : ℕ) (direction : DmaDataDirection) (handle : Option UInt64)
  | transfer (source : Source) (busCall : Event)
  | irqHandler (source : Source)
  | dmaUnmapPage (handle : UInt64) (len : ℕ) (direction : DmaDataDirection)
  | putPage (source : Source) (page : ℕ)
  | waitForCompletion (call : ℕ) (source : Source)
  | returned (call : ℕ) (code : ℤ)
  deriving DecidableEq

structure System (T : Type) where
  calls : ℕ
  thread : T → Thread
  dma : PciemuDma T
  hw : Machine
  pending : List Source
  handler : Option (HandlerStage × Source)
  log : List KernelEvent

inductive Action (T : Type)
  | ioctl (t : T) (cmd : UInt32) (vaddr : UInt64)
  | getUserPagesFast (t : T) (page : Option ℕ)
  | dmaMapPage (t : T) (handle : Option UInt64)
  | advance (t : T)
  | irq
  | mmapRaise (val : UInt64)

section Step

variable {T : Type} [DecidableEq T]

@[simps]
def System.setThread (s : System T) (t : T) (th : Thread) : System T :=
  { s with thread := Function.update s.thread t th }

@[simps!]
def System.setStage (s : System T) (t : T) (stage : Stage) : System T :=
  s.setThread t { s.thread t with stage := stage }

@[simps]
def System.setDma (s : System T) (dma : PciemuDma T) : System T := { s with dma := dma }

@[simps]
def System.emit (s : System T) (e : KernelEvent) : System T := { s with log := s.log ++ [e] }

def pageOfs (vaddr : UInt64) : ℕ := (vaddr &&& ~~~pageMask).toNat

def transferLen (vaddr : UInt64) : ℕ :=
  if pageOfs vaddr + sizeofInt > pageSize then pageSize - pageOfs vaddr else sizeofInt

/-- The entry of `pciemu_ioctl`, up to the call of `get_user_pages_fast`. -/
def pciemuIoctl (call : ℕ) (cmd : UInt32) (vaddr : UInt64) : Thread :=
  let entered (stage : Stage) (direction : DmaDataDirection) : Thread :=
    ⟨stage, call, direction, pageOfs vaddr, transferLen vaddr, 0⟩
  if cmd = ioctlDmaToDevice then entered .getUserPages .toDevice
  else if cmd = ioctlDmaFromDevice then entered .getUserPages .fromDevice
  else entered (.ret (-enotty)) .toDevice

def pciemuDmaStructInit (dma : PciemuDma T) (ofs len : ℕ) (drctn : DmaDataDirection) : PciemuDma T :=
  { dma with offset := ofs, len := len, direction := drctn, completion := none }

def pciemuDmaFromHostToDevice (dma : PciemuDma T) : List (UInt64 × UInt32) :=
  [(regDmaCfgTxdescSrc, dma.dmaHandle.toUInt32), (regDmaCfgTxdescDst, dmaAreaStart.toUInt32),
    (regDmaCfgTxdescLen, UInt32.ofNat dma.len), (regDmaCfgCmd, dmaDirectionToDevice.toUInt32),
    (regDmaDoorbellRing, 1)]

def pciemuDmaFromDeviceToHost (dma : PciemuDma T) : List (UInt64 × UInt32) :=
  [(regDmaCfgTxdescSrc, dmaAreaStart.toUInt32), (regDmaCfgTxdescDst, dma.dmaHandle.toUInt32),
    (regDmaCfgTxdescLen, UInt32.ofNat dma.len), (regDmaCfgCmd, dmaDirectionFromDevice.toUInt32),
    (regDmaDoorbellRing, 1)]

def iowrites (dma : PciemuDma T) : DmaDataDirection → List (UInt64 × UInt32)
  | .toDevice => pciemuDmaFromHostToDevice dma
  | .fromDevice => pciemuDmaFromDeviceToHost dma

def System.iowrite32 (bus : Bus) (s : System T) (source : Source) (addr : UInt64) (val : UInt32) : System T :=
  let hw := pciemuRegbarWrite bus s.hw addr val.toUInt64 4
  { s with
    hw := hw
    pending := s.pending ++ List.replicate (notified hw.log - notified s.hw.log) source
    log := s.log ++ ((dmaCalls hw.log).drop (dmaCalls s.hw.log).length).map (.transfer source) }

def advance (bus : Bus) (s : System T) (t : T) : Option (System T) :=
  let th := s.thread t
  match th.stage with
  | .readPage => some (s.setThread t { th with stage := .lock, page := s.dma.page })
  | .lock =>
    if s.dma.mtx.isNone then some ((s.setDma { s.dma with mtx := some t }).setStage t .structInit) else none
  | .structInit =>
    some ((s.setDma (pciemuDmaStructInit s.dma th.ofs th.len th.direction)).setStage t .mapPage)
  | .iowrite n =>
    (iowrites s.dma th.direction)[n]?.map fun w =>
      (s.iowrite32 bus (.doorbell th.call) w.1 w.2).setStage t (if n < 4 then .iowrite (n + 1) else .wait)
  | .wait => s.dma.completion.map fun source =>
      (s.emit (.waitForCompletion th.call source)).setStage t (.unlock 0)
  -- the ioctl drops the return value of the two transfer functions
  | .unlock _ => some ((s.setDma { s.dma with mtx := none }).setStage t (.ret 0))
  | .ret code => some ((s.emit (.returned th.call code)).setStage t .user)
  | _ => none

def pciemuIrqHandler (bus : Bus) (s : System T) : Option (System T) :=
  match s.handler with
  | none => match s.pending with
    | [] => none
    | source :: rest =>
      some ({ s with pending := rest, handler := some (.unmap, source) }.emit (.irqHandler source))
  | some (.unmap, source) =>
    some ({ s with handler := some (.putPage, source) }.emit
      (.dmaUnmapPage s.dma.dmaHandle s.dma.len s.dma.direction))
  | some (.putPage, source) =>
    some ({ s with handler := some (.ack, source) }.emit (.putPage source s.dma.page))
  | some (.ack, source) =>
    some ({ s with handler := some (.complete, source) }.iowrite32 bus source irqDmaAckAddr 1)
  | some (.complete, source) =>
    some ({ s with handler := none }.setDma { s.dma with completion := some source })

def step (bus : Bus) (s : System T) : Action T → Option (System T)
  | .ioctl t cmd vaddr =>
    if (s.thread t).stage = .user then
      some ({ s with calls := s.calls + 1 }.setThread t (pciemuIoctl s.calls cmd vaddr))
    else none
  | .getUserPagesFast t page =>
    if (s.thread t).stage = .getUserPages then
      let s := s.emit (.getUserPagesFast (s.thread t).call page)
      match page with
      -- a page that could not be pinned is no error either
      | none => some (s.setStage t (.ret 0))
      | some p => some ((s.setDma { s.dma with page := p }).setStage t .readPage)
    else none
  | .dmaMapPage t handle =>
    if (s.thread t).stage = .mapPage then
      let s := s.emit (.dmaMapPage (s.thread t).call (s.thread t).page s.dma.offset s.dma.len s.dma.direction handle)
      match handle with
      -- the page stays pinned
      | none => some ((s.setDma { s.dma with dmaHandle := dmaMappingError }).setStage t (.unlock (-enomem)))
      | some h => some ((s.setDma { s.dma with dmaHandle := h }).setStage t (.iowrite 0))
    else none
  | .advance t => advance bus s t
  | .irq => pciemuIrqHandler bus s
  | .mmapRaise val =>
    let hw := pciemuRegbarWrite bus s.hw regIrq0Raise val 8
    some { s with
      hw := hw
      pending := s.pending ++ List.replicate (notified hw.log - notified s.hw.log) .mmap }

end Step

end Pciemu.Driver
