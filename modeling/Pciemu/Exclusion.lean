import Pciemu.Boundaries
import Pciemu.Driver

/-!
What holds of every run of the driver, whatever the outcomes and whoever raises
interrupts: the caller that owns the mutex finds in `struct pciemu_dma` and in
the device what it put there itself.
-/

namespace Pciemu.Driver

open Device AuroraHw Runs

section Moves

variable {T : Type}

/-- What a caller does to its thread and to `struct pciemu_dma`. It makes the call and writes to the
registers besides. -/
inductive Turn (dma : PciemuDma T) (t : T) (th : Thread) :
    Action T → Thread → PciemuDma T → List KernelEvent → Prop
  | pinFailed (h : th.stage = .getUserPages) :
      Turn dma t th (.getUserPagesFast t none) { th with stage := .ret 0 } dma [.getUserPagesFast th.call none]
  | pinned (p : ℕ) (h : th.stage = .getUserPages) :
      Turn dma t th (.getUserPagesFast t (some p)) { th with stage := .readPage } { dma with page := p }
        [.getUserPagesFast th.call (some p)]
  | readPage (h : th.stage = .readPage) :
      Turn dma t th (.advance t) { th with stage := .lock, page := dma.page } dma []
  | lock (h : th.stage = .lock) (hfree : dma.mtx = none) :
      Turn dma t th (.advance t) { th with stage := .structInit } { dma with mtx := some t } []
  | structInit (h : th.stage = .structInit) :
      Turn dma t th (.advance t) { th with stage := .mapPage }
        (pciemuDmaStructInit dma th.ofs th.len th.direction) []
  | mapFailed (h : th.stage = .mapPage) :
      Turn dma t th (.dmaMapPage t none) { th with stage := .unlock (-enomem) }
        { dma with dmaHandle := dmaMappingError }
        [.dmaMapPage th.call th.page dma.offset dma.len dma.direction none]
  | mapped (a : UInt64) (h : th.stage = .mapPage) :
      Turn dma t th (.dmaMapPage t (some a)) { th with stage := .iowrite 0 } { dma with dmaHandle := a }
        [.dmaMapPage th.call th.page dma.offset dma.len dma.direction (some a)]
  | wait (source : Source) (h : th.stage = .wait) (hc : dma.completion = some source) :
      Turn dma t th (.advance t) { th with stage := .unlock 0 } dma [.waitForCompletion th.call source]
  | unlock (r : ℤ) (h : th.stage = .unlock r) :
      Turn dma t th (.advance t) { th with stage := .ret 0 } { dma with mtx := none } []
  | ret (code : ℤ) (h : th.stage = .ret code) :
      Turn dma t th (.advance t) { th with stage := .user } dma [.returned th.call code]

variable (bus : Bus) (s : System T)

inductive Irq : System T → Prop
  | enter (source : Source) (rest : List Source) (h : s.handler = none) (hp : s.pending = source :: rest) :
      Irq ({ s with pending := rest, handler := some (.unmap, source) }.emit (.irqHandler source))
  | unmap (source : Source) (h : s.handler = some (.unmap, source)) :
      Irq ({ s with handler := some (.putPage, source) }.emit
        (.dmaUnmapPage s.dma.dmaHandle s.dma.len s.dma.direction))
  | putPage (source : Source) (h : s.handler = some (.putPage, source)) :
      Irq ({ s with handler := some (.ack, source) }.emit (.putPage source s.dma.page))
  | ack (source : Source) (h : s.handler = some (.ack, source)) :
      Irq ({ s with handler := some (.complete, source) }.iowrite32 bus source irqDmaAckAddr 1)
  | complete (source : Source) (h : s.handler = some (.complete, source)) :
      Irq ({ s with handler := none }.setDma { s.dma with completion := some source })

variable {s}

theorem irqHandler_move {s' : System T} (h : pciemuIrqHandler bus s = some s') : Irq bus s s' := by
  unfold pciemuIrqHandler at h
  cases hh : s.handler with
  | none =>
    cases hp : s.pending with
    | nil => simp [hh, hp] at h
    | cons source rest =>
      simp only [hh, hp] at h
      exact Option.some.inj h ▸ .enter source rest hh hp
  | some r =>
    obtain ⟨stage, source⟩ := r
    cases stage with
    | unmap =>
      rw [hh] at h
      exact Option.some.inj h ▸ .unmap source hh
    | putPage =>
      rw [hh] at h
      exact Option.some.inj h ▸ .putPage source hh
    | ack =>
      rw [hh] at h
      exact Option.some.inj h ▸ .ack source hh
    | complete =>
      rw [hh] at h
      exact Option.some.inj h ▸ .complete source hh

variable [DecidableEq T]

@[simps]
def System.turn (s : System T) (t : T) (th : Thread) (dma : PciemuDma T) (es : List KernelEvent) : System T :=
  { s with thread := Function.update s.thread t th, dma := dma, log := s.log ++ es }

variable (s)

/-- All that a step can do, with the conditions under which it does it. -/
inductive Move : Action T → System T → Prop
  | ioctl (t : T) (cmd : UInt32) (vaddr : UInt64) (h : (s.thread t).stage = .user) :
      Move (.ioctl t cmd vaddr)
        ({ s with calls := s.calls + 1 }.setThread t (pciemuIoctl s.calls cmd vaddr))
  | turn (t : T) {a : Action T} {th : Thread} {dma : PciemuDma T} {es : List KernelEvent}
      (h : Turn s.dma t (s.thread t) a th dma es) : Move a (s.turn t th dma es)
  | iowrite (t : T) (n : ℕ) (w : UInt64 × UInt32) (h : (s.thread t).stage = .iowrite n)
      (hw : (iowrites s.dma (s.thread t).direction)[n]? = some w) :
      Move (.advance t) ((s.iowrite32 bus (.doorbell (s.thread t).call) w.1 w.2).setStage t
        (if n < 4 then .iowrite (n + 1) else .wait))
  | irq {s' : System T} (h : Irq bus s s') : Move .irq s'
  | mmapRaise (val : UInt64) : Move (.mmapRaise val)
      { s with
        hw := pciemuRegbarWrite bus s.hw regIrq0Raise val 8
        pending := s.pending ++ List.replicate
          (notified (pciemuRegbarWrite bus s.hw regIrq0Raise val 8).log - notified s.hw.log) .mmap }

variable {s}

theorem silent_turn (s : System T) (t : T) (th : Thread) (dma : PciemuDma T) :
    s.turn t th dma [] = (s.setDma dma).setThread t th := by
  rw [System.turn, List.append_nil]
  rfl

theorem silentMove {t : T} {a : Action T} {th : Thread} {dma : PciemuDma T}
    (h : Turn s.dma t (s.thread t) a th dma []) : Move bus s a ((s.setDma dma).setThread t th) :=
  silent_turn s t th dma ▸ .turn t h

theorem advance_move (t : T) {s' : System T} (h : advance bus s t = some s') : Move bus s (.advance t) s' := by
  unfold advance at h
  dsimp only at h
  cases hs : (s.thread t).stage with
  | readPage =>
    rw [hs] at h
    exact Option.some.inj h ▸ silentMove bus (.readPage hs)
  | lock =>
    simp only [hs, Option.isNone_iff_eq_none, Option.ite_none_right_eq_some] at h
    exact Option.some.inj h.2 ▸ silentMove bus (.lock hs h.1)
  | structInit =>
    rw [hs] at h
    exact Option.some.inj h ▸ silentMove bus (.structInit hs)
  | iowrite n =>
    simp only [hs, Option.map_eq_some_iff] at h
    obtain ⟨w, hw, rfl⟩ := h
    exact .iowrite t n w hs hw
  | wait =>
    simp only [hs, Option.map_eq_some_iff] at h
    obtain ⟨source, hc, rfl⟩ := h
    exact .turn t (.wait source hs hc)
  | unlock r =>
    rw [hs] at h
    exact Option.some.inj h ▸ silentMove bus (.unlock r hs)
  | ret code =>
    rw [hs] at h
    exact Option.some.inj h ▸ .turn t (.ret code hs)
  | user => simp [hs] at h
  | getUserPages => simp [hs] at h
  | mapPage => simp [hs] at h

theorem step_move (s : System T) {a : Action T} {s' : System T} (h : step bus s a = some s') : Move bus s a s' := by
  cases a with
  | ioctl t cmd vaddr =>
    obtain ⟨hs, he⟩ := Option.ite_none_right_eq_some.mp h
    exact Option.some.inj he ▸ .ioctl t cmd vaddr hs
  | getUserPagesFast t page =>
    obtain ⟨hs, he⟩ := Option.ite_none_right_eq_some.mp h
    cases page with
    | none => exact Option.some.inj he ▸ .turn t (.pinFailed hs)
    | some p => exact Option.some.inj he ▸ .turn t (.pinned p hs)
  | dmaMapPage t handle =>
    obtain ⟨hs, he⟩ := Option.ite_none_right_eq_some.mp h
    cases handle with
    | none => exact Option.some.inj he ▸ .turn t (.mapFailed hs)
    | some a => exact Option.some.inj he ▸ .turn t (.mapped a hs)
  | advance t => exact advance_move bus t h
  | irq => exact .irq (irqHandler_move bus h)
  | mmapRaise val => exact Option.some.inj h ▸ .mmapRaise val

theorem turn_step {t : T} {a : Action T} {th : Thread} {dma : PciemuDma T} {es : List KernelEvent}
    (h : Turn s.dma t (s.thread t) a th dma es) : step bus s a = some (s.turn t th dma es) := by
  cases h with
  | pinFailed hs => exact if_pos hs
  | pinned p hs => exact if_pos hs
  | readPage hs =>
    simp only [step, advance, hs, silent_turn]
    rfl
  | lock hs hfree =>
    simp only [step, advance, hs, hfree, Option.isNone_none, if_true, silent_turn]
    rfl
  | structInit hs =>
    simp only [step, advance, hs, silent_turn]
    rfl
  | mapFailed hs => exact if_pos hs
  | mapped a hs => exact if_pos hs
  | wait source hs hc =>
    simp only [step, advance, hs, hc, Option.map_some]
    rfl
  | unlock r hs =>
    simp only [step, advance, hs, silent_turn]
    rfl
  | ret code hs =>
    simp only [step, advance, hs]
    rfl

theorem move_step (s : System T) {a : Action T} {s' : System T} (h : Move bus s a s') : step bus s a = some s' := by
  cases h with
  | ioctl t cmd vaddr hs => exact if_pos hs
  | turn t h => exact turn_step bus h
  | iowrite t n w hs hw => simp only [step, advance, hs, hw, Option.map_some]
  | irq h =>
    cases h with
    | enter source rest hs hp => simp only [step, pciemuIrqHandler, hs, hp]
    | unmap source hs => simp only [step, pciemuIrqHandler, hs]
    | putPage source hs => simp only [step, pciemuIrqHandler, hs]
    | ack source hs => simp only [step, pciemuIrqHandler, hs]
    | complete source hs => simp only [step, pciemuIrqHandler, hs]
  | mmapRaise val => rfl

end Moves

def Stage.locked : Stage → Bool
  | .structInit | .mapPage | .iowrite _ | .wait | .unlock _ => true
  | _ => false

section Turns

variable {T : Type} {dma dma' : PciemuDma T} {t : T} {th th' : Thread} {a : Action T} {es : List KernelEvent}
  (h : Turn dma t th a th' dma' es)

include h

theorem Turn.inside : th.stage ≠ .user := by
  cases h <;> simp_all

theorem Turn.kept : th' = { th with stage := th'.stage, page := th'.page } := by
  cases h <;> rfl

theorem Turn.call : th'.call = th.call := by
  rw [h.kept]

theorem Turn.page : dma'.page = dma.page ∨ ∃ p, a = .getUserPagesFast t (some p) ∧ dma'.page = p := by
  cases h with
  | pinned p hs => exact .inr ⟨p, rfl, rfl⟩
  | _ => exact .inl rfl

-- outside the mutex a caller stores nothing but the page and the owner of the mutex
theorem Turn.unlocked (hl : th.stage.locked = false) :
    dma' = { dma with page := dma'.page } ∨ dma.mtx = none ∧ dma' = { dma with mtx := some t } := by
  cases h with
  | pinFailed hs => exact .inl rfl
  | pinned p hs => exact .inl rfl
  | readPage hs => exact .inl rfl
  | ret code hs => exact .inl rfl
  | lock hs hfree => exact .inr ⟨hfree, rfl⟩
  | _ => simp_all [Stage.locked]

theorem Turn.mapping : th.stage.locked ∨ dma'.dmaHandle = dma.dmaHandle ∧ dma'.len = dma.len := by
  cases hl : th.stage.locked with
  | true => exact .inl rfl
  | false =>
    obtain he | ⟨-, he⟩ := h.unlocked hl
    · rw [he]
      exact .inr ⟨rfl, rfl⟩
    · rw [he]
      exact .inr ⟨rfl, rfl⟩

theorem Turn.holds (hl : th.stage.locked) : dma'.mtx = dma.mtx ∨ dma'.mtx = none := by
  cases h with
  | unlock r hs => exact .inr rfl
  | lock hs hfree => simp_all [Stage.locked]
  | _ => exact .inl rfl

end Turns

structure Ready (m : Machine) : Prop where
  idle : m.dma.status = .idle
  mask : m.dma.config.mask = dmaBitMask dmaAddrCapability
  mode : m.msixEnabled ∨ m.msiEnabled

theorem Ready.of_reentered {m m' : Machine} {cs : List Event} {n : ℕ} (hm : Ready m)
    (h : Reentered m cs n m') : Ready m' where
  idle := h.status.trans hm.idle
  mask := h.config ▸ hm.mask
  mode := by
    rw [h.msix, h.msi]
    exact hm.mode

def latch (c : DmaConfig) (val : UInt64) : Reg → DmaConfig
  | .src => { c with txdesc := { c.txdesc with src := val } }
  | .dst => { c with txdesc := { c.txdesc with dst := val } }
  | .len => { c with txdesc := { c.txdesc with len := val } }
  | .cmd => { c with cmd := val }
  | _ => c

def Reg.isConfig (r : Reg) : Bool := r = .src ∨ r = .dst ∨ r = .len ∨ r = .cmd

theorem writeReg_latch (bus : Bus) (m : Machine) (hi : m.dma.status = .idle) (val : UInt64) (r : Reg)
    (hr : Reg.isConfig r) : writeReg bus m val r = m.setConfig (latch m.dma.config val r) := by
  have hcfg (f : DmaConfig → DmaConfig) : configWhenIdle f m = m.setConfig (f m.dma.config) := by
    rw [configWhenIdle, if_pos hi]
  cases r with
  | src => exact hcfg fun c => { c with txdesc := { c.txdesc with src := val } }
  | dst => exact hcfg fun c => { c with txdesc := { c.txdesc with dst := val } }
  | len => exact hcfg fun c => { c with txdesc := { c.txdesc with len := val } }
  | cmd => exact hcfg fun c => { c with cmd := val }
  | _ => exact absurd hr (by simp [Reg.isConfig])

theorem Ready.latch {m : Machine} (h : Ready m) (val : UInt64) (r : Reg) :
    Ready (m.setConfig (Driver.latch m.dma.config val r)) where
  idle := h.idle
  mask := by
    cases r <;> exact h.mask
  mode := h.mode

theorem apply_mask {bus : Bus} {W : Set (List (UInt64 × UInt64))} (hb : bus.Delivers W) (m : Machine)
    (hi : m.dma.status = .idle) (op : Op) : (apply bus m op).dma.config.mask = m.dma.config.mask := by
  cases op with
  | write bar addr val size =>
    simp only [apply, barWrite_eq]
    cases hd : decode addr with
    | irqRaise => exact congrArg DmaConfig.mask (raise_reentered m).config
    | irqLower => exact congrArg DmaConfig.mask (lower_reentered m _).config
    | doorbell =>
      obtain ⟨n, h, -⟩ := doorbell_reentered hb m hi
      exact congrArg DmaConfig.mask h.config
    | src => rw [writeReg_latch bus m hi val .src rfl]; rfl
    | dst => rw [writeReg_latch bus m hi val .dst rfl]; rfl
    | len => rw [writeReg_latch bus m hi val .len rfl]; rfl
    | cmd => rw [writeReg_latch bus m hi val .cmd rfl]; rfl
    | scratch i => rfl
    | hole => rfl
  | reset =>
    obtain ⟨es, h, -⟩ := irqReset_step m
    change (pciemuIrqReset m).dma.config.mask = m.dma.config.mask
    rw [h.dma]
  | _ => rfl

theorem run_mask {bus : Bus} {W : Set (List (UInt64 × UInt64))} (hb : bus.Delivers W) (raw : DmaEngine)
    (host : ℕ → UInt8) (ops : List Op) : (Device.run bus (pciemuDeviceInit raw host) ops).dma.status = .idle ∧
      (Device.run bus (pciemuDeviceInit raw host) ops).dma.config.mask = dmaBitMask dmaAddrCapability := by
  apply run_invariant (I := fun m => m.dma.status = .idle ∧ m.dma.config.mask = dmaBitMask dmaAddrCapability)
    _ ops ⟨deviceInit_idle raw host, rfl⟩ (along_of_forall (P := fun _ => True) _ ops fun _ _ => trivial)
    (run_total (apply bus) _ ops)
  rintro m op t ⟨hi, hmask⟩ ht -
  rw [← Option.some.inj ht]
  exact ⟨(apply_idle hb m hi op).1, (apply_mask hb m hi op).trans hmask⟩

theorem run_ready {bus : Bus} {W : Set (List (UInt64 × UInt64))} (hb : bus.Delivers W) (raw : DmaEngine)
    (host : ℕ → UInt8) (ops : List Op)
    (hmode : (Device.run bus (pciemuDeviceInit raw host) ops).msixEnabled ∨
      (Device.run bus (pciemuDeviceInit raw host) ops).msiEnabled) :
    Ready (Device.run bus (pciemuDeviceInit raw host) ops) := by
  obtain ⟨hi, hmask⟩ := run_mask hb raw host ops
  exact ⟨hi, hmask, hmode⟩

section Writes

variable {T : Type}

theorem iowrite32_eq (bus : Bus) (s : System T) (source : Source) (addr : UInt64) (val : UInt32) {m' : Machine}
    {cs : List Event} {n : ℕ} (hm : writeReg bus s.hw val.toUInt64 (decode addr) = m')
    (hc : dmaCalls m'.log = dmaCalls s.hw.log ++ cs) (hn : notified m'.log = notified s.hw.log + n) :
    s.iowrite32 bus source addr val =
      { s with
        hw := m'
        pending := s.pending ++ List.replicate n source
        log := s.log ++ cs.map (.transfer source) } := by
  simp only [System.iowrite32, regbarWrite_eq, hm, hc, hn, Nat.add_sub_cancel_left, List.drop_left]

theorem iowrite32_config (bus : Bus) (s : System T) (hi : s.hw.dma.status = .idle) (source : Source)
    (addr : UInt64) (val : UInt32) (hr : Reg.isConfig (decode addr)) :
    s.iowrite32 bus source addr val =
      { s with hw := s.hw.setConfig (latch s.hw.dma.config val.toUInt64 (decode addr)) } := by
  rw [iowrite32_eq bus s source addr val (writeReg_latch bus s.hw hi _ _ hr) (List.append_nil _).symm
    (Nat.add_zero _).symm]
  simp

theorem iowrite32_ack (bus : Bus) (s : System T) (hm : Ready s.hw) (source : Source) :
    s.iowrite32 bus source irqDmaAckAddr 1 = { s with hw := pciemuIrqLower s.hw irqDmaEndedVector } := by
  have h := lower_reentered s.hw irqDmaEndedVector
  have hw : writeReg bus s.hw (1 : UInt32).toUInt64 (decode irqDmaAckAddr) =
      pciemuIrqLower s.hw irqDmaEndedVector := rfl
  rw [iowrite32_eq bus s source irqDmaAckAddr 1 hw h.calls (h.notified hm.mode)]
  simp

theorem raise_write (bus : Bus) (m : Machine) (val : UInt64) :
    pciemuRegbarWrite bus m regIrq0Raise val 8 = pciemuIrqRaise m irqDmaEndedVector := rfl

def KernelEvent.fromHandler : KernelEvent → Bool
  | .irqHandler _ | .dmaUnmapPage _ _ _ | .putPage _ _ => true
  | _ => false

structure Aside (s s' : System T) : Prop where
  thread : s'.thread = s.thread
  calls : s'.calls = s.calls
  dma : s'.dma = { s.dma with completion := s'.dma.completion }
  engine : s'.hw.dma = s.hw.dma
  host : s'.hw.host = s.hw.host
  ready : Ready s'.hw
  log : ∃ es, s'.log = s.log ++ es ∧ ∀ e ∈ es, e.fromHandler

theorem Irq.aside {bus : Bus} {s s' : System T} (h : Irq bus s s') (hready : Ready s.hw) : Aside s s' := by
  cases h with
  | enter source rest hh hp => exact ⟨rfl, rfl, rfl, rfl, rfl, hready, [_], rfl, by simp [KernelEvent.fromHandler]⟩
  | unmap source hh => exact ⟨rfl, rfl, rfl, rfl, rfl, hready, [_], rfl, by simp [KernelEvent.fromHandler]⟩
  | putPage source hh => exact ⟨rfl, rfl, rfl, rfl, rfl, hready, [_], rfl, by simp [KernelEvent.fromHandler]⟩
  | ack source hh =>
    obtain ⟨es, hstep, -⟩ := lower_step s.hw irqDmaEndedVector
    rw [iowrite32_ack bus { s with handler := some (.complete, source) } hready]
    exact ⟨rfl, rfl, rfl, hstep.dma, hstep.host, hready.of_reentered (lower_reentered s.hw _), [],
      (List.append_nil _).symm, by simp⟩
  | complete source hh => exact ⟨rfl, rfl, rfl, rfl, rfl, hready, [], (List.append_nil _).symm, by simp⟩

theorem mmapRaise_aside (bus : Bus) {s : System T} (hready : Ready s.hw) (val : UInt64) (pending : List Source) :
    Aside s { s with hw := pciemuRegbarWrite bus s.hw regIrq0Raise val 8, pending := pending } := by
  obtain ⟨e, hstep, -⟩ := raise_step s.hw
  rw [raise_write]
  exact ⟨rfl, rfl, rfl, hstep.dma, hstep.host, hready.of_reentered (raise_reentered s.hw), [],
    (List.append_nil _).symm, by simp⟩

theorem Aside.monitored {μ : Type} {mon : μ → KernelEvent → Option μ} {s s' : System T} {m : μ} {R : μ → Prop}
    (h : Aside s s') (hmon : ∀ e, e.fromHandler → mon m e = some m) (hR : R m) :
    ∃ es m', s'.log = s.log ++ es ∧ Runs.run mon m es = some m' ∧ R m' := by
  obtain ⟨es, hlog, hes⟩ := h.log
  refine ⟨es, m, hlog, ?_, hR⟩
  clear hlog
  induction es with
  | nil => rfl
  | cons e es ih =>
    rw [run_cons es (hmon e (hes e List.mem_cons_self))]
    exact ih fun e' he' => hes e' (List.mem_cons_of_mem e he')

def busCall (mask handle : UInt64) (len : ℕ) : DmaDataDirection → Event
  | .toDevice => .pciDmaRead (handle.toUInt32.toUInt64 &&& mask) 0 (UInt32.ofNat len).toUInt64
  | .fromDevice => .pciDmaWrite (handle.toUInt32.toUInt64 &&& mask) 0 (UInt32.ofNat len).toUInt64

def txdescOf (dma : PciemuDma T) : DmaDataDirection → DmaTransferDesc
  | .toDevice => ⟨dma.dmaHandle.toUInt32.toUInt64, dmaAreaStart, (UInt32.ofNat dma.len).toUInt64⟩
  | .fromDevice => ⟨dmaAreaStart, dma.dmaHandle.toUInt32.toUInt64, (UInt32.ofNat dma.len).toUInt64⟩

def cmdOf : DmaDataDirection → UInt64
  | .toDevice => dmaDirectionToDevice
  | .fromDevice => dmaDirectionFromDevice

structure Programmed (c : DmaConfig) (tx : DmaTransferDesc) (d : DmaDataDirection) (n : ℕ) : Prop where
  src : 0 < n → c.txdesc.src = tx.src
  dst : 1 < n → c.txdesc.dst = tx.dst
  len : 2 < n → c.txdesc.len = tx.len
  cmd : 3 < n → c.cmd = cmdOf d

theorem Programmed.transferCall {c : DmaConfig} {dma : PciemuDma T} {d : DmaDataDirection}
    (h : Programmed c (txdescOf dma d) d 4) : transferCall c = some (busCall c.mask dma.dmaHandle dma.len d) := by
  have hin : auroraDmaInsideDeviceBoundaries dmaAreaStart = true := by decide
  have hne : dmaDirectionFromDevice ≠ dmaDirectionToDevice := by decide
  unfold Device.transferCall
  rw [h.src (by decide), h.dst (by decide), h.len (by decide), h.cmd (by decide)]
  cases d with
  | toDevice => simp [txdescOf, cmdOf, hin, busCall]
  | fromDevice => simp [txdescOf, cmdOf, hin, busCall, hne]

theorem iowrites_eq (dma : PciemuDma T) (d : DmaDataDirection) : ∃ src dst len cmd : UInt32,
    iowrites dma d = [(regDmaCfgTxdescSrc, src), (regDmaCfgTxdescDst, dst), (regDmaCfgTxdescLen, len),
      (regDmaCfgCmd, cmd), (regDmaDoorbellRing, 1)] ∧
    txdescOf dma d = ⟨src.toUInt64, dst.toUInt64, len.toUInt64⟩ ∧ cmdOf d = cmd.toUInt64 := by
  cases d with
  | toDevice => exact ⟨_, _, _, _, rfl, rfl, rfl⟩
  | fromDevice => exact ⟨_, _, _, _, rfl, rfl, rfl⟩

theorem Programmed.next {c : DmaConfig} {dma : PciemuDma T} {d : DmaDataDirection} {n : ℕ} {w : UInt64 × UInt32}
    (h : Programmed c (txdescOf dma d) d n) (hw : (iowrites dma d)[n]? = some w) (hn : n < 4) :
    Reg.isConfig (decode w.1) ∧ Programmed (latch c w.2.toUInt64 (decode w.1)) (txdescOf dma d) d (n + 1) := by
  obtain ⟨src, dst, len, cmd, hws, htx, hcmd⟩ := iowrites_eq dma d
  obtain ⟨hs, hd, hl, hc⟩ := h
  rw [hws] at hw
  rw [htx] at hs hd hl
  rw [hcmd] at hc
  obtain rfl | rfl | rfl | rfl : n = 0 ∨ n = 1 ∨ n = 2 ∨ n = 3 := by omega
  · obtain rfl := Option.some.inj hw
    have hr : decode regDmaCfgTxdescSrc = .src := by decide
    simp only [hr]
    refine ⟨rfl, fun _ => ?_, by omega, by omega, by omega⟩
    rw [htx, latch]
  · obtain rfl := Option.some.inj hw
    have hr : decode regDmaCfgTxdescDst = .dst := by decide
    simp only [hr]
    refine ⟨rfl, fun _ => ?_, fun _ => ?_, by omega, by omega⟩
    · rw [htx, latch, hs (by decide)]
    · rw [htx, latch]
  · obtain rfl := Option.some.inj hw
    have hr : decode regDmaCfgTxdescLen = .len := by decide
    simp only [hr]
    refine ⟨rfl, fun _ => ?_, fun _ => ?_, fun _ => ?_, by omega⟩
    · rw [htx, latch, hs (by decide)]
    · rw [htx, latch, hd (by decide)]
    · rw [htx, latch]
  · obtain rfl := Option.some.inj hw
    have hr : decode regDmaCfgCmd = .cmd := by decide
    simp only [hr]
    refine ⟨rfl, fun _ => ?_, fun _ => ?_, fun _ => ?_, fun _ => ?_⟩
    · rw [htx, latch, hs (by decide)]
    · rw [htx, latch, hd (by decide)]
    · rw [htx, latch, hl (by decide)]
    · rw [hcmd, latch]

theorem iowrites_doorbell {dma : PciemuDma T} {d : DmaDataDirection} {n : ℕ} {w : UInt64 × UInt32}
    (hw : (iowrites dma d)[n]? = some w) (hn : ¬n < 4) : n = 4 ∧ w = (regDmaDoorbellRing, 1) := by
  obtain ⟨src, dst, len, cmd, hws, -, -⟩ := iowrites_eq dma d
  rw [hws] at hw
  have hlen := (List.getElem?_eq_some_iff.mp hw).1
  obtain rfl : n = 4 := by
    simp only [List.length_cons, List.length_nil] at hlen
    omega
  exact ⟨rfl, (Option.some.inj hw).symm⟩

theorem iowrite32_doorbell {bus : Bus} {W : Set (List (UInt64 × UInt64))} (hb : bus.Delivers W) (s : System T)
    (hm : Ready s.hw) (source : Source) {d : DmaDataDirection}
    (hp : Programmed s.hw.dma.config (txdescOf s.dma d) d 4) :
    ∃ ws ∈ W, ∃ m', m' = auroraDmaDoorbellRing bus s.hw ∧
      Reentered s.hw [busCall s.hw.dma.config.mask s.dma.dmaHandle s.dma.len d] (raisesIn ws + 1) m' ∧
      s.iowrite32 bus source regDmaDoorbellRing 1 =
        { s with
          hw := m'
          pending := s.pending ++ List.replicate (raisesIn ws + 1) source
          log := s.log ++ [.transfer source (busCall s.hw.dma.config.mask s.dma.dmaHandle s.dma.len d)] } := by
  obtain ⟨ws, hws, _, _, _, _, h⟩ := doorbell_around hb s.hw hm.idle _ hp.transferCall
  refine ⟨ws, hws, _, rfl, h, ?_⟩
  have hw : writeReg bus s.hw (1 : UInt32).toUInt64 (decode regDmaDoorbellRing) =
      auroraDmaDoorbellRing bus s.hw := rfl
  rw [iowrite32_eq bus s source regDmaDoorbellRing 1 hw h.calls (h.notified hm.mode)]
  rfl

end Writes

section Owner

variable {T : Type}

def Described (dma : PciemuDma T) (th : Thread) : Prop :=
  dma.offset = th.ofs ∧ dma.len = th.len ∧ dma.direction = th.direction

def Local (dma : PciemuDma T) (c : DmaConfig) (t : T) (th : Thread) : Prop :=
  match th.stage with
  | .structInit | .unlock _ => dma.mtx = some t
  | .mapPage | .wait => dma.mtx = some t ∧ Described dma th
  | .iowrite n => dma.mtx = some t ∧ Described dma th ∧ Programmed c (txdescOf dma th.direction) th.direction n
  | _ => dma.mtx ≠ some t

theorem Local.locked_iff {dma : PciemuDma T} {c : DmaConfig} {t : T} {th : Thread} (h : Local dma c t th) :
    th.stage.locked ↔ dma.mtx = some t := by
  unfold Local at h
  cases hs : th.stage with
  | structInit => simp only [hs] at h; simp [Stage.locked, h]
  | unlock r => simp only [hs] at h; simp [Stage.locked, h]
  | mapPage => simp only [hs] at h; simp [Stage.locked, h]
  | wait => simp only [hs] at h; simp [Stage.locked, h]
  | iowrite n => simp only [hs] at h; simp [Stage.locked, h]
  | _ => simp only [hs] at h; simp [Stage.locked, h]

theorem local_unlocked {dma : PciemuDma T} {c : DmaConfig} {t : T} {th : Thread} (hs : th.stage.locked = false)
    (h : dma.mtx ≠ some t) : Local dma c t th := by
  unfold Local
  cases hst : th.stage with
  | user => exact h
  | getUserPages => exact h
  | readPage => exact h
  | lock => exact h
  | ret code => exact h
  | _ => simp [hst, Stage.locked] at hs

theorem Local.other {dma dma' : PciemuDma T} {c c' : DmaConfig} {t : T} {th : Thread} (h : Local dma c t th)
    (hne : dma.mtx ≠ some t) (hne' : dma'.mtx ≠ some t) : Local dma' c' t th := by
  apply local_unlocked _ hne'
  rw [Bool.eq_false_iff]
  intro hl
  exact hne (h.locked_iff.mp hl)

theorem Local.turn {dma dma' : PciemuDma T} {c : DmaConfig} {t : T} {th th' : Thread} {a : Action T}
    {es : List KernelEvent} (h : Local dma c t th) (ht : Turn dma t th a th' dma' es) : Local dma' c t th' := by
  cases ht with
  | lock hs hfree => exact rfl
  | structInit hs =>
    simp only [Local, hs] at h
    exact ⟨h, rfl, rfl, rfl⟩
  | mapFailed hs =>
    simp only [Local, hs] at h
    exact h.1
  | mapped a hs =>
    simp only [Local, hs] at h
    exact ⟨h.1, h.2, by omega, by omega, by omega, by omega⟩
  | wait source hs hc =>
    simp only [Local, hs] at h
    exact h.1
  | unlock r hs => exact Option.some_ne_none t ∘ Eq.symm
  | pinFailed hs => simpa only [Local, hs] using h
  | pinned p hs => simpa only [Local, hs] using h
  | readPage hs => simpa only [Local, hs] using h
  | ret code hs => simpa only [Local, hs] using h

structure Base (s : System T) : Prop where
  ready : Ready s.hw
  each : ∀ t, Local s.dma s.hw.dma.config t (s.thread t)
  fresh : ∀ t, (s.thread t).stage ≠ .user → (s.thread t).call < s.calls
  unique : ∀ t t', (s.thread t).stage ≠ .user → (s.thread t').stage ≠ .user →
    (s.thread t).call = (s.thread t').call → t = t'

theorem Base.owner {s : System T} (h : Base s) {t : T} (hs : (s.thread t).stage.locked) : s.dma.mtx = some t :=
  (h.each t).locked_iff.mp hs

theorem Base.not_owner {s : System T} (h : Base s) {t : T} (hs : (s.thread t).stage.locked = false) :
    s.dma.mtx ≠ some t := by
  intro hm
  rw [(h.each t).locked_iff.mpr hm] at hs
  cases hs

theorem Base.at_mapPage {s : System T} (h : Base s) {t : T} (hs : (s.thread t).stage = .mapPage) :
    s.dma.mtx = some t ∧ Described s.dma (s.thread t) := by
  simpa only [Local, hs] using h.each t

theorem Base.at_iowrite {s : System T} (h : Base s) {t : T} {n : ℕ} (hs : (s.thread t).stage = .iowrite n) :
    s.dma.mtx = some t ∧ Described s.dma (s.thread t) ∧
      Programmed s.hw.dma.config (txdescOf s.dma (s.thread t).direction) (s.thread t).direction n := by
  simpa only [Local, hs] using h.each t

theorem Base.same {s s' : System T} (h : Base s) (hth : s'.thread = s.thread) (hcalls : s'.calls = s.calls)
    (hready : Ready s'.hw) (heach : ∀ t, Local s'.dma s'.hw.dma.config t (s.thread t)) : Base s' where
  ready := hready
  each := hth ▸ heach
  fresh := by
    rw [hth, hcalls]
    exact h.fresh
  unique := by
    rw [hth]
    exact h.unique

theorem Base.aside {s s' : System T} (h : Base s) (ha : Aside s s') : Base s' := by
  refine h.same ha.thread ha.calls ha.ready ?_
  rw [ha.dma, ha.engine]
  exact h.each

theorem Base.others {s : System T} (h : Base s) {t : T} (hs : (s.thread t).stage.locked) (dma : PciemuDma T)
    (hd : dma.mtx = some t ∨ dma.mtx = none) (c : DmaConfig) :
    ∀ t' ≠ t, Local dma c t' (s.thread t') := by
  intro t' ht
  apply (h.each t').other
  · rw [h.owner hs]
    exact fun he => ht (Option.some.inj he).symm
  · obtain hd | hd := hd
    · rw [hd]
      exact fun he => ht (Option.some.inj he).symm
    · rw [hd]
      exact Option.some_ne_none t' ∘ Eq.symm

structure Quiescent (s : System T) : Prop where
  ready : Ready s.hw
  user : ∀ t, (s.thread t).stage = .user
  mtx : s.dma.mtx = none
  pending : s.pending = []
  handler : s.handler = none

/-- The driver after a successful probe: nobody has called it yet, and all but the mutex of
`struct pciemu_dma` is as `kmalloc` left it. -/
structure Probed (s : System T) : Prop extends Quiescent s where
  log : s.log = []

theorem Quiescent.base {s : System T} (h : Quiescent s) : Base s where
  ready := h.ready
  each := by
    intro t
    apply local_unlocked
    · rw [h.user t]
      rfl
    · rw [h.mtx]
      exact Option.some_ne_none t ∘ Eq.symm
  fresh := fun t hs => absurd (h.user t) hs
  unique := fun t _ hs => absurd (h.user t) hs

variable [DecidableEq T]

theorem Base.iowrite_cases {bus : Bus} {W : Set (List (UInt64 × UInt64))} (hb : bus.Delivers W) {s : System T}
    (h : Base s) {t : T} {n : ℕ} {w : UInt64 × UInt32} (hs : (s.thread t).stage = .iowrite n)
    (hw : (iowrites s.dma (s.thread t).direction)[n]? = some w) :
    let th := s.thread t
    let source := Source.doorbell th.call
    let call := busCall s.hw.dma.config.mask s.dma.dmaHandle s.dma.len th.direction
    let next := (s.iowrite32 bus source w.1 w.2).setStage t (if n < 4 then .iowrite (n + 1) else .wait)
    (∃ v r, n < 4 ∧ Programmed (latch s.hw.dma.config v r) (txdescOf s.dma th.direction) th.direction (n + 1) ∧
      next = { s with hw := s.hw.setConfig (latch s.hw.dma.config v r) }.setStage t (.iowrite (n + 1))) ∨
    ∃ ws ∈ W, ∃ m', n = 4 ∧ m' = auroraDmaDoorbellRing bus s.hw ∧ Reentered s.hw [call] (raisesIn ws + 1) m' ∧
      next = { s with
        hw := m'
        pending := s.pending ++ List.replicate (raisesIn ws + 1) source
        log := s.log ++ [KernelEvent.transfer source call] }.setStage t .wait := by
  intro th source call next
  have hd := h.at_iowrite hs
  by_cases hn : n < 4
  · left
    obtain ⟨hr, hp⟩ := hd.2.2.next hw hn
    refine ⟨w.2.toUInt64, decode w.1, hn, hp, ?_⟩
    simp only [next, iowrite32_config bus s h.ready.idle _ _ _ hr, if_pos hn]
  · right
    obtain ⟨rfl, rfl⟩ := iowrites_doorbell hw hn
    obtain ⟨ws, hws, m', hm', hre, he⟩ := iowrite32_doorbell hb s h.ready source hd.2.2
    refine ⟨ws, hws, m', rfl, hm', hre, ?_⟩
    simp only [next, he, if_neg hn, call, th]

theorem Base.update {s s' : System T} (h : Base s) (t : T) (th : Thread)
    (hth : s'.thread = Function.update s.thread t th) (hcalls : s'.calls = s.calls)
    (hcall : th.call = (s.thread t).call) (huser : (s.thread t).stage ≠ .user) (hready : Ready s'.hw)
    (hown : Local s'.dma s'.hw.dma.config t th)
    (hother : ∀ t' ≠ t, Local s'.dma s'.hw.dma.config t' (s.thread t')) : Base s' where
  ready := hready
  each := by
    intro t'
    rw [hth]
    by_cases ht : t' = t
    · subst ht
      rw [Function.update_self]
      exact hown
    · rw [Function.update_of_ne ht]
      exact hother t' ht
  fresh := by
    intro t' hs
    rw [hth] at hs ⊢
    rw [hcalls]
    by_cases ht : t' = t
    · subst ht
      rw [Function.update_self, hcall]
      exact h.fresh t' huser
    · rw [Function.update_of_ne ht] at hs ⊢
      exact h.fresh t' hs
  unique := by
    have hkeep (t' : T) (hs : (Function.update s.thread t th t').stage ≠ .user) :
        (s.thread t').stage ≠ .user ∧ (Function.update s.thread t th t').call = (s.thread t').call := by
      by_cases ht : t' = t
      · subst ht
        rw [Function.update_self]
        exact ⟨huser, hcall⟩
      · rw [Function.update_of_ne ht] at hs ⊢
        exact ⟨hs, rfl⟩
    rw [hth]
    intro t1 t2 h1 h2 he
    obtain ⟨h1, hc1⟩ := hkeep t1 h1
    obtain ⟨h2, hc2⟩ := hkeep t2 h2
    exact h.unique t1 t2 h1 h2 (by rw [← hc1, ← hc2, he])

theorem pciemuIoctl_call (call : ℕ) (cmd : UInt32) (vaddr : UInt64) : (pciemuIoctl call cmd vaddr).call = call := by
  unfold pciemuIoctl
  split_ifs <;> rfl

theorem pciemuIoctl_unlocked (call : ℕ) (cmd : UInt32) (vaddr : UInt64) :
    (pciemuIoctl call cmd vaddr).stage.locked = false := by
  unfold pciemuIoctl
  split_ifs <;> rfl

theorem Base.ioctl {s : System T} (h : Base s) (t : T) (cmd : UInt32) (vaddr : UInt64)
    (hs : (s.thread t).stage = .user) :
    Base ({ s with calls := s.calls + 1 }.setThread t (pciemuIoctl s.calls cmd vaddr)) := by
  have hcall := pciemuIoctl_call s.calls cmd vaddr
  have hold (t' : T) (ht : t' ≠ t) (hu : (s.thread t').stage ≠ .user) :
      (s.thread t').call ≠ (pciemuIoctl s.calls cmd vaddr).call := by
    rw [hcall]
    exact Nat.ne_of_lt (h.fresh t' hu)
  refine ⟨h.ready, ?_, ?_, ?_⟩
  · intro t'
    rw [System.setThread_thread, Function.update_apply]
    split_ifs with ht
    · subst ht
      exact local_unlocked (pciemuIoctl_unlocked _ _ _) (h.not_owner (by rw [hs]; rfl))
    · exact h.each t'
  · intro t' hu
    rw [System.setThread_thread, Function.update_apply] at hu ⊢
    split_ifs at hu ⊢ with ht
    · rw [hcall]
      exact Nat.lt_succ_self _
    · exact Nat.lt_succ_of_lt (h.fresh t' hu)
  · intro t1 t2 h1 h2 he
    simp only [System.setThread_thread] at h1 h2 he
    by_cases ht1 : t1 = t
    · by_cases ht2 : t2 = t
      · rw [ht1, ht2]
      · rw [ht1, Function.update_self, Function.update_of_ne ht2] at he
        rw [Function.update_of_ne ht2] at h2
        exact absurd he.symm (hold t2 ht2 h2)
    · rw [Function.update_of_ne ht1] at h1 he
      by_cases ht2 : t2 = t
      · rw [ht2, Function.update_self] at he
        exact absurd he (hold t1 ht1 h1)
      · rw [Function.update_of_ne ht2] at h2 he
        exact h.unique t1 t2 h1 h2 he

theorem Base.turn {s : System T} (h : Base s) {t : T} {a : Action T} {th : Thread} {dma : PciemuDma T}
    {es : List KernelEvent} (ht : Turn s.dma t (s.thread t) a th dma es) : Base (s.turn t th dma es) := by
  refine h.update t th rfl rfl ht.call ht.inside h.ready ((h.each t).turn ht) ?_
  intro t' hne
  cases hl : (s.thread t).stage.locked with
  | true =>
    refine h.others hl dma ?_ _ t' hne
    rw [← h.owner hl]
    exact ht.holds hl
  | false =>
    obtain he | ⟨hfree, he⟩ := ht.unlocked hl
    · rw [System.turn_dma, he]
      exact h.each t'
    · apply (h.each t').other
      · rw [hfree]
        exact Option.some_ne_none t' ∘ Eq.symm
      · rw [System.turn_dma, he]
        exact fun hm => hne (Option.some.inj hm).symm

theorem Base.move {bus : Bus} {W : Set (List (UInt64 × UInt64))} (hb : bus.Delivers W) {s s' : System T}
    {a : Action T} (h : Base s) (hm : Move bus s a s') : Base s' := by
  cases hm with
  | ioctl t cmd vaddr hs => exact h.ioctl t cmd vaddr hs
  | turn t ht => exact h.turn ht
  | iowrite t n w hs hw =>
    have hl : (s.thread t).stage.locked = true := by rw [hs]; rfl
    have hd := h.at_iowrite hs
    obtain ⟨v, r, -, hp, he⟩ | ⟨ws, -, m', -, -, hre, he⟩ := h.iowrite_cases hb hs hw
    · rw [he]
      refine h.update t _ rfl rfl rfl (by simp [hs]) (h.ready.latch _ _) ⟨hd.1, hd.2.1, hp⟩ ?_
      exact h.others hl _ (.inl hd.1) _
    · rw [he]
      refine h.update t _ rfl rfl rfl (by simp [hs]) (h.ready.of_reentered hre) ⟨hd.1, hd.2.1⟩ ?_
      exact h.others hl _ (.inl hd.1) _
  | irq hi => exact h.aside (hi.aside h.ready)
  | mmapRaise val => exact h.aside (mmapRaise_aside bus h.ready val _)

end Owner

end Pciemu.Driver
