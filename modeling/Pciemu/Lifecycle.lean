import Pciemu.OwnPage
import Pciemu.Probe

namespace Pciemu.Driver

open Programs Device AuroraHw Runs

inductive DmaField
  | page
  | dmaHandle
  | len
  | completion
  deriving DecidableEq

section Lifecycle

def requestedIrqs (log : List (KernelCall × ℤ)) : List ℤ :=
  log.filterMap fun
    | (.requestIrq irq, 0) => some irq
    | _ => none

def freedIrqs (log : List (KernelCall × ℤ)) : List ℤ :=
  log.filterMap fun
    | (.freeIrq irq, _) => some irq
    | _ => none

def Life.Registered (s : Life) : Prop := ∃ irq ∈ requestedIrqs s.log, irq ∉ freedIrqs s.log

instance (s : Life) : Decidable s.Registered :=
  inferInstanceAs (Decidable (∃ irq ∈ requestedIrqs s.log, irq ∉ freedIrqs s.log))

def Life.answers (s : Life) : KernelCall → ℤ → Bool
  | .load f, z => z = s.dev f
  | _, _ => true

variable {T : Type}

def Action.fills (s : System T) : Action T → DmaField → Bool
  | .getUserPagesFast _ (some _), .page => true
  | .dmaMapPage _ _, .dmaHandle => true
  | .advance t, .len => (s.thread t).stage = .structInit
  | .advance t, .completion => (s.thread t).stage = .structInit
  | _, _ => false

/-- The driver from the start of probe to the end of remove: `code` is what is left of the one that is
running, `filled` says which fields have been stored to. -/
structure Lifetime (T : Type) where
  life : Life
  code : Code ℤ
  removing : Bool
  sys : System T
  filled : DmaField → Bool

inductive LifeAction (T : Type)
  | call (answer : ℤ)
  | remove
  | driver (a : Action T)

-- `mutex_init` is the only call of probe that stores to `struct pciemu_dma`
def KernelCall.onSystem (s : System T) : KernelCall → System T
  | .mutexInit => s.setDma { s.dma with mtx := none }
  | _ => s

def Lifetime.mayCall (s : Lifetime T) : KernelCall → Bool
  | .freeIrq _ => s.sys.handler.isNone
  | _ => true

/-- Files can be opened once the device has been added, and stay open; the handler can be entered
only while it is registered. -/
def Lifetime.MayAct (s : Lifetime T) : Action T → Prop
  | .ioctl _ _ _ => (.cdevAdd, 0) ∈ s.life.log
  | .mmapRaise _ => (.cdevAdd, 0) ∈ s.life.log
  | .irq => s.sys.handler.isSome ∨ s.life.Registered
  | _ => True

instance (s : Lifetime T) : (a : Action T) → Decidable (s.MayAct a)
  | .ioctl _ _ _ => inferInstanceAs (Decidable ((.cdevAdd, 0) ∈ s.life.log))
  | .mmapRaise _ => inferInstanceAs (Decidable ((.cdevAdd, 0) ∈ s.life.log))
  | .irq => inferInstanceAs (Decidable (s.sys.handler.isSome ∨ s.life.Registered))
  | .getUserPagesFast _ _ | .dmaMapPage _ _ | .advance _ => isTrue trivial

def Lifetime.start (garbage : Field → ℤ) (dma : PciemuDma T) (hw : Machine) : Lifetime T where
  life := ⟨garbage, []⟩
  code := pciemuProbe
  removing := false
  sys := ⟨0, fun _ => ⟨.user, 0, .toDevice, 0, 0, 0⟩, dma, hw, [], none, []⟩
  filled := fun _ => false

def Lifetime.Runnable (bus : Bus) (s : Lifetime T) : Prop :=
  s.life.Registered ∧ (pciemuIrqHandler bus s.sys).isSome

structure Lifetime.Valid (s : Lifetime T) : Prop where
  ack : ∃ p, (.pciIomap regBar, p) ∈ s.life.log ∧ p ≠ 0 ∧ (∀ z, (.pciIounmap p, z) ∉ s.life.log) ∧
    p ≤ s.life.dev .mmioAckIrq ∧ s.life.dev .mmioAckIrq < p + regBarSize.toNat
  dma : ∀ f, s.filled f

def KernelCall.storesAck : KernelCall → Bool
  | .store .mmioAckIrq _ => true
  | _ => false

def KernelCall.unmaps : KernelCall → Bool
  | .pciIounmap _ => true
  | _ => false

def KernelEvent.maps : KernelEvent → Bool
  | .dmaMapPage _ _ _ _ _ _ => true
  | _ => false

def Lifetime.InService (s : Lifetime T) : Prop :=
  (∃ e ∈ s.life.log, e.1.storesAck) ∧ (∀ e ∈ s.life.log, ¬e.1.unmaps) ∧ ∃ e ∈ s.sys.log, e.maps

variable [DecidableEq T]

def Lifetime.step (bus : Bus) (s : Lifetime T) : LifeAction T → Option (Lifetime T)
  | .call z => match s.code with
    | .ret _ => none
    | .call c next =>
      if s.life.answers c z ∧ s.mayCall c then
        some { s with life := s.life.after c z, code := next z, sys := c.onSystem s.sys }
      else none
  | .remove => match s.code with
    | .ret 0 => if s.removing then none else some { s with code := pciemuRemove >>= fun _ => pure 0, removing := true }
    | _ => none
  | .driver a =>
    if s.MayAct a then
      (Driver.step bus s.sys a).map fun sys => { s with sys := sys, filled := fun f => s.filled f || a.fills s.sys f }
    else none

end Lifecycle

section Stored

abbrev Keeps (I : Life → Prop) (p : Code ℤ) (s : Life) : Prop :=
  p.Always (fun s c z => s.answers c z) Life.after I (fun _ => I) s

def AckStored (s : Life) : Prop :=
  ∀ e ∈ s.log, e.1.storesAck → ∃ p, (.pciIomap regBar, p) ∈ s.log ∧ p ≠ 0 ∧
    s.dev .mmioAckIrq = p + irqDmaAckAddr.toNat

def NoAck (s : Life) : Prop := ∀ e ∈ s.log, ¬e.1.storesAck

def RegMapped (s : Life) : Prop :=
  ∃ p, (.pciIomap regBar, p) ∈ s.log ∧ p ≠ 0 ∧ s.dev .regbarMmio = p

def Prepared (s : Life) : Prop := NoAck s ∧ RegMapped s

def KernelCall.stores : KernelCall → Bool
  | .store _ _ => true
  | _ => false

variable {s : Life} {c : KernelCall}

theorem NoAck.ackStored (h : NoAck s) : AckStored s := fun e he hs => absurd hs (h e he)

theorem NoAck.after (h : NoAck s) (hc : ¬c.storesAck) (z : ℤ) : NoAck (s.after c z) := by
  intro e he
  obtain he | he := List.mem_append.mp he
  · exact h e he
  · rw [List.mem_singleton.mp he]
    exact hc

theorem stored_eq (hc : ¬c.stores) (dev : Field → ℤ) : c.stored dev = dev := by
  cases c with
  | store f v => exact absurd rfl hc
  | _ => rfl

theorem storesAck_of_stores (hc : ¬c.stores) : ¬c.storesAck := by
  cases c with
  | store f v => exact absurd rfl hc
  | _ => exact Bool.false_ne_true

theorem not_storesAck {f : Field} (hf : f ≠ .mmioAckIrq) (v : ℤ) : ¬(KernelCall.store f v).storesAck := by
  cases f with
  | mmioAckIrq => exact absurd rfl hf
  | _ => exact Bool.false_ne_true

theorem RegMapped.after (h : RegMapped s) (hc : c.stored s.dev .regbarMmio = s.dev .regbarMmio) (z : ℤ) :
    RegMapped (s.after c z) := by
  obtain ⟨p, hp, hne, hd⟩ := h
  exact ⟨p, List.mem_append_left _ hp, hne, hc.trans hd⟩

theorem Prepared.after (h : Prepared s) (hc : ¬c.stores) (z : ℤ) : Prepared (s.after c z) :=
  ⟨h.1.after (storesAck_of_stores hc) z, h.2.after (by rw [stored_eq hc]) z⟩

theorem Prepared.store {f : Field} (h : Prepared s) (hack : f ≠ .mmioAckIrq) (hreg : f ≠ .regbarMmio) (v z : ℤ) :
    Prepared (s.after (.store f v) z) := by
  refine ⟨h.1.after (not_storesAck hack v) z, h.2.after ?_ z⟩
  exact Function.update_of_ne hreg.symm v s.dev

theorem AckStored.after (h : AckStored s) (hc : ¬c.stores) (z : ℤ) : AckStored (s.after c z) := by
  intro e he hs
  have hd : (s.after c z).dev = s.dev := stored_eq hc s.dev
  obtain he | he := List.mem_append.mp he
  · obtain ⟨p, hp, hne, ha⟩ := h e he hs
    exact ⟨p, List.mem_append_left _ hp, hne, hd ▸ ha⟩
  · rw [List.mem_singleton.mp he] at hs
    exact absurd hs (storesAck_of_stores hc)

abbrev StoreFree {α : Type} (p : Code α) : Prop := p.Within (fun _ _ => True) (fun c => ¬c.stores) fun _ => True

theorem StoreFree.keeps {p : Code ℤ} (hp : StoreFree p) (h : AckStored s) : Keeps AckStored p s :=
  (Prog.Always.of_within hp (fun _ _ _ _ => trivial) (fun _ _ z hc hs _ => hs.after hc z) h).mono
    (fun _ hs => hs) fun _ _ hs => hs.2

theorem undoes_stores (hc : c.undoes) : ¬c.stores := by
  cases c with
  | store f v => cases hc
  | _ => exact Bool.false_ne_true

theorem Undoes.storeFree {α : Type} {R : α → Prop} {p : Code α} (hp : Undoes R p) : StoreFree p :=
  hp.mono (fun _ _ h => h) (fun _ => undoes_stores) fun _ _ => trivial

theorem irqRequest_keeps (h : Prepared s) : Keeps AckStored irqRequest s := by
  refine ⟨h.1.ackStored, fun irq _ => ?_⟩
  have ht := h.after (c := .pciIrqVector) Bool.false_ne_true irq
  refine ⟨ht.1.ackStored, fun z _ => ?_⟩
  have hu : Prepared ((s.after .pciIrqVector irq).after (.store .irqNum irq) z) :=
    ht.store (by decide) (by decide) irq z
  change Keeps AckStored (if irq < 0 then _ else _) _
  split_ifs with hneg
  · exact StoreFree.keeps ⟨Bool.false_ne_true, fun _ _ => trivial⟩ hu.1.ackStored
  · refine ⟨hu.1.ackStored, fun err _ => ?_⟩
    have hv := hu.after (c := .requestIrq irq) Bool.false_ne_true err
    change Keeps AckStored (if err ≠ 0 then _ else _) _
    split_ifs with herr
    · exact StoreFree.keeps ⟨Bool.false_ne_true, fun _ _ => trivial⟩ hv.1.ackStored
    · -- the handler is registered by now, and its pointer is stored only in the second step from here
      refine ⟨hv.1.ackStored, fun mmio hload => ?_⟩
      have hw := hv.after (c := .load .regbarMmio) Bool.false_ne_true mmio
      refine ⟨hw.1.ackStored, fun z' _ e _ _ => ?_⟩
      obtain ⟨p, hp, hne, hd⟩ := hw.2
      refine ⟨p, List.mem_append_left _ hp, hne, ?_⟩
      have hm : mmio = p := (of_decide_eq_true hload).trans hd
      rw [← hm]
      rfl

theorem irqEnable_keeps (cap : Capability) (h : Prepared s) : Keeps AckStored (irqEnable cap) s := by
  refine ⟨h.1.ackStored, fun count _ => ?_⟩
  have ht := h.after (c := .vecCount cap) Bool.false_ne_true count
  refine ⟨ht.1.ackStored, fun cpus _ => ?_⟩
  have hu := ht.after (c := .numOnlineCpus) Bool.false_ne_true cpus
  refine ⟨hu.1.ackStored, fun vecs _ => ?_⟩
  have hv := hu.after (c := .pciAllocIrqVectors (min count (cpus + 1)) cap) Bool.false_ne_true vecs
  change Keeps AckStored (if vecs < 0 then _ else if vecs ≠ min count (cpus + 1) then _ else _) _
  split_ifs
  · exact hv.1.ackStored
  · exact StoreFree.keeps ⟨Bool.false_ne_true, fun _ _ => trivial⟩ hv.1.ackStored
  · exact irqRequest_keeps hv

theorem pciemuIrqEnable_keeps (h : Prepared s) : Keeps AckStored pciemuIrqEnable s := by
  refine ⟨h.1.ackStored, fun msix _ => ?_⟩
  have ht := h.after (c := .pciFindCapability .msix) Bool.false_ne_true msix
  change Keeps AckStored (if msix ≠ 0 then _ else _) _
  split_ifs
  · exact irqEnable_keeps .msix ht
  · refine ⟨ht.1.ackStored, fun msi _ => ?_⟩
    have hu := ht.after (c := .pciFindCapability .msi) Bool.false_ne_true msi
    change Keeps AckStored (if msi ≠ 0 then _ else _) _
    split_ifs
    · exact irqEnable_keeps .msi hu
    · exact StoreFree.keeps ⟨Bool.false_ne_true, fun _ _ => trivial⟩ hu.1.ackStored

theorem probeIrqEnable_keeps (h : Prepared s) : Keeps AckStored probeIrqEnable s := by
  apply Prog.Always.bind
  apply (pciemuIrqEnable_keeps h).mono fun _ hs => hs
  intro err t ht
  split_ifs
  · exact (errIrqEnable_undoes err).storeFree.keeps ht
  · exact StoreFree.keeps ⟨Bool.false_ne_true, fun _ _ => trivial⟩ ht

theorem checked_keeps {I : Life → Prop} {label : ℤ → Code ℤ} {next : Code ℤ} (hI : ∀ t, I t → AckStored t)
    (h : I s) (hc : ∀ z, I (s.after c z)) (hlabel : ∀ err, Undoes (· = err) (label err))
    (hnext : ∀ t, I t → Keeps AckStored next t) :
    Keeps AckStored (do
      let err ← request c
      if err ≠ 0 then label err else next) s := by
  refine ⟨hI s h, fun err _ => ?_⟩
  change Keeps AckStored (if err ≠ 0 then label err else next) _
  split_ifs
  · exact (hlabel err).storeFree.keeps (hI _ (hc err))
  · exact hnext _ (hc err)

theorem probeAllocChrdev_keeps (h : Prepared s) : Keeps AckStored probeAllocChrdev s := by
  have hI (t : Life) (ht : Prepared t) : AckStored t := ht.1.ackStored
  refine checked_keeps hI h (h.after (c := .allocChrdevRegion) Bool.false_ne_true) errAllocChrdev_undoes ?_
  intro t ht
  refine checked_keeps hI ht (ht.after (c := .cdevAdd) Bool.false_ne_true) errCdevAdd_undoes ?_
  intro u hu
  refine checked_keeps hI hu (hu.after (c := .deviceCreate) Bool.false_ne_true) errDeviceCreate_undoes ?_
  exact fun v hv => probeIrqEnable_keeps hv

def DevInitKept (err : ℤ) (s : Life) : Prop := AckStored s ∧ (err = 0 → Prepared s)

abbrev DevInitKeeps (p : Code ℤ) (s : Life) : Prop :=
  p.Always (fun s c z => s.answers c z) Life.after AckStored DevInitKept s

theorem devClean_keeps (h : AckStored s) : DevInitKeeps (do pciemuDevClean; return -enomem) s := by
  have he : -enomem ≠ 0 := by decide
  have hclean : Undoes (· = -enomem) (do pciemuDevClean; return -enomem) := devClean_undoes rfl
  refine (Prog.Always.of_within hclean (fun _ _ _ _ => trivial) ?_ h).mono (fun _ hs => hs) ?_
  · exact fun t c z hc ht _ => ht.after (undoes_stores hc) z
  · rintro _ t ⟨rfl, ht⟩
    exact ⟨ht, fun h0 => absurd h0 he⟩

theorem mapBar_keeps {f : Field} {bar : ℕ} {next : Code ℤ} (hf : f ≠ .mmioAckIrq) (h : NoAck s)
    (hnext : ∀ mmio z, mmio ≠ 0 → DevInitKeeps next ((s.after (.pciIomap bar) mmio).after (.store f mmio) z)) :
    DevInitKeeps (mapBar f bar next) s := by
  refine ⟨h.ackStored, fun mmio _ => ?_⟩
  have ht := h.after (c := .pciIomap bar) Bool.false_ne_true mmio
  refine ⟨ht.ackStored, fun z _ => ?_⟩
  change DevInitKeeps (if mmio = 0 then _ else _) _
  split_ifs with hz
  · exact devClean_keeps (ht.after (not_storesAck hf mmio) z).ackStored
  · exact hnext mmio z hz

theorem devInit_keeps (h : NoAck s) : DevInitKeeps pciemuDevInit s := by
  apply mapBar_keeps (by decide) h
  intro reg z hreg
  have ht : Prepared ((s.after (.pciIomap regBar) reg).after (.store .regbarMmio reg) z) := by
    have hmap := h.after (c := .pciIomap regBar) Bool.false_ne_true reg
    refine ⟨hmap.after (c := .store .regbarMmio reg) Bool.false_ne_true z, reg, ?_, hreg, rfl⟩
    exact List.mem_append_left _ (List.mem_append_right _ (List.mem_singleton_self _))
  apply mapBar_keeps (by decide) ht.1
  intro mem z' _
  have hu := (ht.after (c := .pciIomap memBar) Bool.false_ne_true mem).store (f := .membarMmio) (by decide)
    (by decide) mem z'
  apply mapBar_keeps (by decide) hu.1
  intro int z'' _
  have hv := (hu.after (c := .pciIomap intBar) Bool.false_ne_true int).store (f := .internalBarMmio) (by decide)
    (by decide) int z''
  exact ⟨hv.1.ackStored, fun _ => hv⟩

theorem probeDevInit_keeps (h : NoAck s) : Keeps AckStored probeDevInit s := by
  apply Prog.Always.bind
  apply (devInit_keeps h).mono fun _ hs => hs
  intro err t ht
  split_ifs with herr
  · exact (errDevInit_undoes err).storeFree.keeps ht.1
  · exact probeAllocChrdev_keeps (ht.2 (not_not.mp herr))

theorem probeSelectBars_keeps (err : ℤ) (h : NoAck s) : Keeps AckStored (probeSelectBars err) s := by
  refine ⟨h.ackStored, fun z _ => ?_⟩
  have ht := h.after (c := .pciSetMaster) Bool.false_ne_true z
  refine ⟨ht.ackStored, fun bars _ => ?_⟩
  have hu := ht.after (c := .pciSelectBars) Bool.false_ne_true bars
  change Keeps AckStored (if ¬bars.testBit regBar then _ else _) _
  split_ifs
  · refine checked_keeps (fun _ ht => ht.ackStored) hu (hu.after (c := .pciRequestSelectedRegions bars)
      Bool.false_ne_true) errSelectRegion_undoes ?_
    exact fun v hv => probeDevInit_keeps hv
  · exact (errSelectRegion_undoes err).storeFree.keeps hu.ackStored

theorem probe_keeps (h : NoAck s) : Keeps AckStored pciemuProbe s := by
  refine ⟨h.ackStored, fun z _ => ?_⟩
  have ht := h.after (c := .kmalloc) Bool.false_ne_true z
  change Keeps AckStored (if z = 0 then _ else _) _
  split_ifs
  · exact ht.ackStored
  · refine checked_keeps (fun _ ht => ht.ackStored) ht (ht.after (c := .pciEnableDevice) Bool.false_ne_true)
      errPciEnable_undoes ?_
    intro u hu
    refine ⟨hu.ackStored, fun err _ => ?_⟩
    have hv := hu.after (c := .dmaSetMaskAndCoherent) Bool.false_ne_true err
    change Keeps AckStored (if err ≠ 0 then _ else _) _
    split_ifs
    · exact (errDmaSetMask_undoes err).storeFree.keeps hv.ackStored
    · exact probeSelectBars_keeps err hv

end Stored

section Filled

variable {T : Type}

def Stage.filled : Stage → DmaField → Bool
  | .readPage, f => f = .page
  | .lock, f => f = .page
  | .structInit, f => f = .page
  | .mapPage, f => f ≠ .dmaHandle
  | _, _ => false

structure FilledBy (s : System T) (filled : DmaField → Bool) : Prop where
  stage : ∀ t f, (s.thread t).stage.filled f → filled f
  maps : ∀ e ∈ s.log, e.maps → ∀ f, filled f

variable {s s' : System T} {g g' : DmaField → Bool}

theorem FilledBy.of_eq (h : FilledBy s g) (hg : ∀ f, g f → g' f) (hth : s'.thread = s.thread)
    (hlog : ∀ e ∈ s'.log, e.maps → e ∈ s.log) : FilledBy s' g' :=
  ⟨fun t f hf => hg f (h.stage t f (hth ▸ hf)), fun e he hm f => hg f (h.maps e (hlog e he hm) hm f)⟩

theorem mem_of_maps {log : List KernelEvent} {e' : KernelEvent} (he' : ¬e'.maps) :
    ∀ e ∈ log ++ [e'], e.maps → e ∈ log := by
  intro e he hm
  obtain he | he := List.mem_append.mp he
  · exact he
  · exact absurd (List.mem_singleton.mp he ▸ hm) he'

theorem iowrite32_maps (bus : Bus) (s : System T) (source : Source) (addr : UInt64) (val : UInt32) :
    ∀ e ∈ (s.iowrite32 bus source addr val).log, e.maps → e ∈ s.log := by
  intro e he hm
  obtain he | he := List.mem_append.mp he
  · exact he
  · obtain ⟨c, -, rfl⟩ := List.mem_map.mp he
    exact absurd hm Bool.false_ne_true

theorem FilledBy.mapPage (h : FilledBy s g) {t : T} (hst : (s.thread t).stage = .mapPage) (handle : Option UInt64)
    (f : DmaField) : (g f || Action.fills s (.dmaMapPage t handle) f) = true := by
  have hstage := h.stage t f
  rw [hst] at hstage
  cases f with
  | dmaHandle => exact Bool.or_true _
  | page => rw [hstage rfl, Bool.true_or]
  | len => rw [hstage rfl, Bool.true_or]
  | completion => rw [hstage rfl, Bool.true_or]

theorem FilledBy.irq {bus : Bus} (h : FilledBy s g) (hg : ∀ f, g f → g' f) (hi : Irq bus s s') : FilledBy s' g' := by
  cases hi with
  | enter source rest hh hp => exact h.of_eq hg rfl (mem_of_maps Bool.false_ne_true)
  | unmap source hh => exact h.of_eq hg rfl (mem_of_maps Bool.false_ne_true)
  | putPage source hh => exact h.of_eq hg rfl (mem_of_maps Bool.false_ne_true)
  | ack source hh => exact h.of_eq hg rfl (iowrite32_maps bus _ source _ _)
  | complete source hh => exact h.of_eq hg rfl fun e he _ => he

variable [DecidableEq T]

theorem FilledBy.update (h : FilledBy s g) (hg : ∀ f, g f → g' f) {t : T} {th : Thread}
    (hth : s'.thread = Function.update s.thread t th) (ht : ∀ f, th.stage.filled f → g' f)
    (hlog : ∀ e ∈ s'.log, e.maps → e ∈ s.log ∨ ∀ f, g' f) : FilledBy s' g' where
  stage := by
    rw [hth]
    exact (Function.forall_update_iff s.thread fun _ th => ∀ f, th.stage.filled f → g' f).mpr
      ⟨ht, fun t' _ f hf => hg f (h.stage t' f hf)⟩
  maps := by
    intro e he hm f
    obtain hold | hnew := hlog e he hm
    · exact hg f (h.maps e hold hm f)
    · exact hnew f

theorem pciemuIoctl_filled (call : ℕ) (cmd : UInt32) (vaddr : UInt64) (f : DmaField) :
    ¬(pciemuIoctl call cmd vaddr).stage.filled f := by
  unfold pciemuIoctl
  dsimp only
  split_ifs <;> exact Bool.false_ne_true

theorem FilledBy.turn (h : FilledBy s g) {t : T} {a : Action T} {th : Thread} {dma : PciemuDma T}
    {es : List KernelEvent} (ht : Turn s.dma t (s.thread t) a th dma es) :
    FilledBy (s.turn t th dma es) fun f => g f || a.fills s f := by
  have hg (f : DmaField) (hf : g f) : (g f || a.fills s f) = true := by rw [hf, Bool.true_or]
  have hkeep (hst : ∀ f, th.stage.filled f → (s.thread t).stage.filled f) (f : DmaField) (hf : th.stage.filled f) :
      (g f || a.fills s f) = true := hg f (h.stage t f (hst f hf))
  refine h.update hg rfl ?_ ?_
  · cases ht with
    | pinned p hs =>
      intro f hf
      rw [of_decide_eq_true hf]
      exact Bool.or_true _
    | readPage hs => exact hkeep fun f hf => by rwa [hs]
    | lock hs hfree => exact hkeep fun f hf => by rwa [hs]
    | structInit hs =>
      intro f hf
      have hinit : decide ((s.thread t).stage = .structInit) = true := decide_eq_true hs
      cases f with
      | page => exact hg .page (h.stage t .page (by rw [hs]; rfl))
      | dmaHandle => exact absurd hf Bool.false_ne_true
      | len => rw [Action.fills, hinit, Bool.or_true]
      | completion => rw [Action.fills, hinit, Bool.or_true]
    | _ => exact fun f hf => absurd hf Bool.false_ne_true
  · intro e he hm
    obtain he | he := List.mem_append.mp he
    · exact .inl he
    · right
      cases ht with
      | mapFailed hs => exact h.mapPage hs none
      | mapped p hs => exact h.mapPage hs (some p)
      | _ => simp_all [KernelEvent.maps]

theorem filledBy_step {bus : Bus} {a : Action T} (h : FilledBy s g) (hs : step bus s a = some s') :
    FilledBy s' fun f => g f || a.fills s f := by
  have hg (f : DmaField) (hf : g f) : (g f || a.fills s f) = true := by rw [hf, Bool.true_or]
  cases step_move bus s hs with
  | ioctl t cmd vaddr hst =>
    exact h.update hg rfl (fun f hf => absurd hf (pciemuIoctl_filled _ _ _ f)) fun e he _ => .inl he
  | turn t ht => exact h.turn ht
  | iowrite t n w hst hw =>
    refine h.update hg rfl ?_ fun e he hm => .inl (iowrite32_maps bus s _ w.1 w.2 e he hm)
    intro f hf
    refine absurd hf ?_
    dsimp only
    split_ifs <;> exact Bool.false_ne_true
  | irq hi => exact h.irq hg hi
  | mmapRaise val => exact h.of_eq hg rfl fun e he _ => he

end Filled

section Handler

variable {T : Type} {s : Lifetime T}

structure Lifetime.Inv (s : Lifetime T) : Prop where
  code : Keeps AckStored s.code s.life
  filled : FilledBy s.sys s.filled

theorem Keeps.now {I : Life → Prop} {p : Code ℤ} {l : Life} (h : Keeps I p l) : I l := by
  cases p with
  | ret a => exact h
  | call c next => exact h.1

theorem Lifetime.Inv.valid (h : s.Inv) (hs : s.InService) : s.Valid := by
  obtain ⟨⟨e, he, hack⟩, hunmap, e', he', hmap⟩ := hs
  obtain ⟨p, hp, hne, hd⟩ := h.code.now e he hack
  refine ⟨⟨p, hp, hne, fun z hz => hunmap _ hz rfl, ?_⟩, h.filled.maps e' he' hmap⟩
  have hsize : (irqDmaAckAddr.toNat : ℤ) < regBarSize.toNat := by decide
  rw [hd]
  omega

theorem start_inv (garbage : Field → ℤ) (dma : PciemuDma T) (hw : Machine) : (Lifetime.start garbage dma hw).Inv where
  code := probe_keeps fun _ he => absurd he List.not_mem_nil
  filled := ⟨fun _ _ hf => absurd hf Bool.false_ne_true, fun _ he => absurd he List.not_mem_nil⟩

theorem onSystem_filledBy {sys : System T} {g : DmaField → Bool} (h : FilledBy sys g) (c : KernelCall) :
    FilledBy (c.onSystem sys) g := by
  cases c with
  | mutexInit => exact ⟨h.stage, h.maps⟩
  | _ => exact h

variable [DecidableEq T] {bus : Bus}

theorem inv_step {a : LifeAction T} {t : Lifetime T} (h : s.Inv) (ht : s.step bus a = some t) : t.Inv := by
  cases a with
  | call z =>
    obtain ⟨life, code, removing, sys, filled⟩ := s
    cases code with
    | ret r => cases ht
    | call c next =>
      obtain ⟨⟨hz, -⟩, ht⟩ := Option.ite_none_right_eq_some.mp ht
      obtain rfl := Option.some.inj ht
      exact ⟨h.code.2 z hz, onSystem_filledBy h.filled c⟩
  | remove =>
    simp only [Lifetime.step] at ht
    split at ht
    · obtain ⟨-, ht⟩ := Option.ite_none_left_eq_some.mp ht
      obtain rfl := Option.some.inj ht
      have hremove : Undoes (fun _ => True) (pciemuRemove >>= fun _ => (pure 0 : Code ℤ)) :=
        .bind (remove_undoes.mono (fun _ _ h => h) (fun _ h => h) fun _ h => h)
      exact ⟨hremove.storeFree.keeps h.code.now, h.filled⟩
    · cases ht
  | driver a =>
    obtain ⟨-, ht⟩ := Option.ite_none_right_eq_some.mp ht
    obtain ⟨sys, hsys, rfl⟩ := Option.map_eq_some_iff.mp ht
    exact ⟨h.code, filledBy_step h.filled hsys⟩

theorem handler_data_valid (bus : Bus) (garbage : Field → ℤ) (dma : PciemuDma T) (hw : Machine)
    (as : List (LifeAction T))
    (h : Along (Lifetime.step bus) (fun _ _ t => t.Runnable bus → t.InService) (.start garbage dma hw) as) :
    Along (Lifetime.step bus) (fun _ _ t => t.Runnable bus → t.Valid) (.start garbage dma hw) as := by
  apply along_invariant (I := Lifetime.Inv) _ as (start_inv garbage dma hw) h
  intro s a t hs ht hservice
  have hinv := inv_step hs ht
  exact ⟨hinv, fun hrun => hinv.valid (hservice hrun)⟩

end Handler

instance {T : Type} (bus : Bus) (s : Lifetime T) : Decidable (s.Runnable bus) :=
  inferInstanceAs (Decidable (s.life.Registered ∧ (pciemuIrqHandler bus s.sys).isSome))

instance {T : Type} (s : Lifetime T) : Decidable s.InService :=
  inferInstanceAs (Decidable ((∃ e ∈ s.life.log, e.1.storesAck) ∧ (∀ e ∈ s.life.log, ¬e.1.unmaps) ∧
    ∃ e ∈ s.sys.log, e.maps))

def probing : List (LifeAction Unit) :=
  [1, 0, 0, 0, 13, 0, 4096, 0, 8192, 0, 12288, 0, 0, 0, 0, 1, 8, 4, 5, 40, 0, 0].map .call

def probed : List (LifeAction Unit) := probing ++ [4096, 0, 0].map .call

def kmalloced : Lifetime Unit := .start (fun _ => 7) ⟨7, 7, 7, .toDevice, 7, none, none⟩ (justProbed Unit).hw

theorem handler_data_valid_transfer :
    let ioctl : List (Action Unit) :=
      .ioctl () ioctlDmaToDevice 0x1000 :: .getUserPagesFast () (some 1) :: programming () 0x1000
    let as := probed ++ ioctl.map .driver
    ((Runs.run (Lifetime.step copyBus) kmalloced as).map fun s => decide (s.Runnable copyBus)) = some true ∧
      Along (Lifetime.step copyBus) (fun _ _ t => t.Runnable copyBus → t.Valid) kmalloced as := by
  intro ioctl as
  exact ⟨by decide, handler_data_valid copyBus _ _ _ as (by decide)⟩

theorem handler_data_stray :
    let as := probing ++ [.driver (.mmapRaise 1)]
    ∃ s, Runs.run (Lifetime.step copyBus) kmalloced as = some s ∧ s.Runnable copyBus ∧
      s.life.dev .mmioAckIrq = 7 ∧ ¬s.Valid := by
  intro as
  have hrun : (Runs.run (Lifetime.step copyBus) kmalloced as).map (fun s => (decide (s.Runnable copyBus),
      s.life.dev .mmioAckIrq, s.filled .page)) = some (true, 7, false) := by decide
  obtain ⟨s, hs, he⟩ := Option.map_eq_some_iff.mp hrun
  obtain ⟨hr, hack, hpage⟩ : decide (s.Runnable copyBus) = true ∧ s.life.dev .mmioAckIrq = 7 ∧
      s.filled .page = false := by simpa only [Prod.mk.injEq] using he
  refine ⟨s, hs, of_decide_eq_true hr, hack, fun hv => ?_⟩
  exact Bool.false_ne_true (hpage.symm.trans (hv.dma .page))

end Pciemu.Driver
