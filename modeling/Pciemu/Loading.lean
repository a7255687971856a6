import Mathlib.Data.Fintype.Defs
import Pciemu.Unwinding
import Pciemu.Runs

namespace Pciemu.Driver

open Programs Runs

/-- `setDevnode` stands for the store to the class; `class_create` answers with the error of its
pointer, zero where there is none. -/
inductive ModuleCall
  | classCreate
  | setDevnode
  | pciRegisterDriver
  | pciUnregisterDriver
  | classDestroy
  deriving DecidableEq

abbrev ModuleCode (α : Type) := Prog ModuleCall ℤ α

def errPci (err : ℤ) : ModuleCode ℤ := do
  let _ ← request .classDestroy
  return err

def initRegisterDriver : ModuleCode ℤ := do
  let err ← request .pciRegisterDriver
  if err ≠ 0 then errPci err else return 0

def initDevnode : ModuleCode ℤ := do
  let _ ← request .setDevnode
  initRegisterDriver

def pciemuModuleInit : ModuleCode ℤ := do
  let err ← request .classCreate
  if err ≠ 0 then return err else initDevnode

def exitClassDestroy : ModuleCode Unit := do
  let _ ← request .classDestroy

def pciemuModuleExit : ModuleCode Unit := do
  let _ ← request .pciUnregisterDriver
  exitClassDestroy

inductive Binding
  | unbound
  | probing (k : KernelCall → ℤ) (code : Code ℤ)
  | bound (k : KernelCall → ℤ)
  | removing (k : KernelCall → ℤ) (code : Code Unit)

def Binding.isUnbound : Binding → Bool
  | .unbound => true
  | _ => false

theorem isUnbound_iff {b : Binding} : b.isUnbound ↔ b = .unbound := by
  cases b <;> simp [Binding.isUnbound]

/-- The PCI core takes a positive result of probe for success. -/
def Binding.probed (k : KernelCall → ℤ) : Code ℤ → Binding
  | .ret rc => if 0 ≤ rc then .bound k else .unbound
  | .call c next => .probing k (.call c next)

def Binding.removed (k : KernelCall → ℤ) : Code Unit → Binding
  | .ret _ => .unbound
  | .call c next => .removing k (.call c next)

structure Slot where
  life : Life
  binding : Binding

def Slot.call (x : Slot) : Option Slot :=
  match x.binding with
  | .probing k (.call c next) =>
    let z := x.life.answer k c
    some ⟨x.life.after c z, .probed k (next z)⟩
  | .removing k (.call c next) =>
    let z := x.life.answer k c
    some ⟨x.life.after c z, .removed k (next z)⟩
  | _ => none

inductive ModuleStage
  | unloaded
  | init (code : ModuleCode ℤ)
  | loaded
  | exit (code : ModuleCode Unit)

def ModuleStage.initialised : ModuleCode ℤ → ModuleStage
  | .ret err => if 0 ≤ err then .loaded else .unloaded
  | .call c next => .init (.call c next)

def ModuleStage.exited : ModuleCode Unit → ModuleStage
  | .ret _ => .unloaded
  | .call c next => .exit (.call c next)

-- `pci_register_driver` binds the devices that are there before it returns
def ModuleStage.mayProbe : ModuleStage → Bool
  | .init (.call .pciRegisterDriver _) => true
  | .loaded => true
  | _ => false

structure PciemuClass where
  devnode : Bool
  deriving DecidableEq

def ModuleCall.onClass (z : ℤ) (cls : Option PciemuClass) : ModuleCall → Option PciemuClass
  | .classCreate => if z = 0 then some ⟨false⟩ else cls
  | .setDevnode => cls.map fun _ => ⟨true⟩
  | .classDestroy => none
  | _ => cls

def ModuleCall.onRegistered (z : ℤ) (registered : Bool) : ModuleCall → Bool
  | .pciRegisterDriver => if z = 0 then true else registered
  | .pciUnregisterDriver => false
  | _ => registered

structure Loaded (D : Type) where
  stage : ModuleStage
  pciemuClass : Option PciemuClass
  registered : Bool
  slot : D → Slot

inductive LoadAction (D : Type)
  | insmod
  | rmmod
  | moduleCall (answer : ℤ)
  | probe (d : D) (k : KernelCall → ℤ) (garbage : Field → ℤ)
  | remove (d : D)
  | deviceCall (d : D)

section Loading

variable {D : Type} [DecidableEq D]

def Loaded.setSlot (s : Loaded D) (d : D) (x : Slot) : Loaded D := { s with slot := Function.update s.slot d x }

theorem setSlot_setSlot (s : Loaded D) (d : D) (x y : Slot) : (s.setSlot d x).setSlot d y = s.setSlot d y := by
  rw [Loaded.setSlot, Loaded.setSlot, Loaded.setSlot, Function.update_idem]

theorem setSlot_self (s : Loaded D) (d : D) : s.setSlot d (s.slot d) = s := by
  rw [Loaded.setSlot, Function.update_eq_self]

theorem setSlot_slot (s : Loaded D) (d : D) (x : Slot) : (s.setSlot d x).slot d = x := Function.update_self ..

variable [Fintype D]

def Loaded.start : Loaded D := ⟨.unloaded, none, false, fun _ => ⟨⟨fun _ => 0, []⟩, .unbound⟩⟩

def Loaded.quiet (s : Loaded D) : Bool := decide (∀ d, (s.slot d).binding.isUnbound)

/-- The driver is taken off every device before `pci_unregister_driver` returns, and before
`pci_register_driver` returns with an error. -/
def Loaded.mayReturn (s : Loaded D) (z : ℤ) : ModuleCall → Bool
  | .pciUnregisterDriver => s.quiet
  | .pciRegisterDriver => z = 0 || s.quiet
  | _ => true

def Loaded.afterCall (s : Loaded D) (c : ModuleCall) (z : ℤ) (stage : ModuleStage) : Loaded D :=
  ⟨stage, c.onClass z s.pciemuClass, c.onRegistered z s.registered, s.slot⟩

def Loaded.step (s : Loaded D) : LoadAction D → Option (Loaded D)
  | .insmod => match s.stage with
    | .unloaded => some { s with stage := .init pciemuModuleInit }
    | _ => none
  | .rmmod => match s.stage with
    | .loaded => some { s with stage := .exit pciemuModuleExit }
    | _ => none
  | .moduleCall z => match s.stage with
    | .init (.call c next) => if s.mayReturn z c then some (s.afterCall c z (.initialised (next z))) else none
    | .exit (.call c next) => if s.mayReturn z c then some (s.afterCall c z (.exited (next z))) else none
    | _ => none
  | .probe d k garbage =>
    if s.stage.mayProbe ∧ (s.slot d).binding.isUnbound then
      some (s.setSlot d ⟨⟨garbage, (s.slot d).life.log⟩, .probing k pciemuProbe⟩)
    else none
  | .remove d => match (s.slot d).binding with
    | .bound k => some (s.setSlot d ⟨(s.slot d).life, .removing k pciemuRemove⟩)
    | _ => none
  | .deviceCall d => (s.slot d).call.map (s.setSlot d)

end Loading

section Errno

def KernelCall.checked : KernelCall → Bool
  | .pciEnableDevice | .dmaSetMaskAndCoherent | .pciRequestSelectedRegions _ | .allocChrdevRegion | .cdevAdd
  | .deviceCreate | .requestIrq _ | .fallOff => true
  | _ => false

def Errno (c : KernelCall) (z : ℤ) : Prop := c.checked → z ≤ 0

structure Obliging (k : KernelCall → ℤ) (garbage : Field → ℤ) : Prop extends Sound k garbage where
  errno : ∀ c, Errno c (k c)

abbrev NotPositive (p : Code ℤ) : Prop := p.Within Errno (fun _ => True) (· ≤ 0)

abbrev Calm (p : Code ℤ) : Prop := p.Within Errno (· ≠ .mutexInit) (· ≤ 0)

theorem Calm.notPositive {p : Code ℤ} (h : Calm p) : NotPositive p :=
  h.mono (fun _ _ hz => hz) (fun _ _ => trivial) fun _ hr => hr

theorem undoes_ne_mutexInit {c : KernelCall} (hc : c.undoes) : c ≠ .mutexInit := by
  rintro rfl
  cases hc

theorem Undoes.calm {p : Code ℤ} {err : ℤ} (hp : Undoes (· = err) p) (he : err ≤ 0) : Calm p := by
  refine hp.mono (fun _ _ _ => trivial) (fun _ => undoes_ne_mutexInit) ?_
  rintro _ rfl
  exact he

theorem irqRequest_calm : Calm irqRequest := by
  refine ⟨by simp, fun irq _ => ⟨by simp, fun _ _ => ?_⟩⟩
  change Calm (ite _ _ _)
  have he : -einval ≤ 0 := by decide
  split_ifs
  · exact ⟨by simp, fun _ _ => he⟩
  · refine ⟨by simp, fun err herr => ?_⟩
    change Calm (ite _ _ _)
    split_ifs
    · exact ⟨by simp, fun _ _ => herr rfl⟩
    · exact ⟨by simp, fun _ _ => ⟨by simp, fun _ _ => le_refl 0⟩⟩

theorem irqEnable_calm (cap : Capability) : Calm (irqEnable cap) := by
  refine ⟨by simp, fun count _ => ⟨by simp, fun cpus _ => ⟨by simp, fun vecs _ => ?_⟩⟩⟩
  change Calm (ite _ _ (ite _ _ _))
  have he : -enospc ≤ 0 := by decide
  split_ifs
  · exact he
  · exact ⟨by simp, fun _ _ => he⟩
  · exact irqRequest_calm

theorem pciemuIrqEnable_calm : Calm pciemuIrqEnable := by
  refine ⟨by simp, fun msix _ => ?_⟩
  change Calm (ite _ _ _)
  split_ifs
  · exact irqEnable_calm .msix
  · refine ⟨by simp, fun msi _ => ?_⟩
    change Calm (if msi ≠ 0 then pciemuIrqEnableMsi else request .fallOff)
    split_ifs
    · exact irqEnable_calm .msi
    · exact ⟨by simp, fun _ hz => hz rfl⟩

theorem mapBar_calm {f : Field} {bar : ℕ} {next : Code ℤ} (h : Calm next) : Calm (mapBar f bar next) := by
  refine ⟨by simp, fun mmio _ => ⟨by simp, fun _ _ => ?_⟩⟩
  change Calm (ite _ _ _)
  split_ifs
  · have hclean : Undoes (· = -enomem) (pciemuDevClean >>= fun _ => pure (-enomem)) := devClean_undoes rfl
    exact hclean.calm (by decide)
  · exact h

theorem devInit_calm : Calm pciemuDevInit := mapBar_calm (mapBar_calm (mapBar_calm (le_refl (0 : ℤ))))

theorem ite_notPositive {err : ℤ} {label : ℤ → Code ℤ} {next : Code ℤ} (he : err ≤ 0)
    (hlabel : ∀ err, Undoes (· = err) (label err)) (hnext : NotPositive next) :
    NotPositive (if err ≠ 0 then label err else next) := by
  split_ifs
  · exact ((hlabel err).calm he).notPositive
  · exact hnext

theorem checked_notPositive {c : KernelCall} {label : ℤ → Code ℤ} {next : Code ℤ} (hc : c.checked)
    (hlabel : ∀ err, Undoes (· = err) (label err)) (hnext : NotPositive next) :
    NotPositive (request c >>= fun err => if err ≠ 0 then label err else next) :=
  ⟨trivial, fun _ hz => ite_notPositive (hz hc) hlabel hnext⟩

theorem probeIrqEnable_notPositive : NotPositive probeIrqEnable := by
  refine .bind (pciemuIrqEnable_calm.notPositive.mono (fun _ _ hz => hz) (fun _ h => h) ?_)
  intro err he
  exact ite_notPositive he errIrqEnable_undoes ⟨trivial, fun _ _ => le_refl 0⟩

theorem probeAllocChrdev_notPositive : NotPositive probeAllocChrdev :=
  checked_notPositive rfl errAllocChrdev_undoes <| checked_notPositive rfl errCdevAdd_undoes <|
    checked_notPositive rfl errDeviceCreate_undoes probeIrqEnable_notPositive

theorem probeDevInit_notPositive : NotPositive probeDevInit := by
  refine .bind (devInit_calm.notPositive.mono (fun _ _ hz => hz) (fun _ h => h) ?_)
  intro err he
  exact ite_notPositive he errDevInit_undoes probeAllocChrdev_notPositive

theorem probeSelectBars_notPositive {err : ℤ} (he : err ≤ 0) : NotPositive (probeSelectBars err) := by
  refine ⟨trivial, fun _ _ => ⟨trivial, fun memBars _ => ?_⟩⟩
  change NotPositive (ite _ _ _)
  split_ifs
  · exact checked_notPositive rfl errSelectRegion_undoes probeDevInit_notPositive
  · exact ((errSelectRegion_undoes err).calm he).notPositive

theorem probeDmaSetMask_notPositive : NotPositive probeDmaSetMask :=
  ⟨trivial, fun _ he => ite_notPositive (he rfl) errDmaSetMask_undoes (probeSelectBars_notPositive (he rfl))⟩

theorem pciemuProbe_notPositive : NotPositive pciemuProbe := by
  refine ⟨trivial, fun pciemuDev _ => ?_⟩
  change NotPositive (ite _ _ _)
  split_ifs
  · exact show -enomem ≤ 0 by decide
  · exact checked_notPositive rfl errPciEnable_undoes probeDmaSetMask_notPositive

theorem answer_errno {k : KernelCall → ℤ} (hk : ∀ c, Errno c (k c)) (s : Life) (c : KernelCall) :
    Errno c (s.answer k c) := by
  cases c <;> first | exact hk _ | exact fun hc => nomatch hc

theorem probe_le (k : KernelCall → ℤ) (hk : ∀ c, Errno c (k c)) (s : Life) : (exec k pciemuProbe s).1 ≤ 0 :=
  pciemuProbe_notPositive.exec (answer_errno hk) s

end Errno

section Balanced

variable {k : KernelCall → ℤ} {s : Life}

theorem probe_settled (h : s.held = some 0) (hk : Sound k s.dev) : Settled k (exec k pciemuProbe s) := by
  rw [pciemuProbe, exec_request _ _ _ _ rfl]
  by_cases hz : k .kmalloc = 0
  · rw [if_pos hz]
    have he : -enomem ≠ 0 := by decide
    exact .inr ⟨he, (Life.held_neither (c := .kmalloc) (if_neg (not_not.mpr hz))).trans h⟩
  · rw [if_neg hz]
    have ht : (s.after .kmalloc (k .kmalloc)).held = some (.pciemuDev ::ₘ 0) :=
      Life.held_acquire (c := .kmalloc) h (if_pos hz)
    rw [probeEnableDevice, exec_request _ _ _ _ rfl]
    by_cases h1 : k .pciEnableDevice = 0
    · rw [if_neg (not_not.mpr h1)]
      refine (probeDmaSetMask_settled (Life.held_acquire (c := .pciEnableDevice) ht (if_pos h1))).mpr fun h2 => ?_
      exact ⟨hk.selected hz h1 h2, fun h3 => ⟨hk.clean hz h1 h2 h3, hk.capable hz h1 h2 h3⟩⟩
    · rw [if_pos h1]
      refine (errPciEnable_undoes _).settled h1 (errPciEnable_held ?_)
      exact (Life.held_neither (c := .pciEnableDevice) (if_neg h1)).trans ht

def Slot.Balanced (x : Slot) : Prop :=
  match x.binding with
  | .unbound => x.life.held = some 0
  | .probing k code => .probed k code = Binding.probing k code ∧
    ∃ u : Life, u.held = some 0 ∧ Obliging k u.dev ∧ exec k code x.life = exec k pciemuProbe u
  | .bound k => x.life.held = some (everything k) ∧ (exec k pciemuRemove x.life).2.held = some 0
  | .removing k code => .removed k code = Binding.removing k code ∧ (exec k code x.life).2.held = some 0

theorem Slot.Balanced.held {x : Slot} (h : x.Balanced) : x.life.held ≠ none := by
  obtain ⟨life, binding⟩ := x
  intro hn
  cases binding with
  | unbound => cases hn.symm.trans h
  | bound k => cases hn.symm.trans h.1
  | removing k code => cases (exec_held_none code hn).symm.trans h.2
  | probing k code =>
    obtain ⟨-, u, hu, hk, he⟩ := h
    apply not_settled_of_none _ (probe_settled hu hk.toSound)
    rw [← he]
    exact exec_held_none code hn

theorem probed_balanced {code : Code ℤ} {u : Life} (hu : u.held = some 0) (hk : Obliging k u.dev)
    (he : exec k code s = exec k pciemuProbe u) : Slot.Balanced ⟨s, .probed k code⟩ := by
  cases code with
  | call c next => exact ⟨rfl, u, hu, hk, he⟩
  | ret rc =>
    -- the code has come to its end with what probe returns
    have hsettled := probe_settled hu hk.toSound
    have hle := probe_le k hk.errno u
    rw [← he] at hsettled hle
    rcases hsettled with ⟨h0, hheld, hremove⟩ | ⟨hne, hheld⟩
    · have h0 : rc = 0 := h0
      rw [Binding.probed, if_pos h0.ge]
      exact ⟨hheld, hremove⟩
    · have hlt : rc < 0 := lt_of_le_of_ne hle hne
      rw [Binding.probed, if_neg (not_le.mpr hlt)]
      exact hheld

theorem removed_balanced {code : Code Unit} (h : (exec k code s).2.held = some 0) :
    Slot.Balanced ⟨s, .removed k code⟩ := by
  cases code with
  | call c next => exact ⟨rfl, h⟩
  | ret _ => exact h

theorem Slot.call_cases {x y : Slot} (h : x.call = some y) : (∃ k c next, x.binding = .probing k (.call c next) ∧
      y = ⟨x.life.after c (x.life.answer k c), .probed k (next (x.life.answer k c))⟩) ∨
    ∃ k c next, x.binding = .removing k (.call c next) ∧
      y = ⟨x.life.after c (x.life.answer k c), .removed k (next (x.life.answer k c))⟩ := by
  rw [Slot.call] at h
  split at h
  · exact .inl ⟨_, _, _, ‹_›, (Option.some.inj h).symm⟩
  · exact .inr ⟨_, _, _, ‹_›, (Option.some.inj h).symm⟩
  · cases h

theorem Slot.Balanced.call {x y : Slot} (hx : x.Balanced) (h : x.call = some y) : y.Balanced := by
  rw [Slot.Balanced] at hx
  rcases Slot.call_cases h with ⟨k, c, next, hb, rfl⟩ | ⟨k, c, next, hb, rfl⟩
  · rw [hb] at hx
    obtain ⟨-, u, hu, hk, he⟩ := hx
    exact probed_balanced hu hk he
  · rw [hb] at hx
    exact removed_balanced hx.2

end Balanced

section Consistent

inductive Consistent (quiet : Bool) : ModuleStage → Option PciemuClass → Bool → Prop
  | unloaded (h : quiet) : Consistent quiet .unloaded none false
  | starting (h : quiet) : Consistent quiet (.init pciemuModuleInit) none false
  | created (h : quiet) : Consistent quiet (.init initDevnode) (some ⟨false⟩) false
  | registering : Consistent quiet (.init initRegisterDriver) (some ⟨true⟩) false
  | failed (err : ℤ) (he : err < 0) (h : quiet) : Consistent quiet (.init (errPci err)) (some ⟨true⟩) false
  | loaded : Consistent quiet .loaded (some ⟨true⟩) true
  | unregistering : Consistent quiet (.exit pciemuModuleExit) (some ⟨true⟩) true
  | destroying (h : quiet) : Consistent quiet (.exit exitClassDestroy) (some ⟨true⟩) false

variable {quiet quiet' registered : Bool} {stage : ModuleStage} {cls : Option PciemuClass}

theorem Consistent.of_running (h : Consistent quiet stage cls registered) (hq : ¬quiet) :
    cls = some ⟨true⟩ ∧ Consistent quiet' stage cls registered := by
  cases h with
  | registering => exact ⟨rfl, .registering⟩
  | loaded => exact ⟨rfl, .loaded⟩
  | unregistering => exact ⟨rfl, .unregistering⟩
  | _ => contradiction

theorem Consistent.of_mayProbe (h : Consistent quiet stage cls registered) (hp : stage.mayProbe) :
    Consistent quiet' stage cls registered := by
  cases h with
  | registering => exact .registering
  | loaded => exact .loaded
  | _ => cases hp

def ModuleStage.next : ModuleStage → Option ModuleCall
  | .init (.call c _) => some c
  | .exit (.call c _) => some c
  | _ => none

theorem Consistent.classCreate (h : Consistent quiet stage cls registered) (hn : stage.next = some .classCreate) :
    cls = none := by
  cases h with
  | starting hq => rfl
  | _ => cases hn

theorem Consistent.classDestroy (h : Consistent quiet stage cls registered) (hn : stage.next = some .classDestroy) :
    cls.isSome ∧ quiet := by
  cases h with
  | failed err he hq => exact ⟨rfl, hq⟩
  | destroying hq => exact ⟨rfl, hq⟩
  | _ => cases hn

variable {D : Type} [Fintype D]

structure Loaded.Balanced (s : Loaded D) : Prop where
  slot : ∀ d, (s.slot d).Balanced
  stage : Consistent s.quiet s.stage s.pciemuClass s.registered

def Binding.next : Binding → Option KernelCall
  | .probing _ (.call c _) => some c
  | .removing _ (.call c _) => some c
  | _ => none

/-- The class is there, with its function, whenever a node is created or destroyed; it is destroyed
when no device holds anything, and never created a second time. -/
def Loaded.Proper (s : Loaded D) : LoadAction D → Prop
  | .moduleCall _ =>
    (s.stage.next = some .classCreate → s.pciemuClass = none) ∧
      (s.stage.next = some .classDestroy → s.pciemuClass.isSome ∧ ∀ d, (s.slot d).life.held = some 0)
  | .deviceCall d =>
    (s.slot d).binding.next = some .deviceCreate ∨ (s.slot d).binding.next = some .deviceDestroy →
      s.pciemuClass = some ⟨true⟩
  | _ => True

def LoadAction.Obliging : LoadAction D → Prop
  | .moduleCall z => z ≤ 0
  | .probe _ k garbage => Driver.Obliging k garbage
  | _ => True

theorem Loaded.quiet_iff {s : Loaded D} : s.quiet ↔ ∀ d, (s.slot d).binding = .unbound := by
  rw [quiet, decide_eq_true_iff]
  apply forall_congr'
  intro d
  exact isUnbound_iff

theorem not_quiet {s : Loaded D} {d : D} (h : (s.slot d).binding ≠ .unbound) : ¬s.quiet :=
  fun hq => h (Loaded.quiet_iff.mp hq d)

theorem Loaded.Balanced.held_of_quiet {s : Loaded D} (h : s.Balanced) (hq : s.quiet) (d : D) :
    (s.slot d).life.held = some 0 := by
  have hd := h.slot d
  rw [Slot.Balanced, Loaded.quiet_iff.mp hq d] at hd
  exact hd

theorem initialised_ite {z : ℤ} (hz : z ≤ 0) (code : ModuleCode ℤ) :
    ModuleStage.initialised (if z ≠ 0 then .ret z else code) = if z = 0 then .initialised code else .unloaded := by
  by_cases h0 : z = 0
  · rw [if_neg (not_not.mpr h0), if_pos h0]
  · rw [if_pos h0, if_neg h0, ModuleStage.initialised, if_neg (not_le.mpr (lt_of_le_of_ne hz h0))]

theorem moduleCall_balanced [DecidableEq D] {s t : Loaded D} {z : ℤ} (h : s.Balanced) (hz : z ≤ 0)
    (ht : s.step (.moduleCall z) = some t) : t.Balanced := by
  obtain ⟨stage, cls, registered, slot⟩ := s
  obtain ⟨hslot, hstage⟩ := h
  cases hstage with
  | unloaded hq => cases ht
  | loaded => cases ht
  | starting hq =>
    obtain rfl := Option.some.inj ht
    refine ⟨hslot, ?_⟩
    change Consistent _ (.initialised (if z ≠ 0 then .ret z else initDevnode)) (if z = 0 then some ⟨false⟩ else none) false
    rw [initialised_ite hz]
    by_cases h0 : z = 0
    · rw [if_pos h0, if_pos h0]
      exact .created hq
    · rw [if_neg h0, if_neg h0]
      exact .unloaded hq
  | created hq =>
    obtain rfl := Option.some.inj ht
    exact ⟨hslot, .registering⟩
  | registering =>
    have ht : (if (z = 0 || _) = true then _ else none) = some t := ht
    obtain ⟨hret, ht⟩ := Option.ite_none_right_eq_some.mp ht
    obtain rfl := Option.some.inj ht
    refine ⟨hslot, ?_⟩
    by_cases h0 : z = 0
    · subst h0
      exact .loaded
    · have hq := (Bool.or_eq_true_iff.mp hret).resolve_left (by simpa using h0)
      change Consistent _ (.initialised (if z ≠ 0 then errPci z else .ret 0)) _ (if z = 0 then true else false)
      rw [if_pos h0, if_neg h0]
      exact .failed z (lt_of_le_of_ne hz h0) hq
  | failed err he hq =>
    obtain rfl := Option.some.inj ht
    refine ⟨hslot, ?_⟩
    change Consistent _ (if 0 ≤ err then .loaded else .unloaded) none false
    rw [if_neg (not_le.mpr he)]
    exact .unloaded hq
  | unregistering =>
    obtain ⟨hq, ht⟩ := Option.ite_none_right_eq_some.mp ht
    obtain rfl := Option.some.inj ht
    exact ⟨hslot, .destroying hq⟩
  | destroying hq =>
    obtain rfl := Option.some.inj ht
    exact ⟨hslot, .unloaded hq⟩

theorem moduleCall_proper {s : Loaded D} (h : s.Balanced) (z : ℤ) : s.Proper (.moduleCall z) :=
  ⟨h.stage.classCreate, fun hn => (h.stage.classDestroy hn).imp_right h.held_of_quiet⟩

variable [DecidableEq D]

theorem setSlot_balanced {s : Loaded D} (h : s.Balanced) {d : D} {x : Slot} (hx : x.Balanced)
    (hstage : Consistent (s.setSlot d x).quiet s.stage s.pciemuClass s.registered) : (s.setSlot d x).Balanced := by
  refine ⟨fun e => ?_, hstage⟩
  change (Function.update s.slot d x e).Balanced
  rcases eq_or_ne e d with rfl | hne
  · rw [Function.update_self]
    exact hx
  · rw [Function.update_of_ne hne]
    exact h.slot e

theorem call_running {x y : Slot} (h : x.call = some y) : x.binding ≠ .unbound := by
  rcases Slot.call_cases h with ⟨k, c, next, hb, -⟩ | ⟨k, c, next, hb, -⟩
  · exact fun hn => nomatch hb.symm.trans hn
  · exact fun hn => nomatch hb.symm.trans hn

theorem deviceCall_proper {s t : Loaded D} {d : D} (h : s.Balanced) (ht : s.step (.deviceCall d) = some t) :
    s.Proper (.deviceCall d) := by
  obtain ⟨x, hx, -⟩ := Option.map_eq_some_iff.mp ht
  have hrunning : _ ∧ Consistent s.quiet _ _ _ := h.stage.of_running (not_quiet (call_running hx))
  exact fun _ => hrunning.1

theorem loaded_step_balanced {s t : Loaded D} {a : LoadAction D} (h : s.Balanced) (ha : a.Obliging)
    (ht : s.step a = some t) : t.Balanced ∧ s.Proper a := by
  cases a with
  | insmod =>
    refine ⟨?_, trivial⟩
    obtain ⟨stage, cls, registered, slot⟩ := s
    obtain ⟨hslot, hstage⟩ := h
    cases hstage with
    | unloaded hq =>
      obtain rfl := Option.some.inj ht
      exact ⟨hslot, .starting hq⟩
    | _ => cases ht
  | rmmod =>
    refine ⟨?_, trivial⟩
    obtain ⟨stage, cls, registered, slot⟩ := s
    obtain ⟨hslot, hstage⟩ := h
    cases hstage with
    | loaded =>
      obtain rfl := Option.some.inj ht
      exact ⟨hslot, .unregistering⟩
    | _ => cases ht
  | moduleCall z => exact ⟨moduleCall_balanced h ha ht, moduleCall_proper h z⟩
  | probe d k garbage =>
    refine ⟨?_, trivial⟩
    obtain ⟨⟨hmay, hun⟩, ht⟩ := Option.ite_none_right_eq_some.mp ht
    obtain rfl := Option.some.inj ht
    have hb := isUnbound_iff.mp hun
    have hheld := h.slot d
    rw [Slot.Balanced, hb] at hheld
    -- the books of the device go on where they were
    exact setSlot_balanced h ⟨rfl, ⟨garbage, (s.slot d).life.log⟩, hheld, ha, rfl⟩ (h.stage.of_mayProbe hmay)
  | remove d =>
    refine ⟨?_, trivial⟩
    have hd := h.slot d
    rw [Slot.Balanced] at hd
    cases hb : (s.slot d).binding with
    | bound k =>
      rw [Loaded.step, hb] at ht
      rw [hb] at hd
      obtain rfl := Option.some.inj ht
      have hrun : (s.slot d).binding ≠ .unbound := fun hn => nomatch hb.symm.trans hn
      exact setSlot_balanced h ⟨rfl, hd.2⟩ (h.stage.of_running (not_quiet hrun)).2
    | _ =>
      rw [Loaded.step, hb] at ht
      cases ht
  | deviceCall d =>
    refine ⟨?_, deviceCall_proper h ht⟩
    obtain ⟨x, hx, rfl⟩ := Option.map_eq_some_iff.mp ht
    exact setSlot_balanced h ((h.slot d).call hx) (h.stage.of_running (not_quiet (call_running hx))).2

end Consistent

section Unloading

variable {D : Type}

def LoadAction.unloading : LoadAction D → Bool
  | .rmmod => true
  | .moduleCall z => z ≤ 0
  | .remove _ => true
  | .deviceCall _ => true
  | _ => false

theorem unloading_obliging {bs : List (LoadAction D)} (h : bs.all LoadAction.unloading) : ∀ a ∈ bs, a.Obliging := by
  intro a ha
  have hun := List.all_eq_true.mp h a ha
  cases a with
  | moduleCall z =>
    rw [LoadAction.unloading, decide_eq_true_iff] at hun
    exact hun
  | insmod => cases hun
  | probe d k garbage => cases hun
  | _ => trivial

variable [Fintype D] [DecidableEq D] {s t : Loaded D}

def Loaded.Unloads (s : Loaded D) : Prop :=
  ∃ bs t, bs.all LoadAction.unloading ∧ Runs.run Loaded.step s bs = some t ∧ t.stage = .unloaded

theorem Loaded.Unloads.run {bs : List (LoadAction D)} (hbs : bs.all LoadAction.unloading)
    (hrun : Runs.run Loaded.step s bs = some t) (h : t.Unloads) : s.Unloads := by
  obtain ⟨bs', t', hbs', hrun', ht'⟩ := h
  refine ⟨bs ++ bs', t', ?_, ?_, ht'⟩
  · rw [List.all_append, hbs, hbs', Bool.and_self]
  · rw [run_append, hrun, Option.bind_some, hrun']

theorem Loaded.Unloads.step {a : LoadAction D} (ha : [a].all LoadAction.unloading) (ht : s.step a = some t)
    (h : t.Unloads) : s.Unloads :=
  h.run ha ((run_singleton s a).trans ht)

theorem Loaded.Unloads.of_unloaded (h : s.stage = .unloaded) : s.Unloads := ⟨[], s, rfl, rfl, h⟩

def Loaded.Unbinds (s : Loaded D) (d : D) : Prop :=
  ∃ bs y, bs.all LoadAction.unloading ∧ Runs.run Loaded.step s bs = some (s.setSlot d y) ∧ y.binding = .unbound

theorem Loaded.Unbinds.of_unbound {d : D} (h : (s.slot d).binding = .unbound) : s.Unbinds d :=
  ⟨[], s.slot d, rfl, congrArg some (setSlot_self s d).symm, h⟩

theorem Loaded.Unbinds.step {d : D} {a : LoadAction D} {x : Slot} (ha : a.unloading)
    (ht : s.step a = some (s.setSlot d x)) (h : (s.setSlot d x).Unbinds d) : s.Unbinds d := by
  obtain ⟨bs, y, hbs, hrun, hy⟩ := h
  refine ⟨a :: bs, y, ?_, ?_, hy⟩
  · rw [List.all_cons, ha, hbs, Bool.and_self]
  · rw [run_cons bs ht, hrun, setSlot_setSlot]

theorem step_deviceCall {d : D} {x : Slot} (h : (s.slot d).call = some x) :
    s.step (.deviceCall d) = some (s.setSlot d x) := by
  rw [Loaded.step, h, Option.map_some]

theorem removed_unbinds {k : KernelCall → ℤ} (code : Code Unit) {d : D} (h : (s.slot d).binding = .removed k code) :
    s.Unbinds d := by
  induction code generalizing s with
  | ret _ => exact .of_unbound h
  | call c next ih =>
    let z := (s.slot d).life.answer k c
    have hcall : (s.slot d).call = some ⟨(s.slot d).life.after c z, .removed k (next z)⟩ := by
      rw [Slot.call, h]
      rfl
    refine .step rfl (step_deviceCall hcall) (ih z ?_)
    rw [setSlot_slot]

theorem bound_unbinds {k : KernelCall → ℤ} {d : D} (h : (s.slot d).binding = .bound k) : s.Unbinds d := by
  have hremove : s.step (.remove d) = some (s.setSlot d ⟨(s.slot d).life, .removed k pciemuRemove⟩) := by
    rw [Loaded.step, h]
    rfl
  refine .step rfl hremove (removed_unbinds (k := k) pciemuRemove ?_)
  rw [setSlot_slot]

theorem probed_unbinds {k : KernelCall → ℤ} (code : Code ℤ) {d : D} (h : (s.slot d).binding = .probed k code) :
    s.Unbinds d := by
  induction code generalizing s with
  | ret rc =>
    rw [Binding.probed] at h
    split_ifs at h
    · exact bound_unbinds h
    · exact .of_unbound h
  | call c next ih =>
    let z := (s.slot d).life.answer k c
    have hcall : (s.slot d).call = some ⟨(s.slot d).life.after c z, .probed k (next z)⟩ := by
      rw [Slot.call, h]
      rfl
    refine .step rfl (step_deviceCall hcall) (ih z ?_)
    rw [setSlot_slot]

theorem Loaded.Balanced.unbinds (h : s.Balanced) (d : D) : s.Unbinds d := by
  have hd := h.slot d
  rw [Slot.Balanced] at hd
  cases hb : (s.slot d).binding with
  | unbound => exact .of_unbound hb
  | bound k => exact bound_unbinds hb
  | probing k code =>
    rw [hb] at hd
    exact probed_unbinds code (hb.trans hd.1.symm)
  | removing k code =>
    rw [hb] at hd
    exact removed_unbinds code (hb.trans hd.1.symm)

theorem run_balanced (bs : List (LoadAction D)) (h : s.Balanced) (hbs : ∀ a ∈ bs, a.Obliging)
    (hrun : Runs.run Loaded.step s bs = some t) : t.Balanced := by
  refine run_invariant (P := fun _ a _ => a.Obliging) ?_ bs h (along_of_forall s bs hbs) hrun
  intro s a t hs ht ha
  exact (loaded_step_balanced hs ha ht).1

theorem unbind_all (F : Finset D) (h : s.Balanced) : ∃ bs t, bs.all LoadAction.unloading ∧
    Runs.run Loaded.step s bs = some t ∧ t.stage = s.stage ∧ t.Balanced ∧ ∀ d ∈ F, (t.slot d).binding = .unbound := by
  induction F using Finset.induction_on with
  | empty => exact ⟨[], s, rfl, rfl, rfl, h, nofun⟩
  | insert d F hd ih =>
    obtain ⟨bs, t, hbs, hrun, hstage, ht, hF⟩ := ih
    obtain ⟨bs', y, hbs', hrun', hy⟩ := ht.unbinds d
    refine ⟨bs ++ bs', t.setSlot d y, ?_, ?_, hstage, run_balanced bs' ht (unloading_obliging hbs') hrun', ?_⟩
    · rw [List.all_append, hbs, hbs', Bool.and_self]
    · rw [run_append, hrun, Option.bind_some, hrun']
    · intro e he
      change (Function.update t.slot d y e).binding = .unbound
      rcases eq_or_ne e d with rfl | hne
      · rw [Function.update_self]
        exact hy
      · rw [Function.update_of_ne hne]
        exact hF e ((Finset.mem_insert.mp he).resolve_left hne)

theorem destroy_unloads (hs : s.stage = .exit exitClassDestroy) : s.Unloads := by
  have hdestroy : s.step (.moduleCall 0) = some (s.afterCall .classDestroy 0 .unloaded) := by
    rw [Loaded.step, hs]
    rfl
  exact .step rfl hdestroy (.of_unloaded rfl)

theorem exit_unloads (h : s.Balanced) (hs : s.stage = .exit pciemuModuleExit) : s.Unloads := by
  obtain ⟨bs, t, hbs, hrun, hstage, ht, hall⟩ := unbind_all Finset.univ h
  have hq : t.quiet := Loaded.quiet_iff.mpr fun d => hall d (Finset.mem_univ d)
  have hunregister : t.step (.moduleCall 0) =
      some (t.afterCall .pciUnregisterDriver 0 (.exit exitClassDestroy)) := by
    rw [Loaded.step, hstage, hs]
    exact if_pos hq
  exact .run hbs hrun (.step rfl hunregister (destroy_unloads rfl))

theorem loaded_unloads (h : s.Balanced) (hs : s.stage = .loaded) : s.Unloads := by
  have hrmmod : s.step .rmmod = some { s with stage := .exit pciemuModuleExit } := by rw [Loaded.step, hs]
  exact .step rfl hrmmod (exit_unloads (loaded_step_balanced (a := .rmmod) h trivial hrmmod).1 rfl)

theorem Loaded.Unloads.call (h : s.Balanced) (ht : s.step (.moduleCall 0) = some t) (hnext : t.Balanced → t.Unloads) :
    s.Unloads :=
  .step rfl ht (hnext (moduleCall_balanced h (le_refl 0) ht))

theorem register_unloads (h : s.Balanced) (hs : s.stage = .init initRegisterDriver) : s.Unloads := by
  have hregister : s.step (.moduleCall 0) = some (s.afterCall .pciRegisterDriver 0 .loaded) := by
    rw [Loaded.step, hs]
    rfl
  exact .call h hregister fun ht => loaded_unloads ht rfl

theorem devnode_unloads (h : s.Balanced) (hs : s.stage = .init initDevnode) : s.Unloads := by
  have hdevnode : s.step (.moduleCall 0) = some (s.afterCall .setDevnode 0 (.init initRegisterDriver)) := by
    rw [Loaded.step, hs]
    rfl
  exact .call h hdevnode fun ht => register_unloads ht rfl

theorem init_unloads (h : s.Balanced) (hs : s.stage = .init pciemuModuleInit) : s.Unloads := by
  have hcreate : s.step (.moduleCall 0) = some (s.afterCall .classCreate 0 (.init initDevnode)) := by
    rw [Loaded.step, hs]
    rfl
  exact .call h hcreate fun ht => devnode_unloads ht rfl

theorem failed_unloads {err : ℤ} (he : err < 0) (hs : s.stage = .init (errPci err)) : s.Unloads := by
  have hdestroy : s.step (.moduleCall 0) = some (s.afterCall .classDestroy 0 (if 0 ≤ err then .loaded else .unloaded)) := by
    rw [Loaded.step, hs]
    rfl
  exact .step rfl hdestroy (.of_unloaded (if_neg (not_le.mpr he)))

theorem Loaded.Balanced.unloads (h : s.Balanced) : s.Unloads := by
  have hstage := h.stage
  obtain ⟨stage, hs⟩ : ∃ stage, s.stage = stage := ⟨_, rfl⟩
  rw [hs] at hstage
  generalize s.pciemuClass = cls, s.registered = registered at hstage
  cases hstage with
  | unloaded => exact .of_unloaded hs
  | starting => exact init_unloads h hs
  | created => exact devnode_unloads h hs
  | registering => exact register_unloads h hs
  | failed err he => exact failed_unloads he hs
  | loaded => exact loaded_unloads h hs
  | unregistering => exact exit_unloads h hs
  | destroying => exact destroy_unloads hs

end Unloading

theorem start_balanced {D : Type} [Fintype D] : (Loaded.start : Loaded D).Balanced :=
  ⟨fun _ => rfl, .unloaded (Loaded.quiet_iff.mpr fun _ => rfl)⟩

theorem loading_balanced {D : Type} [Fintype D] [DecidableEq D] (as : List (LoadAction D))
    (h : ∀ a ∈ as, a.Obliging) :
    Along Loaded.step (fun s a _ => s.Proper a) .start as ∧
    ∀ s, Runs.run Loaded.step .start as = some s →
      (∀ d, (s.slot d).life.held ≠ none) ∧
      (∀ d, (s.slot d).binding = .unbound → (s.slot d).life.held = some 0) ∧
      (∀ d k, (s.slot d).binding = .bound k → (s.slot d).life.held = some (everything k)) ∧
      (s.stage = .unloaded → s.pciemuClass = none ∧ s.registered = false ∧
        ∀ d, (s.slot d).binding = .unbound ∧ (s.slot d).life.held = some 0) ∧
      s.Unloads := by
  have hobl : Along Loaded.step (fun _ a _ => a.Obliging) .start as := along_of_forall _ as h
  constructor
  · apply along_invariant (I := Loaded.Balanced) (P := fun _ a _ => a.Obliging) _ as start_balanced hobl
    exact fun s a t hs ht ha => loaded_step_balanced hs ha ht
  · intro s hs
    have hbal := run_balanced as start_balanced h hs
    refine ⟨fun d => (hbal.slot d).held, ?_, ?_, ?_, hbal.unloads⟩
    · intro d hd
      have hslot := hbal.slot d
      rw [Slot.Balanced, hd] at hslot
      exact hslot
    · intro d k hd
      have hslot := hbal.slot d
      rw [Slot.Balanced, hd] at hslot
      exact hslot.1
    · intro hun
      have hstage := hbal.stage
      rw [hun] at hstage
      generalize hc : s.pciemuClass = cls, hr : s.registered = registered at hstage
      cases hstage with
      | unloaded hq => exact ⟨rfl, rfl, fun d => ⟨Loaded.quiet_iff.mp hq d, hbal.held_of_quiet hq d⟩⟩

def obligingKernel : KernelCall → ℤ
  | .kmalloc => 1
  | .pciSelectBars => 13
  | .pciIomap bar => 0x1000 * (bar + 1)
  | .pciFindCapability .msix => 0x40
  | .vecCount _ => 1
  | .pciAllocIrqVectors _ _ => 1
  | .pciIrqVector => 24
  | _ => 0

theorem obligingKernel_obliging (garbage : Field → ℤ) : Obliging obligingKernel garbage where
  selected _ _ _ := show (13 : ℤ).testBit AuroraHw.regBar from rfl
  clean _ _ _ _ := ⟨fun hz => absurd hz (by decide), fun _ hz => absurd hz (by decide)⟩
  capable _ _ _ _ _ _ _ _ := .inl (by decide)
  errno c hc := by
    cases c <;> first | exact le_refl 0 | cases hc

theorem loading_balanced_two :
    let as : List (LoadAction (Fin 2)) := [.insmod, .moduleCall 0, .moduleCall 0, .probe 0 obligingKernel fun _ => 5] ++
      List.replicate 25 (.deviceCall 0) ++ [.moduleCall 0, .probe 1 obligingKernel fun _ => 3] ++
      List.replicate 9 (.deviceCall 1) ++ [.rmmod, .remove 0, .deviceCall 1]
    ∃ s, Runs.run Loaded.step .start as = some s ∧ s.Unloads ∧ (s.slot 0).life.held ≠ none := by
  intro as
  have hsome : (Runs.run Loaded.step .start as).isSome := by decide
  obtain ⟨s, hs⟩ := Option.isSome_iff_exists.mp hsome
  have hobl : ∀ a ∈ as, a.Obliging := by
    simp [as, or_imp, forall_and, LoadAction.Obliging, obligingKernel_obliging]
  obtain ⟨hheld, -, -, -, hun⟩ := (loading_balanced as hobl).2 s hs
  exact ⟨s, hs, hun, hheld 0⟩

end Pciemu.Driver
