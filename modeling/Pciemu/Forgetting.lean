import Pciemu.Exclusion
import Pciemu.Uninitialised

namespace Pciemu.Device

open Bytes AuroraHw Runs

/-- What a run shows of the device: the value of every read, and after every action host memory and
the interrupts it signalled. -/
def behaviour (bus : Bus) (m : Machine) : List Op → List (Option UInt64 × (ℕ → UInt8) × List Event)
  | [] => []
  | op :: ops =>
    (op.returned m, (apply bus m op).host, interrupts ((apply bus m op).log.drop m.log.length)) ::
      behaviour bus (apply bus m op) ops

def Apart (m m' : Machine) : Prop := ∃ irq log, m' = { m with irq := irq, log := log }

theorem Apart.dma {m m' : Machine} (h : Apart m m') : m'.dma = m.dma := by
  obtain ⟨irq, log, rfl⟩ := h
  rfl

theorem Apart.host {m m' : Machine} (h : Apart m m') : m'.host = m.host := by
  obtain ⟨irq, log, rfl⟩ := h
  rfl

structure Parallel (m m' n n' : Machine) : Prop where
  apart : Apart n n'
  log : ∃ es, n.log = m.log ++ es ∧ n'.log = m'.log ++ es

theorem Parallel.trans {m m' n n' k k' : Machine} (h : Parallel m m' n n') (h' : Parallel n n' k k') :
    Parallel m m' k k' := by
  obtain ⟨es, hl, hl'⟩ := h.log
  obtain ⟨fs, hk, hk'⟩ := h'.log
  refine ⟨h'.apart, es ++ fs, ?_, ?_⟩
  · rw [hk, hl, List.append_assoc]
  · rw [hk', hl', List.append_assoc]

section Apart

variable {m m' : Machine} (h : Apart m m')

include h

theorem Apart.refl : Parallel m m' m m' := ⟨h, [], by simp, by simp⟩

theorem Apart.map (f : Machine → Machine) (hf : ∀ irq log, f { m with irq := irq, log := log } =
    { f m with irq := irq, log := log }) (hlog : (f m).log = m.log) : Parallel m m' (f m) (f m') := by
  obtain ⟨irq, log, rfl⟩ := h
  refine ⟨⟨irq, log, hf irq log⟩, [], ?_, ?_⟩
  · rw [hlog, List.append_nil]
  · rw [hf, List.append_nil]

theorem Apart.emits (es : List Event) : Parallel m m' (m.emits es) (m'.emits es) := by
  obtain ⟨irq, log, rfl⟩ := h
  exact ⟨⟨irq, log ++ es, rfl⟩, es, rfl, rfl⟩

theorem Apart.irqStep {n n' : Machine} {es : List Event} (hs : IrqStep m es n) (hs' : IrqStep m' es n') :
    Parallel m m' n n' := by
  obtain ⟨irq, log, rfl⟩ := h
  obtain ⟨i, rfl⟩ := hs
  obtain ⟨i', rfl⟩ := hs'
  exact ⟨⟨i', log ++ es, rfl⟩, es, rfl, rfl⟩

theorem Apart.raise : Parallel m m' (pciemuIrqRaise m irqDmaEndedVector) (pciemuIrqRaise m' irqDmaEndedVector) := by
  obtain ⟨irq, log, rfl⟩ := h
  unfold pciemuIrqRaise
  dsimp only
  split_ifs
  · exact ⟨⟨_, _, rfl⟩, [.msixNotify 0], rfl, rfl⟩
  · exact ⟨⟨_, _, rfl⟩, [.msiNotify 0], rfl, rfl⟩
  · exact ⟨⟨_, _, rfl⟩, [.pciSetIrq 1], rfl, rfl⟩

theorem Apart.lower (vector : ℕ) : Parallel m m' (pciemuIrqLower m vector) (pciemuIrqLower m' vector) := by
  have hmode : m'.msixEnabled = m.msixEnabled ∧ m'.msiEnabled = m.msiEnabled := by
    obtain ⟨irq, log, rfl⟩ := h
    exact ⟨rfl, rfl⟩
  unfold pciemuIrqLower
  rw [hmode.1, hmode.2]
  split_ifs
  · exact h.irqStep (lowerVector_step _ m vector) (lowerVector_step _ m' vector)
  · exact h.irqStep (lowerVector_step _ m vector) (lowerVector_step _ m' vector)
  · exact h.irqStep (lowerIntx_step m) (lowerIntx_step m')

theorem Apart.irqReset : Parallel m m' (pciemuIrqReset m) (pciemuIrqReset m') := by
  have hmode : m'.msixEnabled = m.msixEnabled ∧ m'.msiEnabled = m.msiEnabled := by
    obtain ⟨irq, log, rfl⟩ := h
    exact ⟨rfl, rfl⟩
  unfold pciemuIrqReset
  rw [hmode.1, hmode.2]
  split_ifs
  · exact h.irqStep (foldl_lowerVector_step _ _ m) (foldl_lowerVector_step _ _ m')
  · exact h.irqStep (foldl_lowerVector_step _ _ m) (foldl_lowerVector_step _ _ m')
  · exact h.irqStep (lowerIntx_step m) (lowerIntx_step m')

theorem Apart.access (b : HostBus) (call : Event) :
    Parallel m m' (busAccess b.toBus m call).1 (busAccess b.toBus m' call).1 ∧
      (busAccess b.toBus m' call).2 = (busAccess b.toBus m call).2 := by
  obtain ⟨irq, log, rfl⟩ := h
  cases call with
  | _ => exact ⟨⟨⟨irq, log, rfl⟩, [], by simp [busAccess, HostBus.toBus], by simp [busAccess, HostBus.toBus]⟩, rfl⟩

theorem Apart.doorbell (b : HostBus) (hi : m.dma.status = .idle) :
    Parallel m m' (auroraDmaDoorbellRing b.toBus m) (auroraDmaDoorbellRing b.toBus m') := by
  have hi' : m'.dma.status = .idle := by rw [h.dma, hi]
  cases hc : transferCall m.dma.config with
  | none =>
    rw [doorbell_idle _ m hi, doorbell_idle _ m' hi', execute_eq, execute_eq]
    simp only [Machine.setStatus_dma_config, h.dma, hc]
    have hx := h.map (fun m => m.setStatus .executing) (fun _ _ => rfl) rfl
    have he := hx.apart.emits (refusalReport m.dma.config)
    exact (hx.trans he).trans (he.apart.map (fun m => m.setStatus .idle) (fun _ _ => rfl) rfl)
  | some call =>
    rw [doorbell_transfer _ m hi call hc, doorbell_transfer _ m' hi' call (h.dma ▸ hc)]
    have hx := h.map (fun m => m.setStatus .executing) (fun _ _ => rfl) rfl
    have hr := hx.apart.emits (entryReport m.dma.config)
    have hc := hr.apart.emits [call]
    have hent : Parallel m m' (entered m call) (entered m' call) := by
      unfold entered
      rw [h.dma]
      exact (hx.trans hr).trans hc
    obtain ⟨hacc, herr⟩ := hent.apart.access b call
    dsimp only
    rw [herr]
    have hrep := hacc.apart.emits (errorReport (busAccess b.toBus (entered m call) call).2 call)
    have hraise := hrep.apart.raise
    exact (((hent.trans hacc).trans hrep).trans hraise).trans
      (hraise.apart.map (fun m => m.setStatus .idle) (fun _ _ => rfl) rfl)

theorem Apart.writeReg (b : HostBus) (hi : m.dma.status = .idle) (val : UInt64) (r : Reg) :
    Parallel m m' (writeReg b.toBus m val r) (writeReg b.toBus m' val r) := by
  have hcfg (f : DmaConfig → DmaConfig) : Parallel m m' (configWhenIdle f m) (configWhenIdle f m') := by
    apply h.map (configWhenIdle f)
    · intro irq log
      simp [configWhenIdle, hi, Machine.setConfig]
    · simp [configWhenIdle, hi]
  cases r with
  | scratch i => exact h.map (fun m => m.setReg i val) (fun _ _ => rfl) rfl
  | irqRaise => exact h.raise
  | irqLower => exact h.lower irqDmaEndedVector
  | src => exact hcfg fun c => { c with txdesc := { c.txdesc with src := val } }
  | dst => exact hcfg fun c => { c with txdesc := { c.txdesc with dst := val } }
  | len => exact hcfg fun c => { c with txdesc := { c.txdesc with len := val } }
  | cmd => exact hcfg fun c => { c with cmd := val }
  | doorbell => exact h.doorbell b hi
  | hole => exact h.refl

theorem Apart.apply (b : HostBus) (hi : m.dma.status = .idle) (op : Op) :
    Parallel m m' (apply b.toBus m op) (apply b.toBus m' op) := by
  cases op with
  | read bar addr size => exact h.refl
  | write bar addr val size =>
    simp only [Device.apply, barWrite_eq]
    exact h.writeReg b hi val (decode addr)
  | reset =>
    have hr := h.irqReset
    exact hr.trans (hr.apart.map auroraDmaReset (fun _ _ => rfl) rfl)
  | setMode msix msi =>
    exact h.map (fun m => { m with msixEnabled := msix, msiEnabled := msi }) (fun _ _ => rfl) rfl
  | hostStore host => exact h.map (fun m => { m with host := host }) (fun _ _ => rfl) rfl

end Apart

def Alike (W : Set ℕ) (m m' : Machine) : Prop := ∃ k, Twin W m k ∧ Apart k m'

theorem Twin.log {W : Set ℕ} {m m' : Machine} (h : Twin W m m') : m'.log = m.log := by
  rw [h.eq]
  rfl

theorem Alike.config {W : Set ℕ} {m m' : Machine} (h : Alike W m m') : m'.dma.config = m.dma.config := by
  obtain ⟨k, ht, ha⟩ := h
  rw [ha.dma, ht.config]

theorem Alike.apply {W : Set ℕ} {m m' : Machine} (h : Alike W m m') (b : HostBus) (hi : m.dma.status = .idle)
    (op : Op) (hfit : LengthFits m op) :
    Alike (writtenAfter W op) (apply b.toBus m op) (apply b.toBus m' op) ∧
      (Device.apply b.toBus m' op).host = (Device.apply b.toBus m op).host ∧
      (Device.apply b.toBus m' op).log.drop m'.log.length = (Device.apply b.toBus m op).log.drop m.log.length := by
  obtain ⟨k, ht, ha⟩ := h
  have hnext := ht.apply b hi op hfit
  have hp := ha.apply b (ht.status.trans hi) op
  obtain ⟨es, hk, hk'⟩ := hp.log
  refine ⟨⟨_, hnext, hp.apart⟩, hp.apart.host.trans hnext.host, ?_⟩
  rw [hk', ← hnext.log, hk, ← ht.log, List.drop_left, List.drop_left]

theorem behaviour_agrees {bus ref : Bus} (hb : bus.AgreesWith ref) (ops : List Op) (m : Machine)
    (h : Along (total (apply bus)) (fun m op _ => LengthFits m op) m ops) :
    behaviour bus m ops = behaviour ref m ops := by
  induction ops generalizing m with
  | nil => rfl
  | cons op ops ih =>
    obtain ⟨hop, hrest⟩ := h _ rfl
    rw [apply_agrees hb m op hop] at hrest
    rw [behaviour, behaviour, apply_agrees hb m op hop, ih _ hrest]

theorem behaviour_alike (b : HostBus) (ops : List Op) (W : Set ℕ) (m m' : Machine) (h : Alike W m m')
    (hi : m.dma.status = .idle)
    (hfit : Along (total (apply b.toBus)) (fun m op _ => LengthFits m op) m ops)
    (hw : WrittenBeforeRead W ops) : behaviour b.toBus m' ops = behaviour b.toBus m ops := by
  induction ops generalizing W m m' with
  | nil => rfl
  | cons op ops ih =>
    obtain ⟨hop, hrest⟩ := hfit _ rfl
    obtain ⟨hnext, hhost, hlog⟩ := h.apply b hi op hop
    have hret : op.returned m' = op.returned m := by
      obtain ⟨k, ht, ha⟩ := h
      apply returned_congr op
      intro i hr
      rw [← ht.reg (hw.1 i hr), Machine.reg, ha.dma, Machine.reg]
    have hidle := (apply_idle (toBus_delivers b) m hi op).1
    rw [behaviour, behaviour, hret, hhost, hlog, ih _ _ _ hnext hidle hrest hw.2]

theorem along_alike (b : HostBus) (ops : List Op) (W : Set ℕ) (m m' : Machine) (h : Alike W m m')
    (hi : m.dma.status = .idle)
    (hfit : Along (total (apply b.toBus)) (fun m op _ => LengthFits m op) m ops) :
    Along (total (apply b.toBus)) (fun m op _ => LengthFits m op) m' ops := by
  induction ops generalizing W m m' with
  | nil => exact True.intro
  | cons op ops ih =>
    obtain ⟨hop, hrest⟩ := hfit _ rfl
    intro t ht
    rw [← Option.some.inj ht]
    refine ⟨?_, ih _ _ _ (h.apply b hi op hop).1 (apply_idle (toBus_delivers b) m hi op).1 hrest⟩
    change LengthFits m' op
    simpa only [LengthFits, h.config] using hop

theorem behaviour_observe (bus : Bus) (ops : List Op) (m : Machine) :
    (behaviour bus m ops).map (fun x => (x.1, x.2.1)) = observe bus m ops := by
  induction ops generalizing m with
  | nil => rfl
  | cons op ops ih => rw [behaviour, observe, List.map_cons, ih]

theorem reset_eq (m : Machine) : ∃ irq log, pciemuReset m =
    ⟨m.msixEnabled, m.msiEnabled, irq, ⟨⟨⟨0, 0, 0⟩, 0, m.dma.config.mask⟩, .idle,
      splice m.dma.buff 0 areaSize fun _ => 0⟩, m.host, log⟩ := by
  obtain ⟨es, ⟨irq, h⟩, -⟩ := irqReset_step m
  refine ⟨irq, m.log ++ es, ?_⟩
  rw [pciemuReset, h]
  rfl

theorem reset_reg (m : Machine) (i : ℕ) : (pciemuReset m).reg i = m.reg i := by
  obtain ⟨irq, log, h⟩ := reset_eq m
  rw [h]
  apply wordAt_congr
  intro j hj
  exact splice_outside m.dma.buff (fun _ => 0) 0 areaSize _ (by
    simp only [regsOfs]
    omega)

theorem reset_alike {m m' : Machine} (hx : m'.msixEnabled = m.msixEnabled) (hm : m'.msiEnabled = m.msiEnabled)
    (hk : m'.dma.config.mask = m.dma.config.mask) (hh : m'.host = m.host) :
    Alike ∅ (pciemuReset m) (pciemuReset m') := by
  obtain ⟨irq, log, h⟩ := reset_eq m
  obtain ⟨irq', log', h'⟩ := reset_eq m'
  rw [h, h', hx, hm, hk, hh]
  refine ⟨⟨m.msixEnabled, m.msiEnabled, irq, ⟨⟨⟨0, 0, 0⟩, 0, m.dma.config.mask⟩, .idle,
      splice m'.dma.buff 0 areaSize fun _ => 0⟩, m.host, log⟩, ⟨rfl, ?_, ?_⟩, irq', log', rfl⟩
  · intro i hi
    have hz := splice_inside m.dma.buff (fun _ => 0) 0 areaSize i hi
    have hz' := splice_inside m'.dma.buff (fun _ => 0) 0 areaSize i hi
    rw [Nat.zero_add] at hz hz'
    simp only [hz, hz']
  · intro r hr
    exact absurd hr (Set.notMem_empty r)

def Reaches (bus : Bus) (msix msi : Bool) (host : ℕ → UInt8) (m : Machine) : Prop :=
  m.msixEnabled = msix ∧ m.msiEnabled = msi ∧ m.host = host ∧
    ∃ raw host₀ before, run bus (pciemuDeviceInit raw host₀) before = m

theorem reaches_mask {bus : Bus} {W : Set (List (UInt64 × UInt64))} (hd : bus.Delivers W) {msix msi : Bool}
    {host : ℕ → UInt8} {m : Machine} (h : Reaches bus msix msi host m) :
    m.dma.config.mask = dmaBitMask dmaAddrCapability := by
  obtain ⟨-, -, -, raw, host₀, before, rfl⟩ := h
  exact (Driver.run_mask hd raw host₀ before).2

theorem reaches_alike {bus : Bus} {W : Set (List (UInt64 × UInt64))} (hd : bus.Delivers W) {msix msi : Bool}
    {host : ℕ → UInt8} {m m' : Machine} (h : Reaches bus msix msi host m) (h' : Reaches bus msix msi host m') :
    Alike ∅ (pciemuReset m) (pciemuReset m') := by
  apply reset_alike
  · rw [h.1, h'.1]
  · rw [h.2.1, h'.2.1]
  · rw [reaches_mask hd h, reaches_mask hd h']
  · rw [h.2.2.1, h'.2.2.1]

theorem reset_forgets_iff (bus : Bus) (W : Set (List (UInt64 × UInt64))) (hd : bus.Delivers W) (b : HostBus)
    (hb : bus.AgreesWith b.toBus) (msix msi : Bool) (host : ℕ → UInt8) (ops : List Op) (m₀ : Machine)
    (h₀ : Reaches bus msix msi host m₀)
    (hfit : Along (total (apply bus)) (fun m op _ => LengthFits m op) (pciemuReset m₀) ops) :
    (∀ m m', Reaches bus msix msi host m → Reaches bus msix msi host m' →
      behaviour bus (pciemuReset m') ops = behaviour bus (pciemuReset m) ops) ↔ WrittenBeforeRead ∅ ops := by
  have hfit' (m : Machine) (h : Reaches bus msix msi host m) :=
    along_alike b ops ∅ _ _ (reaches_alike hd h₀ h) rfl (along_agrees hb ops _ hfit).1
  have hbeh (m : Machine) (h : Reaches bus msix msi host m) := behaviour_agrees hb.symm ops _ (hfit' m h)
  constructor
  · intro h
    by_contra hw
    have hreach (c : UInt8) : Reaches bus msix msi host
        (run bus (pciemuDeviceInit (filledEngine c) host) [.setMode msix msi]) := ⟨rfl, rfl, rfl, _, _, _, rfl⟩
    have he := h _ _ (hreach 0) (hreach 1)
    rw [← hbeh _ (hreach 0), ← hbeh _ (hreach 1)] at he
    refine observe_differs b ops ∅ _ _ ?_ rfl rfl (hfit' _ (hreach 0)) (hfit' _ (hreach 1)) hw ?_
    · intro i _
      rw [reset_reg, reset_reg]
      exact filledEngine_reg_ne host i
    · rw [← behaviour_observe, ← behaviour_observe, he]
  · intro hw m m' h h'
    rw [← hbeh m h, ← hbeh m' h']
    exact behaviour_alike b ops ∅ _ _ (reaches_alike hd h h') rfl (hfit' m h) hw

theorem reset_forgets_transfer :
    let ops := [.write .reg reg0 5 8, .write .reg regDmaCfgTxdescSrc 0x10000 8,
      .write .reg regDmaCfgTxdescDst 64 8, .write .reg regDmaCfgTxdescLen 0x1000 8, .write .reg regDmaCfgCmd 2 8,
      .write .internal regDmaDoorbellRing 1 8, .read .internal reg0 8]
    let m := run copyBus (pciemuDeviceInit zeroEngine fun _ => 7) [.setMode true false]
    let m' := run copyBus (pciemuDeviceInit zeroEngine fun _ => 7)
      [.setMode true false, .write .reg reg0 9 8, .write .reg regIrq0Raise 1 8]
    Reaches copyBus true false (fun _ => 7) m ∧ Reaches copyBus true false (fun _ => 7) m' ∧
      behaviour copyBus (pciemuReset m') ops = behaviour copyBus (pciemuReset m) ops := by
  intro ops m m'
  have h : Reaches copyBus true false (fun _ => 7) m := ⟨rfl, rfl, rfl, _, _, _, rfl⟩
  have h' : Reaches copyBus true false (fun _ => 7) m' := ⟨rfl, rfl, rfl, _, _, _, rfl⟩
  refine ⟨h, h', ?_⟩
  refine (reset_forgets_iff copyBus {[]} copyBus_delivers copyHost (copyHost_toBus ▸ Bus.AgreesWith.refl _)
    true false (fun _ => 7) ops m h (by decide)).mpr ?_ m m' h h'
  have h0 : decode reg0 = .scratch 0 := by decide
  have hs : decode regDmaCfgTxdescSrc = .src := by decide
  have hd : decode regDmaCfgTxdescDst = .dst := by decide
  have hl : decode regDmaCfgTxdescLen = .len := by decide
  have hc : decode regDmaCfgCmd = .cmd := by decide
  have hr : decode regDmaDoorbellRing = .doorbell := by decide
  simp [ops, WrittenBeforeRead, Op.scratchRead, writtenAfter, scratchIn, h0, hs, hd, hl, hc, hr]

theorem reset_remembers :
    let m := run copyBus (pciemuDeviceInit zeroEngine fun _ => 0) []
    let m' := run copyBus (pciemuDeviceInit zeroEngine fun _ => 0) [.write .reg reg0 5 8]
    let ops := [Op.read .reg reg0 8]
    Reaches copyBus false false (fun _ => 0) m ∧ Reaches copyBus false false (fun _ => 0) m' ∧
      Along (total (apply copyBus)) (fun m op _ => LengthFits m op) (pciemuReset m) ops ∧
      Along (total (apply copyBus)) (fun m op _ => LengthFits m op) (pciemuReset m') ops ∧
      (Op.read .reg reg0 8).returned (pciemuReset m) = some 0 ∧
      (Op.read .reg reg0 8).returned (pciemuReset m') = some 5 ∧
      behaviour copyBus (pciemuReset m') ops ≠ behaviour copyBus (pciemuReset m) ops := by
  intro m m' ops
  have hv : (Op.read .reg reg0 8).returned (pciemuReset m) = some 0 := by decide
  have hv' : (Op.read .reg reg0 8).returned (pciemuReset m') = some 5 := by decide
  refine ⟨⟨rfl, rfl, rfl, _, _, _, rfl⟩, ⟨rfl, rfl, rfl, _, _, _, rfl⟩, of_decide_eq_true rfl, of_decide_eq_true rfl,
    hv, hv', ?_⟩
  intro h
  have he := congrArg Prod.fst (List.head_eq_of_cons_eq h)
  rw [hv, hv'] at he
  exact absurd he (by decide)

end Pciemu.Device
