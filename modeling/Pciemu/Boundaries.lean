import Pciemu.Runs
import Pciemu.Reentry

namespace Pciemu.Device

open Bytes AuroraHw Runs

def Op.rings : Op → Bool
  | .write _ addr _ _ => addr = regDmaDoorbellRing
  | _ => false

def deviceAddr (c : DmaConfig) : UInt64 :=
  if c.cmd = dmaDirectionToDevice then c.txdesc.dst else c.txdesc.src

def IsDirection (c : DmaConfig) : Prop :=
  c.cmd = dmaDirectionToDevice ∨ c.cmd = dmaDirectionFromDevice

def StartInside (c : DmaConfig) : Prop :=
  dmaAreaStart.toNat ≤ (deviceAddr c).toNat ∧
    (deviceAddr c).toNat ≤ dmaAreaStart.toNat + dmaAreaSize.toNat

def RangeInside (c : DmaConfig) : Prop :=
  dmaAreaStart.toNat ≤ (deviceAddr c).toNat ∧
    (deviceAddr c).toNat - dmaAreaStart.toNat + c.txdesc.len.toNat ≤ dmaAreaSize.toNat

instance (c : DmaConfig) : Decidable (IsDirection c) := inferInstanceAs (Decidable (_ ∨ _))

instance (c : DmaConfig) : Decidable (StartInside c) := inferInstanceAs (Decidable (_ ∧ _))

instance (c : DmaConfig) : Decidable (RangeInside c) := inferInstanceAs (Decidable (_ ∧ _))

def CallInside : Event → Prop
  | .pciDmaRead _ ofs len | .pciDmaWrite _ ofs len =>
    ∀ i, ofs.toNat ≤ i → i < ofs.toNat + len.toNat → i < areaSize
  | _ => True

theorem insideDeviceBoundaries_iff (addr : UInt64) : auroraDmaInsideDeviceBoundaries addr ↔
    dmaAreaStart.toNat ≤ addr.toNat ∧ addr.toNat ≤ dmaAreaStart.toNat + dmaAreaSize.toNat := by
  have hs : (dmaAreaStart + dmaAreaSize).toNat = dmaAreaStart.toNat + dmaAreaSize.toNat := by decide
  simp only [auroraDmaInsideDeviceBoundaries, Bool.and_eq_true, decide_eq_true_eq,
    UInt64.le_iff_toNat_le, hs]

theorem transferCall_isSome (c : DmaConfig) :
    (transferCall c).isSome ↔ IsDirection c ∧ StartInside c := by
  have hne : dmaDirectionFromDevice ≠ dmaDirectionToDevice := by decide
  unfold transferCall IsDirection StartInside deviceAddr
  simp only [insideDeviceBoundaries_iff]
  by_cases ht : c.cmd = dmaDirectionToDevice
  · simp only [ht, if_true, true_or, true_and]
    split_ifs with hd <;> simp [hd]
  · by_cases hf : c.cmd = dmaDirectionFromDevice
    · simp only [hf, hne, if_false, if_true, false_or, true_and]
      split_ifs with hs <;> simp [hs]
    · simp [ht, hf]

theorem sub_areaStart (addr : UInt64) (h : dmaAreaStart.toNat ≤ addr.toNat) :
    (addr - dmaAreaStart).toNat = addr.toNat - dmaAreaStart.toNat :=
  UInt64.toNat_sub_of_le _ _ (UInt64.le_iff_toNat_le.mpr h)

theorem callInside_iff (ofs len : UInt64) (h : ofs.toNat ≤ areaSize) :
    (∀ i, ofs.toNat ≤ i → i < ofs.toNat + len.toNat → i < areaSize) ↔
      ofs.toNat + len.toNat ≤ areaSize := by
  constructor
  · intro hi
    by_contra hlt
    exact absurd (hi (ofs.toNat + len.toNat - 1) (by omega) (by omega)) (by omega)
  · intro hle i _ hi
    omega

theorem transferCall_inside {c : DmaConfig} {call : Event} (h : transferCall c = some call) :
    CallInside call ↔ RangeInside c := by
  have hsome : (transferCall c).isSome := by rw [h]; rfl
  obtain ⟨_, hlo, hhi⟩ := (transferCall_isSome c).mp hsome
  have hsub := sub_areaStart (deviceAddr c) hlo
  have hofs : (deviceAddr c - dmaAreaStart).toNat ≤ areaSize := by
    rw [hsub]
    change _ ≤ dmaAreaSize.toNat
    omega
  have hiff := callInside_iff (deviceAddr c - dmaAreaStart) c.txdesc.len hofs
  rw [hsub] at hiff
  have hr : RangeInside c ↔
      (deviceAddr c).toNat - dmaAreaStart.toNat + c.txdesc.len.toNat ≤ areaSize :=
    ⟨fun h => h.2, fun h => ⟨hlo, h⟩⟩
  rw [hr, ← hiff, ← hsub]
  unfold transferCall at h
  split_ifs at h with ht hd hf hd <;> cases h
  · simp only [CallInside, deviceAddr, ht, if_true]
  · simp only [CallInside, deviceAddr, ht, if_false]

section Step

variable {bus : Bus} {W : Set (List (UInt64 × UInt64))} (hb : bus.Delivers W)
  (m : Machine) (hi : m.dma.status = .idle)

include hb hi

theorem writeReg_idle (value : UInt64) (r : Reg) : (writeReg bus m value r).dma.status = .idle ∧
    dmaCalls (writeReg bus m value r).log =
      dmaCalls m.log ++ if r = .doorbell then (transferCall m.dma.config).toList else [] := by
  have hcfg (f : DmaConfig → DmaConfig) : (configWhenIdle f m).dma.status = .idle ∧
      dmaCalls (configWhenIdle f m).log = dmaCalls m.log ++ [] := by
    simp [configWhenIdle, hi]
  cases r with
  | scratch i => exact ⟨hi, by simp [writeReg, Machine.setReg]⟩
  | irqRaise => exact ⟨(raise_reentered m).status.trans hi, (raise_reentered m).calls⟩
  | irqLower => exact ⟨(lower_reentered m _).status.trans hi, (lower_reentered m _).calls⟩
  | src => exact hcfg _
  | dst => exact hcfg _
  | len => exact hcfg _
  | cmd => exact hcfg _
  | doorbell =>
    obtain ⟨n, h, -⟩ := doorbell_reentered hb m hi
    exact ⟨h.status.trans hi, h.calls⟩
  | hole => exact ⟨hi, by simp [writeReg]⟩

theorem apply_idle (op : Op) : (apply bus m op).dma.status = .idle ∧
    dmaCalls (apply bus m op).log =
      dmaCalls m.log ++ if op.rings then (transferCall m.dma.config).toList else [] := by
  cases op with
  | read bar addr size => exact ⟨hi, by simp [apply, Op.rings]⟩
  | write bar addr val size =>
    simp only [apply, barWrite_eq, Op.rings, decide_eq_true_eq]
    obtain ⟨hs, hc⟩ := writeReg_idle hb m hi val (decode addr)
    refine ⟨hs, hc.trans ?_⟩
    simp only [decode_eq addr .doorbell (by decide), Reg.addr]
  | reset =>
    obtain ⟨es, h, hc, -⟩ := irqReset_step m
    refine ⟨rfl, ?_⟩
    simp [apply, pciemuReset, glueBackendReset, auroraBackendReset, auroraDmaReset, Op.rings, h.log, hc]
  | setMode msix msi => exact ⟨hi, by simp [apply, Op.rings]⟩
  | hostStore host => exact ⟨hi, by simp [apply, Op.rings]⟩

theorem new_calls (op : Op) : dmaCalls (apply bus m op).log ≠ dmaCalls m.log ↔
    op.rings ∧ (transferCall m.dma.config).isSome := by
  rw [(apply_idle hb m hi op).2]
  cases op.rings <;> cases transferCall m.dma.config <;> simp

end Step

def RingLaw (bus : Bus) (m : Machine) (op : Op) : Prop :=
  op.rings → (dmaCalls (apply bus m op).log ≠ dmaCalls m.log ↔
    IsDirection m.dma.config ∧ RangeInside m.dma.config)

def LengthFits (m : Machine) (op : Op) : Prop :=
  op.rings → IsDirection m.dma.config → StartInside m.dma.config → RangeInside m.dma.config

instance (bus : Bus) (m : Machine) (op : Op) : Decidable (RingLaw bus m op) :=
  inferInstanceAs (Decidable (_ → _))

instance (m : Machine) (op : Op) : Decidable (LengthFits m op) := inferInstanceAs (Decidable (_ → _))

theorem ringLaw_iff {bus : Bus} {W : Set (List (UInt64 × UInt64))} (hb : bus.Delivers W)
    (m : Machine) (hi : m.dma.status = .idle) (op : Op) : RingLaw bus m op ↔ LengthFits m op := by
  have hstart : RangeInside m.dma.config → StartInside m.dma.config := by
    rintro ⟨h, h'⟩
    exact ⟨h, by omega⟩
  unfold RingLaw LengthFits
  rw [new_calls hb m hi op, transferCall_isSome]
  tauto

theorem deviceInit_idle (raw : DmaEngine) (host : ℕ → UInt8) :
    (pciemuDeviceInit raw host).dma.status = .idle := rfl

theorem calls_inside_step {bus : Bus} {W : Set (List (UInt64 × UInt64))} (hb : bus.Delivers W)
    (m : Machine) (hi : m.dma.status = .idle) (op : Op) (hfit : LengthFits m op)
    (h : ∀ call ∈ dmaCalls m.log, CallInside call) :
    ∀ call ∈ dmaCalls (apply bus m op).log, CallInside call := by
  intro call hcall
  rw [(apply_idle hb m hi op).2] at hcall
  rcases List.mem_append.mp hcall with hold | hnew
  · exact h call hold
  · by_cases hr : op.rings
    · rw [if_pos hr, Option.mem_toList] at hnew
      obtain ⟨hd, hs⟩ := (transferCall_isSome m.dma.config).mp (by rw [hnew]; rfl)
      exact (transferCall_inside hnew).mpr (hfit hr hd hs)
    · simp [hr] at hnew

theorem transfers_inside_iff (bus : Bus) (W : Set (List (UInt64 × UInt64))) (hb : bus.Delivers W)
    (raw : DmaEngine) (host : ℕ → UInt8) (ops : List Op) :
    (Along (total (apply bus)) (fun m op _ => RingLaw bus m op) (pciemuDeviceInit raw host) ops ∧
      ∀ call ∈ dmaCalls (run bus (pciemuDeviceInit raw host) ops).log, CallInside call) ↔
    Along (total (apply bus)) (fun m op _ => LengthFits m op) (pciemuDeviceInit raw host) ops := by
  have hnext (m : Machine) (op : Op) (t : Machine) (hi : m.dma.status = .idle)
      (ht : total (apply bus) m op = some t) : t.dma.status = .idle := by
    rw [← Option.some.inj ht]
    exact (apply_idle hb m hi op).1
  constructor
  · rintro ⟨h, -⟩
    apply along_invariant (I := fun m => m.dma.status = .idle) _ ops (deviceInit_idle raw host) h
    intro m op t hi ht hlaw
    exact ⟨hnext m op t hi ht, (ringLaw_iff hb m hi op).mp hlaw⟩
  · intro h
    constructor
    · apply along_invariant (I := fun m => m.dma.status = .idle) _ ops (deviceInit_idle raw host) h
      intro m op t hi ht hfit
      exact ⟨hnext m op t hi ht, (ringLaw_iff hb m hi op).mpr hfit⟩
    · have hrun := run_total (apply bus) (pciemuDeviceInit raw host) ops
      apply (run_invariant (I := fun m => m.dma.status = .idle ∧
        ∀ call ∈ dmaCalls m.log, CallInside call) _ ops
        ⟨deviceInit_idle raw host, by simp [pciemuDeviceInit, glueBackendInit, auroraBackendInit,
          auroraDmaInit, auroraDmaReset, dmaCalls]⟩ h hrun).2
      rintro m op t ⟨hi, hc⟩ ht hfit
      have he := Option.some.inj ht
      exact ⟨hnext m op t hi ht, he ▸ calls_inside_step hb m hi op hfit hc⟩

def zeroEngine : DmaEngine := ⟨⟨⟨0, 0, 0⟩, 0, 0⟩, .off, fun _ => 0⟩

theorem transfers_inside_single :
    let ops := [.write .reg regDmaCfgTxdescDst 0x10ff8 8, .write .reg regDmaCfgTxdescLen 8 8,
      .write .reg regDmaCfgCmd 1 8, .write .reg regDmaDoorbellRing 1 8]
    copyBus.Delivers {[]} ∧
      ∀ call ∈ dmaCalls (run copyBus (pciemuDeviceInit zeroEngine fun _ => 7) ops).log, CallInside call := by
  intro ops
  have hfit : Along (total (apply copyBus)) (fun m op _ => LengthFits m op)
      (pciemuDeviceInit zeroEngine fun _ => 7) ops := by decide
  exact ⟨copyBus_delivers,
    ((transfers_inside_iff copyBus {[]} copyBus_delivers zeroEngine (fun _ => 7) ops).mpr hfit).2⟩

theorem transfers_inside_fails :
    let m := run copyBus (pciemuDeviceInit zeroEngine fun _ => 7)
      [.write .reg regDmaCfgTxdescDst 0x10000 8, .write .reg regDmaCfgTxdescLen 0x1024 8,
        .write .reg regDmaCfgCmd 1 8]
    let ring := Op.write .reg regDmaDoorbellRing 1 8
    ¬RingLaw copyBus m ring ∧ (∃ call ∈ dmaCalls (apply copyBus m ring).log, ¬CallInside call) ∧
      m.reg 0 = 0 ∧ (apply copyBus m ring).reg 0 = 0x0707070707070707 := by
  intro m ring
  refine ⟨by decide, ⟨.pciDmaRead 0 0 0x1024, by decide, ?_⟩, by decide, by decide⟩
  intro h
  exact absurd (h 0x1000 (by decide) (by decide)) (by decide)

end Pciemu.Device
