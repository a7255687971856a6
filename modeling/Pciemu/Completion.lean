import Pciemu.Exclusion

namespace Pciemu.Device

open Bytes AuroraHw

inductive Reachable : Machine → Prop
  | between (bus : Bus) (W : Set (List (UInt64 × UInt64))) (hb : bus.Delivers W) (raw : DmaEngine)
      (host : ℕ → UInt8) (ops : List Op) : Reachable (run bus (pciemuDeviceInit raw host) ops)
  | within {m m' : Machine} {call : Event} {ofs len : ℕ} {ws : List (UInt64 × UInt64)} :
      Reachable m → m.dma.status = .idle → transferCall m.dma.config = some call →
      BusRun ofs len (entered m call) ws m' → Reachable m'

theorem Reachable.status {m : Machine} (h : Reachable m) : m.dma.status = .idle ∨ m.dma.status = .executing := by
  cases h with
  | between bus W hb raw host ops => exact .inl (Driver.run_mask hb raw host ops).1
  | within _ _ _ hrun => exact .inr (busRun_executing hrun rfl).status

theorem Reachable.mask {m : Machine} (h : Reachable m) : m.dma.config.mask = dmaBitMask dmaAddrCapability := by
  induction h with
  | between bus W hb raw host ops => exact (Driver.run_mask hb raw host ops).2
  | within _ _ _ hrun ih => exact (congrArg DmaConfig.mask (busRun_executing hrun rfl).config).trans ih

def Bus.answering (bus : Bus) (r : ℕ) : Bus where
  pciDmaRead m addr ofs len := ((bus.pciDmaRead m addr ofs len).1, r)
  pciDmaWrite m addr ofs len := ((bus.pciDmaWrite m addr ofs len).1, r)

theorem answering_delivers {bus : Bus} {W : Set (List (UInt64 × UInt64))} (hb : bus.Delivers W) (r : ℕ) :
    (bus.answering r).Delivers W := hb

/-- The device as the bus leaves it when it has served a doorbell rung at `m`; what is raised until
then, other register writes have raised. -/
def served (bus : Bus) (m : Machine) : Machine :=
  if m.dma.status = .executing then m
  else match transferCall m.dma.config with
    | none => m
    | some call => (busAccess bus (entered m call) call).1

def doorbellWrite (bus : Bus) (m : Machine) (bar : Bar) (val : UInt64) (size : ℕ) : Machine :=
  barWrite bus m bar regDmaDoorbellRing val size

def CompletionSound (bus : Bus) (r : ℕ) (m : Machine) (bar : Bar) (val : UInt64) (size : ℕ) : Prop :=
  raises (doorbellWrite (bus.answering r) m bar val size).log ≠ raises (served (bus.answering r) m).log ↔
    dmaCalls (doorbellWrite (bus.answering r) m bar val size).log ≠ dmaCalls m.log ∧ r = 0

instance (bus : Bus) (r : ℕ) (m : Machine) (bar : Bar) (val : UInt64) (size : ℕ) :
    Decidable (CompletionSound bus r m bar val size) := inferInstanceAs (Decidable (_ ↔ _))

theorem ring_eq (bus : Bus) (m : Machine) (bar : Bar) (val : UInt64) (size : ℕ) :
    doorbellWrite bus m bar val size = auroraDmaDoorbellRing bus m := by
  rw [doorbellWrite, barWrite_eq]
  rfl

theorem ring_executing (bus : Bus) {m : Machine} (h : m.dma.status = .executing) (bar : Bar) (val : UInt64)
    (size : ℕ) : doorbellWrite bus m bar val size = m := (ring_eq bus m bar val size).trans (doorbell_executing bus m h)

theorem transferCall_none {c : DmaConfig} (h : transferCall c = none) (hd : IsDirection c) : ¬StartInside c := by
  intro hs
  have hsome := (transferCall_isSome c).mpr ⟨hd, hs⟩
  rw [h] at hsome
  cases hsome

theorem transferCall_some {c : DmaConfig} {call : Event} (h : transferCall c = some call) :
    IsDirection c ∧ StartInside c := (transferCall_isSome c).mp (by rw [h]; rfl)

section Idle

variable {bus : Bus} {W : Set (List (UInt64 × UInt64))} (hb : bus.Delivers W) {m : Machine}
  (hi : m.dma.status = .idle) (bar : Bar) (val : UInt64) (size : ℕ)

include hb hi

theorem ring_calls : dmaCalls (doorbellWrite bus m bar val size).log =
    dmaCalls m.log ++ (transferCall m.dma.config).toList := by
  obtain ⟨n, h, -⟩ := doorbell_reentered hb m hi
  rw [ring_eq]
  exact h.calls

theorem ring_raises : raises (doorbellWrite bus m bar val size).log =
    raises (served bus m).log + (transferCall m.dma.config).toList.length := by
  have hne : m.dma.status ≠ .executing := by simp [hi]
  rw [ring_eq, served, if_neg hne]
  cases hc : transferCall m.dma.config with
  | none =>
    obtain ⟨es, hs, he⟩ := doorbell_refused bus m hi hc
    simp [he, hs.2.1]
  | some call =>
    obtain ⟨ws, -, ofs, len, -, hdone, hend⟩ := doorbell_around hb m hi call hc
    have hd := hdone.raises
    rw [Machine.setStatus_log] at hd
    rw [hend.raises, hd]
    rfl

end Idle

theorem completion_sound_iff (m : Machine) (h : Reachable m) (bus : Bus) (W : Set (List (UInt64 × UInt64)))
    (hb : bus.Delivers W) (r : ℕ) (bar : Bar) (val : UInt64) (size : ℕ) :
    CompletionSound bus r m bar val size ↔
      (m.dma.status = .idle → IsDirection m.dma.config → StartInside m.dma.config → r = 0) := by
  rcases h.status with hi | hx
  · have hb' := answering_delivers hb r
    rw [CompletionSound, ring_calls hb' hi, ring_raises hb' hi]
    cases hc : transferCall m.dma.config with
    | none =>
      simp only [Option.toList_none, List.length_nil, Nat.add_zero, List.append_nil, ne_eq, not_true_eq_false,
        false_and, true_iff]
      intro _ hd hs
      exact absurd hs (transferCall_none hc hd)
    | some call =>
      obtain ⟨hd, hs⟩ := transferCall_some hc
      simp [hi, hd, hs]
  · have hserved : served (bus.answering r) m = m := if_pos hx
    rw [CompletionSound, ring_executing _ hx, hserved]
    simp [hx]

def programmed (src dst len cmd : UInt64) : List Op :=
  [.write .reg regDmaCfgTxdescSrc src 8, .write .reg regDmaCfgTxdescDst dst 8, .write .reg regDmaCfgTxdescLen len 8,
    .write .reg regDmaCfgCmd cmd 8]

theorem completion_sound_copied :
    let m := run copyBus (pciemuDeviceInit zeroEngine fun _ => 7) (programmed 0x2000 0x10000 8 1)
    CompletionSound copyBus 0 m .reg 1 8 ∧ raises (doorbellWrite (copyBus.answering 0) m .reg 1 8).log = 1 := by
  intro m
  refine ⟨?_, by decide⟩
  exact (completion_sound_iff m (.between copyBus {[]} copyBus_delivers zeroEngine (fun _ => 7) _) copyBus {[]}
    copyBus_delivers 0 .reg 1 8).mpr fun _ _ _ => rfl

def deadBus : Bus where
  pciDmaRead m _ _ _ := (m, 2)
  pciDmaWrite m _ _ _ := (m, 2)

theorem completion_unsound :
    let m := run copyBus (pciemuDeviceInit zeroEngine fun _ => 7) (programmed 0x2000 0x10000 8 1)
    ¬CompletionSound deadBus 2 m .reg 1 8 ∧ deadBus.answering 2 = deadBus ∧
      raises (doorbellWrite deadBus m .reg 1 8).log = 1 ∧ (doorbellWrite deadBus m .reg 1 8).dma.buff 0 = 0 := by
  intro m
  exact ⟨by decide, rfl, by decide, by decide⟩

end Pciemu.Device
