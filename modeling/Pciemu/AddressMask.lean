import Pciemu.Completion

namespace Pciemu.Device

open AuroraHw

def BelowMask : Event → Prop
  | .pciDmaRead addr _ len | .pciDmaWrite addr _ len =>
    ∀ a, addr.toNat ≤ a → a < addr.toNat + len.toNat → a < 2 ^ dmaAddrCapability
  | _ => True

def busAddr (c : DmaConfig) : UInt64 :=
  if c.cmd = dmaDirectionToDevice then c.txdesc.src else c.txdesc.dst

def EndFits (c : DmaConfig) : Prop :=
  (busAddr c).toNat % 2 ^ dmaAddrCapability + c.txdesc.len.toNat ≤ 2 ^ dmaAddrCapability

theorem masked_toNat (a : UInt64) :
    (a &&& dmaBitMask dmaAddrCapability).toNat = a.toNat % 2 ^ dmaAddrCapability := by
  have hm : (dmaBitMask dmaAddrCapability).toNat = 2 ^ dmaAddrCapability - 1 := by decide
  rw [UInt64.toNat_and, hm, Nat.and_two_pow_sub_one_eq_mod]

theorem range_below_iff (start len top : ℕ) (h : start < top) :
    (∀ a, start ≤ a → a < start + len → a < top) ↔ start + len ≤ top := by
  constructor
  · intro ha
    by_contra hlt
    exact absurd (ha top (by omega) (by omega)) (by omega)
  · intro hle a _ ha
    omega

theorem transferCall_below {c : DmaConfig} {call : Event} (hmask : c.mask = dmaBitMask dmaAddrCapability)
    (h : transferCall c = some call) : BelowMask call ↔ EndFits c := by
  have hpos : 0 < 2 ^ dmaAddrCapability := by decide
  unfold transferCall at h
  split_ifs at h with ht hd hf hs
  · cases h
    simp only [BelowMask, EndFits, busAddr, ht, if_true, hmask, masked_toNat]
    exact range_below_iff _ _ _ (Nat.mod_lt _ hpos)
  · cases h
    simp only [BelowMask, EndFits, busAddr, ht, if_false, hmask, masked_toNat]
    exact range_below_iff _ _ _ (Nat.mod_lt _ hpos)

def addedCalls (m m' : Machine) : List Event := (dmaCalls m'.log).drop (dmaCalls m.log).length

theorem address_capability_iff (m : Machine) (h : Reachable m) (bus : Bus) (W : Set (List (UInt64 × UInt64)))
    (hb : bus.Delivers W) (bar : Bar) (val : UInt64) (size : ℕ) :
    (∀ call ∈ addedCalls m (doorbellWrite bus m bar val size), BelowMask call) ↔
      (m.dma.status = .idle → IsDirection m.dma.config → StartInside m.dma.config → EndFits m.dma.config) := by
  rcases h.status with hi | hx
  · rw [addedCalls, ring_calls hb hi, List.drop_left]
    cases hc : transferCall m.dma.config with
    | none =>
      simp only [Option.toList_none, List.not_mem_nil, false_implies, implies_true, true_iff]
      intro _ hd hs
      exact absurd hs (transferCall_none hc hd)
    | some call =>
      obtain ⟨hd, hs⟩ := transferCall_some hc
      simp [hi, hd, hs, transferCall_below h.mask hc]
  · simp [addedCalls, ring_executing bus hx, hx]

theorem address_capability_top :
    let m := run copyBus (pciemuDeviceInit zeroEngine fun _ => 7) (programmed 0x1fffff000 0x10000 0x1000 1)
    addedCalls m (doorbellWrite copyBus m .internal 1 8) = [.pciDmaRead 0xfffff000 0 0x1000] ∧
      ∀ call ∈ addedCalls m (doorbellWrite copyBus m .internal 1 8), BelowMask call := by
  intro m
  refine ⟨by decide, ?_⟩
  refine (address_capability_iff m (.between copyBus {[]} copyBus_delivers zeroEngine (fun _ => 7) _) copyBus {[]}
    copyBus_delivers .internal 1 8).mpr fun _ _ _ => ?_
  rw [EndFits]
  decide

theorem address_capability_exceeded :
    let m := run copyBus (pciemuDeviceInit zeroEngine fun _ => 7) (programmed 0x10000 0xfffffffc 8 2)
    ∃ call ∈ addedCalls m (doorbellWrite copyBus m .reg 1 8), ¬BelowMask call := by
  intro m
  refine ⟨.pciDmaWrite 0xfffffffc 0 8, by decide, ?_⟩
  intro h
  exact absurd (h 0x100000000 (by decide) (by decide)) (by decide)

end Pciemu.Device
