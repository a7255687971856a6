import Pciemu.Boundaries

namespace Pciemu.Device

open Bytes AuroraHw Runs

inductive DmaCall
  | init
  | regWrite (addr value : UInt64)
  | reset
  | fini

def dmaApply (bus : Bus) (m : Machine) : DmaCall → Machine
  | .init => auroraDmaInit m
  | .regWrite addr value => (auroraDmaRegWrite bus m addr value).1
  | .reset => auroraDmaReset m
  | .fini => auroraDmaFini m

def DmaCall.closed (closed : Bool) : DmaCall → Bool
  | .init | .reset => false
  | .fini => true
  | .regWrite _ _ => closed

def dmaStep (bus : Bus) (s : Machine × Bool) (call : DmaCall) : Machine × Bool :=
  (dmaApply bus s.1 call, call.closed s.2)

def OffRespected (s : Machine × Bool) (call : DmaCall) (t : Machine × Bool) : Prop :=
  match call with
  | .regWrite _ _ =>
    (s.2 = true → t.1.dma.status = .off ∧ t.1.dma.config = s.1.dma.config ∧
      dmaCalls t.1.log = dmaCalls s.1.log) ∧
    (dmaCalls t.1.log ≠ dmaCalls s.1.log → s.1.dma.status = .idle)
  | _ => True

def RingsOff (m : Machine) : DmaCall → Prop
  | .regWrite addr _ => addr = regDmaDoorbellRing ∧ m.dma.status = .off
  | _ => False

instance (s : Machine × Bool) (call : DmaCall) (t : Machine × Bool) : Decidable (OffRespected s call t) :=
  match call with
  | .regWrite _ _ => inferInstanceAs (Decidable (_ ∧ _))
  | .init | .reset | .fini => isTrue trivial

instance (m : Machine) (call : DmaCall) : Decidable (RingsOff m call) :=
  match call with
  | .regWrite _ _ => inferInstanceAs (Decidable (_ ∧ _))
  | .init | .reset | .fini => isFalse id

theorem configWhenIdle_cases (f : DmaConfig → DmaConfig) (m : Machine) :
    configWhenIdle f m = m ∨ m.dma.status = .idle ∧ configWhenIdle f m = m.setConfig (f m.dma.config) := by
  unfold configWhenIdle
  split_ifs with h
  · exact .inr ⟨h, rfl⟩
  · exact .inl rfl

theorem regWrite_cases (bus : Bus) (m : Machine) (addr value : UInt64) :
    (auroraDmaRegWrite bus m addr value).1 = m ∨
      m.dma.status = .idle ∧ (∃ c, (auroraDmaRegWrite bus m addr value).1 = m.setConfig c) ∨
      addr = regDmaDoorbellRing ∧ (auroraDmaRegWrite bus m addr value).1 = auroraDmaDoorbellRing bus m := by
  have hcfg (f : DmaConfig → DmaConfig) : configWhenIdle f m = m ∨
      m.dma.status = .idle ∧ (∃ c, configWhenIdle f m = m.setConfig c) ∨
      addr = regDmaDoorbellRing ∧ configWhenIdle f m = auroraDmaDoorbellRing bus m := by
    rcases configWhenIdle_cases f m with h | ⟨hi, h⟩
    · exact .inl h
    · exact .inr (.inl ⟨hi, _, h⟩)
  unfold auroraDmaRegWrite
  split_ifs with hv hs hd hl hc hr
  · exact .inl rfl
  · exact hcfg fun c => { c with txdesc := { c.txdesc with src := value } }
  · exact hcfg fun c => { c with txdesc := { c.txdesc with dst := value } }
  · exact hcfg fun c => { c with txdesc := { c.txdesc with len := value } }
  · exact hcfg fun c => { c with cmd := value }
  · exact .inr (.inr ⟨hr, rfl⟩)
  · exact .inl rfl

theorem doorbell_status (bus : Bus) (m : Machine) (h : m.dma.status ≠ .executing) :
    (auroraDmaDoorbellRing bus m).dma.status = .idle := by
  rw [auroraDmaDoorbellRing, cmpxchgStatus, if_neg h]
  rfl

def ClosedIsOff (s : Machine × Bool) : Prop := s.2 = true ↔ s.1.dma.status = .off

section Step

variable (bus : Bus) {s : Machine × Bool} (hs : ClosedIsOff s) (call : DmaCall)

include hs

theorem off_step (hc : ¬RingsOff s.1 call) :
    ClosedIsOff (dmaStep bus s call) ∧ OffRespected s call (dmaStep bus s call) := by
  cases call with
  | init => exact ⟨by simp [ClosedIsOff, dmaStep, dmaApply, DmaCall.closed, auroraDmaInit, auroraDmaReset], trivial⟩
  | reset => exact ⟨by simp [ClosedIsOff, dmaStep, dmaApply, DmaCall.closed, auroraDmaReset], trivial⟩
  | fini => exact ⟨by simp [ClosedIsOff, dmaStep, dmaApply, DmaCall.closed, auroraDmaFini], trivial⟩
  | regWrite addr value =>
    unfold ClosedIsOff OffRespected dmaStep dmaApply DmaCall.closed
    dsimp only
    rcases regWrite_cases bus s.1 addr value with he | ⟨hi, c, he⟩ | ⟨ha, he⟩
    · rw [he]
      exact ⟨hs, fun h => ⟨hs.mp h, rfl, rfl⟩, fun h => absurd rfl h⟩
    · have hopen : ¬s.2 = true := by
        rw [hs.eq, hi]
        decide
      rw [he]
      exact ⟨hs, fun h => absurd h hopen, fun _ => hi⟩
    · have hoff : s.1.dma.status ≠ .off := fun h => hc ⟨ha, h⟩
      have hopen : ¬s.2 = true := fun h => hoff (hs.mp h)
      by_cases hx : s.1.dma.status = .executing
      · rw [he, doorbell_executing bus s.1 hx]
        exact ⟨hs, fun h => absurd h hopen, fun h => absurd rfl h⟩
      · have hi : s.1.dma.status = .idle := by
          cases hst : s.1.dma.status with
          | idle => rfl
          | executing => exact absurd hst hx
          | off => exact absurd hst hoff
        rw [he, doorbell_status bus s.1 hx]
        exact ⟨⟨fun h => absurd h hopen, fun h => by cases h⟩, fun h => absurd h hopen, fun _ => hi⟩

theorem rings_off_breaks (hc : RingsOff s.1 call) : ¬OffRespected s call (dmaStep bus s call) := by
  cases call with
  | regWrite addr value =>
    obtain ⟨rfl, hoff⟩ := hc
    rintro ⟨hkeep, -⟩
    have hst := (hkeep (hs.mpr hoff)).1
    have hring : (auroraDmaRegWrite bus s.1 regDmaDoorbellRing value).1 = auroraDmaDoorbellRing bus s.1 := rfl
    rw [dmaStep, dmaApply, hring, doorbell_status bus s.1 (by simp [hoff])] at hst
    cases hst
  | init => exact hc.elim
  | reset => exact hc.elim
  | fini => exact hc.elim

end Step

theorem off_respected_iff (bus : Bus) (m : Machine) (calls : List DmaCall) :
    let s := (m, decide (m.dma.status = .off))
    Along (total (dmaStep bus)) OffRespected s calls ↔
      Along (total (dmaStep bus)) (fun s call _ => ¬RingsOff s.1 call) s calls := by
  intro s
  have hs : ClosedIsOff s := decide_eq_true_iff
  constructor
  · intro h
    refine along_invariant (I := ClosedIsOff) ?_ calls hs h
    intro u call t hu ht hresp
    obtain rfl := Option.some.inj ht
    have hc : ¬RingsOff u.1 call := fun hr => rings_off_breaks bus hu call hr hresp
    exact ⟨(off_step bus hu call hc).1, hc⟩
  · intro h
    refine along_invariant (I := ClosedIsOff) ?_ calls hs h
    intro u call t hu ht hc
    obtain rfl := Option.some.inj ht
    exact off_step bus hu call hc

def rawMachine : Machine := ⟨true, false, fun _ => 0, zeroEngine, fun _ => 7, []⟩

theorem off_violated :
    let calls := [.init, .fini, .regWrite regDmaDoorbellRing 1, .regWrite regDmaCfgTxdescDst 0x10000,
      .regWrite regDmaCfgTxdescLen 8, .regWrite regDmaCfgCmd 1, .regWrite regDmaDoorbellRing 1]
    let m := calls.foldl (dmaApply copyBus) rawMachine
    ¬Along (total (dmaStep copyBus)) OffRespected (rawMachine, true) calls ∧
      m.dma.status = .idle ∧ dmaCalls m.log = [.pciDmaRead 0 0 8] := by
  decide

end Pciemu.Device
