import Pciemu.ExactCopy

namespace Pciemu.Device

open Bytes AuroraHw Runs

def interrupts (log : List Event) : List Event :=
  log.filter fun e => match e with
    | .msixNotify _ | .msiNotify _ | .pciSetIrq _ => true
    | _ => false

@[simp] theorem interrupts_append (l l' : List Event) :
    interrupts (l ++ l') = interrupts l ++ interrupts l' := List.filter_append ..

theorem interrupts_refusalReport (c : DmaConfig) : interrupts (refusalReport c) = [] := by
  unfold refusalReport
  split_ifs <;> rfl

theorem interrupts_entryReport (c : DmaConfig) : interrupts (entryReport c) = [] := by
  unfold entryReport maskReport
  split_ifs <;> rfl

theorem interrupts_errorReport (err : ℕ) (call : Event) : interrupts (errorReport err call) = [] := by
  unfold errorReport
  split <;> split_ifs <;> rfl

theorem interrupts_call {c : DmaConfig} {call : Event} (h : transferCall c = some call) :
    interrupts [call] = [] := by
  rcases transferCall_cases h with rfl | rfl <;> rfl

theorem busRun_nil {ofs len : ℕ} {m m' : Machine} (h : BusRun ofs len m [] m') :
    ∃ b host, m' = { m.setBuff b with host := host } ∧ ∀ i, i < ofs ∨ ofs + len ≤ i → b i = m.dma.buff i := by
  generalize hws : [] = ws at h
  induction h with
  | start => exact ⟨m.dma.buff, m.host, rfl, fun _ _ => rfl⟩
  | store b hb h ih =>
    obtain ⟨b', host, rfl, hout⟩ := ih hws
    exact ⟨b, host, rfl, fun i hi => (hb i hi).trans (hout i hi)⟩
  | host host h ih =>
    obtain ⟨b, host', rfl, hout⟩ := ih hws
    exact ⟨b, host, rfl, hout⟩
  | write inner bar addr val size h ih => exact absurd hws.symm (List.concat_ne_nil _ _)

section Isolated

variable {bus : Bus} (hb : bus.Delivers {[]}) (m : Machine)

include hb

theorem access_isolated (call : Event) :
    ∃ b host, (busAccess bus m call).1 = { m.setBuff b with host := host } ∧
      (CallFits call → ∀ i, areaSize ≤ i → b i = m.dma.buff i) := by
  cases call with
  | pciDmaRead addr ofs len =>
    obtain ⟨ws, rfl, h⟩ := (hb m addr ofs len).1
    obtain ⟨b, host, he, hout⟩ := busRun_nil h
    exact ⟨b, host, he, fun hfit i hi => hout i (.inr (hfit.trans hi))⟩
  | pciDmaWrite addr ofs len =>
    obtain ⟨ws, rfl, h⟩ := (hb m addr ofs len).2
    obtain ⟨b, host, he, hout⟩ := busRun_nil h
    exact ⟨b, host, he, fun _ i _ => hout i (.inr (Nat.zero_le i))⟩
  | _ => exact ⟨m.dma.buff, m.host, rfl, fun _ _ _ => rfl⟩

variable (hi : m.dma.status = .idle)

include hi

theorem doorbell_isolated (call : Event) (hc : transferCall m.dma.config = some call) :
    ∃ b host es, auroraDmaDoorbellRing bus m =
        pciemuIrqRaise { m.setBuff b with host := host, log := m.log ++ es } irqDmaEndedVector ∧
      dmaCalls es = [call] ∧ interrupts es = [] ∧ (CallFits call → ∀ i, areaSize ≤ i → b i = m.dma.buff i) := by
  rw [doorbell_transfer bus m hi call hc]
  obtain ⟨b, host, he, hout⟩ := access_isolated hb (entered m call) call
  dsimp only
  rw [he]
  generalize (busAccess bus (entered m call) call).2 = err
  refine ⟨b, host, entryReport m.dma.config ++ [call] ++ errorReport err call, ?_, ?_, ?_, hout⟩
  · have hs (n : Machine) (v : ℕ) : (pciemuIrqRaise n v).setStatus .idle = pciemuIrqRaise (n.setStatus .idle) v := by
      unfold pciemuIrqRaise pciemuIrqRaiseMsix pciemuIrqRaiseMsi raiseVector
      simp only [Machine.setStatus_msixEnabled, Machine.setStatus_msiEnabled]
      split_ifs <;> rfl
    rw [hs]
    simp only [entered, Machine.setStatus, Machine.emits, Machine.emit, Machine.setBuff, ← hi, List.append_assoc]
  · simp only [dmaCalls_append, (silent_entryReport _).1, (silent_errorReport err call).1, List.nil_append,
      List.append_nil, (transferCall_isCall hc).1]
  · simp only [interrupts_append, interrupts_entryReport, interrupts_errorReport, interrupts_call hc, List.append_nil]

theorem doorbell_high (hfit : ∀ call, transferCall m.dma.config = some call → CallFits call) (k : ℕ)
    (hk : areaSize ≤ k) : (auroraDmaDoorbellRing bus m).dma.buff k = m.dma.buff k := by
  cases hc : transferCall m.dma.config with
  | none =>
    obtain ⟨es, -, he⟩ := doorbell_refused bus m hi hc
    rw [he]
    rfl
  | some call =>
    obtain ⟨b, host, es, he, -, -, hout⟩ := doorbell_isolated hb m hi call hc
    obtain ⟨e, hstep, -⟩ := raise_step { m.setBuff b with host := host, log := m.log ++ es }
    rw [he, hstep.dma]
    exact hout (hfit call hc) k hk

theorem writeReg_reg (val : UInt64) (r : Reg)
    (hfit : r = .doorbell → ∀ call, transferCall m.dma.config = some call → CallFits call)
    (i : ℕ) (hne : r ≠ .scratch i) : (writeReg bus m val r).reg i = m.reg i := by
  have hcfg (f : DmaConfig → DmaConfig) : (configWhenIdle f m).reg i = m.reg i := by
    simp [configWhenIdle, hi, Machine.reg, Machine.setConfig]
  cases r with
  | scratch j =>
    have hij : j ≠ i := fun he => hne (by rw [he])
    exact wordAt_storeWord_of_disjoint _ _ _ _ (by omega)
  | irqRaise =>
    obtain ⟨e, hstep, -⟩ := raise_step m
    rw [Machine.reg, writeReg, hstep.dma, Machine.reg]
  | irqLower =>
    obtain ⟨e, hstep, -⟩ := lower_step m irqDmaEndedVector
    rw [Machine.reg, writeReg, hstep.dma, Machine.reg]
  | src => exact hcfg _
  | dst => exact hcfg _
  | len => exact hcfg _
  | cmd => exact hcfg _
  | doorbell =>
    apply wordAt_congr
    intro j hj
    apply doorbell_high hb m hi (hfit rfl)
    simp only [regsOfs]
    omega
  | hole => rfl

theorem apply_reg (op : Op) (hfit : LengthFits m op) (i : ℕ)
    (hne : ∀ bar addr val size, op = .write bar addr val size → decode addr ≠ .scratch i) :
    (apply bus m op).reg i = m.reg i := by
  cases op with
  | write bar addr val size =>
    simp only [apply, barWrite_eq]
    apply writeReg_reg hb m hi
    · intro hd
      exact hfit.call (decide_eq_true ((decode_eq addr .doorbell (by decide)).mp hd))
    · exact hne bar addr val size rfl
  | reset =>
    obtain ⟨es, hstep, -⟩ := irqReset_step m
    apply wordAt_congr
    intro j hj
    have hbuff : (pciemuIrqReset m).dma.buff = m.dma.buff := congrArg DmaEngine.buff hstep.dma
    rw [← hbuff]
    exact splice_outside (pciemuIrqReset m).dma.buff (fun _ => 0) 0 areaSize _ (by
      simp only [regsOfs]
      omega)
  | _ => rfl

end Isolated

end Pciemu.Device
