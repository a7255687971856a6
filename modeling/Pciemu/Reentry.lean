import Pciemu.RegisterMap

namespace Pciemu.Device

open Bytes AuroraHw

/-- What the bus may do between the call of `pci_dma_read` or `pci_dma_write` and its return, the
given part of `dma->buff` being the one it may store to: the register writes that come back to the
device are listed, and may find any bus themselves. -/
inductive BusRun (ofs len : ℕ) (m : Machine) : List (UInt64 × UInt64) → Machine → Prop
  | start : BusRun ofs len m [] m
  | store {ws m'} (b : ℕ → UInt8) (hb : ∀ i, i < ofs ∨ ofs + len ≤ i → b i = m'.dma.buff i) :
      BusRun ofs len m ws m' → BusRun ofs len m ws (m'.setBuff b)
  | host {ws m'} (host : ℕ → UInt8) :
      BusRun ofs len m ws m' → BusRun ofs len m ws { m' with host := host }
  | write {ws m'} (inner : Bus) (bar : Bar) (addr val : UInt64) (size : ℕ) :
      BusRun ofs len m ws m' → BusRun ofs len m (ws ++ [(addr, val)]) (barWrite inner m' bar addr val size)

def Bus.Delivers (bus : Bus) (W : Set (List (UInt64 × UInt64))) : Prop :=
  ∀ m addr ofs len, (∃ ws ∈ W, BusRun ofs.toNat len.toNat m ws (bus.pciDmaRead m addr ofs len).1) ∧
    ∃ ws ∈ W, BusRun 0 0 m ws (bus.pciDmaWrite m addr ofs len).1

def copyBus : Bus where
  pciDmaRead m addr ofs len :=
    (m.setBuff (splice m.dma.buff ofs.toNat len.toNat fun i => m.host (addr.toNat + i)), 0)
  pciDmaWrite m addr ofs len :=
    ({ m with host := splice m.host addr.toNat len.toNat fun i => m.dma.buff (ofs.toNat + i) }, 0)

def deliver (inner : Bus) (m : Machine) (ws : List (UInt64 × UInt64)) : Machine :=
  ws.foldl (fun m w => barWrite inner m .reg w.1 w.2 8) m

def Bus.thenWrites (bus inner : Bus) (ws : List (UInt64 × UInt64)) : Bus where
  pciDmaRead m addr ofs len :=
    let r := bus.pciDmaRead m addr ofs len
    (deliver inner r.1 ws, r.2)
  pciDmaWrite m addr ofs len :=
    let r := bus.pciDmaWrite m addr ofs len
    (deliver inner r.1 ws, r.2)

theorem copyBus_delivers : copyBus.Delivers {[]} := by
  intro m addr ofs len
  refine ⟨⟨[], rfl, .store _ ?_ .start⟩, [], rfl, .host _ .start⟩
  intro i hi
  exact splice_outside _ _ _ _ _ hi

theorem busRun_deliver {ofs len : ℕ} {m m' : Machine} {us : List (UInt64 × UInt64)} (inner : Bus)
    (ws : List (UInt64 × UInt64)) (h : BusRun ofs len m us m') :
    BusRun ofs len m (us ++ ws) (deliver inner m' ws) := by
  induction ws generalizing us m' with
  | nil =>
    rw [List.append_nil]
    exact h
  | cons w ws ih =>
    have := ih (.write inner .reg w.1 w.2 8 h)
    rwa [List.append_assoc] at this

theorem thenWrites_delivers {bus : Bus} (h : bus.Delivers {[]}) (inner : Bus)
    (ws : List (UInt64 × UInt64)) : (bus.thenWrites inner ws).Delivers {ws} := by
  intro m addr ofs len
  obtain ⟨⟨_, rfl, hr⟩, _, rfl, hw⟩ := h m addr ofs len
  exact ⟨⟨ws, rfl, busRun_deliver inner ws hr⟩, ws, rfl, busRun_deliver inner ws hw⟩

def raisesIn (ws : List (UInt64 × UInt64)) : ℕ := ws.countP fun w => w.1 = regIrq0Raise

structure Reentered (m : Machine) (calls : List Event) (n : ℕ) (m' : Machine) : Prop where
  config : m'.dma.config = m.dma.config
  status : m'.dma.status = m.dma.status
  msix : m'.msixEnabled = m.msixEnabled
  msi : m'.msiEnabled = m.msiEnabled
  calls : dmaCalls m'.log = dmaCalls m.log ++ calls
  raises : raises m'.log = raises m.log + n
  notified : m.msixEnabled ∨ m.msiEnabled → notified m'.log = notified m.log + n

theorem Reentered.refl (m : Machine) : Reentered m [] 0 m :=
  ⟨rfl, rfl, rfl, rfl, by simp, rfl, fun _ => rfl⟩

theorem Reentered.trans {m m' m'' : Machine} {cs cs' : List Event} {n n' : ℕ}
    (h : Reentered m cs n m') (h' : Reentered m' cs' n' m'') : Reentered m (cs ++ cs') (n + n') m'' where
  config := h'.config.trans h.config
  status := h'.status.trans h.status
  msix := h'.msix.trans h.msix
  msi := h'.msi.trans h.msi
  calls := by rw [h'.calls, h.calls, List.append_assoc]
  raises := by rw [h'.raises, h.raises, Nat.add_assoc]
  notified := by
    intro hm
    rw [h'.notified (by rwa [h.msix, h.msi]), h.notified hm, Nat.add_assoc]

theorem Reentered.of_silent (m : Machine) (es : List Event) (h : Silent es) :
    Reentered m [] 0 (m.emits es) where
  config := rfl
  status := rfl
  msix := rfl
  msi := rfl
  calls := by simp [h.1]
  raises := by simp [h.2.1]
  notified := by simp [h.2.2]

theorem Reentered.of_irqStep {m m' : Machine} {es : List Event} (n : ℕ) (h : IrqStep m es m')
    (hc : dmaCalls es = []) (hr : Device.raises es = n)
    (hn : m.msixEnabled ∨ m.msiEnabled → Device.notified es = n) : Reentered m [] n m' where
  config := by rw [h.dma]
  status := by rw [h.dma]
  msix := h.msix
  msi := h.msi
  calls := by simp [h.log, hc]
  raises := by simp [h.log, hr]
  notified := by
    intro hm
    simp [h.log, hn hm]

theorem raise_reentered (m : Machine) : Reentered m [] 1 (pciemuIrqRaise m irqDmaEndedVector) := by
  obtain ⟨e, h, hc, hr, hn⟩ := raise_step m
  exact .of_irqStep 1 h hc hr hn

theorem lower_reentered (m : Machine) (vector : ℕ) : Reentered m [] 0 (pciemuIrqLower m vector) := by
  obtain ⟨es, h, hc, hr, hn⟩ := lower_step m vector
  exact .of_irqStep 0 h hc hr (fun _ => hn)

theorem configWhenIdle_executing (f : DmaConfig → DmaConfig) (m : Machine)
    (h : m.dma.status = .executing) : configWhenIdle f m = m := by
  rw [configWhenIdle, if_neg (by simp [h])]

theorem writeReg_executing (bus : Bus) (m : Machine) (value : UInt64) (r : Reg)
    (h : m.dma.status = .executing) :
    Reentered m [] (if r = .irqRaise then 1 else 0) (writeReg bus m value r) := by
  cases r with
  | scratch i => exact ⟨rfl, rfl, rfl, rfl, by simp [writeReg, Machine.setReg], rfl, fun _ => rfl⟩
  | irqRaise => exact raise_reentered m
  | irqLower => exact lower_reentered m _
  | src => simpa only [writeReg, auroraDmaConfigTxdescSrc, configWhenIdle_executing _ m h] using .refl m
  | dst => simpa only [writeReg, auroraDmaConfigTxdescDst, configWhenIdle_executing _ m h] using .refl m
  | len => simpa only [writeReg, auroraDmaConfigTxdescLen, configWhenIdle_executing _ m h] using .refl m
  | cmd => simpa only [writeReg, auroraDmaConfigCmd, configWhenIdle_executing _ m h] using .refl m
  | doorbell => simpa only [writeReg, doorbell_executing bus m h] using .refl m
  | hole => exact .refl m

theorem busRun_executing {ofs len : ℕ} {m m' : Machine} {ws : List (UInt64 × UInt64)}
    (h : BusRun ofs len m ws m') (hm : m.dma.status = .executing) :
    Reentered m [] (raisesIn ws) m' := by
  induction h with
  | start => exact .refl m
  | store b hb h ih => exact ⟨ih.config, ih.status, ih.msix, ih.msi, ih.calls, ih.raises, ih.notified⟩
  | host host h ih => exact ⟨ih.config, ih.status, ih.msix, ih.msi, ih.calls, ih.raises, ih.notified⟩
  | @write ws m' inner bar addr val size h ih =>
    rw [barWrite_eq]
    have hw := writeReg_executing inner m' val (decode addr) (ih.status.trans hm)
    have hc : raisesIn (ws ++ [(addr, val)]) =
        raisesIn ws + if decode addr = .irqRaise then 1 else 0 := by
      simp [raisesIn, List.countP_append, List.countP_cons, decode_eq addr .irqRaise (by decide), Reg.addr]
    rw [hc]
    exact ih.trans hw

theorem busAccess_busRun {bus : Bus} {W : Set (List (UInt64 × UInt64))} (hb : bus.Delivers W)
    {c : DmaConfig} {call : Event} (h : transferCall c = some call) (m : Machine) :
    ∃ ws ∈ W, ∃ ofs len, BusRun ofs len m ws (busAccess bus m call).1 := by
  unfold transferCall at h
  split_ifs at h <;> cases h
  · obtain ⟨ws, hw, hr⟩ := (hb m _ _ _).1
    exact ⟨ws, hw, _, _, hr⟩
  · obtain ⟨ws, hw, hr⟩ := (hb m _ _ _).2
    exact ⟨ws, hw, _, _, hr⟩

theorem doorbell_refused (bus : Bus) (m : Machine) (hi : m.dma.status = .idle)
    (hc : transferCall m.dma.config = none) : ∃ es, Silent es ∧ auroraDmaDoorbellRing bus m = m.emits es := by
  refine ⟨refusalReport m.dma.config, silent_refusalReport _, ?_⟩
  rw [doorbell_idle bus m hi, execute_eq, Machine.setStatus_dma_config, hc]
  simp only [Machine.setStatus, Machine.emits, ← hi]

def entered (m : Machine) (call : Event) : Machine :=
  ((m.setStatus .executing).emits (entryReport m.dma.config)).emit call

theorem doorbell_transfer (bus : Bus) (m : Machine) (hi : m.dma.status = .idle) (call : Event)
    (hc : transferCall m.dma.config = some call) :
    auroraDmaDoorbellRing bus m =
      (let r := busAccess bus (entered m call) call
      (pciemuIrqRaise (r.1.emits (errorReport r.2 call)) irqDmaEndedVector).setStatus .idle) := by
  rw [doorbell_idle bus m hi, execute_eq, Machine.setStatus_dma_config, hc]
  rfl

theorem transferCall_isCall {c : DmaConfig} {call : Event} (h : transferCall c = some call) :
    dmaCalls [call] = [call] ∧ raises [call] = 0 ∧ notified [call] = 0 := by
  unfold transferCall at h
  split_ifs at h <;> cases h <;> exact ⟨rfl, rfl, rfl⟩

theorem entered_reentered {m : Machine} {call : Event} (h : transferCall m.dma.config = some call) :
    Reentered (m.setStatus .executing) [call] 0 (entered m call) := by
  obtain ⟨h1, h2, h3⟩ := transferCall_isCall h
  obtain ⟨s1, s2, s3⟩ := silent_entryReport m.dma.config
  exact ⟨rfl, rfl, rfl, rfl, by simp [entered, s1, h1], by simp [entered, s2, h2],
    fun _ => by simp [entered, s3, h3]⟩

theorem Reentered.setStatus {m m' : Machine} {cs : List Event} {n : ℕ} {s t : DmaStatus}
    (hs : m.dma.status = s) (h : Reentered (m.setStatus t) cs n m') : Reentered m cs n (m'.setStatus s) :=
  ⟨h.config, hs.symm, h.msix, h.msi, h.calls, h.raises, h.notified⟩

theorem doorbell_around {bus : Bus} {W : Set (List (UInt64 × UInt64))} (hb : bus.Delivers W)
    (m : Machine) (hi : m.dma.status = .idle) (call : Event)
    (hc : transferCall m.dma.config = some call) :
    ∃ ws ∈ W, ∃ ofs len, BusRun ofs len (entered m call) ws (busAccess bus (entered m call) call).1 ∧
      Reentered (m.setStatus .executing) [call] (raisesIn ws) (busAccess bus (entered m call) call).1 ∧
      Reentered m [call] (raisesIn ws + 1) (auroraDmaDoorbellRing bus m) := by
  obtain ⟨ws, hws, ofs, len, hrun⟩ := busAccess_busRun hb hc (entered m call)
  have hent := entered_reentered hc
  have hdone := hent.trans (busRun_executing hrun hent.status)
  have hend (err : ℕ) := hdone.trans
    ((Reentered.of_silent _ _ (silent_errorReport err call)).trans (raise_reentered _))
  refine ⟨ws, hws, ofs, len, hrun, by simpa using hdone, ?_⟩
  rw [doorbell_transfer bus m hi call hc]
  simpa using (hend _).setStatus hi

theorem doorbell_reentered {bus : Bus} {W : Set (List (UInt64 × UInt64))} (hb : bus.Delivers W)
    (m : Machine) (hi : m.dma.status = .idle) :
    ∃ n, Reentered m (transferCall m.dma.config).toList n (auroraDmaDoorbellRing bus m) ∧
      ((transferCall m.dma.config).isSome → ∃ ws ∈ W, n = raisesIn ws + 1) := by
  cases hc : transferCall m.dma.config with
  | none =>
    obtain ⟨es, hs, he⟩ := doorbell_refused bus m hi hc
    exact ⟨0, he ▸ .of_silent m es hs, by simp⟩
  | some call =>
    obtain ⟨ws, hws, _, _, _, _, hend⟩ := doorbell_around hb m hi call hc
    exact ⟨raisesIn ws + 1, hend, fun _ => ⟨ws, hws, rfl⟩⟩

theorem doorbell_reentrant (bus : Bus) (W : Set (List (UInt64 × UInt64))) (hb : bus.Delivers W)
    (m : Machine) (hi : m.dma.status = .idle) (bar : Bar) (val : UInt64) (size : ℕ) :
    let m' := barWrite bus m bar regDmaDoorbellRing val size
    m'.dma.status = .idle ∧ m'.dma.config = m.dma.config ∧
      dmaCalls m'.log = dmaCalls m.log ++ (transferCall m.dma.config).toList ∧
      match transferCall m.dma.config with
      | none => raises m'.log = raises m.log
      | some call => ∃ ws ∈ W, ∃ done ofs len, done = (busAccess bus (entered m call) call).1 ∧
          BusRun ofs len (entered m call) ws done ∧
          done.dma.status = .executing ∧ done.dma.config = m.dma.config ∧
          dmaCalls done.log = dmaCalls m.log ++ [call] ∧
          raises done.log = raises m.log + raisesIn ws ∧ raises m'.log = raises done.log + 1 := by
  intro m'
  have hm' : m' = auroraDmaDoorbellRing bus m := by
    rw [show m' = barWrite bus m bar regDmaDoorbellRing val size from rfl, barWrite_eq]
    rfl
  rw [hm']
  cases hc : transferCall m.dma.config with
  | none =>
    obtain ⟨es, hs, he⟩ := doorbell_refused bus m hi hc
    simp [he, hi, hs.1, hs.2.1]
  | some call =>
    obtain ⟨ws, hws, ofs, len, hrun, hdone, hend⟩ := doorbell_around hb m hi call hc
    refine ⟨hend.status.trans hi, hend.config, hend.calls, ws, hws, _, ofs, len, rfl, hrun,
      hdone.status, hdone.config, hdone.calls, hdone.raises, ?_⟩
    rw [hend.raises, hdone.raises, Machine.setStatus_log, Nat.add_assoc]

def armed : Machine :=
  ⟨true, false, fun _ => 0, ⟨⟨⟨0x2000, 0x10000, 8⟩, 1, 0xffffffff⟩, .idle, fun _ => 0⟩, fun _ => 7, []⟩

theorem doorbell_reentrant_armed :
    let ws := [(regDmaDoorbellRing, 1), (regDmaCfgCmd, 2), (regIrq0Raise, 1)]
    let m' := barWrite (copyBus.thenWrites copyBus ws) armed .reg regDmaDoorbellRing 1 8
    armed.dma.status = .idle ∧ m'.dma.status = .idle ∧
      dmaCalls m'.log = [.pciDmaRead 0x2000 0 8] := by
  intro ws m'
  obtain ⟨hs, -, hc, -⟩ := doorbell_reentrant (copyBus.thenWrites copyBus ws) {ws}
    (thenWrites_delivers copyBus_delivers copyBus ws) armed rfl .reg 1 8
  exact ⟨rfl, hs, hc.trans (by decide)⟩

end Pciemu.Device
