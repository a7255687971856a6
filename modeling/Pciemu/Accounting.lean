import Pciemu.Isolated

namespace Pciemu.Device

open Bytes AuroraHw Runs

def Machine.pinRaised (m : Machine) : Bool := m.irq pinRaisedOfs ≠ 0

def Machine.raisedFlag (m : Machine) : Bool :=
  if m.msixEnabled || m.msiEnabled then m.vectorRaised irqDmaEndedVector else m.pinRaised

def setLevel (level : ℕ) : Event → ℕ
  | .pciSetIrq level' => level'
  | _ => level

def lineLevel (log : List Event) : ℕ := log.foldl setLevel 0

def Op.keepsMode : Op → Bool
  | .setMode _ _ => false
  | _ => true

def Op.raises : Op → Bool
  | .write _ addr _ _ => addr = regIrq0Raise
  | _ => false

def Op.lowers : Op → Bool
  | .write _ addr _ _ => addr = regIrq0Lower
  | .reset => true
  | _ => false

def executes (bus : Bus) (m : Machine) (op : Op) : Bool := dmaCalls (apply bus m op).log ≠ dmaCalls m.log

def signalled (bus : Bus) (m : Machine) (b : Bool) (op : Op) : Bool :=
  if op.raises || executes bus m op then true else if op.lowers then false else b

/-- Whether the latest of raise writes, executed transfers, lower writes and resets was one of the
first two, `b` having been the answer before the run. -/
def raisedLast (bus : Bus) (m : Machine) (b : Bool) : List Op → Bool
  | [] => b
  | op :: ops => raisedLast bus (apply bus m op) (signalled bus m b op) ops

structure Accounted (m : Machine) (b : Bool) (raised : ℕ) : Prop where
  flag : m.raisedFlag = b
  others : ∀ v ≠ irqDmaEndedVector, m.vectorRaised v = false
  notified : m.msixEnabled ∨ m.msiEnabled → notified m.log = raised + (dmaCalls m.log).length
  level : ¬(m.msixEnabled ∨ m.msiEnabled) → lineLevel m.log = m.pinRaised.toNat

theorem setIrqByte_vectorRaised (m : Machine) (ofs : ℕ) (b : UInt8) (v : ℕ) (h : vectorRaisedOfs v ≠ ofs) :
    (m.setIrqByte ofs b).vectorRaised v = m.vectorRaised v := by
  simp [Machine.vectorRaised, Function.update_of_ne h]

theorem vectorRaisedOfs_ne {v w : ℕ} (h : v ≠ w) : vectorRaisedOfs v ≠ vectorRaisedOfs w := by
  simp only [vectorRaisedOfs]
  omega

theorem vectorRaisedOfs_ne_pin (v : ℕ) : vectorRaisedOfs v ≠ pinRaisedOfs := by
  simp only [vectorRaisedOfs, pinRaisedOfs]
  omega

theorem lowerVector_other (n : ℕ) (m : Machine) {v w : ℕ} (h : v ≠ w) :
    (lowerVector n m w).vectorRaised v = m.vectorRaised v := by
  unfold lowerVector
  split_ifs
  · rfl
  · rfl
  · exact setIrqByte_vectorRaised m _ 0 v (vectorRaisedOfs_ne h)

theorem foldl_lowerVector_clear (n : ℕ) (vs : List ℕ) (m : Machine) (v : ℕ) (hv : v < n)
    (h : m.vectorRaised v = false ∨ v ∈ vs) : (vs.foldl (lowerVector n) m).vectorRaised v = false := by
  induction vs generalizing m with
  | nil => exact h.resolve_right List.not_mem_nil
  | cons w vs ih =>
    apply ih
    by_cases hvw : v = w
    · subst hvw
      exact .inl (lowerVector_raised n m v hv)
    · rw [lowerVector_other n m hvw]
      exact h.imp_right fun hm => (List.mem_cons.mp hm).resolve_left hvw

theorem foldl_lowerVector_others (n : ℕ) (vs : List ℕ) (m : Machine) (v : ℕ) (h : m.vectorRaised v = false) :
    (vs.foldl (lowerVector n) m).vectorRaised v = false := by
  induction vs generalizing m with
  | nil => exact h
  | cons w vs ih =>
    apply ih
    unfold lowerVector
    split_ifs with hn hr
    · exact h
    · exact h
    · have hvw : v ≠ w := fun he => by
        subst he
        simp [h] at hr
      rw [setIrqByte_vectorRaised m _ 0 v (vectorRaisedOfs_ne hvw), h]

section Modes

variable (m : Machine)

theorem raisedFlag_vector (h : m.msixEnabled ∨ m.msiEnabled) :
    m.raisedFlag = m.vectorRaised irqDmaEndedVector := by
  rw [Machine.raisedFlag, if_pos (by simpa using h)]

theorem raisedFlag_pin (h : ¬(m.msixEnabled ∨ m.msiEnabled)) : m.raisedFlag = m.pinRaised := by
  rw [Machine.raisedFlag, if_neg (by simpa using h)]

theorem raise_vector (h : m.msixEnabled ∨ m.msiEnabled) : ∃ e,
    pciemuIrqRaise m irqDmaEndedVector = (m.setIrqByte (vectorRaisedOfs irqDmaEndedVector) 1).emit e := by
  unfold pciemuIrqRaise
  split_ifs with hx hm
  · exact ⟨_, rfl⟩
  · exact ⟨_, rfl⟩
  · exact absurd h (by simp [hx, hm])

theorem raise_pin (h : ¬(m.msixEnabled ∨ m.msiEnabled)) :
    pciemuIrqRaise m irqDmaEndedVector = pciemuIrqRaiseIntx m := by
  rw [not_or] at h
  rw [pciemuIrqRaise, if_neg h.1, if_neg h.2]

theorem lower_vector (h : m.msixEnabled ∨ m.msiEnabled) : ∃ n, irqDmaEndedVector < n ∧
    pciemuIrqLower m irqDmaEndedVector = lowerVector n m irqDmaEndedVector := by
  unfold pciemuIrqLower
  split_ifs with hx hm
  · exact ⟨irqMaxVectorsMsix, by decide, rfl⟩
  · exact ⟨irqMaxVectorsMsi, by decide, rfl⟩
  · exact absurd h (by simp [hx, hm])

theorem lower_pin (h : ¬(m.msixEnabled ∨ m.msiEnabled)) :
    pciemuIrqLower m irqDmaEndedVector = pciemuIrqLowerIntx m := by
  rw [not_or] at h
  rw [pciemuIrqLower, if_neg h.1, if_neg h.2]

theorem irqReset_vector (h : m.msixEnabled ∨ m.msiEnabled) : ∃ (n : ℕ) (vs : List ℕ), irqDmaEndedVector < n ∧
    irqDmaEndedVector ∈ vs ∧ pciemuIrqReset m = vs.foldl (lowerVector n) m := by
  unfold pciemuIrqReset
  split_ifs with hx hm
  · exact ⟨irqMaxVectorsMsix, vectorRange irqMsixVectorStart irqMsixVectorEnd, by decide, by decide, rfl⟩
  · exact ⟨irqMaxVectorsMsi, vectorRange irqVectorStart irqVectorEnd, by decide, by decide, rfl⟩
  · exact absurd h (by simp [hx, hm])

theorem irqReset_pin (h : ¬(m.msixEnabled ∨ m.msiEnabled)) : pciemuIrqReset m = pciemuIrqLowerIntx m := by
  rw [not_or] at h
  rw [pciemuIrqReset, if_neg h.1, if_neg h.2]

end Modes

theorem lineLevel_append (l es : List Event) : lineLevel (l ++ es) = es.foldl setLevel (lineLevel l) :=
  List.foldl_append

theorem lineLevel_quiet (l es : List Event) (h : interrupts es = []) : lineLevel (l ++ es) = lineLevel l := by
  rw [lineLevel_append]
  induction es with
  | nil => rfl
  | cons e es ih =>
    cases e with
    | msixNotify v => cases h
    | msiNotify v => cases h
    | pciSetIrq level => cases h
    | _ => exact ih h

theorem notified_quiet (es : List Event) (h : interrupts es = []) : notified es = 0 := by
  rw [notified, List.countP_eq_zero]
  intro e he
  have hn := List.filter_eq_nil_iff.mp h e he
  cases e with
  | msixNotify v => exact absurd rfl hn
  | msiNotify v => exact absurd rfl hn
  | _ => simp

structure Quietly (m : Machine) (es : List Event) (n : Machine) : Prop where
  irq : n.irq = m.irq
  msix : n.msixEnabled = m.msixEnabled
  msi : n.msiEnabled = m.msiEnabled
  log : n.log = m.log ++ es
  silent : interrupts es = []

theorem signal_cases {bus : Bus} (hb : bus.Delivers {[]}) (m : Machine) (hi : m.dma.status = .idle) (op : Op)
    (hk : op.keepsMode) :
    (∃ es, Quietly m es (apply bus m op) ∧ op.raises = false ∧ op.lowers = false ∧ dmaCalls es = []) ∨
    (∃ n es, Quietly m es n ∧ apply bus m op = pciemuIrqRaise n irqDmaEndedVector ∧
      (dmaCalls es).length + op.raises.toNat = 1) ∨
    (op.raises = false ∧ op.lowers = true ∧
      (apply bus m op = pciemuIrqLower m irqDmaEndedVector ∨ apply bus m op = auroraDmaReset (pciemuIrqReset m))) := by
  have hrefl : Quietly m [] m := ⟨rfl, rfl, rfl, (List.append_nil _).symm, rfl⟩
  cases op with
  | read bar addr size => exact .inl ⟨[], hrefl, rfl, rfl, rfl⟩
  | reset => exact .inr (.inr ⟨rfl, rfl, .inr rfl⟩)
  | setMode msix msi => cases hk
  | hostStore host =>
    exact .inl ⟨[], ⟨rfl, rfl, rfl, (List.append_nil _).symm, rfl⟩, rfl, rfl, rfl⟩
  | write bar addr val size =>
    have hraise : (Op.write bar addr val size).raises = decide (decode addr = .irqRaise) := by
      simp [Op.raises, decode_eq addr .irqRaise (by decide), Reg.addr]
    have hlower : (Op.write bar addr val size).lowers = decide (decode addr = .irqLower) := by
      simp [Op.lowers, decode_eq addr .irqLower (by decide), Reg.addr]
    rw [hraise, hlower, apply, barWrite_eq]
    have hcfg (f : DmaConfig → DmaConfig) : Quietly m [] (configWhenIdle f m) := by
      rw [configWhenIdle, if_pos hi]
      exact ⟨rfl, rfl, rfl, (List.append_nil _).symm, rfl⟩
    cases hd : decode addr with
    | scratch i => exact .inl ⟨[], ⟨rfl, rfl, rfl, (List.append_nil _).symm, rfl⟩, rfl, rfl, rfl⟩
    | irqRaise => exact .inr (.inl ⟨m, [], hrefl, rfl, rfl⟩)
    | irqLower => exact .inr (.inr ⟨rfl, rfl, .inl rfl⟩)
    | src => exact .inl ⟨[], hcfg fun c => { c with txdesc := { c.txdesc with src := val } }, rfl, rfl, rfl⟩
    | dst => exact .inl ⟨[], hcfg fun c => { c with txdesc := { c.txdesc with dst := val } }, rfl, rfl, rfl⟩
    | len => exact .inl ⟨[], hcfg fun c => { c with txdesc := { c.txdesc with len := val } }, rfl, rfl, rfl⟩
    | cmd => exact .inl ⟨[], hcfg fun c => { c with cmd := val }, rfl, rfl, rfl⟩
    | hole => exact .inl ⟨[], hrefl, rfl, rfl, rfl⟩
    | doorbell =>
      cases hc : transferCall m.dma.config with
      | none =>
        rw [writeReg, doorbell_idle bus m hi, execute_eq, Machine.setStatus_dma_config, hc]
        exact .inl ⟨refusalReport m.dma.config, ⟨rfl, rfl, rfl, rfl, interrupts_refusalReport _⟩, rfl, rfl,
          (silent_refusalReport _).1⟩
      | some call =>
        obtain ⟨b, host, es, he, hcalls, hint, -⟩ := doorbell_isolated hb m hi call hc
        refine .inr (.inl ⟨{ m.setBuff b with host := host, log := m.log ++ es }, es, ⟨rfl, rfl, rfl, rfl, hint⟩,
          he, ?_⟩)
        rw [hcalls]
        rfl

theorem quietly_accounted {m n : Machine} {es : List Event} {b : Bool} {k : ℕ} (h : Accounted m b k)
    (hq : Quietly m es n) (hc : dmaCalls es = []) : Accounted n b k where
  flag := by
    rw [← h.flag]
    simp only [Machine.raisedFlag, Machine.vectorRaised, Machine.pinRaised, hq.irq, hq.msix, hq.msi]
  others := by
    intro v hv
    rw [← h.others v hv, Machine.vectorRaised, hq.irq, Machine.vectorRaised]
  notified := by
    intro hm
    rw [hq.msix, hq.msi] at hm
    rw [hq.log, notified_append, notified_quiet es hq.silent, dmaCalls_append, hc, List.append_nil]
    exact h.notified hm
  level := by
    intro hm
    rw [hq.msix, hq.msi] at hm
    rw [hq.log, lineLevel_quiet _ _ hq.silent, h.level hm, Machine.pinRaised, Machine.pinRaised, hq.irq]

theorem raised_accounted {m n : Machine} {es : List Event} {b : Bool} {k k' : ℕ} (h : Accounted m b k)
    (hq : Quietly m es n) (hc : k + 1 = k' + (dmaCalls es).length) :
    Accounted (pciemuIrqRaise n irqDmaEndedVector) true k' := by
  have hr := raise_reentered n
  have hothers (v : ℕ) (hv : v ≠ irqDmaEndedVector) : n.vectorRaised v = false := by
    rw [← h.others v hv, Machine.vectorRaised, hq.irq, Machine.vectorRaised]
  by_cases hm : n.msixEnabled ∨ n.msiEnabled
  · have hm' : (pciemuIrqRaise n irqDmaEndedVector).msixEnabled ∨ (pciemuIrqRaise n irqDmaEndedVector).msiEnabled := by
      rwa [hr.msix, hr.msi]
    obtain ⟨e, he⟩ := raise_vector n hm
    refine ⟨?_, ?_, ?_, fun hn => absurd hm' hn⟩
    · rw [raisedFlag_vector _ hm', he]
      simp [Machine.vectorRaised]
    · intro v hv
      rw [he, ← hothers v hv]
      exact setIrqByte_vectorRaised n _ 1 v (vectorRaisedOfs_ne hv)
    · intro _
      have hold : m.msixEnabled ∨ m.msiEnabled := by rwa [← hq.msix, ← hq.msi]
      rw [hr.notified hm, hr.calls, List.append_nil, hq.log, notified_append, notified_quiet es hq.silent,
        dmaCalls_append, List.length_append, h.notified hold]
      omega
  · have hm' : ¬((pciemuIrqRaise n irqDmaEndedVector).msixEnabled ∨
        (pciemuIrqRaise n irqDmaEndedVector).msiEnabled) := by rwa [hr.msix, hr.msi]
    refine ⟨?_, ?_, fun hn => absurd hn hm', ?_⟩
    · rw [raisedFlag_pin _ hm', raise_pin n hm]
      simp [pciemuIrqRaiseIntx, Machine.pinRaised]
    · intro v hv
      rw [raise_pin n hm, ← hothers v hv]
      exact setIrqByte_vectorRaised n _ 1 v (vectorRaisedOfs_ne_pin v)
    · intro _
      rw [raise_pin n hm, pciemuIrqRaiseIntx, Machine.emit_log, lineLevel_append]
      simp [setLevel, Machine.pinRaised]

theorem lowered_accounted {m n : Machine} {b : Bool} {k : ℕ} (h : Accounted m b k)
    (hlow : ∃ es, IrqStep m es n ∧ dmaCalls es = [] ∧ notified es = 0)
    (hvector : m.msixEnabled ∨ m.msiEnabled → n.vectorRaised irqDmaEndedVector = false ∧
      ∀ v, m.vectorRaised v = false → n.vectorRaised v = false)
    (hpin : ¬(m.msixEnabled ∨ m.msiEnabled) → n = pciemuIrqLowerIntx m) : Accounted n false k := by
  obtain ⟨es, hstep, hcalls, hnot⟩ := hlow
  by_cases hm : m.msixEnabled ∨ m.msiEnabled
  · have hm' : n.msixEnabled ∨ n.msiEnabled := by rwa [hstep.msix, hstep.msi]
    refine ⟨?_, ?_, ?_, fun hn => absurd hm' hn⟩
    · rw [raisedFlag_vector _ hm', (hvector hm).1]
    · intro v hv
      exact (hvector hm).2 v (h.others v hv)
    · intro _
      rw [hstep.log, notified_append, hnot, dmaCalls_append, hcalls, List.append_nil]
      exact h.notified hm
  · have hm' : ¬(n.msixEnabled ∨ n.msiEnabled) := by rwa [hstep.msix, hstep.msi]
    refine ⟨?_, ?_, fun hn => absurd hn hm', ?_⟩
    · rw [raisedFlag_pin _ hm', hpin hm]
      simp [pciemuIrqLowerIntx, Machine.pinRaised]
    · intro v hv
      rw [hpin hm, ← h.others v hv]
      exact setIrqByte_vectorRaised m _ 0 v (vectorRaisedOfs_ne_pin v)
    · intro _
      rw [hpin hm, pciemuIrqLowerIntx, Machine.emit_log, lineLevel_append]
      simp [setLevel, Machine.pinRaised]

theorem lower_accounted {m : Machine} {b : Bool} {k : ℕ} (h : Accounted m b k) :
    Accounted (pciemuIrqLower m irqDmaEndedVector) false k := by
  obtain ⟨es, hstep, hcalls, -, hnot⟩ := lower_step m irqDmaEndedVector
  apply lowered_accounted h ⟨es, hstep, hcalls, hnot⟩ _ (lower_pin m)
  intro hm
  obtain ⟨n, hn, he⟩ := lower_vector m hm
  rw [he]
  refine ⟨lowerVector_raised n m _ hn, ?_⟩
  intro v hv
  exact foldl_lowerVector_others n [irqDmaEndedVector] m v hv

theorem reset_accounted {m : Machine} {b : Bool} {k : ℕ} (h : Accounted m b k) :
    Accounted (auroraDmaReset (pciemuIrqReset m)) false k := by
  obtain ⟨es, hstep, hcalls, -, hnot⟩ := irqReset_step m
  have hr : Accounted (pciemuIrqReset m) false k := by
    apply lowered_accounted h ⟨es, hstep, hcalls, hnot⟩ _ (irqReset_pin m)
    intro hm
    obtain ⟨n, vs, hn, hmem, he⟩ := irqReset_vector m hm
    rw [he]
    exact ⟨foldl_lowerVector_clear n vs m _ hn (.inr hmem), fun v hv => foldl_lowerVector_others n vs m v hv⟩
  exact ⟨hr.flag, hr.others, hr.notified, hr.level⟩

theorem accounted_step {bus : Bus} (hb : bus.Delivers {[]}) {m : Machine} (hi : m.dma.status = .idle) (op : Op)
    (hk : op.keepsMode) {b : Bool} {k : ℕ} (h : Accounted m b k) :
    Accounted (apply bus m op) (signalled bus m b op) (k + op.raises.toNat) := by
  rcases signal_cases hb m hi op hk with ⟨es, hq, hr, hl, hc⟩ | ⟨n, es, hq, he, hc⟩ | ⟨hr, hl, he⟩
  · have hx : executes bus m op = false := by
      simp [executes, hq.log, hc]
    rw [signalled, hr, hx, hl]
    exact quietly_accounted h hq hc
  · have hx : op.raises || executes bus m op := by
      cases hr : op.raises with
      | true => rfl
      | false =>
        rw [hr] at hc
        have hne : dmaCalls es ≠ [] := by
          intro hn
          rw [hn] at hc
          cases hc
        simpa [executes, he, (raise_reentered n).calls, hq.log] using hne
    rw [signalled, if_pos hx, he]
    exact raised_accounted h hq (by omega)
  · have hx : executes bus m op = false := by
      rcases he with he | he
      · simp [executes, he, (lower_reentered m _).calls]
      · obtain ⟨es, hstep, hcalls, -⟩ := irqReset_step m
        simp [executes, he, auroraDmaReset, hstep.log, hcalls]
    rw [signalled, hr, hx, hl]
    rcases he with he | he
    · rw [he]
      exact lower_accounted h
    · rw [he]
      exact reset_accounted h

theorem accounted_run {bus : Bus} (hb : bus.Delivers {[]}) (ops : List Op) (hk : ∀ op ∈ ops, op.keepsMode)
    {m : Machine} (hi : m.dma.status = .idle) {b : Bool} {k : ℕ} (h : Accounted m b k) :
    Accounted (run bus m ops) (raisedLast bus m b ops) (k + ops.countP Op.raises) := by
  induction ops generalizing m b k with
  | nil => exact h
  | cons op ops ih =>
    have hstep := accounted_step hb hi op (hk op List.mem_cons_self) h
    have hrun := ih (fun o ho => hk o (List.mem_cons_of_mem op ho)) (apply_idle hb m hi op).1 hstep
    have hcount : (op :: ops).countP Op.raises = op.raises.toNat + ops.countP Op.raises := by
      rw [List.countP_cons]
      cases op.raises <;> simp [Nat.add_comm]
    rw [hcount, ← Nat.add_assoc]
    exact hrun

def realized (raw : DmaEngine) (host : ℕ → UInt8) (msix msi : Bool) : Machine :=
  { pciemuDeviceInit raw host with msixEnabled := msix, msiEnabled := msi }

theorem interrupts_accounted (bus : Bus) (hb : bus.Delivers {[]}) (raw : DmaEngine) (host : ℕ → UInt8)
    (msix msi : Bool) (ops : List Op) (hk : ∀ op ∈ ops, op.keepsMode) :
    Accounted (run bus (realized raw host msix msi) ops) (raisedLast bus (realized raw host msix msi) false ops)
      (ops.countP Op.raises) := by
  have h₀ : Accounted (realized raw host msix msi) false 0 := by
    refine ⟨?_, fun _ _ => rfl, fun _ => rfl, fun _ => rfl⟩
    cases msix <;> cases msi <;> rfl
  have hi : (realized raw host msix msi).dma.status = .idle := rfl
  have h := accounted_run hb ops hk hi h₀
  rwa [Nat.zero_add] at h

theorem interrupts_accounted_msi :
    let ops := [.write .reg regIrq0Raise 1 8, .write .reg regDmaCfgTxdescDst 0x10000 8,
      .write .reg regDmaCfgTxdescLen 8 8, .write .reg regDmaCfgCmd 1 8, .reset, .write .reg regDmaDoorbellRing 1 8,
      .write .reg regDmaCfgTxdescDst 0x10000 8, .write .reg regDmaCfgCmd 1 8, .write .reg regDmaDoorbellRing 1 8]
    let m := run copyBus (realized zeroEngine (fun _ => 7) false true) ops
    m.raisedFlag = true ∧ notified m.log = 2 := by
  intro ops m
  have h := interrupts_accounted copyBus copyBus_delivers zeroEngine (fun _ => 7) false true ops (by decide)
  exact ⟨h.flag.trans (by decide), (h.notified (.inr rfl)).trans (by decide)⟩

end Pciemu.Device
