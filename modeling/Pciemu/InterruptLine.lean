import Pciemu.Accounting

namespace Pciemu.Device

open AuroraHw

def Machine.vectored (m : Machine) : Prop := m.msixEnabled ∨ m.msiEnabled

def Machine.LineAgrees (m : Machine) : Prop := lineLevel m.log = m.pinRaised.toNat

structure LineKept (m n : Machine) : Prop where
  msix : n.msixEnabled = m.msixEnabled
  msi : n.msiEnabled = m.msiEnabled
  agrees : m.LineAgrees → n.LineAgrees
  level : m.vectored → lineLevel n.log = lineLevel m.log

theorem LineKept.refl (m : Machine) : LineKept m m := ⟨rfl, rfl, id, fun _ => rfl⟩

theorem LineKept.trans {m n k : Machine} (h : LineKept m n) (h' : LineKept n k) : LineKept m k where
  msix := h'.msix.trans h.msix
  msi := h'.msi.trans h.msi
  agrees := h'.agrees ∘ h.agrees
  level := by
    intro hv
    have hn : n.vectored := by
      rw [Machine.vectored, h.msix, h.msi]
      exact hv
    rw [h'.level hn, h.level hv]

theorem LineKept.of_quietly {m n : Machine} {es : List Event} (h : Quietly m es n) : LineKept m n where
  msix := h.msix
  msi := h.msi
  agrees := by
    intro ha
    rw [Machine.LineAgrees, h.log, lineLevel_quiet _ _ h.silent, ha, Machine.pinRaised, Machine.pinRaised, h.irq]
  level := by
    intro _
    rw [h.log, lineLevel_quiet _ _ h.silent]

theorem LineKept.of_frame {m n : Machine} (hirq : n.irq = m.irq) (hx : n.msixEnabled = m.msixEnabled)
    (hi : n.msiEnabled = m.msiEnabled) (hlog : n.log = m.log) : LineKept m n :=
  .of_quietly ⟨hirq, hx, hi, hlog.trans (List.append_nil _).symm, rfl⟩

theorem LineKept.emits (m : Machine) {es : List Event} (h : interrupts es = []) : LineKept m (m.emits es) :=
  .of_quietly ⟨rfl, rfl, rfl, rfl, h⟩

theorem LineKept.of_pin {m n : Machine} (hm : ¬m.vectored) (hx : n.msixEnabled = m.msixEnabled)
    (hi : n.msiEnabled = m.msiEnabled) (ha : n.LineAgrees) : LineKept m n :=
  ⟨hx, hi, fun _ => ha, fun hv => absurd hv hm⟩

theorem setIrqByte_pinRaised (m : Machine) (v : ℕ) (b : UInt8) :
    (m.setIrqByte (vectorRaisedOfs v) b).pinRaised = m.pinRaised := by
  simp [Machine.pinRaised, Function.update_of_ne (vectorRaisedOfs_ne_pin v).symm]

theorem LineKept.setVector (m : Machine) (v : ℕ) (b : UInt8) : LineKept m (m.setIrqByte (vectorRaisedOfs v) b) where
  msix := rfl
  msi := rfl
  agrees := by
    intro ha
    rw [Machine.LineAgrees, setIrqByte_pinRaised]
    exact ha
  level := fun _ => rfl

theorem LineKept.notify (m : Machine) {e : Event} (he : ∀ level, setLevel level e = level) : LineKept m (m.emit e) := by
  have hl : lineLevel (m.emit e).log = lineLevel m.log := by
    rw [Machine.emit_log, lineLevel_append]
    exact he _
  exact ⟨rfl, rfl, fun ha => hl.trans ha, fun _ => hl⟩

theorem raise_lineKept (m : Machine) (v : ℕ) : LineKept m (pciemuIrqRaise m v) := by
  have hvector (n : ℕ) (notify : ℕ → Event) (he : ∀ v level, setLevel level (notify v) = level) :
      LineKept m (raiseVector n notify m v) := by
    rw [raiseVector]
    split_ifs
    · exact .refl m
    · exact (LineKept.setVector m v 1).trans (.notify _ (he v))
  rw [pciemuIrqRaise]
  split_ifs with hx hi
  · exact hvector _ _ fun _ _ => rfl
  · exact hvector _ _ fun _ _ => rfl
  · refine .of_pin ?_ rfl rfl ?_
    · rintro (h | h)
      · exact hx h
      · exact hi h
    · rw [Machine.LineAgrees, pciemuIrqRaiseIntx, Machine.emit_log, lineLevel_append]
      simp [setLevel, Machine.pinRaised]

theorem lowerVector_lineKept (n : ℕ) (m : Machine) (v : ℕ) : LineKept m (lowerVector n m v) := by
  rw [lowerVector]
  split_ifs
  · exact .refl m
  · exact .refl m
  · exact .setVector m v 0

theorem lowerIntx_lineKept (m : Machine) (hm : ¬m.vectored) : LineKept m (pciemuIrqLowerIntx m) := by
  refine .of_pin hm rfl rfl ?_
  rw [Machine.LineAgrees, pciemuIrqLowerIntx, Machine.emit_log, lineLevel_append]
  simp [setLevel, Machine.pinRaised]

theorem lower_lineKept (m : Machine) (v : ℕ) : LineKept m (pciemuIrqLower m v) := by
  rw [pciemuIrqLower]
  split_ifs with hx hi
  · exact lowerVector_lineKept _ m v
  · exact lowerVector_lineKept _ m v
  · refine lowerIntx_lineKept m ?_
    rintro (h | h)
    · exact hx h
    · exact hi h

theorem irqReset_lineKept (m : Machine) : LineKept m (pciemuIrqReset m) := by
  have hfold (n : ℕ) (vs : List ℕ) : LineKept m (vs.foldl (lowerVector n) m) := by
    refine List.foldlRecOn vs (lowerVector n) (motive := fun n => LineKept m n) (.refl m) ?_
    exact fun k hk v _ => hk.trans (lowerVector_lineKept n k v)
  rw [pciemuIrqReset]
  split_ifs with hx hi
  · exact hfold _ _
  · exact hfold _ _
  · refine lowerIntx_lineKept m ?_
    rintro (h | h)
    · exact hx h
    · exact hi h

theorem configWhenIdle_lineKept (f : DmaConfig → DmaConfig) (m : Machine) : LineKept m (configWhenIdle f m) := by
  rw [configWhenIdle]
  split_ifs
  · exact .of_frame rfl rfl rfl rfl
  · exact .refl m

theorem writeReg_lineKept {bus : Bus} {m : Machine} (hring : LineKept m (auroraDmaDoorbellRing bus m)) (value : UInt64)
    (r : Reg) : LineKept m (writeReg bus m value r) := by
  cases r with
  | scratch i => exact .of_frame rfl rfl rfl rfl
  | irqRaise => exact raise_lineKept m _
  | irqLower => exact lower_lineKept m _
  | src => exact configWhenIdle_lineKept (fun c => { c with txdesc := { c.txdesc with src := value } }) m
  | dst => exact configWhenIdle_lineKept (fun c => { c with txdesc := { c.txdesc with dst := value } }) m
  | len => exact configWhenIdle_lineKept (fun c => { c with txdesc := { c.txdesc with len := value } }) m
  | cmd => exact configWhenIdle_lineKept (fun c => { c with cmd := value }) m
  | doorbell => exact hring
  | hole => exact .refl m

theorem busRun_lineKept {ofs len : ℕ} {m m' : Machine} {ws : List (UInt64 × UInt64)} (h : BusRun ofs len m ws m')
    (hm : m.dma.status = .executing) : LineKept m m' := by
  induction h with
  | start => exact .refl m
  | store b hb h ih => exact ih.trans (.of_frame rfl rfl rfl rfl)
  | host host h ih => exact ih.trans (.of_frame rfl rfl rfl rfl)
  | @write ws m' inner bar addr val size h ih =>
    have hring : auroraDmaDoorbellRing inner m' = m' :=
      doorbell_executing inner m' ((busRun_executing h hm).status.trans hm)
    rw [barWrite_eq]
    exact ih.trans (writeReg_lineKept (by rw [hring]; exact .refl m') val (decode addr))

section Step

variable {bus : Bus} {W : Set (List (UInt64 × UInt64))} (hb : bus.Delivers W) (m : Machine)
  (hi : m.dma.status = .idle)

include hb hi

theorem doorbell_lineKept : LineKept m (auroraDmaDoorbellRing bus m) := by
  cases hc : transferCall m.dma.config with
  | none =>
    rw [doorbell_idle bus m hi, execute_eq, Machine.setStatus_dma_config, hc]
    exact .of_quietly ⟨rfl, rfl, rfl, rfl, interrupts_refusalReport m.dma.config⟩
  | some call =>
    obtain ⟨ws, -, ofs, len, hrun⟩ := busAccess_busRun hb hc (entered m call)
    have hentered : LineKept m (entered m call) := by
      refine .of_quietly ⟨rfl, rfl, rfl, List.append_assoc _ _ _, ?_⟩
      rw [interrupts_append, interrupts_entryReport, interrupts_call hc, List.append_nil]
    have hdone := hentered.trans (busRun_lineKept hrun rfl)
    have hreport (err : ℕ) := hdone.trans (.emits _ (interrupts_errorReport err call))
    rw [doorbell_transfer bus m hi call hc]
    exact (hreport _).trans ((raise_lineKept _ _).trans (.of_frame rfl rfl rfl rfl))

theorem apply_lineKept (op : Op) (hk : op.keepsMode) : LineKept m (apply bus m op) := by
  cases op with
  | read bar addr size => exact .refl m
  | write bar addr val size =>
    rw [apply, barWrite_eq]
    exact writeReg_lineKept (doorbell_lineKept hb m hi) val (decode addr)
  | reset => exact (irqReset_lineKept m).trans (.of_frame rfl rfl rfl rfl)
  | setMode msix msi => cases hk
  | hostStore host => exact .of_frame rfl rfl rfl rfl

theorem apply_lineAgrees (op : Op) (ha : m.LineAgrees) : (apply bus m op).LineAgrees := by
  by_cases hk : op.keepsMode
  · exact (apply_lineKept hb m hi op hk).agrees ha
  · cases op with
    | setMode msix msi => exact ha
    | _ => exact absurd rfl hk

end Step

def Op.keepsVectors : Op → Bool
  | .setMode msix msi => msix || msi
  | _ => true

section Run

variable {bus : Bus} {W : Set (List (UInt64 × UInt64))} (hb : bus.Delivers W)

include hb

theorem apply_level {m : Machine} (hi : m.dma.status = .idle) (op : Op) (hk : op.keepsVectors) (hv : m.vectored) :
    lineLevel (apply bus m op).log = lineLevel m.log ∧ (apply bus m op).vectored := by
  by_cases hmode : op.keepsMode
  · have hkept := apply_lineKept hb m hi op hmode
    refine ⟨hkept.level hv, ?_⟩
    rw [Machine.vectored, hkept.msix, hkept.msi]
    exact hv
  · cases op with
    | setMode msix msi => exact ⟨rfl, Bool.or_eq_true_iff.mp hk⟩
    | _ => exact absurd rfl hmode

theorem run_lineAgrees (ops : List Op) {m : Machine} (hi : m.dma.status = .idle) (ha : m.LineAgrees) :
    (run bus m ops).dma.status = .idle ∧ (run bus m ops).LineAgrees := by
  induction ops generalizing m with
  | nil => exact ⟨hi, ha⟩
  | cons op ops ih => exact ih (apply_idle hb m hi op).1 (apply_lineAgrees hb m hi op ha)

theorem run_level (ops : List Op) {m : Machine} (hi : m.dma.status = .idle) (hv : m.vectored)
    (hk : ∀ op ∈ ops, op.keepsVectors) : lineLevel (run bus m ops).log = lineLevel m.log := by
  induction ops generalizing m with
  | nil => rfl
  | cons op ops ih =>
    obtain ⟨hlevel, hv'⟩ := apply_level hb hi op (hk op List.mem_cons_self) hv
    exact (ih (apply_idle hb m hi op).1 hv' fun op' h' => hk op' (List.mem_cons_of_mem op h')).trans hlevel

end Run

theorem line_follows_pin (bus : Bus) (W : Set (List (UInt64 × UInt64))) (hb : bus.Delivers W) (raw : DmaEngine)
    (host : ℕ → UInt8) (ops : List Op) :
    let m := run bus (pciemuDeviceInit raw host) ops
    lineLevel m.log = m.pinRaised.toNat ∧
      (m.vectored → ∀ ops', (∀ op ∈ ops', op.keepsVectors) → lineLevel (run bus m ops').log = lineLevel m.log) ∧
      (¬m.vectored → lineLevel (apply bus m .reset).log = 0) := by
  intro m
  obtain ⟨hi, ha⟩ := run_lineAgrees hb ops (deviceInit_idle raw host) (rfl : (pciemuDeviceInit raw host).LineAgrees)
  refine ⟨ha, fun hv ops' hk => run_level hb ops' hi hv hk, fun hv => ?_⟩
  have hlower : pciemuIrqReset m = pciemuIrqLowerIntx m := irqReset_pin m hv
  change lineLevel (pciemuIrqReset m).log = 0
  rw [hlower, pciemuIrqLowerIntx, Machine.emit_log, lineLevel_append]
  rfl

theorem line_follows_pin_switched :
    let ops := [.write .reg regIrq0Raise 1 8, .setMode false true]
    let m := run copyBus (pciemuDeviceInit ⟨⟨⟨0, 0, 0⟩, 0, 0⟩, .off, fun _ => 0⟩ fun _ => 0) ops
    m.vectored ∧ lineLevel (run copyBus m [.write .reg regIrq0Lower 1 8, .reset]).log = 1 := by
  intro ops m
  obtain ⟨-, hkept, -⟩ := line_follows_pin copyBus {[]} copyBus_delivers ⟨⟨⟨0, 0, 0⟩, 0, 0⟩, .off, fun _ => 0⟩
    (fun _ => 0) ops
  have hv : m.vectored := .inr rfl
  have hlevel : lineLevel m.log = 1 := by decide
  exact ⟨hv, (hkept hv _ (by decide)).trans hlevel⟩

end Pciemu.Device
