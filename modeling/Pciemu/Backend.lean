import Pciemu.Frontend
import Pciemu.Reentry

namespace Pciemu.Frontend

open Device AuroraHw TcpClient Runs

def withDma (m : Machine) (adev : DmaEngine) : Machine := { m with dma := adev }

theorem lowerVector_withDma (n : ℕ) (m : Machine) (adev : DmaEngine) (vector : ℕ) :
    lowerVector n (withDma m adev) vector = withDma (lowerVector n m vector) adev := by
  have hr : (withDma m adev).vectorRaised vector = m.vectorRaised vector := rfl
  simp only [lowerVector, hr]
  split_ifs <;> rfl

theorem foldl_lowerVector_withDma (n : ℕ) (vs : List ℕ) (m : Machine) (adev : DmaEngine) :
    vs.foldl (lowerVector n) (withDma m adev) = withDma (vs.foldl (lowerVector n) m) adev := by
  induction vs generalizing m with
  | nil => rfl
  | cons v vs ih => rw [List.foldl_cons, List.foldl_cons, lowerVector_withDma, ih]

theorem irqReset_withDma (m : Machine) (adev : DmaEngine) :
    pciemuIrqReset (withDma m adev) = withDma (pciemuIrqReset m) adev := by
  have hx : (withDma m adev).msixEnabled = m.msixEnabled := rfl
  have hm : (withDma m adev).msiEnabled = m.msiEnabled := rfl
  simp only [pciemuIrqReset, hx, hm]
  split_ifs
  · exact foldl_lowerVector_withDma _ _ m adev
  · exact foldl_lowerVector_withDma _ _ m adev
  · rfl

section Present

variable {dev : PciemuDevice} {adev : DmaEngine} (h : dev.backend = some adev)

include h

theorem update_machine : dev.update (dev.machine adev) = dev := by
  cases dev
  cases h
  rfl

theorem deref_present (f : Machine → Machine) : dev.deref f = some (dev.update (f (dev.machine adev))) := by
  rw [PciemuDevice.deref, h, Option.map_some]

theorem dmaRegWrite_present (bus : Bus) (addr value : UInt64) : auroraDmaRegWrite bus dev addr value =
    some (dev.update (Device.auroraDmaRegWrite bus (dev.machine adev) addr value).1) := by
  unfold auroraDmaRegWrite Device.auroraDmaRegWrite
  split_ifs
  all_goals first
    | exact deref_present h _
    | exact congrArg some (update_machine h).symm

theorem writeReg_present (bus : Bus) (addr value : UInt64) : auroraWriteRegByAddr bus dev addr value =
    some (dev.update (Device.auroraWriteRegByAddr bus (dev.machine adev) addr value).1) := by
  unfold auroraWriteRegByAddr Device.auroraWriteRegByAddr
  split_ifs
  all_goals first
    | exact deref_present h _
    | exact dmaRegWrite_present h bus addr value
    | exact congrArg some (update_machine h).symm

theorem readReg_present (addr value : UInt64) : auroraReadRegByAddr dev addr value =
    some (Device.auroraReadRegByAddr (dev.machine adev) addr value).2 := by
  have hreg (i : ℕ) : dev.derefReg i = some ((dev.machine adev).reg i) := by
    rw [PciemuDevice.derefReg, h, Option.map_some]
  unfold auroraReadRegByAddr Device.auroraReadRegByAddr
  split_ifs <;> first | exact hreg _ | rfl

theorem reset_present : pciemuReset dev = some (dev.update (Device.pciemuReset (dev.machine adev))) := by
  have hfront : (dev.irqOnly pciemuIrqReset).machine adev = pciemuIrqReset (dev.machine adev) := by
    obtain ⟨es, hstep, -⟩ := irqReset_step (dev.machine adev)
    have hblank := irqReset_withDma (dev.machine adev) ⟨⟨⟨0, 0, 0⟩, 0, 0⟩, .off, fun _ => 0⟩
    have hirq := congrArg Machine.irq hblank
    have hlog := congrArg Machine.log hblank
    obtain ⟨irq, he⟩ := hstep
    rw [he] at hirq hlog ⊢
    simp only [PciemuDevice.machine, PciemuDevice.irqOnly, Machine.mk.injEq, true_and]
    exact ⟨hirq, hlog⟩
  have hback : (dev.irqOnly pciemuIrqReset).backend = some adev := h
  rw [pciemuReset, glueBackendReset, auroraBackendReset, deref_present hback, hfront]
  rfl

theorem step_present (bus : Bus) (op : Op) :
    step bus dev (.op op) = some (dev.update (apply bus (dev.machine adev) op)) := by
  cases op with
  | read bar addr size =>
    have hread : barRead dev bar addr size = some (Device.barRead (dev.machine adev) bar addr size) := by
      cases bar <;> exact readReg_present h addr (~~~0)
    rw [step, hread, Option.map_some, apply, update_machine h]
  | write bar addr val size => cases bar <;> exact writeReg_present h bus addr val
  | reset => exact reset_present h
  | setMode msix msi =>
    simp only [step, apply, PciemuDevice.update, PciemuDevice.machine, h]
  | hostStore host =>
    simp only [step, apply, PciemuDevice.update, PciemuDevice.machine, h]

theorem fini_present : ∃ dev', pciemuDeviceFini dev = some dev' ∧
    dev'.calls = dev.calls ++ [.msiUninit] ++ [.msixUninit .reg .reg] := by
  rw [pciemuDeviceFini, glueBackendFini, auroraBackendFini, deref_present h]
  exact ⟨_, rfl, rfl⟩

end Present

theorem step_keeps (bus : Bus) {dev : PciemuDevice} (h : dev.backend.isSome) (a : Action) :
    ∃ dev', step bus dev a = some dev' ∧ dev'.backend.isSome ∧ dev'.calls = dev.calls := by
  obtain ⟨adev, hadev⟩ := Option.isSome_iff_exists.mp h
  cases a with
  | op op => exact ⟨_, step_present hadev bus op, rfl, rfl⟩
  | memRead addr size x stack => exact ⟨_, rfl, h, rfl⟩
  | memWrite addr val size x stack => exact ⟨_, rfl, h, rfl⟩

theorem run_keeps (bus : Bus) (as : List Action) {dev : PciemuDevice} (h : dev.backend.isSome) :
    ∃ dev', Runs.run (step bus) dev as = some dev' ∧ dev'.backend.isSome ∧ dev'.calls = dev.calls := by
  induction as generalizing dev with
  | nil => exact ⟨dev, rfl, h, rfl⟩
  | cons a as ih =>
    obtain ⟨dev', hstep, hdev, hcalls⟩ := step_keeps bus h a
    rw [run_cons as hstep, ← hcalls]
    exact ih hdev

theorem runToExit_present (bus : Bus) (as : List Action) {dev : PciemuDevice} (h : dev.backend.isSome) :
    ∃ dev', runToExit bus dev as = some dev' ∧
      dev'.calls = dev.calls ++ [.msiUninit] ++ [.msixUninit .reg .reg] := by
  obtain ⟨mid, hrun, hmid, hcalls⟩ := run_keeps bus as h
  obtain ⟨adev, hadev⟩ := Option.isSome_iff_exists.mp hmid
  rw [runToExit, hrun, Option.bind_some, ← hcalls]
  exact fini_present hadev

theorem foldl_call (f : ℕ → PciCall) (is : List ℕ) (dev : PciemuDevice) :
    is.foldl (fun dev i => dev.call (f i)) dev = { dev with calls := dev.calls ++ is.map f } := by
  induction is generalizing dev with
  | nil => simp
  | cons i is ih =>
    rw [List.foldl_cons, ih, PciemuDevice.call, List.append_assoc]
    rfl

theorem initMsi_cases (dev : PciemuDevice) (rc : ℤ) :
    rc ≠ 0 ∧ pciemuIrqInitMsi dev rc = (dev, true) ∨
      rc = 0 ∧ pciemuIrqInitMsi dev rc = (dev.call (.msiInit irqCnt), false) := by
  unfold pciemuIrqInitMsi
  split_ifs with h
  · exact .inl ⟨h, rfl⟩
  · exact .inr ⟨not_not.mp h, rfl⟩

def msixCalls : List PciCall :=
  .msixInit irqMsixCnt .internal msixTableOffset .internal msixPbaOffset ::
    (List.range irqMsixCnt).map .msixVectorUse

theorem initMsix_cases (dev : PciemuDevice) (rc : ℤ) :
    rc < 0 ∧ pciemuIrqInitMsix dev rc = (dev, true) ∨
      0 ≤ rc ∧ pciemuIrqInitMsix dev rc = ({ dev with calls := dev.calls ++ msixCalls }, false) := by
  unfold pciemuIrqInitMsix
  split_ifs with h
  · exact .inl ⟨h, rfl⟩
  · refine .inr ⟨not_lt.mp h, ?_⟩
    dsimp only
    rw [foldl_call, PciemuDevice.call]
    simp [msixCalls]

theorem initMsi_spec (dev : PciemuDevice) (rc : ℤ) : (pciemuIrqInitMsi dev rc).1.backend = dev.backend ∧
    ((pciemuIrqInitMsi dev rc).2 = true ↔ rc ≠ 0) := by
  rcases initMsi_cases dev rc with ⟨hrc, hmsi⟩ | ⟨hrc, hmsi⟩
  · rw [hmsi]
    exact ⟨rfl, iff_of_true rfl hrc⟩
  · rw [hmsi]
    exact ⟨rfl, iff_of_false Bool.false_ne_true (not_not.mpr hrc)⟩

theorem initMsix_spec (dev : PciemuDevice) (rc : ℤ) : (pciemuIrqInitMsix dev rc).1.backend = dev.backend ∧
    ((pciemuIrqInitMsix dev rc).2 = true ↔ rc < 0) := by
  rcases initMsix_cases dev rc with ⟨hrc, hmsix⟩ | ⟨hrc, hmsix⟩
  · rw [hmsix]
    exact ⟨rfl, iff_of_true rfl hrc⟩
  · rw [hmsix]
    exact ⟨rfl, iff_of_false Bool.false_ne_true (not_lt.mpr hrc)⟩

theorem irqInit_spec (dev : PciemuDevice) (o : Outcome) : (pciemuIrqInit dev o).1.backend = dev.backend ∧
    ((pciemuIrqInit dev o).2 = true ↔ o.msiInit ≠ 0 ∨ o.msixInit < 0) := by
  obtain ⟨hmsi, herr⟩ := initMsi_spec (pciemuIrqInitIntx dev) o.msiInit
  obtain ⟨hmsix, herrx⟩ := initMsix_spec (pciemuIrqInitMsi (pciemuIrqInitIntx dev) o.msiInit).1 o.msixInit
  refine ⟨hmsix.trans hmsi, ?_⟩
  rw [pciemuIrqInit, Bool.or_eq_true, herr, herrx]

theorem deviceInit_backend (o : Outcome) (host : ℕ → UInt8) (fd : ℤ) :
    (pciemuDeviceInit o host fd).1.backend.isSome = o.malloc.isSome := by
  obtain ⟨msi, msix, adev⟩ := o
  cases adev with
  | none => exact congrArg Option.isSome (irqInit_spec _ ⟨msi, msix, none⟩).1
  | some raw => rfl

theorem deviceInit_errp (o : Outcome) (host : ℕ → UInt8) (fd : ℤ) :
    (pciemuDeviceInit o host fd).2 = true ↔ o.msiInit ≠ 0 ∨ o.msixInit < 0 := (irqInit_spec _ o).2

def BackendPresent (bus : Bus) (o : Outcome) (host : ℕ → UInt8) (fd : ℤ) : Prop :=
  (pciemuDeviceInit o host fd).2 = true ∨ ∀ as, (runToExit bus (pciemuDeviceInit o host fd).1 as).isSome

theorem backend_present_iff (bus : Bus) (o : Outcome) (host : ℕ → UInt8) (fd : ℤ) :
    BackendPresent bus o host fd ↔ o.malloc.isSome ∨ o.msiInit ≠ 0 ∨ o.msixInit < 0 := by
  rw [BackendPresent, deviceInit_errp]
  constructor
  · rintro (herr | hruns)
    · exact .inr herr
    · -- the run that exits at once decides
      left
      have hexit := hruns []
      rw [← deviceInit_backend o host fd]
      rw [runToExit, Runs.run, Option.bind_some, pciemuDeviceFini, glueBackendFini, auroraBackendFini,
        PciemuDevice.deref] at hexit
      simpa using hexit
  · rintro (halloc | herr)
    · right
      intro as
      rw [← deviceInit_backend o host fd] at halloc
      obtain ⟨dev, hexit, -⟩ := runToExit_present bus as halloc
      rw [hexit, Option.isSome_some]
    · exact .inl herr

theorem backend_absent :
    let o : Outcome := ⟨0, 0, none⟩
    let dev := (pciemuDeviceInit o (fun _ => 0) (-1)).1
    (pciemuDeviceInit o (fun _ => 0) (-1)).2 = false ∧ ¬BackendPresent copyBus o (fun _ => 0) (-1) ∧
      (step copyBus dev (.op .reset)).isNone ∧ (step copyBus dev (.op (.write .reg reg0 5 8))).isNone ∧
      (step copyBus dev (.op (.read .internal reg0 8))).isNone ∧ (pciemuDeviceFini dev).isNone := by
  intro o dev
  have herr : (pciemuDeviceInit o (fun _ => 0) (-1)).2 = false := rfl
  have hfini : (pciemuDeviceFini dev).isNone := rfl
  refine ⟨herr, ?_, rfl, rfl, rfl, hfini⟩
  rintro (h | h)
  · exact absurd (herr.symm.trans h) (by decide)
  · have hexit := h []
    change (pciemuDeviceFini dev).isSome at hexit
    rw [Option.isNone_iff_eq_none.mp hfini] at hexit
    cases hexit

end Pciemu.Frontend
