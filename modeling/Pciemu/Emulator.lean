import Pciemu.Backend

namespace Pciemu.Frontend

open Device AuroraHw TcpClient Runs

structure Emulator where
  machine : Machine
  fd : ℤ

def fdAfter (fd : ℤ) : Action → ℤ
  | .op _ => fd
  | .memRead addr size x stack => (pciemuMembarRead fd x stack addr size).1
  | .memWrite addr val size x stack => pciemuMembarWrite fd x stack addr val size

def machineAfter (bus : Bus) (m : Machine) : Action → Machine
  | .op op => apply bus m op
  | _ => m

def Emulator.step (bus : Bus) (e : Emulator) (a : Action) : Emulator := ⟨machineAfter bus e.machine a, fdAfter e.fd a⟩

def registerOps (as : List Action) : List Op :=
  as.filterMap fun
    | .op op => some op
    | _ => none

def memoryAccesses (as : List Action) : List Action :=
  as.filter fun
    | .op _ => false
    | _ => true

theorem foldl_step (bus : Bus) (as : List Action) (e : Emulator) :
    as.foldl (Emulator.step bus) e = ⟨Device.run bus e.machine (registerOps as), (memoryAccesses as).foldl fdAfter e.fd⟩ := by
  induction as generalizing e with
  | nil => rfl
  | cons a as ih => cases a <;> exact ih _

def absent : DmaEngine := ⟨⟨⟨0, 0, 0⟩, 0, 0⟩, .off, fun _ => 0⟩

def PciemuDevice.emulator (dev : PciemuDevice) : Emulator := ⟨dev.machine (dev.backend.getD absent), dev.fd⟩

theorem emulator_present {dev : PciemuDevice} {adev : DmaEngine} (h : dev.backend = some adev) :
    dev.emulator = ⟨dev.machine adev, dev.fd⟩ := by
  rw [PciemuDevice.emulator, h, Option.getD_some]

theorem emulator_update (dev : PciemuDevice) (m : Machine) : (dev.update m).emulator = ⟨m, dev.fd⟩ := rfl

theorem step_emulator (bus : Bus) {dev : PciemuDevice} (h : dev.backend.isSome) (a : Action) :
    (step bus dev a).map PciemuDevice.emulator = some (dev.emulator.step bus a) ∧
      ∀ dev', step bus dev a = some dev' → dev'.backend.isSome := by
  obtain ⟨adev, hadev⟩ := Option.isSome_iff_exists.mp h
  obtain ⟨dev', hstep, hdev, -⟩ := step_keeps bus h a
  refine ⟨?_, fun dev'' h'' => Option.some.inj (hstep.symm.trans h'') ▸ hdev⟩
  cases a with
  | op op =>
    rw [step_present hadev, Option.map_some, emulator_update, emulator_present hadev]
    rfl
  | memRead addr size x stack => rfl
  | memWrite addr val size x stack => rfl

theorem run_emulator (bus : Bus) (as : List Action) {dev dev' : PciemuDevice} (h : dev.backend.isSome)
    (hrun : Runs.run (step bus) dev as = some dev') :
    dev'.emulator = ⟨Device.run bus dev.emulator.machine (registerOps as), (memoryAccesses as).foldl fdAfter dev.fd⟩ := by
  have hrefines : (Runs.run (step bus) dev as).map PciemuDevice.emulator =
      Runs.run (total (Emulator.step bus)) dev.emulator as ∧ _ :=
    run_refines (I := fun dev => dev.backend.isSome) _ (fun _ a hdev => step_emulator bus hdev a) as h
  rw [run_total, hrun, Option.map_some, foldl_step] at hrefines
  exact Option.some.inj hrefines.1

theorem irqInit_frame (dev : PciemuDevice) (o : Outcome) : ∃ cs, (pciemuIrqInit dev o).1 = { dev with calls := cs } := by
  have hmsi (dev : PciemuDevice) : ∃ cs, (pciemuIrqInitMsi dev o.msiInit).1 = { dev with calls := cs } := by
    rcases initMsi_cases dev o.msiInit with ⟨-, h⟩ | ⟨-, h⟩
    · exact ⟨dev.calls, by rw [h]⟩
    · exact ⟨dev.calls ++ [.msiInit irqCnt], by rw [h]; rfl⟩
  have hmsix (dev : PciemuDevice) : ∃ cs, (pciemuIrqInitMsix dev o.msixInit).1 = { dev with calls := cs } := by
    rcases initMsix_cases dev o.msixInit with ⟨-, h⟩ | ⟨-, h⟩
    · exact ⟨dev.calls, by rw [h]⟩
    · exact ⟨dev.calls ++ msixCalls, by rw [h]⟩
  obtain ⟨cs, hcs⟩ := hmsi (pciemuIrqInitIntx dev)
  obtain ⟨cs', hcs'⟩ := hmsix { pciemuIrqInitIntx dev with calls := cs }
  refine ⟨cs', ?_⟩
  rw [pciemuIrqInit, hcs, hcs']
  rfl

theorem deviceInit_emulator (o : Outcome) (raw : DmaEngine) (ho : o.malloc = some raw) (host : ℕ → UInt8) (fd : ℤ) :
    (pciemuDeviceInit o host fd).1.emulator = ⟨Device.pciemuDeviceInit raw host, fd⟩ := by
  rw [pciemuDeviceInit, ho]
  dsimp only
  obtain ⟨cs, hcs⟩ := irqInit_frame _ o
  rw [hcs]
  rfl

theorem halves_independent (bus : Bus) (o : Outcome) (raw : DmaEngine) (ho : o.malloc = some raw) (host : ℕ → UInt8)
    (fd : ℤ) (as : List Action) :
    ∃ dev, Runs.run (step bus) (pciemuDeviceInit o host fd).1 as = some dev ∧
      dev.emulator = ⟨Device.run bus (Device.pciemuDeviceInit raw host) (registerOps as),
        (memoryAccesses as).foldl fdAfter fd⟩ ∧
      (∀ bar addr size, barRead dev bar addr size =
        some (Device.barRead (Device.run bus (Device.pciemuDeviceInit raw host) (registerOps as)) bar addr size)) ∧
      dev.calls = (pciemuDeviceInit o host fd).1.calls ∧ (pciemuDeviceFini dev).isSome := by
  have hinit := deviceInit_emulator o raw ho host fd
  have hpresent : (pciemuDeviceInit o host fd).1.backend.isSome := by rw [deviceInit_backend, ho, Option.isSome_some]
  obtain ⟨dev, hrun, hdev, hcalls⟩ := run_keeps bus as hpresent
  obtain ⟨adev, hadev⟩ := Option.isSome_iff_exists.mp hdev
  have hem := run_emulator bus as hpresent hrun
  have hfd : (pciemuDeviceInit o host fd).1.fd = fd := congrArg Emulator.fd hinit
  rw [hinit, hfd] at hem
  refine ⟨dev, hrun, hem, ?_, hcalls, ?_⟩
  · intro bar addr size
    have hmachine : dev.machine adev = Device.run bus (Device.pciemuDeviceInit raw host) (registerOps as) :=
      congrArg Emulator.machine ((emulator_present hadev).symm.trans hem)
    rw [← hmachine]
    cases bar <;> exact readReg_present hadev addr (~~~0)
  · obtain ⟨dev', hfini, -⟩ := fini_present hadev
    rw [hfini, Option.isSome_some]

theorem halves_independent_hostile :
    let o : Outcome := ⟨0, 0, some absent⟩
    let wrong : Exchange := whole ⟨-1, -1⟩ ⟨-1, -1⟩ ⟨7, 7, 7, 7⟩
    let closed : Exchange := ⟨⟨-1, -1⟩, -1, ⟨-1, -1⟩, -1, fun _ => 0⟩
    let as := [.memRead 0x40 8 wrong ⟨0, 0, 0, 0⟩, .op (.write .reg reg0 5 8), .memWrite 0x48 9 8 closed ⟨0, 0, 0, 0⟩]
    o.malloc = some absent ∧ ∃ dev, Runs.run (step copyBus) (pciemuDeviceInit o (fun _ => 0) 3).1 as = some dev ∧
      barRead dev .internal reg0 8 = some 5 := by
  intro o wrong closed as
  obtain ⟨dev, hrun, -, hread, -⟩ := halves_independent copyBus o absent rfl (fun _ => 0) 3 as
  exact ⟨rfl, dev, hrun, (hread .internal reg0 8).trans (congrArg some (by decide))⟩

end Pciemu.Frontend
