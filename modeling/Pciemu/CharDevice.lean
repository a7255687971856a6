import Pciemu.SplitAccess
import Pciemu.Unwinding

namespace Pciemu.CharDevice

open Bytes Device AuroraHw Driver Runs

def pageShift : ℕ := 12

def eio : ℤ := 5

structure PciemuBar where
  start : ℕ
  last : ℕ
  len : ℕ
  mmio : ℤ
  deriving DecidableEq

structure PciemuDev where
  regbar : PciemuBar
  membar : PciemuBar
  internalBar : PciemuBar
  deriving DecidableEq

structure Resource where
  start : ℕ
  len : ℕ

def Resource.Contains (r : Resource) (addr size : ℕ) : Prop := r.start ≤ addr ∧ addr + size ≤ r.start + r.len

instance (r : Resource) (addr size : ℕ) : Decidable (r.Contains addr size) := inferInstanceAs (Decidable (_ ∧ _))

def barInit (r : Resource) (mmio : ℤ) : PciemuBar := ⟨r.start, r.start + r.len - 1, r.len, mmio⟩

-- the address `pci_iomap` returned is not cleared
def barClean (bar : PciemuBar) : PciemuBar := { bar with start := 0, last := 0, len := 0 }

def pciemuDevClean (dev : PciemuDev) : PciemuDev :=
  ⟨barClean dev.regbar, barClean dev.membar, barClean dev.internalBar⟩

def pciemuDevInit (dev : PciemuDev) (resource : ℕ → Resource) (iomap : ℕ → ℤ) : ℤ × PciemuDev :=
  let dev := { dev with regbar := barInit (resource regBar) (iomap regBar) }
  if iomap regBar = 0 then (-enomem, pciemuDevClean dev)
  else
    let dev := { dev with membar := barInit (resource memBar) (iomap memBar) }
    if iomap memBar = 0 then (-enomem, pciemuDevClean dev)
    else
      let dev := { dev with internalBar := barInit (resource intBar) (iomap intBar) }
      if iomap intBar = 0 then (-enomem, pciemuDevClean dev) else (0, dev)

def pciemuOpen (dev : PciemuDev) : ℤ := if dev.regbar.len = 0 then -eio else 0

structure Vma where
  vmStart : ℕ
  vmEnd : ℕ
  vmPgoff : ℕ
  start_lt : vmStart < vmEnd
  start_aligned : vmStart % pageSize = 0
  end_aligned : vmEnd % pageSize = 0

def Vma.Covers (vma : Vma) (addr size : ℕ) : Prop := vma.vmStart ≤ addr ∧ addr + size ≤ vma.vmEnd

instance (vma : Vma) (addr size : ℕ) : Decidable (vma.Covers addr size) := inferInstanceAs (Decidable (_ ∧ _))

structure Mapped where
  vma : Vma
  pfn : ℕ

def Mapped.translate (m : Mapped) (addr : ℕ) : ℕ := m.pfn <<< pageShift + (addr - m.vma.vmStart)

-- `remap` is what `io_remap_pfn_range` returns; nothing looks at `vm_pgoff`
def pciemuMmap (dev : PciemuDev) (vma : Vma) (remap : ℤ) : ℤ × Option Mapped :=
  let pfn := dev.regbar.start >>> pageShift
  if vma.vmEnd - vma.vmStart > dev.regbar.len then (-eio, none)
  else (remap, if remap = 0 then some ⟨vma, pfn⟩ else none)

/-- What one load or store of the machine accesses. One that is not aligned arrives as several. -/
structure Access where
  addr : ℕ
  size : ℕ
  size_mem : size ∈ [1, 2, 4, 8]
  aligned : size ∣ addr

def minAccessSize : ℕ := 4

def maxAccessSize : ℕ := 8

-- `.valid` of `pciemu_regbar_ops`: a store of another size is dropped, and a load gives zero
def regbarStore (bus : Bus) (m : Machine) (offset val : UInt64) (size : ℕ) : Machine :=
  if minAccessSize ≤ size ∧ size ≤ maxAccessSize then mmioWrite bus m .reg offset val size else m

def regbarLoad (m : Machine) (offset : UInt64) (size : ℕ) : UInt64 :=
  if minAccessSize ≤ size ∧ size ≤ maxAccessSize then mmioRead m .reg offset size else 0

/-- `stray` are the accesses of which a byte was outside the register BAR, `loaded` the values read, the
last one first. -/
structure Process where
  opened : Bool
  mapped : List Mapped
  hw : Machine
  loaded : List UInt64
  stray : List Access

inductive Syscall
  | openFile
  | mmap (vma : Vma) (remap : ℤ)
  | load (a : Access)
  | store (a : Access) (val : UInt64)

section Accesses

variable (bus : Bus) (r : Resource) (dev : PciemuDev)

-- an access to what is not mapped ends the process
def Process.access (p : Process) (a : Access) (serve : UInt64 → Machine × List UInt64) : Option Process :=
  (p.mapped.find? fun m => m.vma.Covers a.addr a.size).map fun m =>
    if r.Contains (m.translate a.addr) a.size then
      let served := serve (UInt64.ofNat (m.translate a.addr - r.start))
      { p with hw := served.1, loaded := served.2 ++ p.loaded }
    else { p with stray := p.stray ++ [a] }

def Process.step (p : Process) : Syscall → Option Process
  | .openFile => some { p with opened := p.opened || pciemuOpen dev = 0 }
  | .mmap vma remap =>
    if p.opened then some { p with mapped := (pciemuMmap dev vma remap).2.toList ++ p.mapped } else some p
  | .load a => p.access r a fun offset => (p.hw, [regbarLoad p.hw offset a.size])
  | .store a val => p.access r a fun offset => (regbarStore bus p.hw offset val a.size, [])

end Accesses

structure Windows where
  opened : Bool
  windows : List Vma
  hw : Machine
  loaded : List UInt64

def Windows.access (w : Windows) (a : Access) (serve : UInt64 → Machine × List UInt64) : Option Windows :=
  (w.windows.find? fun vma => vma.Covers a.addr a.size).map fun vma =>
    let served := serve (UInt64.ofNat (a.addr - vma.vmStart))
    { w with hw := served.1, loaded := served.2 ++ w.loaded }

def Windows.step (bus : Bus) (w : Windows) : Syscall → Option Windows
  | .openFile => some { w with opened := true }
  | .mmap vma remap =>
    if w.opened ∧ vma.vmEnd - vma.vmStart ≤ regBarSize.toNat ∧ remap = 0 then
      some { w with windows := vma :: w.windows }
    else some w
  | .load a => w.access a fun offset => (w.hw, [regbarLoad w.hw offset a.size])
  | .store a val => w.access a fun offset => (regbarStore bus w.hw offset val a.size, [])

def Process.windows (p : Process) : Windows := ⟨p.opened, p.mapped.map Mapped.vma, p.hw, p.loaded⟩

def InRegBar : Op → Prop
  | .write .reg addr val size => (size = 4 ∨ size = 8) ∧ size ∣ addr.toNat ∧
    addr.toNat + size ≤ regBarSize.toNat ∧ val.toNat < 256 ^ size
  | _ => False

section Init

variable (k : KernelCall → ℤ)

structure SameMappings (l : Life) (dev : PciemuDev) : Prop where
  reg : l.dev .regbarMmio = dev.regbar.mmio
  mem : l.dev .membarMmio = dev.membar.mmio
  int : l.dev .internalBarMmio = dev.internalBar.mmio

variable {k} {l : Life} {dev : PciemuDev}

theorem devClean_sameMappings (h : SameMappings l dev) :
    SameMappings (exec k Driver.pciemuDevClean l).2 (pciemuDevClean dev) := by
  obtain ⟨hr, hm, hi⟩ := h
  refine ⟨?_, ?_, ?_⟩
  all_goals rw [devClean_dev]
  · exact hr
  · exact hm
  · exact hi

theorem mapBar_exec (f : Field) (bar : ℕ) (next : Code ℤ) :
    let mmio := k (.pciIomap bar)
    let l' := (l.after (.pciIomap bar) mmio).after (.store f mmio) (k (.store f mmio))
    exec k (mapBar f bar next) l =
      if mmio = 0 then (-enomem, (exec k Driver.pciemuDevClean l').2) else exec k next l' := by
  intro mmio l'
  have hstored : exec k (mapBar f bar next) l =
      exec k (if mmio = 0 then do Driver.pciemuDevClean; return -enomem else next) l' := rfl
  rw [hstored]
  split_ifs
  · rw [exec_bind]
    rfl
  · rfl

theorem devInit_agrees (resource : ℕ → Resource) (h : SameMappings l dev) :
    (exec k Driver.pciemuDevInit l).1 = (pciemuDevInit dev resource fun bar => k (.pciIomap bar)).1 ∧
      SameMappings (exec k Driver.pciemuDevInit l).2 (pciemuDevInit dev resource fun bar => k (.pciIomap bar)).2 := by
  simp only [Driver.pciemuDevInit, mapBar_exec, pciemuDevInit]
  -- what is behind a BAR that has not been reached is left as it was
  split_ifs with hreg hmem hint
  · exact ⟨rfl, devClean_sameMappings ⟨rfl, h.mem, h.int⟩⟩
  · exact ⟨rfl, devClean_sameMappings ⟨rfl, rfl, h.int⟩⟩
  · exact ⟨rfl, devClean_sameMappings ⟨rfl, rfl, rfl⟩⟩
  · exact ⟨rfl, rfl, rfl, rfl⟩

end Init

structure Assigned (r : Resource) (dev : PciemuDev) : Prop where
  aligned : regBarSize.toNat ∣ r.start
  size : r.len = regBarSize.toNat
  start : dev.regbar.start = r.start
  len : dev.regbar.len = r.len

theorem devInit_assigned {dev : PciemuDev} {resource : ℕ → Resource} {iomap : ℕ → ℤ}
    (h : (pciemuDevInit dev resource iomap).1 = 0) (haligned : regBarSize.toNat ∣ (resource regBar).start)
    (hsize : (resource regBar).len = regBarSize.toNat) :
    Assigned (resource regBar) (pciemuDevInit dev resource iomap).2 := by
  have hne : ¬(-enomem = 0) := by decide
  simp only [pciemuDevInit] at h ⊢
  split_ifs at h ⊢
  · exact absurd h hne
  · exact absurd h hne
  · exact absurd h hne
  · exact ⟨haligned, hsize, rfl, rfl⟩

structure Confined (bus : Bus) (r : Resource) (hw : Machine) (p : Process) : Prop where
  stray : p.stray = []
  start : ∀ m ∈ p.mapped, m.pfn <<< pageShift = r.start
  fits : ∀ m ∈ p.mapped, m.vma.vmEnd - m.vma.vmStart ≤ regBarSize.toNat
  ops : ∃ ops, (∀ op ∈ ops, InRegBar op) ∧ p.hw = Device.run bus hw ops

section Refinement

variable {bus : Bus} {r : Resource} {dev : PciemuDev} {hw : Machine} {p : Process}

theorem Assigned.frame (h : Assigned r dev) : (dev.regbar.start >>> pageShift) <<< pageShift = r.start := by
  have hpage : 2 ^ pageShift ∣ r.start := Nat.dvd_trans (by decide) h.aligned
  rw [h.start, Nat.shiftLeft_eq, Nat.shiftRight_eq_div_pow]
  exact Nat.div_mul_cancel hpage

theorem Confined.offset (h : Confined bus r hw p) (hr : r.len = regBarSize.toNat) {m : Mapped} (hm : m ∈ p.mapped)
    {addr size : ℕ} (ha : m.vma.Covers addr size) :
    r.Contains (m.translate addr) size ∧ m.translate addr - r.start = addr - m.vma.vmStart ∧
      addr - m.vma.vmStart + size ≤ regBarSize.toNat := by
  have hstart := h.start m hm
  have hfits := h.fits m hm
  obtain ⟨hle, hlt⟩ := ha
  rw [Resource.Contains, Mapped.translate, hstart, hr]
  omega

theorem Access.dvd_offset (a : Access) (vma : Vma) : a.size ∣ a.addr - vma.vmStart := by
  have hpage : a.size ∣ pageSize := by
    have hmem : ∀ n ∈ [1, 2, 4, 8], n ∣ pageSize := by decide
    exact hmem a.size a.size_mem
  exact Nat.dvd_sub a.aligned (hpage.trans (Nat.dvd_of_mod_eq_zero vma.start_aligned))

theorem regbarStore_op (bus : Bus) (m : Machine) {a : Access} {ofs : ℕ} (hofs : a.size ∣ ofs)
    (hle : ofs + a.size ≤ regBarSize.toNat) (val : UInt64) :
    ∃ ops, (∀ op ∈ ops, InRegBar op) ∧
      regbarStore bus m (UInt64.ofNat ofs) val a.size = Device.run bus m ops := by
  have hsize : regBarSize.toNat = 0x8000000 := by decide
  have hnat : (UInt64.ofNat ofs).toNat = ofs := by
    apply UInt64.toNat_ofNat_of_lt'
    change _ < 2 ^ 64
    omega
  rw [regbarStore]
  split_ifs with hv
  · refine ⟨[.write .reg (UInt64.ofNat ofs) (lowBytes a.size val) a.size], ?_, rfl⟩
    intro op hop
    rw [List.mem_singleton.mp hop, InRegBar, hnat, lowBytes_toNat]
    refine ⟨?_, hofs, hle, Nat.mod_lt _ (Nat.pow_pos (by decide))⟩
    have hmem : ∀ n ∈ [1, 2, 4, 8], minAccessSize ≤ n ∧ n ≤ maxAccessSize → n = 4 ∨ n = 8 := by decide
    exact hmem a.size a.size_mem hv
  · exact ⟨[], fun op ho => absurd ho List.not_mem_nil, rfl⟩

theorem Confined.access (h : Confined bus r hw p) (hr : r.len = regBarSize.toNat) (a : Access)
    (serve : UInt64 → Machine × List UInt64)
    (hserve : ∀ ofs, a.size ∣ ofs → ofs + a.size ≤ regBarSize.toNat →
      ∃ ops, (∀ op ∈ ops, InRegBar op) ∧ (serve (UInt64.ofNat ofs)).1 = Device.run bus p.hw ops) :
    (p.access r a serve).map Process.windows = p.windows.access a serve ∧
      ∀ p', p.access r a serve = some p' → Confined bus r hw p' := by
  have hfind : p.windows.windows.find? (fun vma => vma.Covers a.addr a.size) =
      (p.mapped.find? fun m => m.vma.Covers a.addr a.size).map Mapped.vma := List.find?_map ..
  rw [Process.access, Windows.access, hfind]
  cases hm : p.mapped.find? fun m => m.vma.Covers a.addr a.size with
  | none => exact ⟨rfl, fun p' hp => nomatch hp⟩
  | some m =>
    have hmem := List.mem_of_find?_eq_some hm
    have hcov : m.vma.Covers a.addr a.size := by simpa using List.find?_some hm
    obtain ⟨hin, hsub, hle⟩ := h.offset hr hmem hcov
    simp only [Option.map_some, if_pos hin, hsub]
    refine ⟨rfl, fun p' hp => ?_⟩
    obtain rfl := Option.some.inj hp
    obtain ⟨ops, hops, hrun⟩ := h.ops
    obtain ⟨new, hnew, hserved⟩ := hserve _ (a.dvd_offset m.vma) hle
    refine ⟨h.stray, h.start, h.fits, ops ++ new, ?_, ?_⟩
    · intro op ho
      obtain ho | ho := List.mem_append.mp ho
      · exact hops op ho
      · exact hnew op ho
    · rw [hserved, hrun, Device.run, Device.run, Device.run, List.foldl_append]

theorem Confined.step (h : Confined bus r hw p) (hr : Assigned r dev) (c : Syscall) :
    (p.step bus r dev c).map Process.windows = p.windows.step bus c ∧
      ∀ p', p.step bus r dev c = some p' → Confined bus r hw p' := by
  cases c with
  | openFile =>
    have hopen : pciemuOpen dev = 0 := by
      rw [pciemuOpen, hr.len, hr.size]
      decide
    refine ⟨?_, fun p' hp => ?_⟩
    · simp [Process.step, Windows.step, Process.windows, hopen]
    · obtain rfl := Option.some.inj hp
      exact ⟨h.stray, h.start, h.fits, h.ops⟩
  | mmap vma remap =>
    have hlen : dev.regbar.len = regBarSize.toNat := hr.len.trans hr.size
    simp only [Process.step, Windows.step]
    by_cases hgrant : p.opened ∧ vma.vmEnd - vma.vmStart ≤ regBarSize.toNat ∧ remap = 0
    · obtain ⟨hopen, hle, hremap⟩ := hgrant
      have hmmap : (pciemuMmap dev vma remap).2 = some ⟨vma, dev.regbar.start >>> pageShift⟩ := by
        rw [pciemuMmap, hlen, if_neg (Nat.not_lt.mpr hle), if_pos hremap]
      have hgrant : p.windows.opened ∧ vma.vmEnd - vma.vmStart ≤ regBarSize.toNat ∧ remap = 0 := ⟨hopen, hle, hremap⟩
      rw [hmmap, if_pos hopen, if_pos hgrant]
      refine ⟨rfl, fun p' hp => ?_⟩
      obtain rfl := Option.some.inj hp
      exact ⟨h.stray, List.forall_mem_cons.mpr ⟨hr.frame, h.start⟩, List.forall_mem_cons.mpr ⟨hle, h.fits⟩, h.ops⟩
    · have hnone : (if p.opened then some { p with mapped := (pciemuMmap dev vma remap).2.toList ++ p.mapped }
          else some p) = some p := by
        by_cases hopen : p.opened
        · have hmmap : (pciemuMmap dev vma remap).2 = none := by
            rw [pciemuMmap, hlen]
            split_ifs with hgt hremap
            · rfl
            · exact absurd ⟨hopen, Nat.not_lt.mp hgt, hremap⟩ hgrant
            · rfl
          rw [if_pos hopen, hmmap]
          rfl
        · rw [if_neg hopen]
      have hgrant' : ¬(p.windows.opened ∧ vma.vmEnd - vma.vmStart ≤ regBarSize.toNat ∧ remap = 0) := hgrant
      rw [hnone, if_neg hgrant']
      exact ⟨rfl, fun p' hp => Option.some.inj hp ▸ h⟩
  | load a =>
    refine h.access hr.size a (fun offset => (p.hw, [regbarLoad p.hw offset a.size])) fun _ _ _ => ⟨[], ?_, rfl⟩
    exact fun op ho => absurd ho List.not_mem_nil
  | store a val =>
    exact h.access hr.size a (fun offset => (regbarStore bus p.hw offset val a.size, []))
      fun _ hdvd hle => regbarStore_op bus p.hw hdvd hle val

end Refinement

theorem mmap_refines (bus : Bus) (k : KernelCall → ℤ) (l : Life) (dev : PciemuDev) (hl : SameMappings l dev)
    (resource : ℕ → Resource) (haligned : regBarSize.toNat ∣ (resource regBar).start)
    (hsize : (resource regBar).len = regBarSize.toNat) (hinit : (exec k Driver.pciemuDevInit l).1 = 0)
    (hw : Machine) (cs : List Syscall) :
    let dev' := (pciemuDevInit dev resource fun bar => k (.pciIomap bar)).2
    let start : Process := ⟨false, [], hw, [], []⟩
    (Runs.run (Process.step bus (resource regBar) dev') start cs).map Process.windows =
        Runs.run (Windows.step bus) ⟨false, [], hw, []⟩ cs ∧
      ∀ p, Runs.run (Process.step bus (resource regBar) dev') start cs = some p →
        p.stray = [] ∧ ∃ ops, (∀ op ∈ ops, InRegBar op) ∧ p.hw = Device.run bus hw ops := by
  intro dev' start
  have hr : Assigned (resource regBar) dev' :=
    devInit_assigned ((devInit_agrees resource hl).1.symm.trans hinit) haligned hsize
  have hstart : Confined bus (resource regBar) hw start :=
    ⟨rfl, fun m hm => absurd hm List.not_mem_nil, fun m hm => absurd hm List.not_mem_nil, [],
      fun op ho => absurd ho List.not_mem_nil, rfl⟩
  obtain ⟨hview, hall⟩ := run_refines Process.windows (fun p c h => h.step hr c) cs hstart
  exact ⟨hview, fun p hp => ⟨(hall p hp).stray, (hall p hp).ops⟩⟩

def freshDev : PciemuDev := ⟨⟨0, 0, 0, 0⟩, ⟨0, 0, 0, 0⟩, ⟨0, 0, 0, 0⟩⟩

theorem mmap_refines_scratch :
    let resource (i : ℕ) : Resource := ⟨0x8000000 * (30 + i), regBarSize.toNat⟩
    let dev := (pciemuDevInit freshDev resource fun bar => bar + 1).2
    let vma : Vma := ⟨0x1000, 0x3000, 5, by decide, by decide, by decide⟩
    let hw := pciemuDeviceInit zeroEngine fun _ => 0
    let reg1 : Access := ⟨0x1008, 8, by decide, by decide⟩
    let cs := [.openFile, .mmap vma 0, .store reg1 0x5000000002a, .store ⟨0x1008, 2, by decide, by decide⟩ 7,
      .load reg1, .store ⟨0x1008, 4, by decide, by decide⟩ 0x600000000000, .load reg1,
      .load ⟨0x2008, 8, by decide, by decide⟩, .load ⟨0x2ffe, 2, by decide, by decide⟩]
    ∃ p, Runs.run (Process.step copyBus (resource regBar) dev) ⟨false, [], hw, [], []⟩ cs = some p ∧
      p.stray = [] ∧ p.loaded = [0, 0xffffffffffffffff, 0, 0x5000000002a] := by
  intro resource dev vma hw reg1 cs
  let k : KernelCall → ℤ
    | .pciIomap bar => bar + 1
    | _ => 0
  have hl : SameMappings ⟨fun _ => 0, []⟩ freshDev := ⟨rfl, rfl, rfl⟩
  obtain ⟨hview, hall⟩ := mmap_refines copyBus k ⟨fun _ => 0, []⟩ freshDev hl resource (by decide) rfl (by decide)
    hw cs
  have hloaded : (Runs.run (Windows.step copyBus) ⟨false, [], hw, []⟩ cs).map Windows.loaded =
      some [0, 0xffffffffffffffff, 0, 0x5000000002a] := by decide
  rw [← hview, Option.map_map] at hloaded
  obtain ⟨p, hp, hl⟩ := Option.map_eq_some_iff.mp hloaded
  exact ⟨p, hp, (hall p hp).1, hl⟩

end Pciemu.CharDevice
