import Pciemu.Arguments
import Pciemu.CharDevice
import Pciemu.Roundtrip

/-!
The program in user space, from its command line to its exit status, over the
driver and the device. It is the only caller; how its steps and those of the
kernel and the interrupt handler interleave is left open.
-/

namespace Pciemu.Userspace

open Bytes Device AuroraHw Driver CharDevice NodeName Runs
open Arguments (Context parseArgs)

/-- What the program does not decide itself. `rand` gives, for each call of `rand_init`, the values of
`rand` after it; `vma` is what the kernel makes of an `mmap` of some length; `page` are the page tables
of the process. -/
structure Env (T : Type) where
  caller : T
  node : List Char
  resource : CharDevice.Resource
  dev : PciemuDev
  vma : ℕ → Vma
  remap : ℤ
  rand : ℕ → ℕ → ℕ
  a : UInt64
  b : UInt64
  page : UInt64 → ℕ
  busAddr : ℕ → ℕ → UInt64

-- `load i` and `store i v` are the accesses to `virt_addr[i]`
inductive Command
  | load (i : ℕ)
  | store (i : ℕ) (v : UInt64)
  | ints
  | ioctl (d : DmaDataDirection) (vaddr : UInt64)

/-- The process: what it has mapped, what is left of `main`, what it has printed, the last value first,
and once it has ended its exit status. -/
structure Running (T : Type) where
  mapped : List CharDevice.Mapped
  todo : List Command
  loaded : List UInt64
  status : Option ℤ
  sys : System T

inductive Tick (T : Type)
  | program
  | kernel (a : Action T)

-- `&virt_addr[i]`
def virtAddr (m : CharDevice.Mapped) (i : ℕ) : Access where
  addr := m.vma.vmStart + 8 * i
  size := 8
  size_mem := by decide
  aligned := by
    have hpage : 8 ∣ pageSize := by decide
    exact Nat.dvd_add (hpage.trans (Nat.dvd_of_mod_eq_zero m.vma.start_aligned)) (Nat.dvd_mul_right 8 i)

section Program

variable {T : Type} (env : Env T)

def pageAlign (len : ℕ) : ℕ := pageSize * ((len + pageSize - 1) / pageSize)

def Env.addrA : ℕ := (env.busAddr (env.page env.a) (pageOfs env.a)).toNat

def Env.addrB : ℕ := (env.busAddr (env.page env.b) (pageOfs env.b)).toNat

def filename (ctx : Context) : Option (List Char) :=
  if h : ctx.pciDomainNb < 2 ^ 16 ∧ ctx.pciBusNb < 2 ^ 8 ∧ ctx.pciDeviceNb < 2 ^ 5 ∧ ctx.pciFuncNb < 2 ^ 3 then
    some (openPciemuDevFilename ⟨_, _, _, _, h.1, h.2.1, h.2.2.1, h.2.2.2⟩)
  else none

def openPciemuDev (ctx : Context) : Bool := filename ctx = some env.node ∧ pciemuOpen env.dev = 0

def mmapPciemuBar (ctx : Context) : Option CharDevice.Mapped :=
  (pciemuMmap env.dev (env.vma ctx.pciHwBarLen) env.remap).2

def printRegisters (ctx : Context) : List Command := (List.range ctx.pciHwRegsNb).map .load

def written (i : ℕ) : UInt64 := UInt64.ofNat (env.rand 0 i % 1024)

def writeRegistersSequential (ctx : Context) : List Command :=
  (List.range ctx.pciHwRegsNb).map fun i => .store i (written env i)

def opening (ctx : Context) : List Command :=
  printRegisters ctx ++ writeRegistersSequential env ctx ++ printRegisters ctx ++ [.ints]

-- `ioctl_pciemu` from its first system call on
def calls : List Command := [.ioctl .toDevice env.a, .ioctl .fromDevice env.b]

def storeInt (host : ℕ → UInt8) (addr v : ℕ) : ℕ → UInt8 := splice host addr sizeofInt (byteOf v)

def Env.ints (host : ℕ → UInt8) : ℕ → UInt8 :=
  storeInt (storeInt host env.addrA (env.rand 1 0)) env.addrB (env.rand 1 1)

def declareInts (s : System T) : System T := { s with hw := { s.hw with host := env.ints s.hw.host } }

def start (argv : List (List UInt8)) (s : System T) : Running T :=
  match parseArgs argv with
  | .error e => ⟨[], [], [], some e.status, s⟩
  | .ok ctx =>
    if !openPciemuDev env ctx then ⟨[], [], [], some (-1), s⟩
    else match mmapPciemuBar env ctx with
      | none => ⟨[], [], [], some (-1), s⟩
      | some m => ⟨[m], opening env ctx ++ calls env, [], none, s⟩

def Running.vaddr (r : Running T) : UInt64 :=
  match r.todo with
  | .ioctl _ vaddr :: _ => vaddr
  | _ => 0

/-- Nobody else calls the driver or raises interrupts, and `get_user_pages_fast` and `dma_map_page`
succeed. -/
def Running.Alone (r : Running T) : Tick T → Prop
  | .program => True
  | .kernel a => Solo env.caller (env.page r.vaddr) env.busAddr r.sys a

variable (bus : Bus)

def Running.access (r : Running T) (c : CharDevice.Mapped → Syscall) : Option (Running T) :=
  r.mapped.head?.bind fun m =>
    (Process.step bus env.resource env.dev ⟨true, r.mapped, r.sys.hw, r.loaded, []⟩ (c m)).map fun p =>
      { r with
        loaded := p.loaded
        sys := { r.sys with
          hw := p.hw
          pending := r.sys.pending ++ List.replicate (notified p.hw.log - notified r.sys.hw.log) .mmap } }

def intsDiffer (hw : Machine) : Bool := natAt hw.host env.addrA sizeofInt ≠ natAt hw.host env.addrB sizeofInt

variable [DecidableEq T]

-- the program stands still while it is inside a system call
def Running.program (r : Running T) : Option (Running T) :=
  if r.status.isSome ∨ (r.sys.thread env.caller).stage ≠ .user then none
  else match r.todo with
    -- `ioctl_pciemu` returns -2 here and -1 for a failed call, `main` -1 for both
    | [] => some { r with status := some (if intsDiffer env r.sys.hw then -1 else 0) }
    | .load i :: todo => (r.access env bus fun m => .load (virtAddr m i)).map fun r => { r with todo := todo }
    | .store i v :: todo => (r.access env bus fun m => .store (virtAddr m i) v).map fun r => { r with todo := todo }
    | .ints :: todo => some { r with todo := todo, sys := declareInts env r.sys }
    | .ioctl d vaddr :: _ =>
      (Driver.step bus r.sys (.ioctl env.caller (ioctlCmd d) vaddr)).map fun sys => { r with sys := sys }

def returned (t : T) (s : System T) : Action T → Option ℤ
  | .advance t' => if t' = t then match (s.thread t).stage with
    | .ret code => some code
    | _ => none
    else none
  | _ => none

def Running.kernel (r : Running T) (a : Action T) : Option (Running T) :=
  (Driver.step bus r.sys a).map fun sys => match returned env.caller r.sys a with
    | none => { r with sys := sys }
    | some code =>
      if code ≠ 0 then { r with sys := sys, status := some (-1) } else { r with sys := sys, todo := r.todo.tail }

def Running.step (r : Running T) : Tick T → Option (Running T)
  | .program => r.program env bus
  | .kernel a => r.kernel env bus a

end Program

section Registers

variable {T : Type} (bus : Bus) {env : Env T} {m : CharDevice.Mapped}

structure OnRegisters (env : Env T) (m : CharDevice.Mapped) : Prop where
  start : m.pfn <<< pageShift = env.resource.start
  wide : pageSize ≤ m.vma.vmEnd - m.vma.vmStart
  size : env.resource.len = regBarSize.toNat

theorem OnRegisters.access (h : OnRegisters env m) {p : Process} (hp : p.mapped = [m]) {i : ℕ}
    (hi : i < regbarRegCnt) (serve : UInt64 → Machine × List UInt64) :
    p.access env.resource (virtAddr m i) serve =
      some { p with hw := (serve (scratchAddr i)).1, loaded := (serve (scratchAddr i)).2 ++ p.loaded } := by
  have hsize : regBarSize.toNat = 0x8000000 := by decide
  have hwide := h.wide
  have hcov : m.vma.Covers (m.vma.vmStart + 8 * i) 8 := by
    simp only [regbarRegCnt, pageSize] at hi hwide
    constructor <;> omega
  have hphys : m.translate (m.vma.vmStart + 8 * i) = env.resource.start + 8 * i := by
    rw [CharDevice.Mapped.translate, h.start]
    omega
  have hin : env.resource.Contains (env.resource.start + 8 * i) 8 := by
    rw [CharDevice.Resource.Contains, h.size, hsize]
    simp only [regbarRegCnt] at hi
    omega
  have hfind : p.mapped.find? (fun m' => m'.vma.Covers (m.vma.vmStart + 8 * i) 8) = some m := by simp [hp, hcov]
  rw [Process.access, virtAddr, hfind]
  simp only [Option.map_some, hphys, if_pos hin, Nat.add_sub_cancel_left]
  rfl

theorem regbarLoad_scratch (hw : Machine) {i : ℕ} (hi : i < regbarRegCnt) : regbarLoad hw (scratchAddr i) 8 = hw.reg i := by
  have hvalid : minAccessSize ≤ 8 ∧ 8 ≤ maxAccessSize := by decide
  rw [regbarLoad, if_pos hvalid, mmioRead, lowBytes_eight, barRead_eq, (decode_scratch hi _).mpr rfl]
  rfl

theorem regbarStore_scratch (hw : Machine) {i : ℕ} (hi : i < regbarRegCnt) (v : UInt64) :
    regbarStore bus hw (scratchAddr i) v 8 = hw.setReg i v := by
  have hvalid : minAccessSize ≤ 8 ∧ 8 ≤ maxAccessSize := by decide
  rw [regbarStore, if_pos hvalid, mmioWrite_scratch bus hw .reg hi, lowBytes_eight]

variable {bus} {r : Running T} (h : OnRegisters env m) (hr : r.mapped = [m]) {i : ℕ} (hi : i < regbarRegCnt)

include h hr hi

theorem load_access : r.access env bus (fun m => .load (virtAddr m i)) =
    some { r with loaded := r.sys.hw.reg i :: r.loaded } := by
  rw [Running.access, hr, List.head?_cons, Option.bind_some, Process.step, h.access rfl hi]
  simp only [Option.map_some, virtAddr, regbarLoad_scratch r.sys.hw hi, Nat.sub_self, List.replicate_zero,
    List.append_nil]
  rw [← hr]
  rfl

theorem store_access (v : UInt64) : r.access env bus (fun m => .store (virtAddr m i) v) =
    some { r with sys := { r.sys with hw := r.sys.hw.setReg i v } } := by
  have hlog : notified (r.sys.hw.setReg i v).log - notified r.sys.hw.log = 0 := Nat.sub_self _
  rw [Running.access, hr, List.head?_cons, Option.bind_some, Process.step, h.access rfl hi]
  simp only [Option.map_some, virtAddr, regbarStore_scratch bus r.sys.hw hi, hlog, List.replicate_zero,
    List.append_nil]
  rw [← hr]
  rfl

end Registers

section Effects

variable {T : Type} (env : Env T)

def setRegs (hw : Machine) (v : ℕ → UInt64) (n : ℕ) : Machine :=
  (List.range n).foldl (fun hw i => hw.setReg i (v i)) hw

theorem setRegs_succ (hw : Machine) (v : ℕ → UInt64) (n : ℕ) :
    setRegs hw v (n + 1) = (setRegs hw v n).setReg n (v n) := by
  rw [setRegs, setRegs, List.range_succ, List.foldl_append]
  rfl

theorem setRegs_reg (hw : Machine) (v : ℕ → UInt64) (n i : ℕ) :
    (setRegs hw v n).reg i = if i < n then v i else hw.reg i := by
  induction n with
  | zero => rfl
  | succ n ih =>
    rw [setRegs_succ]
    obtain rfl | hne := eq_or_ne i n
    · rw [reg_setReg, if_pos (Nat.lt_succ_self i)]
    · have hsame : ((setRegs hw v n).setReg n (v n)).reg i = (setRegs hw v n).reg i :=
        wordAt_storeWord_of_disjoint _ _ _ _ (by omega)
      rw [hsame, ih]
      simp only [show i < n + 1 ↔ i < n by omega]

def Command.effect (x : System T × List UInt64) : Command → System T × List UInt64
  | .load i => (x.1, x.1.hw.reg i :: x.2)
  | .store i v => ({ x.1 with hw := x.1.hw.setReg i v }, x.2)
  | .ints => (declareInts env x.1, x.2)
  | .ioctl _ _ => x

theorem effect_loads (x : System T × List UInt64) (n : ℕ) :
    ((List.range n).map Command.load).foldl (Command.effect env) x =
      (x.1, ((List.range n).map x.1.hw.reg).reverse ++ x.2) := by
  induction n with
  | zero => rfl
  | succ n ih =>
    rw [List.range_succ, List.map_append, List.foldl_append, ih]
    simp [Command.effect]

theorem effect_stores (x : System T × List UInt64) (v : ℕ → UInt64) (n : ℕ) :
    ((List.range n).map fun i => Command.store i (v i)).foldl (Command.effect env) x =
      ({ x.1 with hw := setRegs x.1.hw v n }, x.2) := by
  induction n with
  | zero => rfl
  | succ n ih =>
    rw [List.range_succ, List.map_append, List.foldl_append, ih, setRegs_succ]
    rfl

def prepared (ctx : Context) (s : System T) : System T :=
  declareInts env { s with hw := setRegs s.hw (written env) ctx.pciHwRegsNb }

def shown (ctx : Context) (s : System T) : List UInt64 :=
  (List.range ctx.pciHwRegsNb).map s.hw.reg ++ (List.range ctx.pciHwRegsNb).map (written env)

theorem effect_opening (ctx : Context) (s : System T) :
    (opening env ctx).foldl (Command.effect env) (s, []) = (prepared env ctx s, (shown env ctx s).reverse) := by
  simp only [opening, printRegisters, writeRegistersSequential, List.foldl_append, effect_loads, effect_stores,
    List.append_nil]
  have hread : (List.range ctx.pciHwRegsNb).map (setRegs s.hw (written env) ctx.pciHwRegsNb).reg =
      (List.range ctx.pciHwRegsNb).map (written env) := by
    apply List.map_congr_left
    intro i hi
    rw [setRegs_reg, if_pos (List.mem_range.mp hi)]
  rw [hread, shown, List.reverse_append]
  rfl

end Effects

section Course

variable {T : Type}

structure Env.Sound (env : Env T) : Prop where
  assigned : Assigned env.resource env.dev
  vma : ∀ len, 0 < len → (env.vma len).vmEnd - (env.vma len).vmStart = pageAlign len
  remap : env.remap = 0
  a : Reachable (env.page env.a) env.busAddr env.a
  b : Reachable (env.page env.b) env.busAddr env.b
  apart : env.addrA + sizeofInt ≤ env.addrB ∨ env.addrB + sizeofInt ≤ env.addrA
  rand : ∀ k i, env.rand k i < 2 ^ 31

theorem quiescent_with_hw {s : System T} (h : Quiescent s) {hw : Machine} (hready : Ready hw) :
    Quiescent { s with hw := hw } := ⟨hready, h.user, h.mtx, h.pending, h.handler⟩

structure IntsMoved (env : Env T) (s s' : System T) : Prop where
  a : natAt s'.hw.host env.addrA sizeofInt = env.rand 1 0
  b : natAt s'.hw.host env.addrB sizeofInt = env.rand 1 0
  host : ∀ k, (k < env.addrA ∨ env.addrA + sizeofInt ≤ k) → (k < env.addrB ∨ env.addrB + sizeofInt ≤ k) →
    s'.hw.host k = s.hw.host k
  reg : ∀ i, s'.hw.reg i = s.hw.reg i
  quiescent : Quiescent s'

theorem copied_reg {d : DmaDataDirection} {addr : ℕ} {m m' : Machine} (h : Copied d addr m m') (i : ℕ) :
    m'.reg i = m.reg i := by
  apply wordAt_congr
  intro k _
  rw [h.buff]
  cases d with
  | toDevice =>
    rw [copiedBuff]
    refine splice_outside _ _ _ _ _ (.inr ?_)
    have hofs : regsOfs = 4100 := by decide
    omega
  | fromDevice => rfl

variable {env : Env T} (henv : env.Sound)

include henv

theorem ints_moved {s s₁ s₂ : System T} (h : Outcome .toDevice env.addrA (declareInts env s) s₁)
    (h' : Outcome .fromDevice env.addrB s₁ s₂) : IntsMoved env s s₂ := by
  have hapart := henv.apart
  have hlt := henv.rand 1 0
  have hhost₁ : s₁.hw.host = env.ints s.hw.host := h.copied.host
  have hhost : s₂.hw.host = splice s₁.hw.host env.addrB sizeofInt s₁.hw.dma.buff := h'.copied.host
  have hdeclared (i : ℕ) (hi : i < sizeofInt) : env.ints s.hw.host (env.addrA + i) = byteOf (env.rand 1 0) i := by
    rw [Env.ints, storeInt, splice_outside _ _ _ _ _ (by omega)]
    exact splice_inside _ _ _ _ _ hi
  have hsent (i : ℕ) (hi : i < sizeofInt) : s₁.hw.dma.buff i = byteOf (env.rand 1 0) i := by
    have hbuff : s₁.hw.dma.buff = splice s.hw.dma.buff 0 sizeofInt fun i => env.ints s.hw.host (env.addrA + i) :=
      h.copied.buff
    have hin := splice_inside s.hw.dma.buff (fun i => env.ints s.hw.host (env.addrA + i)) 0 sizeofInt i hi
    rw [Nat.zero_add] at hin
    rw [hbuff, hin, hdeclared i hi]
  refine ⟨?_, ?_, ?_, ?_, h'.quiescent⟩
  · rw [natAt_byteOf _ _ _ (env.rand 1 0), Nat.mod_eq_of_lt (hlt.trans (by decide))]
    intro i hi
    rw [hhost, splice_outside _ _ _ _ _ (by omega), hhost₁]
    exact hdeclared i hi
  · rw [natAt_byteOf _ _ _ (env.rand 1 0), Nat.mod_eq_of_lt (hlt.trans (by decide))]
    intro i hi
    rw [hhost, splice_inside _ _ _ _ _ hi]
    exact hsent i hi
  · intro k ha hb
    rw [hhost, splice_outside _ _ _ _ _ hb, hhost₁, Env.ints, storeInt, splice_outside _ _ _ _ _ hb, storeInt,
      splice_outside _ _ _ _ _ ha]
  · intro i
    rw [copied_reg h'.copied, copied_reg h.copied]
    rfl

end Course

section Measure

def Command.cost : Command → ℕ
  | .ioctl _ _ => 20
  | _ => 1

def cost (todo : List Command) : ℕ := (todo.map Command.cost).sum

variable {T : Type} (env : Env T)

-- an upper bound of the ticks to come
def Running.left (r : Running T) : ℕ :=
  if r.status.isSome then 0
  else if (r.sys.thread env.caller).stage = .user then 1 + cost r.todo
  else 1 + rank env.caller r.sys + cost r.todo.tail

variable {env} {r : Running T} (hstatus : r.status = none)

include hstatus

theorem left_user (hu : (r.sys.thread env.caller).stage = .user) : r.left env = 1 + cost r.todo := by
  simp [Running.left, hstatus, hu]

theorem left_inside (hin : (r.sys.thread env.caller).stage ≠ .user) :
    r.left env = 1 + rank env.caller r.sys + cost r.todo.tail := by
  simp [Running.left, hstatus, hin]

theorem left_called {d : DmaDataDirection} {vaddr : UInt64} {rest : List Command}
    (htodo : r.todo = .ioctl d vaddr :: rest) (hu : (r.sys.thread env.caller).stage = .user) {sys : System T}
    (hst : (sys.thread env.caller).stage = .getUserPages) : ({ r with sys := sys }).left env + 1 ≤ r.left env := by
  rw [left_user hstatus hu, left_inside (r := { r with sys := sys }) hstatus (by simp [hst]), htodo]
  simp [rank, hst, cost, Command.cost]

end Measure

section Calls

variable {T : Type} [DecidableEq T] {bus : Bus} {env : Env T}

theorem quiescent_still (bus : Bus) {s : System T} (hs : Quiescent s) {t : T} {pinned : Option ℕ} {handle : Option UInt64}
    {a : Action T} (ha : Outcomes t pinned handle a) : Driver.step bus s a = none := by
  cases a with
  | ioctl t' cmd vaddr => exact ha.elim
  | getUserPagesFast t' page => exact if_neg (by simp [hs.user t'])
  | dmaMapPage t' handle => exact if_neg (by simp [hs.user t'])
  | advance t' => simp [Driver.step, advance, hs.user t']
  | irq => simp [Driver.step, pciemuIrqHandler, hs.handler, hs.pending]
  | mmapRaise val => exact ha.elim

theorem turn_returned {s : System T} {t : T} {a : Action T} {th : Thread} {dma : PciemuDma T} {es : List KernelEvent}
    (h : Turn s.dma t (s.thread t) a th dma es) :
    (returned t s a = none ∧ th.stage ≠ .user) ∨
      ∃ code, returned t s a = some code ∧ (s.thread t).stage = .ret code ∧ th.stage = .user := by
  cases h with
  | ret code hs => exact .inr ⟨code, by simp [returned, hs], hs, rfl⟩
  | _ => simp_all [returned]

theorem move_returned {s s' : System T} {t : T} {a : Action T} {pinned : Option ℕ} {handle : Option UInt64}
    (hready : Ready s.hw) (hm : Move bus s a s') (ha : Outcomes t pinned handle a) (hin : (s.thread t).stage ≠ .user) :
    (returned t s a = none ∧ (s'.thread t).stage ≠ .user) ∨
      ∃ code, returned t s a = some code ∧ (s.thread t).stage = .ret code ∧ (s'.thread t).stage = .user := by
  cases hm with
  | ioctl t' cmd vaddr hs => exact ha.elim
  | turn t' ht =>
    obtain rfl := ht.by ha
    simpa using turn_returned ht
  | iowrite t' n w hs hw =>
    obtain rfl := ha
    left
    refine ⟨by simp [returned, hs], ?_⟩
    rw [System.setStage_thread, Function.update_self]
    dsimp only
    split_ifs <;> exact Stage.noConfusion
  | irq hi => exact .inl ⟨rfl, (hi.aside hready).thread ▸ hin⟩
  | mmapRaise val => exact ha.elim

variable (hb : bus.CopiesExactly) {r r' : Running T} {d : DmaDataDirection} {vaddr : UInt64} {rest : List Command}

include hb

theorem call_tick {hw : Machine} (hreach : Reachable (env.page vaddr) env.busAddr vaddr) (hstatus : r.status = none)
    (htodo : r.todo = .ioctl d vaddr :: rest)
    (hc : Course hw env.caller d vaddr (env.page vaddr) env.busAddr r.sys)
    (hin : (r.sys.thread env.caller).stage ≠ .user) {t : Tick T} (ht : r.step env bus t = some r') (ha : r.Alone env t) :
    r'.left env + 1 ≤ r.left env ∧ ∃ sys, Course hw env.caller d vaddr (env.page vaddr) env.busAddr sys ∧
      ((sys.thread env.caller).stage ≠ .user ∧ r' = { r with sys := sys } ∨
        (sys.thread env.caller).stage = .user ∧ r' = { r with sys := sys, todo := rest }) := by
  cases t with
  | program =>
    rw [Running.step, Running.program, if_pos (.inr hin)] at ht
    cases ht
  | kernel a =>
    have hsolo : Solo env.caller (env.page vaddr) env.busAddr r.sys a := by
      simpa only [Running.Alone, Running.vaddr, htodo] using ha
    obtain ⟨live, hs⟩ := hc.lone.served
    obtain ⟨sys, hsys, hr⟩ := Option.map_eq_some_iff.mp ht
    rw [hc.step_agrees hb hsolo] at hsys
    have hm := step_move copyBus r.sys hsys
    have hlt := hc.lone.rank_lt hm hsolo
    have hc' := hc.move hreach.2 hm hsolo
    have hleft : r.left env = 1 + rank env.caller r.sys + cost rest := by
      rw [left_inside hstatus hin, htodo, List.tail_cons]
    obtain ⟨hnone, hst⟩ | ⟨code, hsome, hret, hst⟩ := move_returned hs.base.ready hm hsolo hin
    · rw [hnone] at hr
      refine ⟨?_, sys, hc', .inl ⟨hst, hr.symm⟩⟩
      rw [← hr, hleft, left_inside (r := { r with sys := sys }) hstatus hst, htodo, List.tail_cons]
      dsimp only
      omega
    · have hcode : code = 0 := by
        have hp := hc.progress
        simp only [Progress, hret] at hp
        exact hp.1
      simp only [hsome, hcode, ne_eq, not_true_eq_false, if_false, htodo, List.tail_cons] at hr
      refine ⟨?_, sys, hc', .inr ⟨hst, hr.symm⟩⟩
      rw [← hr, hleft, left_user (r := { r with sys := sys, todo := rest }) hstatus hst]
      dsimp only
      omega

theorem call_enabled {hw : Machine} (htodo : r.todo = .ioctl d vaddr :: rest)
    (hc : Course hw env.caller d vaddr (env.page vaddr) env.busAddr r.sys)
    (hin : (r.sys.thread env.caller).stage ≠ .user) : ∃ t r', r.step env bus t = some r' ∧ r.Alone env t := by
  obtain ⟨a, sys, hm, hsolo⟩ := hc.lone.enabled copyBus hin (some (env.page vaddr))
    (some (env.busAddr (r.sys.thread env.caller).page r.sys.dma.offset))
  change Solo env.caller (env.page vaddr) env.busAddr r.sys a at hsolo
  have hstep := (hc.step_agrees hb hsolo).trans (move_step copyBus r.sys hm)
  refine ⟨.kernel a, _, congrArg (Option.map _) hstep, ?_⟩
  simpa only [Running.Alone, Running.vaddr, htodo] using hsolo

omit hb in
theorem program_only (hq : Quiescent r.sys) {t : Tick T} (ht : r.step env bus t = some r') (ha : r.Alone env t) :
    r.program env bus = some r' := by
  cases t with
  | program => exact ht
  | kernel a =>
    rw [Running.step, Running.kernel, quiescent_still bus hq ha] at ht
    cases ht

omit hb in
theorem program_ioctl (bus : Bus) (hreach : Reachable (env.page vaddr) env.busAddr vaddr) (hq : Quiescent r.sys)
    (hstatus : r.status = none) (htodo : r.todo = .ioctl d vaddr :: rest) :
    ∃ sys, r.program env bus = some { r with sys := sys } ∧
      Course r.sys.hw env.caller d vaddr (env.page vaddr) env.busAddr sys ∧
      (sys.thread env.caller).stage = .getUserPages := by
  obtain ⟨sys, hm, hc, hst⟩ := course_ioctl env.caller d (env.page vaddr) env.busAddr hq hreach.1
  have hstep : Driver.step bus r.sys (.ioctl env.caller (ioctlCmd d) vaddr) = some sys := move_step copyBus r.sys hm
  refine ⟨sys, ?_, hc, hst⟩
  rw [Running.program, if_neg (by simp [hstatus, hq.user]), htodo]
  exact congrArg (Option.map _) hstep

end Calls

section Points

variable {T : Type}

structure Success (env : Env T) (ctx : Context) (s : System T) (r : Running T) : Prop where
  status : r.status = some 0
  printed : r.loaded.reverse = shown env ctx s
  reg : ∀ i, r.sys.hw.reg i = if i < ctx.pciHwRegsNb then written env i else s.hw.reg i
  ints : IntsMoved env { s with hw := setRegs s.hw (written env) ctx.pciHwRegsNb } r.sys

inductive At (env : Env T) (ctx : Context) (s : System T) (m : CharDevice.Mapped) (r : Running T) : Prop
  | opening (done rest : List Command) (h : opening env ctx = done ++ rest) (hm : r.mapped = [m])
      (htodo : r.todo = rest ++ calls env) (hstatus : r.status = none) (hq : Quiescent r.sys)
      (heffect : done.foldl (Command.effect env) (s, []) = (r.sys, r.loaded))
  | toDevice (htodo : r.todo = calls env) (hstatus : r.status = none) (hprinted : r.loaded.reverse = shown env ctx s)
      (hc : Course (prepared env ctx s).hw env.caller .toDevice env.a (env.page env.a) env.busAddr r.sys)
      (hin : (r.sys.thread env.caller).stage ≠ .user)
  | between (htodo : r.todo = [.ioctl .fromDevice env.b]) (hstatus : r.status = none)
      (hprinted : r.loaded.reverse = shown env ctx s)
      (ho : Outcome .toDevice env.addrA (prepared env ctx s) r.sys)
  | fromDevice (s₁ : System T) (htodo : r.todo = [.ioctl .fromDevice env.b]) (hstatus : r.status = none)
      (hprinted : r.loaded.reverse = shown env ctx s) (ho : Outcome .toDevice env.addrA (prepared env ctx s) s₁)
      (hc : Course s₁.hw env.caller .fromDevice env.b (env.page env.b) env.busAddr r.sys)
      (hin : (r.sys.thread env.caller).stage ≠ .user)
  | moved (htodo : r.todo = []) (hstatus : r.status = none) (hprinted : r.loaded.reverse = shown env ctx s)
      (hints : IntsMoved env { s with hw := setRegs s.hw (written env) ctx.pciHwRegsNb } r.sys)
  | ended (h : Success env ctx s r) (hq : Quiescent r.sys)

theorem regs_le {ctx : Context} (hctx : Arguments.Consistent ctx) : ctx.pciHwRegsNb ≤ regbarRegCnt := by
  have hregs : 1 ≤ (ctx.pciHwRegsNb : ℤ) ∧ (ctx.pciHwRegsNb : ℤ) ≤ regbarRegCnt := hctx.regs
  omega

theorem opening_index {env : Env T} {ctx : Context} (hctx : Arguments.Consistent ctx) {c : Command}
    (hc : c ∈ opening env ctx) :
    (∃ i < regbarRegCnt, c = .load i) ∨ (∃ i < regbarRegCnt, ∃ v, c = .store i v) ∨ c = .ints := by
  have hle := regs_le hctx
  simp only [opening, printRegisters, writeRegistersSequential, List.mem_append, List.mem_map, List.mem_range,
    List.mem_singleton] at hc
  obtain ((⟨i, hi, rfl⟩ | ⟨i, hi, rfl⟩) | ⟨i, hi, rfl⟩) | rfl := hc
  · exact .inl ⟨i, by omega, rfl⟩
  · exact .inr (.inl ⟨i, by omega, _, rfl⟩)
  · exact .inl ⟨i, by omega, rfl⟩
  · exact .inr (.inr rfl)

theorem intsDiffer_moved {env : Env T} {s s' : System T} (h : IntsMoved env s s') : intsDiffer env s'.hw = false := by
  simp [intsDiffer, h.a, h.b]

theorem success_of_moved {env : Env T} {ctx : Context} {s : System T} {r : Running T} (hstatus : r.status = some 0)
    (hprinted : r.loaded.reverse = shown env ctx s)
    (h : IntsMoved env { s with hw := setRegs s.hw (written env) ctx.pciHwRegsNb } r.sys) : Success env ctx s r where
  status := hstatus
  printed := hprinted
  reg := by
    intro i
    rw [h.reg, setRegs_reg]
  ints := h

theorem At.success {env : Env T} {ctx : Context} {s : System T} {m : CharDevice.Mapped} {r : Running T}
    (h : At env ctx s m r) (hended : r.status.isSome) : Success env ctx s r := by
  cases h with
  | ended h hq => exact h
  | _ => simp_all

variable [DecidableEq T] {bus : Bus} {env : Env T} {ctx : Context} {s : System T} {m : CharDevice.Mapped}
  (hreg : OnRegisters env m) (hctx : Arguments.Consistent ctx)

include hreg hctx

theorem opening_tick (bus : Bus) {r : Running T} {c : Command} {todo : List Command} (hc : c ∈ opening env ctx)
    (hm : r.mapped = [m]) (htodo : r.todo = c :: todo) (hstatus : r.status = none) (hq : Quiescent r.sys) :
    ∃ r', r.program env bus = some r' ∧ r'.mapped = [m] ∧ r'.todo = todo ∧ r'.status = none ∧ Quiescent r'.sys ∧
      c.effect env (r.sys, r.loaded) = (r'.sys, r'.loaded) := by
  have hgo : ¬(r.status.isSome ∨ (r.sys.thread env.caller).stage ≠ .user) := by simp [hstatus, hq.user]
  obtain ⟨i, hi, rfl⟩ | ⟨i, hi, v, rfl⟩ | rfl := opening_index hctx hc
  · refine ⟨{ r with todo := todo, loaded := r.sys.hw.reg i :: r.loaded }, ?_, hm, rfl, hstatus, hq, rfl⟩
    rw [Running.program, if_neg hgo, htodo]
    dsimp only
    rw [load_access hreg hm hi, Option.map_some]
  · have hq' : Quiescent { r.sys with hw := r.sys.hw.setReg i v } :=
      quiescent_with_hw hq ⟨hq.ready.idle, hq.ready.mask, hq.ready.mode⟩
    refine ⟨{ r with todo := todo, sys := _ }, ?_, hm, rfl, hstatus, hq', rfl⟩
    rw [Running.program, if_neg hgo, htodo]
    dsimp only
    rw [store_access hreg hm hi, Option.map_some]
  · have hq' : Quiescent (declareInts env r.sys) :=
      quiescent_with_hw hq ⟨hq.ready.idle, hq.ready.mask, hq.ready.mode⟩
    refine ⟨{ r with todo := todo, sys := declareInts env r.sys }, ?_, hm, rfl, hstatus, hq', rfl⟩
    rw [Running.program, if_neg hgo, htodo]

theorem At.opening_step {r r' : Running T} {done rest : List Command} {c : Command}
    (h : Userspace.opening env ctx = done ++ c :: rest) (hm : r.mapped = [m]) (htodo : r.todo = c :: (rest ++ calls env))
    (hstatus : r.status = none) (hq : Quiescent r.sys)
    (heffect : done.foldl (Command.effect env) (s, []) = (r.sys, r.loaded)) (hr : r.program env bus = some r') :
    At env ctx s m r' ∧ r'.left env + 1 ≤ r.left env := by
  have hc : c ∈ Userspace.opening env ctx := by simp [h]
  obtain ⟨r'', hr'', hm', htodo', hstatus', hq', heff⟩ := opening_tick hreg hctx bus hc hm htodo hstatus hq
  obtain rfl := Option.some.inj (hr.symm.trans hr'')
  refine ⟨.opening (done ++ [c]) rest (by simp [h]) hm' htodo' hstatus' hq' ?_, ?_⟩
  · rw [List.foldl_append, heffect]
    exact heff
  · have hcost : 1 ≤ c.cost := by cases c <;> simp [Command.cost]
    rw [left_user hstatus (hq.user _), left_user hstatus' (hq'.user _), htodo, htodo']
    simp only [cost, List.map_cons, List.sum_cons]
    omega

variable (henv : env.Sound) (hb : bus.CopiesExactly)

include henv hb

theorem At.tick {r r' : Running T} (h : At env ctx s m r) {t : Tick T} (ht : r.step env bus t = some r')
    (ha : r.Alone env t) : At env ctx s m r' ∧ r'.left env + 1 ≤ r.left env := by
  cases h with
  | opening done rest hopen hm htodo hstatus hq heffect =>
    have hr := program_only hq ht ha
    cases rest with
    | cons c rest => exact At.opening_step hreg hctx hopen hm htodo hstatus hq heffect hr
    | nil =>
      rw [List.append_nil] at hopen
      rw [← hopen, effect_opening] at heffect
      obtain ⟨hsys, hloaded⟩ := Prod.mk.inj heffect
      obtain ⟨sys, hr', hc, hst⟩ := program_ioctl bus henv.a hq hstatus htodo
      obtain rfl := Option.some.inj (hr.symm.trans hr')
      rw [← hsys] at hc
      have hin : (sys.thread env.caller).stage ≠ .user := by simp [hst]
      refine ⟨.toDevice htodo hstatus ?_ hc hin, left_called hstatus htodo (hq.user _) hst⟩
      rw [← hloaded, List.reverse_reverse]
  | toDevice htodo hstatus hprinted hc hin =>
    obtain ⟨hleft, sys, hc', ⟨hin', rfl⟩ | ⟨hu, rfl⟩⟩ := call_tick hb henv.a hstatus htodo hc hin ht ha
    · exact ⟨.toDevice htodo hstatus hprinted hc' hin', hleft⟩
    · exact ⟨.between rfl hstatus hprinted (hc'.outcome hu), hleft⟩
  | between htodo hstatus hprinted ho =>
    have hr := program_only ho.quiescent ht ha
    obtain ⟨sys, hr', hc, hst⟩ := program_ioctl bus henv.b ho.quiescent hstatus htodo
    obtain rfl := Option.some.inj (hr.symm.trans hr')
    have hin : (sys.thread env.caller).stage ≠ .user := by simp [hst]
    exact ⟨.fromDevice r.sys htodo hstatus hprinted ho hc hin, left_called hstatus htodo (ho.quiescent.user _) hst⟩
  | fromDevice s₁ htodo hstatus hprinted ho hc hin =>
    obtain ⟨hleft, sys, hc', ⟨hin', rfl⟩ | ⟨hu, rfl⟩⟩ := call_tick hb henv.b hstatus htodo hc hin ht ha
    · exact ⟨.fromDevice s₁ htodo hstatus hprinted ho hc' hin', hleft⟩
    · exact ⟨.moved rfl hstatus hprinted (ints_moved henv ho (hc'.outcome hu)), hleft⟩
  | moved htodo hstatus hprinted hints =>
    have hr := program_only hints.quiescent ht ha
    rw [Running.program, if_neg (by simp [hstatus, hints.quiescent.user]), htodo, intsDiffer_moved hints] at hr
    obtain rfl := Option.some.inj hr
    refine ⟨.ended (success_of_moved rfl hprinted hints) hints.quiescent, ?_⟩
    rw [left_user hstatus (hints.quiescent.user _), htodo]
    simp [Running.left, cost]
  | ended hsuccess hq =>
    have hr := program_only hq ht ha
    rw [Running.program, if_pos (by simp [hsuccess.status])] at hr
    cases hr

theorem At.enabled {r : Running T} (h : At env ctx s m r) (hrun : r.status = none) :
    ∃ t r', r.step env bus t = some r' ∧ r.Alone env t := by
  cases h with
  | opening done rest hopen hm htodo hstatus hq heffect =>
    cases rest with
    | cons c rest =>
      have hc : c ∈ Userspace.opening env ctx := by simp [hopen]
      obtain ⟨r', hr, -⟩ := opening_tick hreg hctx bus hc hm htodo hstatus hq
      exact ⟨.program, r', hr, trivial⟩
    | nil =>
      obtain ⟨sys, hr, -⟩ := program_ioctl bus henv.a hq hstatus htodo
      exact ⟨.program, _, hr, trivial⟩
  | toDevice htodo hstatus hprinted hc hin => exact call_enabled hb htodo hc hin
  | between htodo hstatus hprinted ho =>
    obtain ⟨sys, hr, -⟩ := program_ioctl bus henv.b ho.quiescent hstatus htodo
    exact ⟨.program, _, hr, trivial⟩
  | fromDevice s₁ htodo hstatus hprinted ho hc hin => exact call_enabled hb htodo hc hin
  | moved htodo hstatus hprinted hints =>
    refine ⟨.program, { r with status := some (if intsDiffer env r.sys.hw then -1 else 0) }, ?_, trivial⟩
    rw [Running.step, Running.program, if_neg (by simp [hstatus, hints.quiescent.user]), htodo]
  | ended hsuccess hq => cases hsuccess.status.symm.trans hrun

end Points

section Result

variable {T : Type}

theorem mmap_onRegisters {env : Env T} (henv : env.Sound) {ctx : Context} (hctx : Arguments.Consistent ctx) :
    ∃ m, mmapPciemuBar env ctx = some m ∧ OnRegisters env m ∧ m.vma = env.vma ctx.pciHwBarLen := by
  have hregs : 1 ≤ (ctx.pciHwRegsNb : ℤ) ∧ (ctx.pciHwRegsNb : ℤ) ≤ regbarRegCnt := hctx.regs
  have hbar := hctx.barLen
  have hcnt : regbarRegCnt = 4 := rfl
  have hpage : (env.vma ctx.pciHwBarLen).vmEnd - (env.vma ctx.pciHwBarLen).vmStart = pageSize := by
    rw [henv.vma _ (by omega), pageAlign]
    have hone : (ctx.pciHwBarLen + pageSize - 1) / pageSize = 1 := by
      simp only [pageSize]
      omega
    rw [hone, Nat.mul_one]
  have hfits : ¬(env.vma ctx.pciHwBarLen).vmEnd - (env.vma ctx.pciHwBarLen).vmStart > env.dev.regbar.len := by
    rw [hpage, henv.assigned.len, henv.assigned.size]
    decide
  refine ⟨⟨env.vma ctx.pciHwBarLen, env.dev.regbar.start >>> pageShift⟩, ?_, ⟨henv.assigned.frame, ?_,
    henv.assigned.size⟩, rfl⟩
  · rw [mmapPciemuBar, pciemuMmap, if_neg hfits, if_pos henv.remap]
  · exact hpage.ge

theorem openPciemuDev_eq {env : Env T} (henv : env.Sound) (ctx : Context) :
    openPciemuDev env ctx = decide (filename ctx = some env.node) := by
  have hopen : pciemuOpen env.dev = 0 := by
    rw [pciemuOpen, henv.assigned.len, henv.assigned.size]
    decide
  simp only [openPciemuDev, hopen, and_true]

theorem start_eq {env : Env T} (henv : env.Sound) {argv : List (List UInt8)} {ctx : Context}
    (hparse : parseArgs argv = .ok ctx) (s : System T) :
    ∃ m, OnRegisters env m ∧ start env argv s = if filename ctx = some env.node then
      ⟨[m], opening env ctx ++ calls env, [], none, s⟩ else ⟨[], [], [], some (-1), s⟩ := by
  obtain ⟨m, hm, hreg, -⟩ := mmap_onRegisters henv (Arguments.parseArgs_location hparse).1
  refine ⟨m, hreg, ?_⟩
  rw [start, hparse]
  dsimp only
  rw [openPciemuDev_eq henv, hm]
  split_ifs <;> simp_all

theorem cost_opening (env : Env T) (ctx : Context) :
    1 + cost (opening env ctx ++ calls env) = 3 * ctx.pciHwRegsNb + 42 := by
  have hloads (n : ℕ) : cost ((List.range n).map Command.load) = n := by
    simp [cost, Command.cost, Function.comp_def]
  have hstores (n : ℕ) : cost ((List.range n).map fun i => Command.store i (written env i)) = n := by
    simp [cost, Command.cost, Function.comp_def]
  simp only [cost, List.map_append, List.sum_append] at hloads hstores ⊢
  simp only [opening, printRegisters, writeRegistersSequential, List.map_append, List.sum_append, hloads, hstores]
  simp [calls, Command.cost]
  omega

variable [DecidableEq T]

theorem main_outcome (bus : Bus) (hb : bus.CopiesExactly) (env : Env T) (henv : env.Sound)
    (argv : List (List UInt8)) (ctx : Context) (hparse : parseArgs argv = .ok ctx) (s : System T) (hs : Quiescent s)
    (ts : List (Tick T)) (r : Running T)
    (ha : Along (Running.step env bus) (fun r t _ => r.Alone env t) (start env argv s) ts)
    (hr : Runs.run (Running.step env bus) (start env argv s) ts = some r) :
    ts.length ≤ 3 * ctx.pciHwRegsNb + 42 ∧
      (r.status = none → ∃ t r', r.step env bus t = some r' ∧ r.Alone env t) ∧
      ∀ code, r.status = some code →
        if filename ctx = some env.node then Success env ctx s r else code = -1 ∧ r.loaded = [] ∧ r.sys = s := by
  have hctx := (Arguments.parseArgs_location hparse).1
  obtain ⟨m, hreg, hstart⟩ := start_eq henv hparse s
  rw [hstart] at ha hr
  by_cases hnode : filename ctx = some env.node
  · simp only [if_pos hnode] at ha hr ⊢
    have hat : At env ctx s m ⟨[m], opening env ctx ++ calls env, [], none, s⟩ :=
      .opening [] _ rfl rfl rfl rfl hs rfl
    obtain ⟨h, hlen⟩ := run_length (Running.left env) (fun _ => 0)
      (fun u t v hu hv hsolo => hu.tick hreg hctx henv hb hv hsolo) ts hat ha hr
    have hleft : Running.left env ⟨[m], opening env ctx ++ calls env, [], none, s⟩ = 3 * ctx.pciHwRegsNb + 42 :=
      (left_user rfl (hs.user env.caller)).trans (cost_opening env ctx)
    rw [hleft] at hlen
    simp only [List.map_const', List.sum_replicate, smul_zero, Nat.add_zero] at hlen
    refine ⟨by omega, h.enabled hreg hctx henv hb, fun code hcode => h.success ?_⟩
    rw [hcode]
    exact Option.isSome_some
  · simp only [if_neg hnode] at ha hr ⊢
    cases ts with
    | nil =>
      obtain rfl := Option.some.inj hr
      exact ⟨Nat.zero_le _, nofun, fun code hcode => ⟨(Option.some.inj hcode).symm, rfl, rfl⟩⟩
    | cons t ts =>
      obtain ⟨u, hu, -⟩ := Option.bind_eq_some_iff.mp hr
      cases program_only (r := ⟨[], [], [], some (-1), s⟩) hs hu (ha u hu).1

end Result

theorem pageAlign_pos {len : ℕ} (h : 0 < len) : 0 < pageAlign len := by
  simp only [pageAlign, pageSize]
  omega

def mmapAt (page len : ℕ) : Vma where
  vmStart := pageSize * page
  vmEnd := pageSize * page + pageAlign (max 1 len)
  vmPgoff := 0
  start_lt := Nat.lt_add_of_pos_right (pageAlign_pos (Nat.le_max_left 1 len))
  start_aligned := Nat.mul_mod_right _ _
  end_aligned := by rw [pageAlign, ← Nat.mul_add, Nat.mul_mod_right]

theorem mmapAt_len (page : ℕ) {len : ℕ} (h : 0 < len) :
    (mmapAt page len).vmEnd - (mmapAt page len).vmStart = pageAlign len := by
  rw [mmapAt, Nat.add_sub_cancel_left, Nat.max_eq_right h]

def firstSlot : Env Unit where
  caller := ()
  node := "/dev/pciemu/d0b1d3f0_bar0".toList
  resource := ⟨0xf8000000, regBarSize.toNat⟩
  dev := (CharDevice.pciemuDevInit freshDev (fun _ => ⟨0xf8000000, regBarSize.toNat⟩) fun bar => bar + 1).2
  vma := mmapAt 7
  remap := 0
  rand k i := (7919 * k + 5 * i + 1030) % 2 ^ 31
  a := 0x1004
  b := 0x2008
  page vaddr := vaddr.toNat / pageSize
  busAddr page ofs := UInt64.ofNat (pageSize * page + ofs)

theorem firstSlot_sound : firstSlot.Sound where
  assigned := ⟨by decide, rfl, rfl, rfl⟩
  vma := fun _ hlen => mmapAt_len 7 hlen
  remap := rfl
  a := ⟨by decide, by decide⟩
  b := ⟨by decide, by decide⟩
  apart := by decide
  rand := fun k i => Nat.mod_lt _ (by decide)

theorem main_outcome_firstSlot :
    let argv := [Numerals.ascii "pciemu", Numerals.ascii "-s", Numerals.ascii "3", Numerals.ascii "-b1",
      Numerals.ascii "-r2"]
    ∃ ts r, Runs.run (Running.step firstSlot copyBus) (start firstSlot argv (justProbed Unit)) ts = some r ∧
      r.status = some 0 ∧ r.loaded.reverse = [0, 0, 6, 11] ∧ natAt r.sys.hw.host 0x2008 4 = 8949 := by
  intro argv
  have hparse : parseArgs argv = .ok ⟨0, 1, 16, 2, 3, 0, 0⟩ := by decide
  have hs := (justProbed_probed Unit).toQuiescent
  obtain ⟨m, hreg, hstart⟩ := start_eq firstSlot_sound hparse (justProbed Unit)
  rw [if_pos (by decide)] at hstart
  have hat : At firstSlot ⟨0, 1, 16, 2, 3, 0, 0⟩ (justProbed Unit) m (start firstSlot argv (justProbed Unit)) :=
    hstart ▸ .opening [] _ rfl rfl rfl rfl hs rfl
  have hctx := (Arguments.parseArgs_location hparse).1
  have hb := Bus.AgreesWith.refl copyBus
  obtain ⟨ts, r, ha, hr, hended⟩ := exists_run (F := fun r : Running Unit => r.status ≠ none)
    (P := fun r t _ => r.Alone firstSlot t) (Running.left firstSlot)
    (fun u hu hrun => by
      obtain ⟨t, v, hv, hsolo⟩ := hu.enabled hreg hctx firstSlot_sound hb (not_not.mp hrun)
      obtain ⟨hat, hlt⟩ := hu.tick hreg hctx firstSlot_sound hb hv hsolo
      exact ⟨t, v, hv, hsolo, hat, hlt⟩) hat
  obtain ⟨code, hcode⟩ := Option.ne_none_iff_exists'.mp hended
  have hout := (main_outcome copyBus hb firstSlot firstSlot_sound argv _ hparse _ hs ts r ha hr).2.2 code hcode
  rw [if_pos (by decide)] at hout
  have hprinted : shown firstSlot ⟨0, 1, 16, 2, 3, 0, 0⟩ (justProbed Unit) = [0, 0, 6, 11] := by decide
  have haddr : firstSlot.addrB = 0x2008 := by decide
  have hrand : firstSlot.rand 1 0 = 8949 := by decide
  have hmoved := hout.ints.b
  rw [haddr, hrand] at hmoved
  exact ⟨ts, r, hr, hout.status, hout.printed.trans hprinted, hmoved⟩

end Pciemu.Userspace
