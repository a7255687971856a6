import Pciemu.Aurora

namespace Pciemu.Device

open Bytes AuroraHw

inductive Reg
  | scratch (i : ℕ)
  | irqRaise
  | irqLower
  | src
  | dst
  | len
  | cmd
  | doorbell
  | hole
  deriving DecidableEq

def Reg.addr : Reg → UInt64
  | .scratch i => UInt64.ofNat (8 * i)
  | .irqRaise => regIrq0Raise
  | .irqLower => regIrq0Lower
  | .src => regDmaCfgTxdescSrc
  | .dst => regDmaCfgTxdescDst
  | .len => regDmaCfgTxdescLen
  | .cmd => regDmaCfgCmd
  | .doorbell => regDmaDoorbellRing
  | .hole => regbarEnd

def registers : List Reg :=
  [.scratch 0, .scratch 1, .scratch 2, .scratch 3, .irqRaise, .irqLower, .src, .dst, .len, .cmd, .doorbell]

def decode (addr : UInt64) : Reg := (registers.find? fun r => addr = r.addr).getD .hole

theorem decode_of_ne (addr : UInt64) (h : ∀ r ∈ registers, addr ≠ r.addr) : decode addr = .hole := by
  have hn : registers.find? (fun r => addr = r.addr) = none := by
    rw [List.find?_eq_none]
    intro r hr
    simpa using h r hr
  rw [decode, hn, Option.getD_none]

theorem decode_addr (r : Reg) (h : r ∈ registers) : decode r.addr = r := by
  revert r
  decide

theorem decode_eq (addr : UInt64) (r : Reg) (hr : r ∈ registers) :
    decode addr = r ↔ addr = r.addr := by
  constructor
  · intro h
    by_cases hx : ∃ q ∈ registers, addr = q.addr
    · obtain ⟨q, hq, rfl⟩ := hx
      rw [decode_addr q hq] at h
      rw [h]
    · have hh := decode_of_ne addr (fun q hq he => hx ⟨q, hq, he⟩)
      rw [← h, hh] at hr
      exact absurd hr (by decide)
  · rintro rfl
    exact decode_addr r hr

def writeReg (bus : Bus) (m : Machine) (value : UInt64) : Reg → Machine
  | .scratch i => m.setReg i value
  | .irqRaise => pciemuIrqRaise m irqDmaEndedVector
  | .irqLower => pciemuIrqLower m irqDmaEndedVector
  | .src => auroraDmaConfigTxdescSrc m value
  | .dst => auroraDmaConfigTxdescDst m value
  | .len => auroraDmaConfigTxdescLen m value
  | .cmd => auroraDmaConfigCmd m value
  | .doorbell => auroraDmaDoorbellRing bus m
  | .hole => m

theorem write_eq_writeReg (bus : Bus) (m : Machine) (addr value : UInt64) :
    (auroraWriteRegByAddr bus m addr value).1 = writeReg bus m value (decode addr) := by
  by_cases hx : ∃ r ∈ registers, addr = r.addr
  · obtain ⟨r, hr, rfl⟩ := hx
    rw [decode_addr r hr]
    revert r
    simp only [registers, List.forall_mem_cons]
    exact ⟨rfl, rfl, rfl, rfl, rfl, rfl, rfl, rfl, rfl, rfl, rfl, fun _ h => absurd h List.not_mem_nil⟩
  · have hne : ∀ r ∈ registers, addr ≠ r.addr := fun r hr he => hx ⟨r, hr, he⟩
    rw [decode_of_ne addr hne]
    have h0 : addr ≠ reg0 := hne (.scratch 0) (by decide)
    have h1 : addr ≠ reg1 := hne (.scratch 1) (by decide)
    have h2 : addr ≠ reg2 := hne (.scratch 2) (by decide)
    have h3 : addr ≠ reg3 := hne (.scratch 3) (by decide)
    have h4 : addr ≠ regIrq0Raise := hne .irqRaise (by decide)
    have h5 : addr ≠ regIrq0Lower := hne .irqLower (by decide)
    have h6 : addr ≠ regDmaCfgTxdescSrc := hne .src (by decide)
    have h7 : addr ≠ regDmaCfgTxdescDst := hne .dst (by decide)
    have h8 : addr ≠ regDmaCfgTxdescLen := hne .len (by decide)
    have h9 : addr ≠ regDmaCfgCmd := hne .cmd (by decide)
    have h10 : addr ≠ regDmaDoorbellRing := hne .doorbell (by decide)
    simp only [auroraWriteRegByAddr, auroraDmaRegWrite, h0, h1, h2, h3, h4, h5, h6, h7, h8,
      h9, h10, if_false, writeReg]
    split_ifs <;> rfl

theorem barWrite_eq (bus : Bus) (m : Machine) (bar : Bar) (addr val : UInt64) (size : ℕ) :
    barWrite bus m bar addr val size = writeReg bus m val (decode addr) := by
  cases bar <;> exact write_eq_writeReg bus m addr val

theorem regbarWrite_eq (bus : Bus) (m : Machine) (addr val : UInt64) (size : ℕ) :
    pciemuRegbarWrite bus m addr val size = writeReg bus m val (decode addr) :=
  write_eq_writeReg bus m addr val

def readReg (m : Machine) (addr : UInt64) : Reg → UInt64
  | .scratch i => m.reg i
  | _ => if auroraRegbarValidAccess addr then ~~~0 else 0xdeadbeef

theorem read_eq_readReg (m : Machine) (addr : UInt64) :
    (auroraReadRegByAddr m addr (~~~0)).2 = readReg m addr (decode addr) := by
  by_cases hx : ∃ r ∈ registers, addr = r.addr
  · obtain ⟨r, hr, rfl⟩ := hx
    rw [decode_addr r hr]
    revert r
    simp only [registers, List.forall_mem_cons]
    exact ⟨rfl, rfl, rfl, rfl, rfl, rfl, rfl, rfl, rfl, rfl, rfl, fun _ h => absurd h List.not_mem_nil⟩
  · have hne : ∀ r ∈ registers, addr ≠ r.addr := fun r hr he => hx ⟨r, hr, he⟩
    have h0 : addr ≠ reg0 := hne (.scratch 0) (by decide)
    have h1 : addr ≠ reg1 := hne (.scratch 1) (by decide)
    have h2 : addr ≠ reg2 := hne (.scratch 2) (by decide)
    have h3 : addr ≠ reg3 := hne (.scratch 3) (by decide)
    rw [decode_of_ne addr hne]
    simp only [auroraReadRegByAddr, h0, h1, h2, h3, if_false, readReg]
    cases auroraRegbarValidAccess addr <;> rfl

theorem barRead_eq (m : Machine) (bar : Bar) (addr : UInt64) (size : ℕ) :
    barRead m bar addr size = readReg m addr (decode addr) := by
  cases bar <;> exact read_eq_readReg m addr

def transferCall (c : DmaConfig) : Option Event :=
  if c.cmd = dmaDirectionToDevice then
    if auroraDmaInsideDeviceBoundaries c.txdesc.dst then
      some (.pciDmaRead (c.txdesc.src &&& c.mask) (c.txdesc.dst - dmaAreaStart) c.txdesc.len)
    else none
  else if c.cmd = dmaDirectionFromDevice then
    if auroraDmaInsideDeviceBoundaries c.txdesc.src then
      some (.pciDmaWrite (c.txdesc.dst &&& c.mask) (c.txdesc.src - dmaAreaStart) c.txdesc.len)
    else none
  else none

def busAccess (bus : Bus) (m : Machine) : Event → Machine × ℕ
  | .pciDmaRead addr ofs len => bus.pciDmaRead m addr ofs len
  | .pciDmaWrite addr ofs len => bus.pciDmaWrite m addr ofs len
  | _ => (m, 0)

@[simps]
def Machine.emits (m : Machine) (es : List Event) : Machine := { m with log := m.log ++ es }

def Silent (es : List Event) : Prop := dmaCalls es = [] ∧ raises es = 0 ∧ notified es = 0

theorem silent_nil : Silent [] := ⟨rfl, rfl, rfl⟩

theorem silent_guestError (g : GuestError) : Silent [.guestError g] := ⟨rfl, rfl, rfl⟩

def maskReport (c : DmaConfig) (addr : UInt64) : List Event :=
  if addr &&& c.mask ≠ addr then [.guestError (.masked (addr &&& c.mask) addr)] else []

def refusalReport (c : DmaConfig) : List Event :=
  if c.cmd = dmaDirectionToDevice then [.guestError .dstOutOfBounds]
  else if c.cmd = dmaDirectionFromDevice then [.guestError .srcOutOfBounds]
  else []

def entryReport (c : DmaConfig) : List Event :=
  if c.cmd = dmaDirectionToDevice then maskReport c c.txdesc.src else maskReport c c.txdesc.dst

def errorReport (err : ℕ) : Event → List Event
  | .pciDmaRead .. => if err ≠ 0 then [.guestError (.pciDmaRead err)] else []
  | _ => if err ≠ 0 then [.guestError (.pciDmaWrite err)] else []

theorem silent_refusalReport (c : DmaConfig) : Silent (refusalReport c) := by
  unfold refusalReport
  split_ifs <;> first | exact silent_guestError _ | exact silent_nil

theorem silent_entryReport (c : DmaConfig) : Silent (entryReport c) := by
  unfold entryReport maskReport
  split_ifs <;> first | exact silent_guestError _ | exact silent_nil

theorem silent_errorReport (err : ℕ) (call : Event) : Silent (errorReport err call) := by
  unfold errorReport
  split <;> split_ifs <;> first | exact silent_guestError _ | exact silent_nil

theorem emits_nil (m : Machine) : m.emits [] = m := by simp [Machine.emits]

theorem addrMask_eq (m : Machine) (addr : UInt64) : auroraDmaAddrMask m addr =
    (m.emits (maskReport m.dma.config addr), addr &&& m.dma.config.mask) := by
  unfold auroraDmaAddrMask maskReport
  dsimp only
  split_ifs with h
  · rfl
  · rw [emits_nil]

theorem dmaTransfer_eq (bus : Bus) (m : Machine) (addr ofs len : UInt64) :
    dmaTransfer .pciDmaRead bus.pciDmaRead .pciDmaRead m addr ofs len =
        (let r := busAccess bus (m.emit (.pciDmaRead addr ofs len)) (.pciDmaRead addr ofs len)
        r.1.emits (errorReport r.2 (.pciDmaRead addr ofs len))) ∧
      dmaTransfer .pciDmaWrite bus.pciDmaWrite .pciDmaWrite m addr ofs len =
        (let r := busAccess bus (m.emit (.pciDmaWrite addr ofs len)) (.pciDmaWrite addr ofs len)
        r.1.emits (errorReport r.2 (.pciDmaWrite addr ofs len))) := by
  constructor
  all_goals
    unfold dmaTransfer errorReport busAccess
    dsimp only
    split_ifs with h
    · rfl
    · rw [emits_nil]

theorem execute_eq (bus : Bus) (m : Machine) : auroraDmaExecute bus m =
    match transferCall m.dma.config with
    | none => m.emits (refusalReport m.dma.config)
    | some call =>
      let r := busAccess bus ((m.emits (entryReport m.dma.config)).emit call) call
      pciemuIrqRaise (r.1.emits (errorReport r.2 call)) irqDmaEndedVector := by
  unfold auroraDmaExecute transferCall refusalReport entryReport
  dsimp only
  by_cases ht : m.dma.config.cmd = dmaDirectionToDevice
  · rw [if_neg (by simp [ht])]
    simp only [if_pos ht]
    by_cases hd : auroraDmaInsideDeviceBoundaries m.dma.config.txdesc.dst = true
    · rw [if_neg (by simp [hd]), if_pos hd, addrMask_eq, (dmaTransfer_eq _ _ _ _ _).1]
    · rw [if_pos (by simpa using hd), if_neg hd]
      rfl
  · by_cases hf : m.dma.config.cmd = dmaDirectionFromDevice
    · rw [if_neg (by simp [hf])]
      simp only [if_neg ht, if_pos hf]
      by_cases hs : auroraDmaInsideDeviceBoundaries m.dma.config.txdesc.src = true
      · rw [if_neg (by simp [hs]), if_pos hs, addrMask_eq, (dmaTransfer_eq _ _ _ _ _).2]
      · rw [if_pos (by simpa using hs), if_neg hs]
        rfl
    · rw [if_pos ⟨ht, hf⟩]
      simp only [if_neg ht, if_neg hf, emits_nil]

theorem doorbell_idle (bus : Bus) (m : Machine) (h : m.dma.status = .idle) :
    auroraDmaDoorbellRing bus m = (auroraDmaExecute bus (m.setStatus .executing)).setStatus .idle := by
  simp [auroraDmaDoorbellRing, cmpxchgStatus, h]

theorem doorbell_executing (bus : Bus) (m : Machine) (h : m.dma.status = .executing) :
    auroraDmaDoorbellRing bus m = m := by
  simp [auroraDmaDoorbellRing, cmpxchgStatus, h]

end Pciemu.Device
