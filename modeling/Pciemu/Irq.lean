import Pciemu.DeviceState

namespace Pciemu.Device

open Bytes AuroraHw

def irqMaxVectorsMsi : ℕ := 32
def irqMaxVectorsMsix : ℕ := 2048

def pinRaisedOfs : ℕ := 0

/-- `MSIVector` is a pointer followed by the flag, in both arrays of the union. -/
def vectorRaisedOfs (vector : ℕ) : ℕ := 16 * vector + 8

@[simps]
def Machine.setIrqByte (m : Machine) (ofs : ℕ) (b : UInt8) : Machine :=
  { m with irq := Function.update m.irq ofs b }

def Machine.vectorRaised (m : Machine) (vector : ℕ) : Bool := m.irq (vectorRaisedOfs vector) ≠ 0

def pciemuIrqRaiseIntx (m : Machine) : Machine := (m.setIrqByte pinRaisedOfs 1).emit (.pciSetIrq 1)

def raiseVector (maxVectors : ℕ) (notify : ℕ → Event) (m : Machine) (vector : ℕ) : Machine :=
  if vector ≥ maxVectors then m
  else (m.setIrqByte (vectorRaisedOfs vector) 1).emit (notify vector)

def pciemuIrqRaiseMsi : Machine → ℕ → Machine := raiseVector irqMaxVectorsMsi .msiNotify

def pciemuIrqRaiseMsix : Machine → ℕ → Machine := raiseVector irqMaxVectorsMsix .msixNotify

def pciemuIrqLowerIntx (m : Machine) : Machine := (m.setIrqByte pinRaisedOfs 0).emit (.pciSetIrq 0)

def lowerVector (maxVectors : ℕ) (m : Machine) (vector : ℕ) : Machine :=
  if vector ≥ maxVectors then m
  else if !m.vectorRaised vector then m
  else m.setIrqByte (vectorRaisedOfs vector) 0

def pciemuIrqLowerMsi : Machine → ℕ → Machine := lowerVector irqMaxVectorsMsi

def pciemuIrqLowerMsix : Machine → ℕ → Machine := lowerVector irqMaxVectorsMsix

def pciemuIrqRaise (m : Machine) (vector : ℕ) : Machine :=
  if m.msixEnabled then pciemuIrqRaiseMsix m vector
  else if m.msiEnabled then pciemuIrqRaiseMsi m vector
  else pciemuIrqRaiseIntx m

def pciemuIrqLower (m : Machine) (vector : ℕ) : Machine :=
  if m.msixEnabled then pciemuIrqLowerMsix m vector
  else if m.msiEnabled then pciemuIrqLowerMsi m vector
  else pciemuIrqLowerIntx m

def vectorRange (start stop : ℕ) : List ℕ := List.range' start (stop + 1 - start)

def pciemuIrqReset (m : Machine) : Machine :=
  if m.msixEnabled then
    (vectorRange irqMsixVectorStart irqMsixVectorEnd).foldl pciemuIrqLowerMsix m
  else if m.msiEnabled then
    (vectorRange irqVectorStart irqVectorEnd).foldl pciemuIrqLowerMsi m
  else pciemuIrqLowerIntx m

def notified (log : List Event) : ℕ :=
  log.countP fun e => match e with
    | .msixNotify v | .msiNotify v => v = irqDmaEndedVector
    | _ => false

@[simp] theorem notified_append (l l' : List Event) : notified (l ++ l') = notified l + notified l' :=
  List.countP_append

def IrqStep (m : Machine) (es : List Event) (m' : Machine) : Prop :=
  ∃ irq, m' = { m with irq := irq, log := m.log ++ es }

theorem IrqStep.refl (m : Machine) : IrqStep m [] m := ⟨m.irq, by simp⟩

section Frame

variable {m m' : Machine} {es : List Event} (h : IrqStep m es m')

include h

theorem IrqStep.dma : m'.dma = m.dma := by obtain ⟨_, rfl⟩ := h; rfl

theorem IrqStep.host : m'.host = m.host := by obtain ⟨_, rfl⟩ := h; rfl

theorem IrqStep.log : m'.log = m.log ++ es := by obtain ⟨_, rfl⟩ := h; rfl

theorem IrqStep.msix : m'.msixEnabled = m.msixEnabled := by obtain ⟨_, rfl⟩ := h; rfl

theorem IrqStep.msi : m'.msiEnabled = m.msiEnabled := by obtain ⟨_, rfl⟩ := h; rfl

end Frame

theorem raise_step (m : Machine) : ∃ e, IrqStep m [e] (pciemuIrqRaise m irqDmaEndedVector) ∧
    dmaCalls [e] = [] ∧ raises [e] = 1 ∧
    (m.msixEnabled ∨ m.msiEnabled → notified [e] = 1) := by
  unfold pciemuIrqRaise
  split_ifs with hx hm
  · exact ⟨.msixNotify 0, ⟨_, rfl⟩, rfl, rfl, fun _ => rfl⟩
  · exact ⟨.msiNotify 0, ⟨_, rfl⟩, rfl, rfl, fun _ => rfl⟩
  · exact ⟨.pciSetIrq 1, ⟨_, rfl⟩, rfl, rfl, fun h => by simp_all⟩

theorem lowerVector_step (maxVectors : ℕ) (m : Machine) (vector : ℕ) :
    IrqStep m [] (lowerVector maxVectors m vector) := by
  unfold lowerVector
  split_ifs
  · exact .refl m
  · exact .refl m
  · exact ⟨_, by rw [List.append_nil]; rfl⟩

theorem lowerVector_raised (maxVectors : ℕ) (m : Machine) (vector : ℕ) (h : vector < maxVectors) :
    (lowerVector maxVectors m vector).vectorRaised vector = false := by
  unfold lowerVector
  rw [if_neg (by omega)]
  cases hr : m.vectorRaised vector with
  | false => simpa using hr
  | true => simp [Machine.vectorRaised]

theorem lowerIntx_step (m : Machine) : IrqStep m [.pciSetIrq 0] (pciemuIrqLowerIntx m) := ⟨_, rfl⟩

theorem foldl_lowerVector_step (maxVectors : ℕ) (vs : List ℕ) (m : Machine) :
    IrqStep m [] (vs.foldl (lowerVector maxVectors) m) := by
  induction vs generalizing m with
  | nil => exact .refl m
  | cons v vs ih =>
    obtain ⟨irq, h⟩ := lowerVector_step maxVectors m v
    obtain ⟨irq', h'⟩ := ih (lowerVector maxVectors m v)
    exact ⟨irq', by rw [List.foldl_cons, h', h]; simp⟩

theorem lower_step (m : Machine) (vector : ℕ) : ∃ es, IrqStep m es (pciemuIrqLower m vector) ∧
    dmaCalls es = [] ∧ raises es = 0 ∧ notified es = 0 := by
  unfold pciemuIrqLower
  split_ifs
  · exact ⟨[], lowerVector_step _ _ _, rfl, rfl, rfl⟩
  · exact ⟨[], lowerVector_step _ _ _, rfl, rfl, rfl⟩
  · exact ⟨_, lowerIntx_step m, rfl, rfl, rfl⟩

theorem irqReset_step (m : Machine) : ∃ es, IrqStep m es (pciemuIrqReset m) ∧
    dmaCalls es = [] ∧ raises es = 0 ∧ notified es = 0 := by
  unfold pciemuIrqReset
  split_ifs
  · exact ⟨[], foldl_lowerVector_step _ _ _, rfl, rfl, rfl⟩
  · exact ⟨[], foldl_lowerVector_step _ _ _, rfl, rfl, rfl⟩
  · exact ⟨_, lowerIntx_step m, rfl, rfl, rfl⟩

end Pciemu.Device
