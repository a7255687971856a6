import Pciemu.Accounting

namespace Pciemu.Device

open AuroraHw

/-- The flags of the union: that of the pin, and those of the vectors, which the MSI and the MSI-X
array have in the same places. -/
inductive Line
  | pin
  | vector (v : ℕ)
  deriving DecidableEq

def Line.ofs : Line → ℕ
  | .pin => pinRaisedOfs
  | .vector v => vectorRaisedOfs v

def Machine.lineRaised (m : Machine) : Line → Bool
  | .pin => m.pinRaised
  | .vector v => m.vectorRaised v

inductive IrqOp
  | raise (vector : ℕ)
  | lower (vector : ℕ)
  | reset
  | setMode (msix msi : Bool)

def irqApply (m : Machine) : IrqOp → Machine
  | .raise vector => pciemuIrqRaise m vector
  | .lower vector => pciemuIrqLower m vector
  | .reset => pciemuIrqReset m
  | .setMode msix msi => { m with msixEnabled := msix, msiEnabled := msi }

def irqRun (m : Machine) (ops : List IrqOp) : Machine := ops.foldl irqApply m

structure Mode where
  msix : Bool
  msi : Bool

def Mode.next (mode : Mode) : IrqOp → Mode
  | .setMode msix msi => ⟨msix, msi⟩
  | _ => mode

def Mode.line (mode : Mode) (vector : ℕ) : Option Line :=
  if mode.msix then if vector < irqMaxVectorsMsix then some (.vector vector) else none
  else if mode.msi then if vector < irqMaxVectorsMsi then some (.vector vector) else none
  else some .pin

def Line.upTo (stop : ℕ) : Line → Bool
  | .pin => false
  | .vector v => v ≤ stop

def Mode.covers (mode : Mode) (l : Line) : Bool :=
  if mode.msix then l.upTo irqMsixVectorEnd
  else if mode.msi then l.upTo irqVectorEnd
  else l = .pin

def pendingAfter (mode : Mode) (pending : List Line) : IrqOp → List Line
  | .raise vector => (mode.line vector).toList ++ pending
  | .lower vector => pending.filter fun l => mode.line vector ≠ some l
  | .reset => pending.filter fun l => !mode.covers l
  | .setMode _ _ => pending

/-- The lines raised in a history and not lowered since, by a call or by a reset that covers them,
and the mode at its end. -/
def irqHistory (mode : Mode) (pending : List Line) : List IrqOp → Mode × List Line
  | [] => (mode, pending)
  | op :: ops => irqHistory (mode.next op) (pendingAfter mode pending op) ops

def AllLowered (m : Machine) : Prop :=
  m.pinRaised = false ∧ (∀ v < irqMaxVectorsMsi, m.vectorRaised v = false) ∧
    ∀ v < irqMaxVectorsMsix, m.vectorRaised v = false

def Machine.mode (m : Machine) : Mode := ⟨m.msixEnabled, m.msiEnabled⟩

theorem ofs_injective : Function.Injective Line.ofs := by
  intro l l' h
  cases l with
  | pin =>
    cases l' with
    | pin => rfl
    | vector v => exact absurd h.symm (vectorRaisedOfs_ne_pin v)
  | vector v =>
    cases l' with
    | pin => exact absurd h (vectorRaisedOfs_ne_pin v)
    | vector w =>
      by_contra hne
      exact vectorRaisedOfs_ne (fun hvw => hne (congrArg Line.vector hvw)) h

theorem lineRaised_eq (m : Machine) (l : Line) : m.lineRaised l = decide (m.irq l.ofs ≠ 0) := by
  cases l <;> rfl

theorem setIrqByte_lineRaised (m : Machine) (l l' : Line) (b : UInt8) :
    (m.setIrqByte l.ofs b).lineRaised l' = if l' = l then decide (b ≠ 0) else m.lineRaised l' := by
  rw [lineRaised_eq, lineRaised_eq, Machine.setIrqByte_irq]
  by_cases h : l' = l
  · rw [h, Function.update_self, if_pos rfl]
  · rw [Function.update_of_ne (fun he => h (ofs_injective he)), if_neg h]

theorem raise_eq (m : Machine) (vector : ℕ) : pciemuIrqRaise m vector =
    match m.mode.line vector with
    | none => m
    | some l => (m.setIrqByte l.ofs 1).emit (if m.msixEnabled then .msixNotify vector
        else if m.msiEnabled then .msiNotify vector else .pciSetIrq 1) := by
  unfold pciemuIrqRaise Mode.line Machine.mode
  dsimp only
  split_ifs with hx hv hm hv
  · exact if_neg (by omega)
  · exact if_pos (by omega)
  · exact if_neg (by omega)
  · exact if_pos (by omega)
  · rfl

theorem lowerVector_lineRaised (n : ℕ) (m : Machine) (w : ℕ) (hw : w < n) (l : Line) :
    (lowerVector n m w).lineRaised l = (m.lineRaised l && decide (l ≠ .vector w)) := by
  unfold lowerVector
  rw [if_neg (by omega)]
  split_ifs with hr
  · by_cases h : l = .vector w
    · subst h
      simpa [Machine.lineRaised] using hr
    · simp [h]
  · rw [show vectorRaisedOfs w = (Line.vector w).ofs from rfl, setIrqByte_lineRaised]
    by_cases h : l = .vector w <;> simp [h]

theorem lowerIntx_lineRaised (m : Machine) (l : Line) :
    (pciemuIrqLowerIntx m).lineRaised l = (m.lineRaised l && decide (l ≠ .pin)) := by
  have h : (pciemuIrqLowerIntx m).lineRaised l = (m.setIrqByte Line.pin.ofs 0).lineRaised l := by
    cases l <;> rfl
  rw [h, setIrqByte_lineRaised]
  by_cases hl : l = .pin <;> simp [hl]

theorem lower_lineRaised (m : Machine) (vector : ℕ) (l : Line) :
    (pciemuIrqLower m vector).lineRaised l = (m.lineRaised l && decide (m.mode.line vector ≠ some l)) := by
  have hkeep (n : ℕ) (h : ¬vector < n) : lowerVector n m vector = m := if_pos (by omega)
  unfold pciemuIrqLower Mode.line Machine.mode
  dsimp only
  split_ifs with hx hv hm hv
  · rw [pciemuIrqLowerMsix, lowerVector_lineRaised _ _ _ hv]
    simp [eq_comm]
  · rw [pciemuIrqLowerMsix, hkeep _ hv]
    simp
  · rw [pciemuIrqLowerMsi, lowerVector_lineRaised _ _ _ hv]
    simp [eq_comm]
  · rw [pciemuIrqLowerMsi, hkeep _ hv]
    simp
  · rw [lowerIntx_lineRaised]
    simp [eq_comm]

theorem foldl_lowerVector_lineRaised (n : ℕ) (vs : List ℕ) (hvs : ∀ v ∈ vs, v < n) (m : Machine) (l : Line) :
    (vs.foldl (lowerVector n) m).lineRaised l = (m.lineRaised l && decide (∀ v ∈ vs, l ≠ .vector v)) := by
  induction vs generalizing m with
  | nil => simp
  | cons w vs ih =>
    rw [List.foldl_cons, ih (fun v hv => hvs v (List.mem_cons_of_mem w hv)),
      lowerVector_lineRaised n m w (hvs w List.mem_cons_self)]
    simp [Bool.and_assoc]

theorem mem_vectorRange (v stop : ℕ) : v ∈ vectorRange 0 stop ↔ v ≤ stop := by
  rw [vectorRange, List.mem_range'_1]
  omega

theorem resetLoop_lineRaised (n stop : ℕ) (h : stop < n) (m : Machine) (l : Line) :
    ((vectorRange 0 stop).foldl (lowerVector n) m).lineRaised l = (m.lineRaised l && !l.upTo stop) := by
  have hin : ∀ v ∈ vectorRange 0 stop, v < n := by
    intro v hv
    rw [mem_vectorRange] at hv
    omega
  rw [foldl_lowerVector_lineRaised n _ hin]
  congr 1
  cases l with
  | pin => simp [Line.upTo]
  | vector v =>
    rw [Line.upTo, ← decide_not, decide_eq_decide]
    simp only [mem_vectorRange, ne_eq, Line.vector.injEq]
    constructor
    · intro hne hle
      exact hne v hle rfl
    · rintro hgt w hw rfl
      exact hgt hw

theorem irqReset_lineRaised (m : Machine) (l : Line) :
    (pciemuIrqReset m).lineRaised l = (m.lineRaised l && !m.mode.covers l) := by
  unfold pciemuIrqReset Mode.covers Machine.mode
  split_ifs with hx hm
  · exact resetLoop_lineRaised irqMaxVectorsMsix irqMsixVectorEnd (by decide) m l
  · exact resetLoop_lineRaised irqMaxVectorsMsi irqVectorEnd (by decide) m l
  · rw [lowerIntx_lineRaised, decide_not]

def Lists (m : Machine) (pending : List Line) : Prop := ∀ l, m.lineRaised l = true ↔ l ∈ pending

theorem irqApply_mode (m : Machine) (op : IrqOp) : (irqApply m op).mode = m.mode.next op := by
  cases op with
  | raise vector =>
    rw [irqApply, raise_eq]
    cases m.mode.line vector <;> rfl
  | lower vector =>
    obtain ⟨es, h, -⟩ := lower_step m vector
    rw [irqApply, Machine.mode, h.msix, h.msi]
    rfl
  | reset =>
    obtain ⟨es, h, -⟩ := irqReset_step m
    rw [irqApply, Machine.mode, h.msix, h.msi]
    rfl
  | setMode msix msi => rfl

theorem lists_step {m : Machine} {pending : List Line} (h : Lists m pending) (op : IrqOp) :
    Lists (irqApply m op) (pendingAfter m.mode pending op) := by
  intro l
  cases op with
  | raise vector =>
    rw [irqApply, raise_eq, pendingAfter]
    cases m.mode.line vector with
    | none => exact h l
    | some l' =>
      have hset := setIrqByte_lineRaised m l' l 1
      rw [lineRaised_eq] at hset ⊢
      rw [Machine.emit_irq, hset]
      by_cases hl : l = l'
      · simp [hl]
      · simp [hl, h l]
  | lower vector => rw [irqApply, lower_lineRaised, pendingAfter, List.mem_filter, Bool.and_eq_true, h l]
  | reset => rw [irqApply, irqReset_lineRaised, pendingAfter, List.mem_filter, Bool.and_eq_true, h l]
  | setMode msix msi => exact h l

theorem lists_run (ops : List IrqOp) {m : Machine} {pending : List Line} (h : Lists m pending) :
    (irqRun m ops).mode = (irqHistory m.mode pending ops).1 ∧
      Lists (irqRun m ops) (irqHistory m.mode pending ops).2 := by
  induction ops generalizing m pending with
  | nil => exact ⟨rfl, h⟩
  | cons op ops ih =>
    have hstep := ih (lists_step h op)
    rw [irqApply_mode] at hstep
    exact hstep

theorem pending_bounded (ops : List IrqOp) (mode : Mode) (pending : List Line)
    (h : ∀ v, .vector v ∈ pending → v < irqMaxVectorsMsix) (v : ℕ) :
    .vector v ∈ (irqHistory mode pending ops).2 → v < irqMaxVectorsMsix := by
  induction ops generalizing mode pending with
  | nil => exact h v
  | cons op ops ih =>
    apply ih
    intro w hw
    cases op with
    | raise vector =>
      rcases List.mem_append.mp hw with hnew | hold
      · have hle : irqMaxVectorsMsi ≤ irqMaxVectorsMsix := by decide
        rw [Option.mem_toList, Mode.line] at hnew
        split_ifs at hnew with hx hv hm hv
        · cases hnew
          exact hv
        · cases hnew
          exact hv.trans_le hle
        · cases hnew
      · exact h w hold
    | lower vector => exact h w (List.mem_of_mem_filter hw)
    | reset => exact h w (List.mem_of_mem_filter hw)
    | setMode msix msi => exact h w hw

theorem irq_reset_complete_iff (m : Machine) (hz : ∀ i, m.irq i = 0) (ops : List IrqOp) :
    AllLowered (pciemuIrqReset (irqRun m ops)) ↔
      ∀ l ∈ (irqHistory m.mode [] ops).2, (irqHistory m.mode [] ops).1.covers l := by
  have hlists : Lists m [] := by
    intro l
    simp [lineRaised_eq, hz]
  obtain ⟨hmode, hl⟩ := lists_run ops hlists
  have hbound := pending_bounded ops m.mode [] (fun v hv => absurd hv List.not_mem_nil)
  rw [← hmode]
  have hreset (l : Line) : (pciemuIrqReset (irqRun m ops)).lineRaised l = false ↔
      (l ∈ (irqHistory m.mode [] ops).2 → (irqRun m ops).mode.covers l) := by
    rw [irqReset_lineRaised, ← hl l]
    cases (irqRun m ops).lineRaised l <;> simp
  constructor
  · rintro ⟨hpin, -, hvec⟩ l hmem
    apply (hreset l).mp _ hmem
    cases l with
    | pin => exact hpin
    | vector v => exact hvec v (hbound v hmem)
  · intro h
    have hvec (v : ℕ) := (hreset (.vector v)).mpr (h (.vector v))
    exact ⟨(hreset .pin).mpr (h .pin), fun v _ => hvec v, fun v _ => hvec v⟩

def quietMachine : Machine := ⟨false, false, fun _ => 0, zeroEngine, fun _ => 0, []⟩

theorem irq_reset_complete_switched :
    AllLowered (pciemuIrqReset (irqRun quietMachine
      [.raise 0, .lower 0, .setMode false true, .raise 5, .raise 0, .setMode true false, .raise 127, .raise 4000])) :=
  (irq_reset_complete_iff quietMachine (fun _ => rfl) _).mpr (by decide)

theorem irq_reset_incomplete :
    let m := pciemuIrqReset (irqRun quietMachine [.setMode true false, .raise 128])
    let m' := pciemuIrqReset (irqRun quietMachine [.setMode false true, .raise 1])
    let m'' := pciemuIrqReset (irqRun quietMachine [.raise 0, .setMode true false])
    (∀ i, quietMachine.irq i = 0) ∧ ¬AllLowered m ∧ m.vectorRaised 128 = true ∧
      ¬AllLowered m' ∧ m'.vectorRaised 1 = true ∧ ¬AllLowered m'' ∧ m''.pinRaised = true := by
  intro m m' m''
  have h : m.lineRaised (.vector 128) = true := (irqReset_lineRaised _ (.vector 128)).trans (by decide)
  have h' : m'.lineRaised (.vector 1) = true := (irqReset_lineRaised _ (.vector 1)).trans (by decide)
  have h'' : m''.lineRaised .pin = true := (irqReset_lineRaised _ .pin).trans (by decide)
  refine ⟨fun _ => rfl, ?_, h, ?_, h', ?_, h''⟩
  · rintro ⟨-, -, hall⟩
    exact absurd (h.symm.trans (hall 128 (by decide))) (by decide)
  · rintro ⟨-, hall, -⟩
    exact absurd (h'.symm.trans (hall 1 (by decide))) (by decide)
  · rintro ⟨hpin, -⟩
    exact absurd (h''.symm.trans hpin) (by decide)

end Pciemu.Device
