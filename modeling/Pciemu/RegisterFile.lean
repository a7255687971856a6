import Pciemu.Isolated

namespace Pciemu.Device

open Bytes AuroraHw Runs

/-- The MSI-X table has 16 bytes for each vector, the pending bits come in words of eight bytes. -/
def msixCovers (addr : UInt64) : Prop :=
  msixTableOffset.toNat ≤ addr.toNat ∧ addr.toNat < msixTableOffset.toNat + 16 * irqMsixCnt ∨
    msixPbaOffset.toNat ≤ addr.toNat ∧ addr.toNat < msixPbaOffset.toNat + 8 * ((irqMsixCnt + 63) / 64)

instance (addr : UInt64) : Decidable (msixCovers addr) := inferInstanceAs (Decidable (_ ∨ _))

def Bar.serves : Bar → UInt64 → Prop
  | .reg, addr => addr < regBarSize
  | .internal, addr => addr < intBarSize ∧ ¬msixCovers addr

def Op.served : Op → Prop
  | .read bar addr _ | .write bar addr _ _ => bar.serves addr
  | _ => True

instance (bar : Bar) (addr : UInt64) : Decidable (bar.serves addr) := by
  cases bar
  · exact inferInstanceAs (Decidable (addr < regBarSize))
  · exact inferInstanceAs (Decidable (_ ∧ _))

instance (op : Op) : Decidable op.served :=
  match op with
  | .read bar addr _ | .write bar addr _ _ => inferInstanceAs (Decidable (bar.serves addr))
  | .reset | .setMode _ _ | .hostStore _ => isTrue trivial

def scratchAddr (i : ℕ) : UInt64 := UInt64.ofNat (8 * i)

def storedBy (i : ℕ) (v : Option UInt64) : Op → Option UInt64
  | .write _ addr val _ => if addr = scratchAddr i then some val else v
  | .reset => none
  | _ => v

def lastStored (i : ℕ) (ops : List Op) : Option UInt64 := ops.foldl (storedBy i) none

def ReadLaw (ops : List Op) (m : Machine) (bar : Bar) (addr : UInt64) (size : ℕ) : Prop :=
  (∀ i < regbarRegCnt, addr = scratchAddr i → ∀ v, lastStored i ops = some v → barRead m bar addr size = v) ∧
    ((∀ i < regbarRegCnt, addr ≠ scratchAddr i) → barRead m bar addr size = ~~~0)

def OnlyReg (i : ℕ) (m m' : Machine) : Prop :=
  m' = m.setBuff m'.dma.buff ∧
    ∀ k, k < regsOfs + 8 * i ∨ regsOfs + 8 * i + 8 ≤ k → m'.dma.buff k = m.dma.buff k

structure WriteLaw (m : Machine) (addr val : UInt64) (m' : Machine) : Prop where
  scratch : ∀ i < regbarRegCnt, addr = scratchAddr i → m'.reg i = val ∧ OnlyReg i m m'
  src : addr = regDmaCfgTxdescSrc →
    m' = m.setConfig { m.dma.config with txdesc := { m.dma.config.txdesc with src := val } }
  dst : addr = regDmaCfgTxdescDst →
    m' = m.setConfig { m.dma.config with txdesc := { m.dma.config.txdesc with dst := val } }
  len : addr = regDmaCfgTxdescLen →
    m' = m.setConfig { m.dma.config with txdesc := { m.dma.config.txdesc with len := val } }
  cmd : addr = regDmaCfgCmd → m' = m.setConfig { m.dma.config with cmd := val }
  trigger : addr = regIrq0Raise ∨ addr = regIrq0Lower ∨ addr = regDmaDoorbellRing →
    (∀ i < regbarRegCnt, m'.reg i = m.reg i) ∧ m'.dma.config = m.dma.config
  hole : (∀ r ∈ registers, addr ≠ r.addr) → m' = m

def FileLaw (bus : Bus) (ops : List Op) (m : Machine) (op : Op) : Prop :=
  match op with
  | .read bar addr size => apply bus m op = m ∧ ReadLaw ops m bar addr size
  | .write _ addr val _ => WriteLaw m addr val (apply bus m op)
  | _ => True

theorem scratch_mem {i : ℕ} (h : i < regbarRegCnt) : Reg.scratch i ∈ registers := by
  revert i
  decide

theorem decode_scratch {i : ℕ} (h : i < regbarRegCnt) (addr : UInt64) :
    decode addr = .scratch i ↔ addr = scratchAddr i := decode_eq addr (.scratch i) (scratch_mem h)

theorem decode_mem (addr : UInt64) : decode addr ∈ registers ∨ decode addr = .hole := by
  by_cases hx : ∃ r ∈ registers, addr = r.addr
  · obtain ⟨r, hr, rfl⟩ := hx
    rw [decode_addr r hr]
    exact .inl hr
  · exact .inr (decode_of_ne addr fun r hr he => hx ⟨r, hr, he⟩)

theorem reg_setReg (m : Machine) (i : ℕ) (v : UInt64) : (m.setReg i v).reg i = v := wordAt_storeWord _ _ _

theorem setReg_only (m : Machine) (i : ℕ) (v : UInt64) : OnlyReg i m (m.setReg i v) :=
  ⟨rfl, fun _ hk => splice_outside _ _ _ _ _ hk⟩

theorem served_valid (bar : Bar) (addr : UInt64) (h : bar.serves addr) : auroraRegbarValidAccess addr := by
  have hlt : addr < regBarSize := by
    cases bar with
    | reg => exact h
    | internal => exact UInt64.lt_trans h.1 (by decide)
  rw [auroraRegbarValidAccess, Bool.and_eq_true]
  exact ⟨decide_eq_true (UInt64.le_iff_toNat_le.mpr (Nat.zero_le _)), decide_eq_true (UInt64.le_of_lt hlt)⟩

section Run

variable {bus : Bus} (hb : bus.Delivers {[]})

include hb

theorem stored_step (m : Machine) (hi : m.dma.status = .idle) (op : Op) (hfit : LengthFits m op) {i : ℕ}
    (hr : i < regbarRegCnt) (w : Option UInt64) (hw : ∀ v, w = some v → m.reg i = v) :
    ∀ v, storedBy i w op = some v → (apply bus m op).reg i = v := by
  intro v hv
  by_cases hs : ∃ bar addr val size, op = .write bar addr val size ∧ addr = scratchAddr i
  · obtain ⟨bar, addr, val, size, rfl, rfl⟩ := hs
    rw [storedBy, if_pos rfl, Option.some.injEq] at hv
    rw [apply, barWrite_eq, (decode_scratch hr _).mpr rfl, writeReg, reg_setReg, hv]
  · have hreg := apply_reg hb m hi op hfit i (by
      rintro bar addr val size rfl hd
      exact hs ⟨bar, addr, val, size, rfl, (decode_scratch hr addr).mp hd⟩)
    rw [hreg]
    apply hw
    cases op with
    | write bar addr val size =>
      have hne : addr ≠ scratchAddr i := fun he => hs ⟨bar, addr, val, size, rfl, he⟩
      rwa [storedBy, if_neg hne] at hv
    | reset => cases hv
    | _ => exact hv

theorem run_stored (ops : List Op) (m : Machine) (hi : m.dma.status = .idle)
    (hfit : Along (total (apply bus)) (fun m op _ => LengthFits m op) m ops) (w : ℕ → Option UInt64)
    (hw : ∀ i < regbarRegCnt, ∀ v, w i = some v → m.reg i = v) :
    (run bus m ops).dma.status = .idle ∧
      ∀ i < regbarRegCnt, ∀ v, ops.foldl (storedBy i) (w i) = some v → (run bus m ops).reg i = v := by
  induction ops generalizing m w with
  | nil => exact ⟨hi, hw⟩
  | cons op ops ih =>
    obtain ⟨hop, hrest⟩ := hfit _ rfl
    exact ih _ (apply_idle hb m hi op).1 hrest (fun i => storedBy i (w i) op)
      (fun i hr => stored_step hb m hi op hop hr (w i) (hw i hr))

theorem writeReg_law (m : Machine) (hi : m.dma.status = .idle) (bar : Bar) (addr val : UInt64) (size : ℕ)
    (hfit : LengthFits m (.write bar addr val size)) :
    WriteLaw m addr val (apply bus m (.write bar addr val size)) := by
  have happly (r : Reg) (hr : r ∈ registers) (ha : addr = r.addr) :
      apply bus m (.write bar addr val size) = writeReg bus m val r := by
    rw [apply, barWrite_eq, (decode_eq addr r hr).mpr ha]
  have hcfg (f : DmaConfig → DmaConfig) : configWhenIdle f m = m.setConfig (f m.dma.config) := by
    rw [configWhenIdle, if_pos hi]
  have hfile (hne : ∀ i < regbarRegCnt, addr ≠ scratchAddr i) (i : ℕ) (hr : i < regbarRegCnt) :
      (apply bus m (.write bar addr val size)).reg i = m.reg i := by
    apply apply_reg hb m hi _ hfit i
    rintro bar addr val size h hd
    cases h
    exact hne i hr ((decode_scratch hr addr).mp hd)
  refine ⟨?_, ?_, ?_, ?_, ?_, ?_, ?_⟩
  · intro i hr ha
    rw [happly (.scratch i) (scratch_mem hr) ha]
    exact ⟨reg_setReg m i val, setReg_only m i val⟩
  · intro ha
    rw [happly .src (by decide) ha]
    exact hcfg fun c => { c with txdesc := { c.txdesc with src := val } }
  · intro ha
    rw [happly .dst (by decide) ha]
    exact hcfg fun c => { c with txdesc := { c.txdesc with dst := val } }
  · intro ha
    rw [happly .len (by decide) ha]
    exact hcfg fun c => { c with txdesc := { c.txdesc with len := val } }
  · intro ha
    rw [happly .cmd (by decide) ha]
    exact hcfg fun c => { c with cmd := val }
  · rintro (rfl | rfl | rfl)
    · refine ⟨hfile (by decide), ?_⟩
      rw [happly .irqRaise (by decide) rfl]
      exact (raise_reentered m).config
    · refine ⟨hfile (by decide), ?_⟩
      rw [happly .irqLower (by decide) rfl]
      exact (lower_reentered m _).config
    · refine ⟨hfile (by decide), ?_⟩
      rw [happly .doorbell (by decide) rfl]
      obtain ⟨n, h, -⟩ := doorbell_reentered hb m hi
      exact h.config
  · intro hne
    rw [apply, barWrite_eq, decode_of_ne addr hne, writeReg]

end Run

theorem readReg_law (ops : List Op) (m : Machine) (bar : Bar) (addr : UInt64) (size : ℕ)
    (hs : bar.serves addr) (hv : ∀ i < regbarRegCnt, ∀ v, lastStored i ops = some v → m.reg i = v) :
    ReadLaw ops m bar addr size := by
  constructor
  · intro i hr ha v h
    rw [barRead_eq, (decode_scratch hr addr).mpr ha, readReg, hv i hr v h]
  · intro hne
    have hd : ∀ i, decode addr ≠ .scratch i := by
      intro i hd
      have hr : i < regbarRegCnt := by
        rcases decode_mem addr with hm | hm
        · rw [hd] at hm
          have hi : i = 0 ∨ i = 1 ∨ i = 2 ∨ i = 3 := by simpa [registers] using hm
          rcases hi with rfl | rfl | rfl | rfl <;> decide
        · rw [hd] at hm
          cases hm
      exact hne i hr ((decode_scratch hr addr).mp hd)
    have hvalid := served_valid bar addr hs
    rw [barRead_eq]
    cases hr : decode addr with
    | scratch i => exact absurd hr (hd i)
    | _ => simp [readReg, hvalid]

theorem register_file (bus : Bus) (hb : bus.Delivers {[]}) (raw : DmaEngine) (host : ℕ → UInt8)
    (ops : List Op) (op : Op) (hs : ∀ o ∈ ops ++ [op], o.served)
    (hfit : Along (total (apply bus)) (fun m op _ => LengthFits m op) (pciemuDeviceInit raw host) (ops ++ [op])) :
    FileLaw bus ops (run bus (pciemuDeviceInit raw host) ops) op := by
  obtain ⟨hops, hlast⟩ := (along_append _ ops [op]).mp hfit
  obtain ⟨hop, -⟩ := hlast _ (run_total (apply bus) _ ops) _ rfl
  obtain ⟨hi, hv⟩ := run_stored hb ops _ (deviceInit_idle raw host) hops (fun _ => none) (fun _ _ _ h => by cases h)
  have hserved : op.served := hs op (List.mem_append_right ops List.mem_cons_self)
  cases op with
  | read bar addr size => exact ⟨rfl, readReg_law ops _ bar addr size hserved hv⟩
  | write bar addr val size => exact writeReg_law hb _ hi bar addr val size hop
  | _ => exact True.intro

theorem register_file_transfer :
    let ops := [.write .internal reg1 5 8, .reset, .write .reg reg0 6 8, .write .internal reg0 7 8,
      .write .reg regDmaCfgTxdescDst 0x10ff8 8, .write .reg regDmaCfgTxdescLen 8 8, .write .reg regDmaCfgCmd 1 8,
      .write .reg regDmaDoorbellRing 1 8]
    let m := run copyBus (pciemuDeviceInit zeroEngine fun _ => 9) ops
    (∀ o ∈ ops ++ [.read .reg reg0 8], o.served) ∧ lastStored 0 ops = some 7 ∧ barRead m .reg reg0 8 = 7 := by
  intro ops m
  have hs : ∀ o ∈ ops ++ [.read .reg reg0 8], o.served := by decide
  have hv : lastStored 0 ops = some 7 := by decide
  have h := register_file copyBus copyBus_delivers zeroEngine (fun _ => 9) ops (.read .reg reg0 8) hs (by decide)
  exact ⟨hs, hv, h.2.1 0 (by decide) rfl 7 hv⟩

end Pciemu.Device
