import Pciemu.Isolated

/-!
Two devices that differ only in what `malloc` left in them. `Twin W` relates
their states as long as the transfers fit, `W` being the scratch registers
written so far.
-/

namespace Pciemu.Device

open Bytes AuroraHw Runs

structure Twin (W : Set ℕ) (m m' : Machine) : Prop where
  eq : m' = m.setBuff m'.dma.buff
  area : ∀ i < areaSize, m'.dma.buff i = m.dma.buff i
  regs : ∀ r ∈ W, ∀ j < 8, m'.dma.buff (regsOfs + 8 * r + j) = m.dma.buff (regsOfs + 8 * r + j)

theorem raise_setBuff (m : Machine) (b : ℕ → UInt8) (v : ℕ) :
    pciemuIrqRaise (m.setBuff b) v = (pciemuIrqRaise m v).setBuff b := by
  unfold pciemuIrqRaise pciemuIrqRaiseMsix pciemuIrqRaiseMsi raiseVector
  simp only [Machine.setBuff_msixEnabled, Machine.setBuff_msiEnabled]
  split_ifs <;> rfl

theorem lowerVector_setBuff (n : ℕ) (m : Machine) (b : ℕ → UInt8) (v : ℕ) :
    lowerVector n (m.setBuff b) v = (lowerVector n m v).setBuff b := by
  unfold lowerVector
  have hr : (m.setBuff b).vectorRaised v = m.vectorRaised v := rfl
  rw [hr]
  split_ifs <;> rfl

theorem foldl_lowerVector_setBuff (n : ℕ) (vs : List ℕ) (m : Machine) (b : ℕ → UInt8) :
    vs.foldl (lowerVector n) (m.setBuff b) = (vs.foldl (lowerVector n) m).setBuff b := by
  induction vs generalizing m with
  | nil => rfl
  | cons v vs ih => rw [List.foldl_cons, List.foldl_cons, lowerVector_setBuff, ih]

theorem lower_setBuff (m : Machine) (b : ℕ → UInt8) (v : ℕ) :
    pciemuIrqLower (m.setBuff b) v = (pciemuIrqLower m v).setBuff b := by
  unfold pciemuIrqLower pciemuIrqLowerMsix pciemuIrqLowerMsi
  simp only [Machine.setBuff_msixEnabled, Machine.setBuff_msiEnabled, lowerVector_setBuff]
  split_ifs <;> rfl

theorem irqReset_setBuff (m : Machine) (b : ℕ → UInt8) :
    pciemuIrqReset (m.setBuff b) = (pciemuIrqReset m).setBuff b := by
  unfold pciemuIrqReset pciemuIrqLowerMsix pciemuIrqLowerMsi
  simp only [Machine.setBuff_msixEnabled, Machine.setBuff_msiEnabled, foldl_lowerVector_setBuff]
  split_ifs <;> rfl

section Twins

variable {W : Set ℕ} {m m' : Machine} (h : Twin W m m')

include h

theorem Twin.map (f : Machine → Machine) (hf : ∀ b, f (m.setBuff b) = (f m).setBuff b)
    (hb : (f m).dma.buff = m.dma.buff) : Twin W (f m) (f m') := by
  have he : f m' = (f m).setBuff m'.dma.buff := by
    rw [h.eq]
    exact hf _
  have hb' : (f m').dma.buff = m'.dma.buff := by rw [he]; rfl
  exact ⟨by rw [hb', he], by rw [hb, hb']; exact h.area, by rw [hb, hb']; exact h.regs⟩

theorem Twin.config : m'.dma.config = m.dma.config := by rw [h.eq]; rfl

theorem Twin.status : m'.dma.status = m.dma.status := by rw [h.eq]; rfl

theorem Twin.host : m'.host = m.host := by rw [h.eq]; rfl

theorem Twin.reg {r : ℕ} (hr : r ∈ W) : m'.reg r = m.reg r :=
  wordAt_congr _ _ _ (h.regs r hr)

theorem Twin.setReg (i : ℕ) (v : UInt64) : Twin (insert i W) (m.setReg i v) (m'.setReg i v) where
  eq := by
    have he : m' = m.setBuff m'.dma.buff := h.eq
    rw [he]
    rfl
  area := by
    intro j hj
    apply splice_agree
    exact h.area j hj
  regs := by
    intro r hr j hj
    by_cases hri : r = i
    · subst hri
      rw [Machine.setReg, Machine.setReg, Machine.setBuff_dma_buff, Machine.setBuff_dma_buff, storeWord,
        storeWord, splice_inside _ _ _ _ _ hj, splice_inside _ _ _ _ _ hj]
    · apply splice_agree
      exact h.regs r (Set.mem_of_mem_insert_of_ne hr hri) j hj

theorem Twin.access (b : HostBus) {call : Event} (hc : CallFits call) :
    Twin W (busAccess b.toBus m call).1 (busAccess b.toBus m' call).1 ∧
      (busAccess b.toBus m' call).2 = (busAccess b.toBus m call).2 := by
  cases call with
  | pciDmaRead addr ofs len =>
    refine ⟨⟨?_, ?_, ?_⟩, ?_⟩
    · rw [h.eq]
      rfl
    · intro i hi
      simp only [busAccess, HostBus.toBus, Machine.setBuff_dma_buff, h.host]
      exact splice_agree _ _ _ _ _ _ (h.area i hi)
    · intro r hr j hj
      simp only [busAccess, HostBus.toBus, Machine.setBuff_dma_buff, h.host]
      exact splice_agree _ _ _ _ _ _ (h.regs r hr j hj)
    · simp only [busAccess, HostBus.toBus, h.host]
  | pciDmaWrite addr ofs len =>
    have hbytes : bytesFrom m'.dma.buff ofs.toNat len.toNat = bytesFrom m.dma.buff ofs.toNat len.toNat := by
      apply List.map_congr_left
      intro i hi
      have := List.mem_range.mp hi
      exact h.area _ (Nat.lt_of_lt_of_le (Nat.add_lt_add_left this _) hc)
    simp only [busAccess, HostBus.toBus, hbytes, h.host]
    refine ⟨⟨?_, h.area, h.regs⟩, trivial⟩
    rw [h.eq]
    rfl
  | _ => exact ⟨h, rfl⟩

theorem Twin.raise : Twin W (pciemuIrqRaise m irqDmaEndedVector) (pciemuIrqRaise m' irqDmaEndedVector) := by
  obtain ⟨e, hstep, -⟩ := raise_step m
  exact h.map (fun m => pciemuIrqRaise m irqDmaEndedVector) (fun b => raise_setBuff m b _)
    (congrArg DmaEngine.buff hstep.dma)

theorem Twin.lower : Twin W (pciemuIrqLower m irqDmaEndedVector) (pciemuIrqLower m' irqDmaEndedVector) := by
  obtain ⟨es, hstep, -⟩ := lower_step m irqDmaEndedVector
  exact h.map (fun m => pciemuIrqLower m irqDmaEndedVector) (fun b => lower_setBuff m b _)
    (congrArg DmaEngine.buff hstep.dma)

theorem Twin.doorbell (b : HostBus) (hi : m.dma.status = .idle)
    (hfit : ∀ call, transferCall m.dma.config = some call → CallFits call) :
    Twin W (auroraDmaDoorbellRing b.toBus m) (auroraDmaDoorbellRing b.toBus m') := by
  have hi' : m'.dma.status = .idle := h.status.trans hi
  cases hc : transferCall m.dma.config with
  | none =>
    rw [doorbell_idle _ m hi, doorbell_idle _ m' hi', execute_eq, execute_eq]
    simp only [Machine.setStatus_dma_config, h.config, hc]
    exact h.map (fun m => ((m.setStatus .executing).emits _).setStatus .idle) (fun _ => rfl) rfl
  | some call =>
    have hent : Twin W (entered m call) (entered m' call) := by
      unfold entered
      rw [h.config]
      exact h.map (fun m => ((m.setStatus .executing).emits _).emit call) (fun _ => rfl) rfl
    obtain ⟨hacc, herr⟩ := hent.access b (hfit call hc)
    rw [doorbell_transfer _ m hi call hc, doorbell_transfer _ m' hi' call (h.config ▸ hc)]
    dsimp only
    rw [herr]
    have hrep := hacc.map (fun x => x.emits (errorReport (busAccess b.toBus (entered m call) call).2 call))
      (fun _ => rfl) rfl
    exact hrep.raise.map (fun m => m.setStatus .idle) (fun _ => rfl) rfl

def scratchIn (W : Set ℕ) : Reg → Set ℕ
  | .scratch i => insert i W
  | _ => W

theorem Twin.writeReg (b : HostBus) (hi : m.dma.status = .idle) (val : UInt64) (r : Reg)
    (hfit : r = .doorbell → ∀ call, transferCall m.dma.config = some call → CallFits call) :
    Twin (scratchIn W r) (writeReg b.toBus m val r) (writeReg b.toBus m' val r) := by
  have hcfg (f : DmaConfig → DmaConfig) : Twin W (configWhenIdle f m) (configWhenIdle f m') := by
    apply h.map (configWhenIdle f)
    · intro b
      simp [configWhenIdle, hi, Machine.setConfig, Machine.setBuff]
    · simp [configWhenIdle, hi, Machine.setConfig]
  cases r with
  | scratch i => exact h.setReg i val
  | irqRaise => exact h.raise
  | irqLower => exact h.lower
  | src => exact hcfg fun c => { c with txdesc := { c.txdesc with src := val } }
  | dst => exact hcfg fun c => { c with txdesc := { c.txdesc with dst := val } }
  | len => exact hcfg fun c => { c with txdesc := { c.txdesc with len := val } }
  | cmd => exact hcfg fun c => { c with cmd := val }
  | doorbell => exact h.doorbell b hi (hfit rfl)
  | hole => exact h

theorem Twin.reset : Twin W (pciemuReset m) (pciemuReset m') := by
  obtain ⟨e, hstep, -⟩ := irqReset_step m
  have hr := h.map pciemuIrqReset (irqReset_setBuff m) (congrArg DmaEngine.buff hstep.dma)
  refine ⟨?_, ?_, ?_⟩
  · simp only [pciemuReset, glueBackendReset, auroraBackendReset]
    rw [hr.eq]
    rfl
  · intro i hi
    exact splice_agree _ _ (fun _ => 0) 0 areaSize _ (hr.area i hi)
  · intro r hw j hj
    exact splice_agree _ _ (fun _ => 0) 0 areaSize _ (hr.regs r hw j hj)

def writtenAfter (W : Set ℕ) : Op → Set ℕ
  | .write _ addr _ _ => scratchIn W (decode addr)
  | _ => W

theorem Twin.apply (b : HostBus) (hi : m.dma.status = .idle) (op : Op) (hfit : LengthFits m op) :
    Twin (writtenAfter W op) (apply b.toBus m op) (apply b.toBus m' op) := by
  cases op with
  | read bar addr size => exact h
  | write bar addr val size =>
    simp only [Device.apply, barWrite_eq, writtenAfter]
    apply h.writeReg b hi
    intro hd
    exact hfit.call (decide_eq_true ((decode_eq addr .doorbell (by decide)).mp hd))
  | reset => exact h.reset
  | setMode msix msi =>
    exact h.map (fun m => { m with msixEnabled := msix, msiEnabled := msi }) (fun _ => rfl) rfl
  | hostStore host => exact h.map (fun m => { m with host := host }) (fun _ => rfl) rfl

end Twins

def Op.scratchRead : Op → Option ℕ
  | .read _ addr _ => match decode addr with
    | .scratch i => some i
    | _ => none
  | _ => none

def WrittenBeforeRead (W : Set ℕ) : List Op → Prop
  | [] => True
  | op :: ops => (∀ i, op.scratchRead = some i → i ∈ W) ∧ WrittenBeforeRead (writtenAfter W op) ops

def observe (bus : Bus) (m : Machine) : List Op → List (Option UInt64 × (ℕ → UInt8))
  | [] => []
  | op :: ops => (op.returned m, (apply bus m op).host) :: observe bus (apply bus m op) ops

theorem returned_congr {m m' : Machine} (op : Op)
    (h : ∀ i, op.scratchRead = some i → m'.reg i = m.reg i) : op.returned m' = op.returned m := by
  cases op with
  | read bar addr size =>
    simp only [Op.returned, barRead_eq]
    cases hd : decode addr with
    | scratch i => simp only [readReg, h i (by simp [Op.scratchRead, hd])]
    | _ => rfl
  | _ => rfl

theorem returned_scratchRead {m : Machine} {op : Op} {i : ℕ} (h : op.scratchRead = some i) :
    op.returned m = some (m.reg i) := by
  cases op with
  | read bar addr size =>
    simp only [Op.returned, barRead_eq]
    cases hd : decode addr with
    | scratch j =>
      simp only [Op.scratchRead, hd, Option.some.injEq] at h
      simp only [readReg, h]
    | _ => simp [Op.scratchRead, hd] at h
  | _ => simp [Op.scratchRead] at h

theorem observe_agrees {bus ref : Bus} (hb : bus.AgreesWith ref) (ops : List Op) (m : Machine)
    (h : Along (total (apply bus)) (fun m op _ => LengthFits m op) m ops) :
    observe bus m ops = observe ref m ops := by
  induction ops generalizing m with
  | nil => rfl
  | cons op ops ih =>
    obtain ⟨hop, hrest⟩ := h _ rfl
    rw [apply_agrees hb m op hop] at hrest
    rw [observe, observe, apply_agrees hb m op hop, ih _ hrest]

theorem observe_twin (b : HostBus) (ops : List Op) (W : Set ℕ) (m m' : Machine) (h : Twin W m m')
    (hi : m.dma.status = .idle)
    (hfit : Along (total (apply b.toBus)) (fun m op _ => LengthFits m op) m ops)
    (hw : WrittenBeforeRead W ops) : observe b.toBus m' ops = observe b.toBus m ops := by
  induction ops generalizing W m m' with
  | nil => rfl
  | cons op ops ih =>
    obtain ⟨hop, hrest⟩ := hfit _ rfl
    have hnext := h.apply b hi op hop
    have hret : op.returned m' = op.returned m := returned_congr op (fun i hr => h.reg (hw.1 i hr))
    have hidle := (apply_idle (toBus_delivers b) m hi op).1
    rw [observe, observe, hret, hnext.host, ih _ _ _ hnext hidle hrest hw.2]

theorem mem_writtenAfter {W : Set ℕ} {i : ℕ} (op : Op) (h : i ∈ W) : i ∈ writtenAfter W op := by
  cases op with
  | write bar addr val size =>
    rw [writtenAfter]
    cases decode addr with
    | scratch j => exact Set.mem_insert_of_mem j h
    | _ => exact h
  | _ => exact h

theorem reg_unwritten (b : HostBus) (m : Machine) (hi : m.dma.status = .idle) (op : Op) (hfit : LengthFits m op)
    (W : Set ℕ) (i : ℕ) (h : i ∉ writtenAfter W op) : (apply b.toBus m op).reg i = m.reg i := by
  apply apply_reg (toBus_delivers b) m hi op hfit i
  rintro bar addr val size rfl hd
  rw [writtenAfter, hd] at h
  exact h (Set.mem_insert i W)

theorem observe_differs (b : HostBus) (ops : List Op) (W : Set ℕ) (m m' : Machine)
    (h : ∀ i ∉ W, m'.reg i ≠ m.reg i) (hi : m.dma.status = .idle) (hi' : m'.dma.status = .idle)
    (hfit : Along (total (apply b.toBus)) (fun m op _ => LengthFits m op) m ops)
    (hfit' : Along (total (apply b.toBus)) (fun m op _ => LengthFits m op) m' ops)
    (hw : ¬WrittenBeforeRead W ops) : observe b.toBus m' ops ≠ observe b.toBus m ops := by
  induction ops generalizing W m m' with
  | nil => exact absurd True.intro hw
  | cons op ops ih =>
    obtain ⟨hop, hrest⟩ := hfit _ rfl
    obtain ⟨hop', hrest'⟩ := hfit' _ rfl
    intro he
    rw [observe, observe, List.cons.injEq, Prod.mk.injEq] at he
    by_cases hr : ∀ i, op.scratchRead = some i → i ∈ W
    · refine ih (writtenAfter W op) _ _ ?_ (apply_idle (toBus_delivers b) m hi op).1
        (apply_idle (toBus_delivers b) m' hi' op).1 hrest hrest' (fun hrec => hw ⟨hr, hrec⟩) he.2
      intro i hiw
      rw [reg_unwritten b m hi op hop W i hiw, reg_unwritten b m' hi' op hop' W i hiw]
      exact h i (fun hin => hiw (mem_writtenAfter op hin))
    · obtain ⟨i, hr, hiw⟩ : ∃ i, op.scratchRead = some i ∧ i ∉ W := by
        by_contra hn
        exact hr (fun i hri => by_contra fun hiw => hn ⟨i, hri, hiw⟩)
      have hv := he.1.1
      rw [returned_scratchRead hr, returned_scratchRead hr, Option.some.injEq] at hv
      exact h i hiw hv

def filledEngine (c : UInt8) : DmaEngine := ⟨⟨⟨0, 0, 0⟩, 0, 0⟩, .off, fun _ => c⟩

theorem deviceInit_eq (raw : DmaEngine) (host : ℕ → UInt8) : pciemuDeviceInit raw host =
    ⟨false, false, fun _ => 0, ⟨⟨⟨0, 0, 0⟩, 0, dmaBitMask dmaAddrCapability⟩, .idle,
      splice raw.buff 0 areaSize fun _ => 0⟩, host, []⟩ := rfl

theorem deviceInit_reg (raw : DmaEngine) (host : ℕ → UInt8) (i : ℕ) :
    (pciemuDeviceInit raw host).reg i = wordAt raw.buff (regsOfs + 8 * i) := by
  rw [Machine.reg, deviceInit_eq]
  apply wordAt_congr
  intro j hj
  exact splice_outside raw.buff (fun _ => 0) 0 areaSize _ (by
    simp only [regsOfs]
    omega)

theorem filledEngine_reg_ne (host : ℕ → UInt8) (i : ℕ) :
    (pciemuDeviceInit (filledEngine 1) host).reg i ≠ (pciemuDeviceInit (filledEngine 0) host).reg i := by
  have h0 (c : UInt8) (ofs : ℕ) : wordAt (filledEngine c).buff ofs = wordAt (fun _ => c) 0 := by
    rw [wordAt, wordAt]
    rfl
  rw [deviceInit_reg, deviceInit_reg, h0, h0]
  decide

theorem twin_init (raw raw' : DmaEngine) (host : ℕ → UInt8) :
    Twin ∅ (pciemuDeviceInit raw host) (pciemuDeviceInit raw' host) where
  eq := by
    rw [deviceInit_eq, deviceInit_eq, Machine.setBuff]
  area := by
    intro i hi
    have h := splice_inside raw.buff (fun _ => 0) 0 areaSize i hi
    have h' := splice_inside raw'.buff (fun _ => 0) 0 areaSize i hi
    rw [Nat.zero_add] at h h'
    simp only [deviceInit_eq, h, h']
  regs := by
    intro r hr
    exact absurd hr (Set.notMem_empty r)

theorem along_twin (b : HostBus) (ops : List Op) (W : Set ℕ) (m m' : Machine) (h : Twin W m m')
    (hi : m.dma.status = .idle)
    (hfit : Along (total (apply b.toBus)) (fun m op _ => LengthFits m op) m ops) :
    Along (total (apply b.toBus)) (fun m op _ => LengthFits m op) m' ops := by
  induction ops generalizing W m m' with
  | nil => exact True.intro
  | cons op ops ih =>
    obtain ⟨hop, hrest⟩ := hfit _ rfl
    intro t ht
    rw [← Option.some.inj ht]
    refine ⟨?_, ih _ _ _ (h.apply b hi op hop) (apply_idle (toBus_delivers b) m hi op).1 hrest⟩
    change LengthFits m' op
    simpa only [LengthFits, h.config] using hop

theorem uninitialised_unobserved_iff (bus : Bus) (b : HostBus) (hb : bus.AgreesWith b.toBus)
    (host : ℕ → UInt8) (ops : List Op) (heap : DmaEngine)
    (hfit : Along (total (apply bus)) (fun m op _ => LengthFits m op) (pciemuDeviceInit heap host) ops) :
    (∀ raw raw', observe bus (pciemuDeviceInit raw' host) ops = observe bus (pciemuDeviceInit raw host) ops) ↔
      WrittenBeforeRead ∅ ops := by
  have hfit' (raw : DmaEngine) :=
    along_twin b ops ∅ _ _ (twin_init heap raw host) rfl (along_agrees hb ops _ hfit).1
  have hobs (raw : DmaEngine) := observe_agrees hb.symm ops _ (hfit' raw)
  simp only [← hobs]
  constructor
  · intro h
    by_contra hw
    refine observe_differs b ops ∅ (pciemuDeviceInit (filledEngine 0) host)
      (pciemuDeviceInit (filledEngine 1) host) ?_ rfl rfl (hfit' _) (hfit' _) hw (h _ _)
    intro i _
    exact filledEngine_reg_ne host i
  · intro hw raw raw'
    exact observe_twin b ops ∅ _ _ (twin_init raw raw' host) rfl (hfit' raw) hw

theorem uninitialised_unobserved_transfer :
    let ops := [.write .reg reg0 5 8, .write .reg regDmaCfgTxdescSrc 0x10000 8,
      .write .reg regDmaCfgTxdescDst 64 8, .write .reg regDmaCfgTxdescLen 0x1000 8, .write .reg regDmaCfgCmd 2 8,
      .write .internal regDmaDoorbellRing 1 8, .reset, .read .internal reg0 8]
    ∀ raw raw', observe copyBus (pciemuDeviceInit raw' fun _ => 7) ops =
      observe copyBus (pciemuDeviceInit raw fun _ => 7) ops := by
  intro ops
  apply (uninitialised_unobserved_iff copyBus copyHost (copyHost_toBus ▸ Bus.AgreesWith.refl _)
    (fun _ => 7) ops zeroEngine (by decide)).mpr
  have h0 : decode reg0 = .scratch 0 := by decide
  have hs : decode regDmaCfgTxdescSrc = .src := by decide
  have hd : decode regDmaCfgTxdescDst = .dst := by decide
  have hl : decode regDmaCfgTxdescLen = .len := by decide
  have hc : decode regDmaCfgCmd = .cmd := by decide
  have hr : decode regDmaDoorbellRing = .doorbell := by decide
  simp [ops, WrittenBeforeRead, Op.scratchRead, writtenAfter, scratchIn, h0, hs, hd, hl, hc, hr]

theorem uninitialised_observed :
    let ops := [Op.read .reg reg0 8]
    (∀ raw, Along (total (apply copyBus)) (fun m op _ => LengthFits m op) (pciemuDeviceInit raw fun _ => 0) ops) ∧
      observe copyBus (pciemuDeviceInit (filledEngine 1) fun _ => 0) ops ≠
        observe copyBus (pciemuDeviceInit (filledEngine 0) fun _ => 0) ops := by
  intro ops
  refine ⟨fun raw => of_decide_eq_true rfl, ?_⟩
  intro h
  have hv : (Op.read .reg reg0 8).returned (pciemuDeviceInit (filledEngine 1) fun _ => 0) =
      (Op.read .reg reg0 8).returned (pciemuDeviceInit (filledEngine 0) fun _ => 0) :=
    congrArg Prod.fst (List.head_eq_of_cons_eq h)
  revert hv
  decide

end Pciemu.Device
