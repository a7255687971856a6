import Pciemu.Boundaries

namespace Pciemu.Device

open Bytes AuroraHw Runs

def Bus.AgreesWith (bus ref : Bus) : Prop :=
  ∀ m addr ofs len, ofs.toNat + len.toNat ≤ areaSize →
    bus.pciDmaRead m addr ofs len = ref.pciDmaRead m addr ofs len ∧
      bus.pciDmaWrite m addr ofs len = ref.pciDmaWrite m addr ofs len

def Bus.CopiesExactly (bus : Bus) : Prop := bus.AgreesWith copyBus

theorem Bus.AgreesWith.refl (bus : Bus) : bus.AgreesWith bus := fun _ _ _ _ _ => ⟨rfl, rfl⟩

theorem Bus.AgreesWith.symm {bus ref : Bus} (h : bus.AgreesWith ref) : ref.AgreesWith bus :=
  fun m addr ofs len hfit => ⟨(h m addr ofs len hfit).1.symm, (h m addr ofs len hfit).2.symm⟩

def CallFits : Event → Prop
  | .pciDmaRead _ ofs len | .pciDmaWrite _ ofs len => ofs.toNat + len.toNat ≤ areaSize
  | _ => True

theorem transferCall_fits {c : DmaConfig} {call : Event} (h : transferCall c = some call) :
    CallFits call ↔ RangeInside c := by
  have hsome : (transferCall c).isSome := by rw [h]; rfl
  obtain ⟨_, hlo, hhi⟩ := (transferCall_isSome c).mp hsome
  have hsub := sub_areaStart (deviceAddr c) hlo
  have hr : RangeInside c ↔ (deviceAddr c - dmaAreaStart).toNat + c.txdesc.len.toNat ≤ areaSize := by
    rw [hsub]
    exact ⟨fun h => h.2, fun h => ⟨hlo, h⟩⟩
  rw [hr]
  unfold transferCall at h
  split_ifs at h with ht hd hf hd <;> cases h
  · simp only [CallFits, deviceAddr, ht, if_true]
  · simp only [CallFits, deviceAddr, ht, if_false]

theorem busAccess_agrees {bus ref : Bus} (hb : bus.AgreesWith ref) (m : Machine) (call : Event)
    (h : CallFits call) : busAccess bus m call = busAccess ref m call := by
  cases call with
  | pciDmaRead addr ofs len => exact (hb m addr ofs len h).1
  | pciDmaWrite addr ofs len => exact (hb m addr ofs len h).2
  | _ => rfl

theorem execute_agrees {bus ref : Bus} (hb : bus.AgreesWith ref) (m : Machine)
    (h : ∀ call, transferCall m.dma.config = some call → CallFits call) :
    auroraDmaExecute bus m = auroraDmaExecute ref m := by
  rw [execute_eq, execute_eq]
  cases hc : transferCall m.dma.config with
  | none => rfl
  | some call => simp only [busAccess_agrees hb _ call (h call hc)]

theorem doorbell_agrees {bus ref : Bus} (hb : bus.AgreesWith ref) (m : Machine)
    (h : ∀ call, transferCall m.dma.config = some call → CallFits call) :
    auroraDmaDoorbellRing bus m = auroraDmaDoorbellRing ref m := by
  have hx : auroraDmaExecute bus (cmpxchgStatus m).2 = auroraDmaExecute ref (cmpxchgStatus m).2 := by
    apply execute_agrees hb
    intro call hc
    apply h call
    unfold cmpxchgStatus at hc
    split_ifs at hc <;> exact hc
  simp only [auroraDmaDoorbellRing, hx]

theorem LengthFits.call {m : Machine} {op : Op} (h : LengthFits m op) (hr : op.rings) (call : Event)
    (hc : transferCall m.dma.config = some call) : CallFits call := by
  obtain ⟨hd, hs⟩ := (transferCall_isSome m.dma.config).mp (by rw [hc]; rfl)
  exact (transferCall_fits hc).mpr (h hr hd hs)

theorem apply_agrees {bus ref : Bus} (hb : bus.AgreesWith ref) (m : Machine) (op : Op)
    (h : LengthFits m op) : apply bus m op = apply ref m op := by
  cases op with
  | write bar addr val size =>
    simp only [apply, barWrite_eq]
    cases hd : decode addr with
    | doorbell =>
      have hr := (decode_eq addr .doorbell (by decide)).mp hd
      exact doorbell_agrees hb m (h.call (decide_eq_true hr))
    | _ => rfl
  | _ => rfl

theorem transferCall_cases {c : DmaConfig} {call : Event} (h : transferCall c = some call) :
    call = .pciDmaRead (c.txdesc.src &&& c.mask) (c.txdesc.dst - dmaAreaStart) c.txdesc.len ∨
      call = .pciDmaWrite (c.txdesc.dst &&& c.mask) (c.txdesc.src - dmaAreaStart) c.txdesc.len := by
  unfold transferCall at h
  split_ifs at h <;> cases h
  · exact .inl rfl
  · exact .inr rfl

theorem doorbell_memory (bus : Bus) (m : Machine) (hi : m.dma.status = .idle) {call : Event}
    (hc : transferCall m.dma.config = some call) :
    (auroraDmaDoorbellRing bus m).dma.buff = (busAccess bus (entered m call) call).1.dma.buff ∧
      (auroraDmaDoorbellRing bus m).host = (busAccess bus (entered m call) call).1.host := by
  rw [doorbell_transfer bus m hi call hc]
  dsimp only
  obtain ⟨e, hstep, -⟩ := raise_step ((busAccess bus (entered m call) call).1.emits
    (errorReport (busAccess bus (entered m call) call).2 call))
  exact ⟨(congrArg DmaEngine.buff hstep.dma).trans rfl, hstep.host.trans rfl⟩

theorem doorbell_copied (m : Machine) (hi : m.dma.status = .idle) {call : Event}
    (hc : transferCall m.dma.config = some call) :
    (auroraDmaDoorbellRing copyBus m).dma.buff = (busAccess copyBus m call).1.dma.buff ∧
      (auroraDmaDoorbellRing copyBus m).host = (busAccess copyBus m call).1.host := by
  obtain ⟨hbuff, hhost⟩ := doorbell_memory copyBus m hi hc
  rw [hbuff, hhost]
  rcases transferCall_cases hc with rfl | rfl <;> exact ⟨rfl, rfl⟩

theorem along_agrees {bus ref : Bus} (hb : bus.AgreesWith ref) (ops : List Op) (m : Machine)
    (h : Along (total (apply bus)) (fun m op _ => LengthFits m op) m ops) :
    Along (total (apply ref)) (fun m op _ => LengthFits m op) m ops ∧
      run bus m ops = run ref m ops := by
  induction ops generalizing m with
  | nil => exact ⟨True.intro, rfl⟩
  | cons op ops ih =>
    obtain ⟨hop, hrest⟩ := h _ rfl
    rw [apply_agrees hb m op hop] at hrest
    obtain ⟨ha, hr⟩ := ih _ hrest
    refine ⟨?_, ?_⟩
    · intro t ht
      exact Option.some.inj ht ▸ ⟨hop, ha⟩
    · simpa only [run, List.foldl_cons, apply_agrees hb m op hop] using hr

/-- A bus that only exchanges bytes with host memory; it may fail, and what it does then is up to it. -/
structure HostBus where
  read : (ℕ → UInt8) → UInt64 → UInt64 → (ℕ → UInt8) × ℕ
  write : (ℕ → UInt8) → UInt64 → List UInt8 → (ℕ → UInt8) × ℕ

def bytesFrom (buff : ℕ → UInt8) (ofs len : ℕ) : List UInt8 := (List.range len).map fun i => buff (ofs + i)

def HostBus.toBus (h : HostBus) : Bus where
  pciDmaRead m addr ofs len :=
    let r := h.read m.host addr len
    (m.setBuff (splice m.dma.buff ofs.toNat len.toNat r.1), r.2)
  pciDmaWrite m addr ofs len :=
    let r := h.write m.host addr (bytesFrom m.dma.buff ofs.toNat len.toNat)
    ({ m with host := r.1 }, r.2)

theorem toBus_delivers (h : HostBus) : h.toBus.Delivers {[]} := by
  intro m addr ofs len
  refine ⟨⟨[], rfl, .store _ ?_ .start⟩, [], rfl, .host _ .start⟩
  intro i hi
  exact splice_outside _ _ _ _ _ hi

def copyHost : HostBus where
  read host addr _ := (fun i => host (addr.toNat + i), 0)
  write host addr bytes := (splice host addr.toNat bytes.length fun i => bytes.getD i 0, 0)

theorem copyHost_toBus : copyHost.toBus = copyBus := by
  apply Bus.ext
  · rfl
  · funext m addr ofs len
    have hl : (bytesFrom m.dma.buff ofs.toNat len.toNat).length = len.toNat := by simp [bytesFrom]
    simp only [HostBus.toBus, copyHost, copyBus, hl]
    congr 2
    apply splice_congr
    intro i hi
    simp [bytesFrom, hi]

end Pciemu.Device
