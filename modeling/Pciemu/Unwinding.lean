import Pciemu.Probe

namespace Pciemu.Driver

open Programs AuroraHw

section Unwinding

variable (k : KernelCall → ℤ)

def exec {α : Type} (p : Code α) (s : Life) : α × Life := p.exec (Life.answer k) Life.after s

def everything : Multiset Resource :=
  .handler (k .pciIrqVector) ::ₘ .vectors ::ₘ .node ::ₘ .cdev ::ₘ .chrdev ::ₘ
    .mapping (k (.pciIomap regBar)) ::ₘ .mapping (k (.pciIomap memBar)) ::ₘ
    .mapping (k (.pciIomap intBar)) ::ₘ .regions (k .pciSelectBars) ::ₘ .master ::ₘ .device ::ₘ
    .pciemuDev ::ₘ 0

def Settled (r : ℤ × Life) : Prop :=
  r.1 = 0 ∧ r.2.held = some (everything k) ∧ (exec k pciemuRemove r.2).2.held = some 0 ∨
    r.1 ≠ 0 ∧ r.2.held = some 0

def AllOrNothing (garbage : Field → ℤ) : Prop := Settled k (exec k pciemuProbe ⟨garbage, []⟩)

theorem exec_bind {α β : Type} (p : Code α) (f : α → Code β) (s : Life) :
    exec k (p >>= f) s = exec k (f (exec k p s).1) (exec k p s).2 := Prog.exec_bind ..

theorem exec_request {β : Type} (c : KernelCall) (f : ℤ → Code β) (s : Life) (hc : s.answer k c = k c) :
    exec k (request c >>= f) s = exec k (f (k c)) (s.after c (k c)) := by
  rw [← hc]
  rfl

def baseHeld : Multiset Resource := .master ::ₘ .device ::ₘ .pciemuDev ::ₘ 0

def regionsHeld : Multiset Resource := .regions (k .pciSelectBars) ::ₘ baseHeld

def mapsHeld : Multiset Resource :=
  .mapping (k (.pciIomap regBar)) ::ₘ .mapping (k (.pciIomap memBar)) ::ₘ
    .mapping (k (.pciIomap intBar)) ::ₘ regionsHeld k

def nodeHeld : Multiset Resource := .node ::ₘ .cdev ::ₘ .chrdev ::ₘ mapsHeld k

structure Mapped (s : Life) : Prop where
  reg : s.dev .regbarMmio = k (.pciIomap regBar)
  mem : s.dev .membarMmio = k (.pciIomap memBar)
  int : s.dev .internalBarMmio = k (.pciIomap intBar)
  reg_ne : k (.pciIomap regBar) ≠ 0
  mem_ne : k (.pciIomap memBar) ≠ 0
  int_ne : k (.pciIomap intBar) ≠ 0

variable {k} {s : Life} {err : ℤ}

theorem Mapped.of_dev {t : Life} (h : Mapped k s) (hr : t.dev .regbarMmio = s.dev .regbarMmio)
    (hm : t.dev .membarMmio = s.dev .membarMmio) (hi : t.dev .internalBarMmio = s.dev .internalBarMmio) :
    Mapped k t :=
  ⟨hr.trans h.reg, hm.trans h.mem, hi.trans h.int, h.reg_ne, h.mem_ne, h.int_ne⟩

theorem Mapped.after (h : Mapped k s) (c : KernelCall) (hc : c.stored s.dev = s.dev) (z : ℤ) :
    Mapped k (s.after c z) := by
  have hd : (s.after c z).dev = s.dev := hc
  exact h.of_dev (by rw [hd]) (by rw [hd]) (by rw [hd])

theorem exec_held_none {α : Type} (p : Code α) (hs : s.held = none) : (exec k p s).2.held = none := by
  induction p generalizing s with
  | ret a => exact hs
  | call c next ih => exact ih _ (Life.held_none hs c _)

def withMapping (mmio : ℤ) (h : Multiset Resource) : Multiset Resource :=
  if mmio = 0 then h else .mapping mmio ::ₘ h

section UnmapBar

variable {f : Field}

theorem unmapBar_null (hf : s.dev f = 0) : exec k (unmapBar f) s = ((), s.after (.load f) 0) := by
  have hload : exec k (unmapBar f) s = exec k (if s.dev f ≠ 0 then do
      let _ ← request (.pciIounmap (s.dev f))
      else pure ()) (s.after (.load f) (s.dev f)) := rfl
  rw [hload, hf]
  rfl

theorem unmapBar_call (hf : s.dev f ≠ 0) : exec k (unmapBar f) s =
    ((), (s.after (.load f) (s.dev f)).after (.pciIounmap (s.dev f)) (k (.pciIounmap (s.dev f)))) := by
  have hload : exec k (unmapBar f) s = exec k (if s.dev f ≠ 0 then do
      let _ ← request (.pciIounmap (s.dev f))
      else pure ()) (s.after (.load f) (s.dev f)) := rfl
  rw [hload, if_pos hf]
  rfl

theorem unmapBar_dev : (exec k (unmapBar f) s).2.dev = s.dev := by
  by_cases hf : s.dev f = 0
  · rw [unmapBar_null hf]
    rfl
  · rw [unmapBar_call hf]
    rfl

theorem unmapBar_held {h : Multiset Resource} (hs : s.held = some (withMapping (s.dev f) h)) :
    (exec k (unmapBar f) s).2.held = some h := by
  by_cases hf : s.dev f = 0
  · rw [withMapping, if_pos hf] at hs
    rw [unmapBar_null hf]
    exact (Life.held_neither rfl).trans hs
  · rw [withMapping, if_neg hf] at hs
    rw [unmapBar_call hf]
    exact Life.held_release ((Life.held_neither rfl).trans hs) rfl

theorem unmapBar_wild {h : Multiset Resource} (hf : s.dev f ≠ 0) (hs : s.held = some h)
    (hn : .mapping (s.dev f) ∉ h) : (exec k (unmapBar f) s).2.held = none := by
  rw [unmapBar_call hf]
  exact Life.held_wild ((Life.held_neither rfl).trans hs) hn rfl

end UnmapBar

theorem devClean_dev : (exec k pciemuDevClean s).2.dev = s.dev := by
  rw [pciemuDevClean, exec_bind, exec_bind, unmapBar_dev, unmapBar_dev, unmapBar_dev]

theorem devClean_held {h : Multiset Resource} (hs : s.held = some (withMapping (s.dev .regbarMmio)
    (withMapping (s.dev .membarMmio) (withMapping (s.dev .internalBarMmio) h)))) :
    (exec k pciemuDevClean s).2.held = some h := by
  rw [pciemuDevClean, exec_bind, exec_bind]
  have hreg := unmapBar_held (k := k) hs
  have hmem := unmapBar_held (k := k) (f := .membarMmio) (by rw [unmapBar_dev]; exact hreg)
  exact unmapBar_held (by rw [unmapBar_dev, unmapBar_dev]; exact hmem)

theorem devClean_wild {h : Multiset Resource} (hs : s.held = some (withMapping (s.dev .regbarMmio) h))
    (hn : ∀ p, .mapping p ∉ h) (hg : ¬(s.dev .membarMmio = 0 ∧ s.dev .internalBarMmio = 0)) :
    (exec k pciemuDevClean s).2.held = none := by
  rw [pciemuDevClean, exec_bind, exec_bind]
  have hreg := unmapBar_held (k := k) hs
  by_cases hm : s.dev .membarMmio = 0
  · have hmem := unmapBar_held (k := k) (s := (exec k (unmapBar .regbarMmio) s).2) (f := .membarMmio) (h := h) (by
      rw [unmapBar_dev, hm]
      exact hreg)
    refine unmapBar_wild ?_ hmem (hn _)
    rw [unmapBar_dev, unmapBar_dev]
    exact fun hi => hg ⟨hm, hi⟩
  · apply exec_held_none
    refine unmapBar_wild ?_ hreg (hn _)
    rw [unmapBar_dev]
    exact hm

theorem devClean_mapped {h : Multiset Resource} (hm : Mapped k s)
    (hs : s.held = some (.mapping (k (.pciIomap regBar)) ::ₘ .mapping (k (.pciIomap memBar)) ::ₘ
      .mapping (k (.pciIomap intBar)) ::ₘ h)) : (exec k pciemuDevClean s).2.held = some h := by
  apply devClean_held
  rw [hs, hm.reg, hm.mem, hm.int, withMapping, withMapping, withMapping, if_neg hm.reg_ne, if_neg hm.mem_ne,
    if_neg hm.int_ne]

theorem errPciEnable_held (h : s.held = some (.pciemuDev ::ₘ 0)) : (exec k (errPciEnable err) s).2.held = some 0 :=
  Life.held_release h rfl

theorem errDmaSetMask_held (h : s.held = some (.device ::ₘ .pciemuDev ::ₘ 0)) :
    (exec k (errDmaSetMask err) s).2.held = some 0 :=
  errPciEnable_held (Life.held_release h rfl)

theorem errSelectRegion_held (h : s.held = some baseHeld) : (exec k (errSelectRegion err) s).2.held = some 0 :=
  errDmaSetMask_held (Life.held_release h rfl)

theorem errDevInit_held (h : s.held = some (regionsHeld k)) : (exec k (errDevInit err) s).2.held = some 0 := by
  apply errSelectRegion_held
  apply Life.held_release _ rfl
  exact (Life.held_neither rfl).trans h

theorem errAllocChrdev_held (hm : Mapped k s) (h : s.held = some (mapsHeld k)) :
    (exec k (errAllocChrdev err) s).2.held = some 0 := by
  rw [errAllocChrdev, exec_bind]
  exact errDevInit_held (devClean_mapped hm h)

theorem errCdevAdd_held (hm : Mapped k s) (h : s.held = some (.chrdev ::ₘ mapsHeld k)) :
    (exec k (errCdevAdd err) s).2.held = some 0 :=
  errAllocChrdev_held (hm.of_dev rfl rfl rfl) (Life.held_release h rfl)

theorem errDeviceCreate_held (hm : Mapped k s) (h : s.held = some (.cdev ::ₘ .chrdev ::ₘ mapsHeld k)) :
    (exec k (errDeviceCreate err) s).2.held = some 0 :=
  errCdevAdd_held (hm.of_dev rfl rfl rfl) (Life.held_release h rfl)

theorem errIrqEnable_held (hm : Mapped k s) (h : s.held = some (nodeHeld k)) :
    (exec k (errIrqEnable err) s).2.held = some 0 :=
  errDeviceCreate_held (hm.of_dev rfl rfl rfl) (Life.held_release h rfl)

theorem Undoes.result {p : Code ℤ} (h : Undoes (· = err) p) (s : Life) : (exec k p s).1 = err :=
  h.exec (fun _ _ => trivial) s

theorem Undoes.settled {p : Code ℤ} (h : Undoes (· = err) p) (he : err ≠ 0) (hs : (exec k p s).2.held = some 0) :
    Settled k (exec k p s) := by
  refine .inr ⟨?_, hs⟩
  rw [h.result]
  exact he

theorem everything_perm : everything k = .node ::ₘ .cdev ::ₘ .chrdev ::ₘ
    .mapping (k (.pciIomap regBar)) ::ₘ .mapping (k (.pciIomap memBar)) ::ₘ .mapping (k (.pciIomap intBar)) ::ₘ
    .master ::ₘ .handler (k .pciIrqVector) ::ₘ .vectors ::ₘ .regions (k .pciSelectBars) ::ₘ .device ::ₘ
    .pciemuDev ::ₘ 0 := by
  rw [everything]
  simp only [Multiset.cons_swap]

theorem removeClearMaster_held (h : s.held = some (.master ::ₘ .handler (s.dev .irqNum) ::ₘ .vectors ::ₘ
    .regions (k .pciSelectBars) ::ₘ .device ::ₘ .pciemuDev ::ₘ 0)) : (exec k removeClearMaster s).2.held = some 0 := by
  apply Life.held_release _ rfl
  apply Life.held_release _ rfl
  apply Life.held_release (r := .regions (k .pciSelectBars)) _ rfl
  refine (Life.held_neither rfl).trans ?_
  apply Life.held_release _ rfl
  apply Life.held_release (r := .handler (s.dev .irqNum)) _ rfl
  refine (Life.held_neither rfl).trans ?_
  exact Life.held_release h rfl

theorem remove_held (hm : Mapped k s) (hirq : s.dev .irqNum = k .pciIrqVector)
    (h : s.held = some (everything k)) : (exec k pciemuRemove s).2.held = some 0 := by
  rw [everything_perm, ← hirq] at h
  let t : Life := ((s.after .deviceDestroy (k .deviceDestroy)).after .cdevDel (k .cdevDel)).after
    .unregisterChrdevRegion (k .unregisterChrdevRegion)
  have ht : t.held = _ := Life.held_release (Life.held_release (Life.held_release h rfl) rfl) rfl
  have hclean := devClean_mapped (hm.of_dev (t := t) rfl rfl rfl) ht
  have hexec : exec k pciemuRemove s = exec k (pciemuDevClean >>= fun _ => removeClearMaster) t := rfl
  rw [hexec, exec_bind]
  apply removeClearMaster_held
  rw [devClean_dev]
  exact hclean

def IrqResult (k : KernelCall → ℤ) (r : ℤ × Life) : Prop :=
  Mapped k r.2 ∧ (r.1 = 0 ∧ r.2.held = some (everything k) ∧ r.2.dev .irqNum = k .pciIrqVector ∨
    r.1 ≠ 0 ∧ r.2.held = some (nodeHeld k))

theorem irqRequest_exec (hm : Mapped k s) (h : s.held = some (.vectors ::ₘ nodeHeld k)) :
    IrqResult k (exec k irqRequest s) := by
  let t := (s.after .pciIrqVector (k .pciIrqVector)).after (.store .irqNum (k .pciIrqVector))
    (k (.store .irqNum (k .pciIrqVector)))
  have ht : t.held = some (.vectors ::ₘ nodeHeld k) := (Life.held_neither rfl).trans ((Life.held_neither rfl).trans h)
  have hmt : Mapped k t := hm.of_dev rfl rfl rfl
  have hexec : exec k irqRequest s = exec k (if k .pciIrqVector < 0 then do
      let _ ← request .pciFreeIrqVectors
      return -einval
    else do
      let err ← request (.requestIrq (k .pciIrqVector))
      if err ≠ 0 then do
        let _ ← request .pciFreeIrqVectors
        return err
      else do
        let mmio ← request (.load .regbarMmio)
        let _ ← request (.store .mmioAckIrq (mmio + irqDmaAckAddr.toNat))
        return 0) t := rfl
  rw [hexec]
  by_cases hneg : k .pciIrqVector < 0
  · rw [if_pos hneg]
    have he : -einval ≠ 0 := by decide
    exact ⟨hmt.of_dev rfl rfl rfl, .inr ⟨he, Life.held_release ht rfl⟩⟩
  · rw [if_neg hneg, exec_request _ _ _ _ rfl]
    by_cases herr : k (.requestIrq (k .pciIrqVector)) ≠ 0
    · rw [if_pos herr]
      refine ⟨hmt.of_dev rfl rfl rfl, .inr ⟨herr, Life.held_release (r := .vectors) ?_ rfl⟩⟩
      exact (Life.held_neither (c := .requestIrq _) (if_neg herr)).trans ht
    · rw [if_neg herr]
      refine ⟨hmt.of_dev rfl rfl rfl, .inl ⟨rfl, ?_, rfl⟩⟩
      refine (Life.held_neither rfl).trans ((Life.held_neither rfl).trans ?_)
      exact Life.held_acquire ht (if_pos (not_not.mp herr))

theorem irqEnable_exec (cap : Capability) (hm : Mapped k s) (h : s.held = some (nodeHeld k)) :
    IrqResult k (exec k (irqEnable cap) s) := by
  obtain ⟨n, hn⟩ : ∃ n, n = min (k (.vecCount cap)) (k .numOnlineCpus + 1) := ⟨_, rfl⟩
  let t := (s.after (.vecCount cap) (k (.vecCount cap))).after .numOnlineCpus (k .numOnlineCpus)
  have ht : t.held = some (nodeHeld k) := (Life.held_neither rfl).trans ((Life.held_neither rfl).trans h)
  have hmt : Mapped k t := hm.of_dev rfl rfl rfl
  have hexec : exec k (irqEnable cap) s = exec k (do
      let vecs ← request (.pciAllocIrqVectors n cap)
      if vecs < 0 then return -enospc
      else if vecs ≠ n then do
        let _ ← request .pciFreeIrqVectors
        return -enospc
      else irqRequest) t := by
    rw [hn]
    rfl
  have he : -enospc ≠ 0 := by decide
  rw [hexec, exec_request _ _ _ _ rfl]
  by_cases hneg : k (.pciAllocIrqVectors n cap) < 0
  · rw [if_pos hneg]
    refine ⟨hmt.of_dev rfl rfl rfl, .inr ⟨he, ?_⟩⟩
    exact (Life.held_neither (c := .pciAllocIrqVectors n cap) (if_neg (Int.not_le.mpr hneg))).trans ht
  · have hvec := Life.held_acquire (c := .pciAllocIrqVectors n cap) ht (if_pos (Int.not_lt.mp hneg))
    rw [if_neg hneg]
    by_cases hne : k (.pciAllocIrqVectors n cap) ≠ n
    · rw [if_pos hne]
      exact ⟨hmt.of_dev rfl rfl rfl, .inr ⟨he, Life.held_release hvec rfl⟩⟩
    · rw [if_neg hne]
      exact irqRequest_exec (hmt.of_dev rfl rfl rfl) hvec

def Capable (k : KernelCall → ℤ) : Prop :=
  k (.pciFindCapability .msix) ≠ 0 ∨ k (.pciFindCapability .msi) ≠ 0 ∨ k .fallOff ≠ 0

theorem IrqResult.settled {r : ℤ × Life} (h : IrqResult k r) : Settled k (exec k (if r.1 ≠ 0 then errIrqEnable r.1
    else do
      let _ ← request .mutexInit
      return 0) r.2) := by
  obtain ⟨hm, ⟨h0, hall, hirq⟩ | ⟨hne, hnode⟩⟩ := h
  · rw [if_neg (not_not.mpr h0)]
    have hheld := (Life.held_neither (s := r.2) (c := .mutexInit) (z := k .mutexInit) rfl).trans hall
    exact .inl ⟨rfl, hheld, remove_held (hm.of_dev rfl rfl rfl) hirq hheld⟩
  · rw [if_pos hne]
    exact (errIrqEnable_undoes r.1).settled hne (errIrqEnable_held hm hnode)

theorem probeIrqEnable_settled (hm : Mapped k s) (h : s.held = some (nodeHeld k)) :
    Settled k (exec k probeIrqEnable s) ↔ Capable k := by
  rw [probeIrqEnable, exec_bind, pciemuIrqEnable, exec_request _ _ _ _ rfl]
  have ht := (Life.held_neither (c := .pciFindCapability .msix) (z := k (.pciFindCapability .msix)) rfl).trans h
  by_cases hx : k (.pciFindCapability .msix) ≠ 0
  · rw [if_pos hx]
    exact iff_of_true (irqEnable_exec .msix (hm.after _ rfl _) ht).settled (.inl hx)
  · rw [if_neg hx, exec_request _ _ _ _ rfl]
    have hu := (Life.held_neither (c := .pciFindCapability .msi) (z := k (.pciFindCapability .msi)) rfl).trans ht
    by_cases hi : k (.pciFindCapability .msi) ≠ 0
    · rw [if_pos hi]
      exact iff_of_true (irqEnable_exec .msi ((hm.after _ rfl _).after _ rfl _) hu).settled (.inr (.inl hi))
    · rw [if_neg hi]
      have hv := (Life.held_neither (c := .fallOff) (z := k .fallOff) rfl).trans hu
      by_cases hf : k .fallOff = 0
      · have hcap : ¬Capable k := by
          rintro (h | h | h)
          · exact hx h
          · exact hi h
          · exact h hf
        refine iff_of_false ?_ hcap
        change ¬Settled k (exec k (if k .fallOff ≠ 0 then errIrqEnable (k .fallOff) else do
          let _ ← request .mutexInit
          return 0) _)
        rw [if_neg (not_not.mpr hf)]
        rintro (⟨-, hall, -⟩ | ⟨hne, -⟩)
        · -- two resources are missing
          have he := ((Life.held_neither rfl).trans hv).symm.trans hall
          have hcard := congrArg Multiset.card (Option.some.inj he)
          simp [nodeHeld, mapsHeld, regionsHeld, baseHeld, everything] at hcard
        · exact hne rfl
      · have hres : IrqResult k (k .fallOff, ((s.after (.pciFindCapability .msix) (k (.pciFindCapability .msix))).after
            (.pciFindCapability .msi) (k (.pciFindCapability .msi))).after .fallOff (k .fallOff)) :=
          ⟨hm.of_dev rfl rfl rfl, .inr ⟨hf, hv⟩⟩
        exact iff_of_true hres.settled (.inr (.inr hf))

theorem checked_settled {c : KernelCall} {r : Resource} {h : Multiset Resource} {label : ℤ → Code ℤ} {next : Code ℤ}
    {P : Prop} (hc : s.answer k c = k c) (he : ∀ z, c.effect z = if z = 0 then .acquire r else .neither)
    (hs : s.held = some h) (hlabel : ∀ err, Undoes (· = err) (label err))
    (hheld : ∀ t : Life, t.dev = (s.after c (k c)).dev → t.held = some h → ∀ err,
      (exec k (label err) t).2.held = some 0)
    (hnext : ∀ t : Life, t.dev = (s.after c (k c)).dev → t.held = some (r ::ₘ h) →
      (Settled k (exec k next t) ↔ P)) :
    Settled k (exec k (do
      let err ← request c
      if err ≠ 0 then label err else next) s) ↔ (k c = 0 → P) := by
  rw [exec_request _ _ _ _ hc]
  by_cases hz : k c ≠ 0
  · rw [if_pos hz]
    have ht := (Life.held_neither ((he (k c)).trans (if_neg hz))).trans hs
    exact iff_of_true ((hlabel _).settled hz (hheld _ rfl ht _)) fun h0 => absurd h0 hz
  · rw [if_neg hz]
    have h0 := not_not.mp hz
    have ht := Life.held_acquire hs ((he (k c)).trans (if_pos h0))
    rw [hnext _ rfl ht]
    exact ⟨fun hp _ => hp, fun hp => hp h0⟩

theorem Mapped.of_eq {t : Life} (h : Mapped k s) (hd : t.dev = s.dev) : Mapped k t :=
  h.of_dev (by rw [hd]) (by rw [hd]) (by rw [hd])

theorem probeDeviceCreate_settled (hm : Mapped k s) (h : s.held = some (.cdev ::ₘ .chrdev ::ₘ mapsHeld k)) :
    Settled k (exec k probeDeviceCreate s) ↔ (k .deviceCreate = 0 → Capable k) := by
  apply checked_settled rfl (fun _ => rfl) h errDeviceCreate_undoes
  · exact fun t hd ht _ => errDeviceCreate_held (hm.of_eq hd) ht
  · exact fun t hd ht => probeIrqEnable_settled (hm.of_eq hd) ht

theorem probeCdevAdd_settled (hm : Mapped k s) (h : s.held = some (.chrdev ::ₘ mapsHeld k)) :
    Settled k (exec k probeCdevAdd s) ↔ (k .cdevAdd = 0 → k .deviceCreate = 0 → Capable k) := by
  apply checked_settled rfl (fun _ => rfl) h errCdevAdd_undoes
  · exact fun t hd ht _ => errCdevAdd_held (hm.of_eq hd) ht
  · exact fun t hd ht => probeDeviceCreate_settled (hm.of_eq hd) ht

theorem probeAllocChrdev_settled (hm : Mapped k s) (h : s.held = some (mapsHeld k)) :
    Settled k (exec k probeAllocChrdev s) ↔
      (k .allocChrdevRegion = 0 → k .cdevAdd = 0 → k .deviceCreate = 0 → Capable k) := by
  apply checked_settled rfl (fun _ => rfl) h errAllocChrdev_undoes
  · exact fun t hd ht _ => errAllocChrdev_held (hm.of_eq hd) ht
  · exact fun t hd ht => probeCdevAdd_settled (hm.of_eq hd) ht

def CleanGarbage (k : KernelCall → ℤ) (garbage : Field → ℤ) : Prop :=
  (k (.pciIomap regBar) = 0 → garbage .membarMmio = 0 ∧ garbage .internalBarMmio = 0) ∧
    (k (.pciIomap regBar) ≠ 0 → k (.pciIomap memBar) = 0 → garbage .internalBarMmio = 0)

def BarsMapped (k : KernelCall → ℤ) : Prop :=
  k (.pciIomap regBar) ≠ 0 ∧ k (.pciIomap memBar) ≠ 0 ∧ k (.pciIomap intBar) ≠ 0

theorem mapBar_exec (f : Field) (bar : ℕ) (next : Code ℤ) : ∃ t : Life,
    t.dev = Function.update s.dev f (k (.pciIomap bar)) ∧
    t.held = s.held.map (withMapping (k (.pciIomap bar))) ∧
    exec k (mapBar f bar next) s =
      if k (.pciIomap bar) = 0 then (-enomem, (exec k pciemuDevClean t).2) else exec k next t := by
  refine ⟨(s.after (.pciIomap bar) (k (.pciIomap bar))).after (.store f (k (.pciIomap bar)))
    (k (.store f (k (.pciIomap bar)))), rfl, ?_, ?_⟩
  · rw [Life.held_neither rfl, Life.held_after]
    by_cases hz : k (.pciIomap bar) = 0
    · have he : KernelCall.effect (k (.pciIomap bar)) (.pciIomap bar) = .neither := if_neg (not_not.mpr hz)
      have hw : withMapping (k (.pciIomap bar)) = id := by
        funext h
        exact if_pos hz
      rw [he, hw, Option.map_id_fun]
      rfl
    · have he : KernelCall.effect (k (.pciIomap bar)) (.pciIomap bar) = .acquire (.mapping (k (.pciIomap bar))) :=
        if_pos hz
      have hw : withMapping (k (.pciIomap bar)) = (.mapping (k (.pciIomap bar)) ::ₘ ·) := by
        funext h
        exact if_neg hz
      rw [he, hw]
      rfl
  · rw [mapBar, exec_request _ _ _ _ rfl, exec_request _ _ _ _ rfl]
    by_cases hz : k (.pciIomap bar) = 0
    · rw [if_pos hz, if_pos hz, exec_bind]
      rfl
    · rw [if_neg hz, if_neg hz]

theorem withMapping_comm (a b : ℤ) (h : Multiset Resource) :
    withMapping a (withMapping b h) = withMapping b (withMapping a h) := by
  unfold withMapping
  split_ifs
  · rfl
  · rfl
  · rfl
  · exact Multiset.cons_swap _ _ h

theorem not_settled_of_none {r : ℤ × Life} (h : r.2.held = none) : ¬Settled k r := by
  rintro (⟨-, hall, -⟩ | ⟨-, hnone⟩)
  · cases h.symm.trans hall
  · cases h.symm.trans hnone

theorem mapping_not_mem (p : ℤ) : .mapping p ∉ regionsHeld k := by simp [regionsHeld, baseHeld]

theorem devInit_failed {t : Life} (ht : (exec k pciemuDevClean t).2.held = some (regionsHeld k)) :
    Settled k (exec k (if -enomem ≠ 0 then errDevInit (-enomem) else probeAllocChrdev) (exec k pciemuDevClean t).2) := by
  have he : -enomem ≠ 0 := by decide
  rw [if_pos he]
  exact (errDevInit_undoes _).settled he (errDevInit_held ht)

theorem devInit_wild {t : Life} (ht : (exec k pciemuDevClean t).2.held = none) :
    ¬Settled k (exec k (if -enomem ≠ 0 then errDevInit (-enomem) else probeAllocChrdev)
      (exec k pciemuDevClean t).2) :=
  not_settled_of_none (exec_held_none _ ht)

theorem probeDevInit_settled (h : s.held = some (regionsHeld k)) :
    Settled k (exec k probeDevInit s) ↔ CleanGarbage k s.dev ∧
      (BarsMapped k → k .allocChrdevRegion = 0 → k .cdevAdd = 0 → k .deviceCreate = 0 → Capable k) := by
  rw [probeDevInit, exec_bind, pciemuDevInit]
  obtain ⟨t, hd, hh, he⟩ := mapBar_exec (k := k) (s := s) .regbarMmio regBar
    (mapBar .membarMmio memBar (mapBar .internalBarMmio intBar (pure 0)))
  rw [he]
  rw [h, Option.map_some] at hh
  by_cases hr : k (.pciIomap regBar) = 0
  · rw [if_pos hr]
    have hbars : ¬BarsMapped k := fun hb => hb.1 hr
    by_cases hg : s.dev .membarMmio = 0 ∧ s.dev .internalBarMmio = 0
    · have hrhs : CleanGarbage k s.dev := ⟨fun _ => hg, fun hn => absurd hr hn⟩
      refine iff_of_true (devInit_failed (devClean_held ?_)) ⟨hrhs, fun hb => absurd hb hbars⟩
      simp [hh, hd, hr, hg.1, hg.2, withMapping]
    · refine iff_of_false (devInit_wild (devClean_wild ?_ (mapping_not_mem (k := k)) ?_)) fun hrhs => hg (hrhs.1.1 hr)
      · simp [hh, hd, hr]
      · simpa [hd] using hg
  · rw [if_neg hr]
    obtain ⟨u, hud, huh, hue⟩ := mapBar_exec (k := k) (s := t) .membarMmio memBar
      (mapBar .internalBarMmio intBar (pure 0))
    rw [hue]
    rw [hh, Option.map_some] at huh
    by_cases hm : k (.pciIomap memBar) = 0
    · rw [if_pos hm]
      have hbars : ¬BarsMapped k := fun hb => hb.2.1 hm
      by_cases hg : s.dev .internalBarMmio = 0
      · have hrhs : CleanGarbage k s.dev := ⟨fun hn => absurd hn hr, fun _ _ => hg⟩
        refine iff_of_true (devInit_failed (devClean_held ?_)) ⟨hrhs, fun hb => absurd hb hbars⟩
        simp [huh, hud, hd, hm, hg, withMapping]
      · refine iff_of_false (devInit_wild (devClean_wild ?_ (mapping_not_mem (k := k)) ?_))
          fun hrhs => hg (hrhs.1.2 hr hm)
        · simp [huh, hud, hd, hm, withMapping]
        · simpa [hud, hd, hm] using hg
    · rw [if_neg hm]
      obtain ⟨v, hvd, hvh, hve⟩ := mapBar_exec (k := k) (s := u) .internalBarMmio intBar (pure 0)
      rw [hve]
      rw [huh, Option.map_some] at hvh
      have hrhs : CleanGarbage k s.dev := ⟨fun hn => absurd hn hr, fun _ hn => absurd hn hm⟩
      have hswap : v.held = some (withMapping (k (.pciIomap regBar)) (withMapping (k (.pciIomap memBar))
          (withMapping (k (.pciIomap intBar)) (regionsHeld k)))) := by
        rw [hvh, withMapping_comm _ (k (.pciIomap memBar)), withMapping_comm _ (k (.pciIomap regBar)),
          withMapping_comm _ (k (.pciIomap regBar))]
      by_cases hi : k (.pciIomap intBar) = 0
      · rw [if_pos hi]
        have hbars : ¬BarsMapped k := fun hb => hb.2.2 hi
        refine iff_of_true (devInit_failed (devClean_held ?_)) ⟨hrhs, fun hb => absurd hb hbars⟩
        simp [hswap, hvd, hud, hd]
      · rw [if_neg hi]
        have hmapped : Mapped k v := ⟨by simp [hvd, hud, hd], by simp [hvd, hud], by simp [hvd], hr, hm, hi⟩
        have hheld : v.held = some (mapsHeld k) := by
          rw [hswap, withMapping, withMapping, withMapping, if_neg hr, if_neg hm, if_neg hi]
          rfl
        have hnext := probeAllocChrdev_settled hmapped hheld
        exact hnext.trans ⟨fun hc => ⟨hrhs, fun _ => hc⟩, fun hc => hc.2 ⟨hr, hm, hi⟩⟩

def regBarSelected (k : KernelCall → ℤ) : Prop := (k .pciSelectBars).testBit regBar

theorem probeRequestRegions_settled (h : s.held = some baseHeld) :
    Settled k (exec k (probeRequestRegions (k .pciSelectBars)) s) ↔
      (k (.pciRequestSelectedRegions (k .pciSelectBars)) = 0 → CleanGarbage k s.dev ∧
        (BarsMapped k → k .allocChrdevRegion = 0 → k .cdevAdd = 0 → k .deviceCreate = 0 → Capable k)) := by
  apply checked_settled rfl (fun _ => rfl) h errSelectRegion_undoes
  · exact fun t _ ht _ => errSelectRegion_held ht
  · intro t hd ht
    have hiff := probeDevInit_settled ht
    rwa [hd] at hiff

theorem probeSelectBars_settled (h : s.held = some (.device ::ₘ .pciemuDev ::ₘ 0)) :
    Settled k (exec k (probeSelectBars 0) s) ↔ regBarSelected k ∧
      (k (.pciRequestSelectedRegions (k .pciSelectBars)) = 0 → CleanGarbage k s.dev ∧
        (BarsMapped k → k .allocChrdevRegion = 0 → k .cdevAdd = 0 → k .deviceCreate = 0 → Capable k)) := by
  rw [probeSelectBars, exec_request _ _ _ _ rfl, exec_request _ _ _ _ rfl]
  let t := (s.after .pciSetMaster (k .pciSetMaster)).after .pciSelectBars (k .pciSelectBars)
  have ht : t.held = some baseHeld := (Life.held_neither rfl).trans (Life.held_acquire h rfl)
  by_cases hb : (k .pciSelectBars).testBit regBar = true
  · rw [if_neg (not_not.mpr hb)]
    exact (probeRequestRegions_settled ht).trans ⟨fun hc => ⟨hb, hc⟩, fun hc => hc.2⟩
  · rw [if_pos hb]
    -- everything is released, and the caller is told that all is well
    refine iff_of_false ?_ fun hc => hb hc.1
    rintro (⟨-, hall, -⟩ | ⟨hne, -⟩)
    · have hheld : (exec k (errSelectRegion 0) t).2.held = some 0 := errSelectRegion_held ht
      have hcard := congrArg Multiset.card (Option.some.inj (hheld.symm.trans hall))
      simp [everything] at hcard
    · exact hne ((errSelectRegion_undoes 0).result t)

theorem probeDmaSetMask_settled (h : s.held = some (.device ::ₘ .pciemuDev ::ₘ 0)) :
    Settled k (exec k probeDmaSetMask s) ↔ (k .dmaSetMaskAndCoherent = 0 → regBarSelected k ∧
      (k (.pciRequestSelectedRegions (k .pciSelectBars)) = 0 → CleanGarbage k s.dev ∧
        (BarsMapped k → k .allocChrdevRegion = 0 → k .cdevAdd = 0 → k .deviceCreate = 0 → Capable k))) := by
  rw [probeDmaSetMask, exec_request _ _ _ _ rfl]
  have ht := (Life.held_neither (c := .dmaSetMaskAndCoherent) (z := k .dmaSetMaskAndCoherent) rfl).trans h
  by_cases hz : k .dmaSetMaskAndCoherent ≠ 0
  · rw [if_pos hz]
    exact iff_of_true ((errDmaSetMask_undoes _).settled hz (errDmaSetMask_held ht)) fun h0 => absurd h0 hz
  · have h0 := not_not.mp hz
    rw [h0] at ht
    rw [if_neg hz, h0]
    exact (probeSelectBars_settled ht).trans ⟨fun hc _ => hc, fun hc => hc rfl⟩

end Unwinding

structure Sound (k : KernelCall → ℤ) (garbage : Field → ℤ) : Prop where
  selected : k .kmalloc ≠ 0 → k .pciEnableDevice = 0 → k .dmaSetMaskAndCoherent = 0 → regBarSelected k
  clean : k .kmalloc ≠ 0 → k .pciEnableDevice = 0 → k .dmaSetMaskAndCoherent = 0 →
    k (.pciRequestSelectedRegions (k .pciSelectBars)) = 0 → CleanGarbage k garbage
  capable : k .kmalloc ≠ 0 → k .pciEnableDevice = 0 → k .dmaSetMaskAndCoherent = 0 →
    k (.pciRequestSelectedRegions (k .pciSelectBars)) = 0 → BarsMapped k → k .allocChrdevRegion = 0 →
    k .cdevAdd = 0 → k .deviceCreate = 0 → Capable k

theorem probe_all_or_nothing_iff (k : KernelCall → ℤ) (garbage : Field → ℤ) :
    AllOrNothing k garbage ↔ Sound k garbage := by
  rw [AllOrNothing, pciemuProbe, exec_request _ _ _ _ rfl]
  by_cases hz : k .kmalloc = 0
  · rw [if_pos hz]
    have he : -enomem ≠ 0 := by decide
    refine iff_of_true (.inr ⟨he, ?_⟩) ⟨fun hk => absurd hz hk, fun hk => absurd hz hk, fun hk => absurd hz hk⟩
    exact (Life.held_neither (c := .kmalloc) (if_neg (not_not.mpr hz))).trans rfl
  · rw [if_neg hz]
    let t := Life.after ⟨garbage, []⟩ .kmalloc (k .kmalloc)
    have ht : t.held = some (.pciemuDev ::ₘ 0) := Life.held_acquire (c := .kmalloc) rfl (if_pos hz)
    have hiff : Settled k (exec k probeEnableDevice t) ↔ (k .pciEnableDevice = 0 → k .dmaSetMaskAndCoherent = 0 →
        regBarSelected k ∧ (k (.pciRequestSelectedRegions (k .pciSelectBars)) = 0 → CleanGarbage k garbage ∧
          (BarsMapped k → k .allocChrdevRegion = 0 → k .cdevAdd = 0 → k .deviceCreate = 0 → Capable k))) := by
      apply checked_settled rfl (fun _ => rfl) ht errPciEnable_undoes
      · exact fun u _ hu _ => errPciEnable_held hu
      · intro u hd hu
        have hmask := probeDmaSetMask_settled (k := k) hu
        rwa [hd] at hmask
    refine hiff.trans ⟨fun hc => ⟨?_, ?_, ?_⟩, fun hc => ?_⟩
    · exact fun _ h1 h2 => (hc h1 h2).1
    · exact fun _ h1 h2 h3 => ((hc h1 h2).2 h3).1
    · exact fun _ h1 h2 h3 => ((hc h1 h2).2 h3).2
    · exact fun h1 h2 => ⟨hc.selected hz h1 h2, fun h3 => ⟨hc.clean hz h1 h2 h3, hc.capable hz h1 h2 h3⟩⟩

def missingBarKernel : KernelCall → ℤ
  | .kmalloc => 1
  | .pciSelectBars => 5
  | _ => 0

theorem probe_missing_bar : ¬AllOrNothing missingBarKernel fun _ => 0 := by
  rintro (⟨-, hall, -⟩ | ⟨hne, -⟩)
  · have hcard := congrArg (Option.map Multiset.card) hall
    revert hcard
    decide
  · exact hne rfl

end Pciemu.Driver
