import Pciemu.Exclusion

namespace Pciemu.Driver

open Device AuroraHw Runs

structure PageBook where
  pinned : ℕ → Option ℕ
  mapped : ℕ → Option Event

def PageBook.empty : PageBook := ⟨fun _ => none, fun _ => none⟩

def dmaMask : UInt64 := dmaBitMask dmaAddrCapability

def PageBook.step (b : PageBook) : KernelEvent → Option PageBook
  | .getUserPagesFast c (some p) =>
    if b.pinned c = none then some { b with pinned := Function.update b.pinned c (some p) } else none
  | .dmaMapPage c p _ len d handle =>
    if b.pinned c = some p then
      some { b with mapped := Function.update b.mapped c (handle.map fun a => busCall dmaMask a len d) }
    else none
  | .transfer (.doorbell c) e => if b.mapped c = some e then some b else none
  | _ => some b

section Book

variable {T : Type}

def Own (dma : PciemuDma T) (b : PageBook) (th : Thread) : Prop :=
  match th.stage with
  | .getUserPages => b.pinned th.call = none
  | .readPage => b.pinned th.call = some dma.page
  | .lock | .structInit | .mapPage => b.pinned th.call = some th.page
  | .iowrite _ => b.mapped th.call = some (busCall dmaMask dma.dmaHandle dma.len th.direction)
  | _ => True

structure Booked (s : System T) (b : PageBook) : Prop where
  base : Base s
  fresh : ∀ c, s.calls ≤ c → b.pinned c = none
  own : ∀ t, Own s.dma b (s.thread t)

def PageKept (s : System T) : Action T → Prop
  | .getUserPagesFast t (some p) => ∀ t', t' ≠ t → (s.thread t').stage = .readPage → s.dma.page = p
  | _ => True

theorem Own.frame {dma dma' : PciemuDma T} {b b' : PageBook} {th : Thread} (h : Own dma b th)
    (hbook : th.stage ≠ .user → b'.pinned th.call = b.pinned th.call ∧ b'.mapped th.call = b.mapped th.call)
    (hpage : th.stage = .readPage → dma'.page = dma.page)
    (hmap : th.stage.locked → dma'.dmaHandle = dma.dmaHandle ∧ dma'.len = dma.len) : Own dma' b' th := by
  unfold Own at h ⊢
  cases hs : th.stage with
  | getUserPages =>
    rw [hs] at h
    exact (hbook (by simp [hs])).1.trans h
  | readPage =>
    rw [hs] at h
    simp only [hpage hs]
    exact (hbook (by simp [hs])).1.trans h
  | lock =>
    rw [hs] at h
    exact (hbook (by simp [hs])).1.trans h
  | structInit =>
    rw [hs] at h
    exact (hbook (by simp [hs])).1.trans h
  | mapPage =>
    rw [hs] at h
    exact (hbook (by simp [hs])).1.trans h
  | iowrite n =>
    rw [hs] at h
    obtain ⟨hh, hl⟩ := hmap (by rw [hs]; rfl)
    simp only [hh, hl]
    exact (hbook (by simp [hs])).2.trans h
  | _ => trivial

theorem Own.turn {dma dma' : PciemuDma T} {b : PageBook} {t : T} {th th' : Thread} {a : Action T}
    {es : List KernelEvent} (h : Own dma b th) (hdir : th.stage = .mapPage → dma.direction = th.direction)
    (ht : Turn dma t th a th' dma' es) : ∃ b', Runs.run PageBook.step b es = some b' ∧ Own dma' b' th' ∧
      ∀ c, c ≠ th.call → b'.pinned c = b.pinned c ∧ b'.mapped c = b.mapped c := by
  cases ht with
  | pinned p hs =>
    simp only [Own, hs] at h
    refine ⟨{ b with pinned := Function.update b.pinned th.call (some p) }, ?_, ?_, ?_⟩
    · rw [run_singleton, PageBook.step, if_pos h]
    · exact Function.update_self _ _ _
    · exact fun c hc => ⟨Function.update_of_ne hc _ _, rfl⟩
  | mapFailed hs =>
    simp only [Own, hs] at h
    refine ⟨{ b with mapped := Function.update b.mapped th.call none }, ?_, trivial, ?_⟩
    · rw [run_singleton, PageBook.step, if_pos h, Option.map_none]
    · exact fun c hc => ⟨rfl, Function.update_of_ne hc _ _⟩
  | mapped a hs =>
    let call := busCall dmaMask a dma.len th.direction
    have hp := h
    simp only [Own, hs] at hp
    refine ⟨{ b with mapped := Function.update b.mapped th.call (some call) }, ?_, ?_, ?_⟩
    · rw [run_singleton, PageBook.step, if_pos hp, Option.map_some, hdir hs]
    · exact Function.update_self th.call (some call) b.mapped
    · exact fun c hc => ⟨rfl, Function.update_of_ne hc _ _⟩
  | pinFailed hs => exact ⟨b, rfl, trivial, fun _ _ => ⟨rfl, rfl⟩⟩
  | readPage hs =>
    simp only [Own, hs] at h
    exact ⟨b, rfl, h, fun _ _ => ⟨rfl, rfl⟩⟩
  | lock hs hfree =>
    simp only [Own, hs] at h
    exact ⟨b, rfl, h, fun _ _ => ⟨rfl, rfl⟩⟩
  | structInit hs =>
    simp only [Own, hs] at h
    exact ⟨b, rfl, h, fun _ _ => ⟨rfl, rfl⟩⟩
  | wait source hs hc => exact ⟨b, rfl, trivial, fun _ _ => ⟨rfl, rfl⟩⟩
  | unlock r hs => exact ⟨b, rfl, trivial, fun _ _ => ⟨rfl, rfl⟩⟩
  | ret code hs => exact ⟨b, rfl, trivial, fun _ _ => ⟨rfl, rfl⟩⟩

theorem Booked.others {s : System T} {b : PageBook} (h : Booked s b) {t : T} (ht : (s.thread t).stage ≠ .user)
    (dma' : PciemuDma T) (b' : PageBook)
    (hbook : ∀ c, c ≠ (s.thread t).call → b'.pinned c = b.pinned c ∧ b'.mapped c = b.mapped c)
    (hpage : ∀ t', t' ≠ t → (s.thread t').stage = .readPage → dma'.page = s.dma.page)
    (hmap : (s.thread t).stage.locked ∨ dma'.dmaHandle = s.dma.dmaHandle ∧ dma'.len = s.dma.len) :
    ∀ t', t' ≠ t → Own dma' b' (s.thread t') := by
  intro t' hne
  apply (h.own t').frame
  · intro hs
    apply hbook
    exact fun he => hne (h.base.unique t' t hs ht he)
  · exact hpage t' hne
  · intro hl
    obtain hown | hsame := hmap
    · have := (h.base.owner hl).symm.trans (h.base.owner hown)
      exact absurd (Option.some.inj this) hne
    · exact hsame

theorem Booked.aside {s s' : System T} {b : PageBook} (h : Booked s b) (ha : Aside s s') : Booked s' b where
  base := h.base.aside ha
  fresh := ha.calls ▸ h.fresh
  own := by
    intro t
    rw [ha.thread, ha.dma]
    exact h.own t

theorem Probed.booked {s : System T} (h : Probed s) : Booked s .empty where
  base := h.base
  fresh := fun _ _ => rfl
  own := by
    intro t
    simp only [Own, h.user t]

variable [DecidableEq T]

theorem Booked.update {s s' : System T} {b b' : PageBook} (h : Booked s b) (hbase : Base s') {t : T} {th : Thread}
    (hth : s'.thread = Function.update s.thread t th) (hcalls : s'.calls = s.calls)
    (hfresh : ∀ c, c ≠ (s.thread t).call → b'.pinned c = b.pinned c) (ht : (s.thread t).stage ≠ .user)
    (hown : Own s'.dma b' th) (hother : ∀ t', t' ≠ t → Own s'.dma b' (s.thread t')) : Booked s' b' where
  base := hbase
  fresh := by
    intro c hc
    rw [hcalls] at hc
    have hne : c ≠ (s.thread t).call := (Nat.lt_of_lt_of_le (h.base.fresh t ht) hc).ne'
    rw [hfresh c hne]
    exact h.fresh c hc
  own := by
    rw [hth]
    exact (Function.forall_update_iff s.thread fun _ th => Own s'.dma b' th).mpr ⟨hown, hother⟩

theorem Booked.turn {s : System T} {b : PageBook} (h : Booked s b) {t : T} {a : Action T} {th : Thread}
    {dma : PciemuDma T} {es : List KernelEvent} (ht : Turn s.dma t (s.thread t) a th dma es) (hkept : PageKept s a) :
    ∃ b', Runs.run PageBook.step b es = some b' ∧ Booked (s.turn t th dma es) b' := by
  have hdir : (s.thread t).stage = .mapPage → s.dma.direction = (s.thread t).direction :=
    fun hs => (h.base.at_mapPage hs).2.2.2
  obtain ⟨b', hrun, hown, hbook⟩ := (h.own t).turn hdir ht
  refine ⟨b', hrun, h.update (h.base.turn ht) rfl rfl (fun c hc => (hbook c hc).1) ht.inside hown ?_⟩
  refine h.others ht.inside dma b' hbook ?_ ht.mapping
  intro t' hne hr
  obtain hpage | ⟨p, rfl, hpage⟩ := ht.page
  · exact hpage
  · rw [hpage]
    exact (hkept t' hne hr).symm

theorem Booked.ioctl {s : System T} {b : PageBook} (h : Booked s b) (t : T) (cmd : UInt32) (vaddr : UInt64)
    (hs : (s.thread t).stage = .user) :
    Booked ({ s with calls := s.calls + 1 }.setThread t (pciemuIoctl s.calls cmd vaddr)) b := by
  refine ⟨h.base.ioctl t cmd vaddr hs, fun c hc => h.fresh c (Nat.le_of_succ_le hc), ?_⟩
  simp only [System.setThread_thread, Function.forall_update_iff]
  refine ⟨?_, fun t' _ => h.own t'⟩
  have hnew := h.fresh s.calls (Nat.le_refl _)
  unfold pciemuIoctl
  split_ifs
  · exact hnew
  · exact hnew
  · trivial

theorem Booked.move {bus : Bus} {W : Set (List (UInt64 × UInt64))} (hb : bus.Delivers W) {s s' : System T}
    {a : Action T} {b : PageBook} (h : Booked s b) (hm : Move bus s a s') (hkept : PageKept s a) :
    ∃ es b', s'.log = s.log ++ es ∧ Runs.run PageBook.step b es = some b' ∧ Booked s' b' := by
  have hbase := h.base.move hb hm
  have hquiet (e : KernelEvent) (he : e.fromHandler) : PageBook.step b e = some b := by
    cases e <;> first | rfl | cases he
  cases hm with
  | ioctl t cmd vaddr hs => exact monitor_silent rfl (h.ioctl t cmd vaddr hs)
  | turn t ht =>
    obtain ⟨b', hrun, hbook⟩ := h.turn ht hkept
    exact ⟨_, b', rfl, hrun, hbook⟩
  | iowrite t n w hs hw =>
    have ht : (s.thread t).stage ≠ .user := by simp [hs]
    have hp : b.mapped (s.thread t).call = some (busCall dmaMask s.dma.dmaHandle s.dma.len (s.thread t).direction) := by
      simpa only [Own, hs] using h.own t
    have hother := h.others ht s.dma b (fun _ _ => ⟨rfl, rfl⟩) (fun _ _ _ => rfl) (.inr ⟨rfl, rfl⟩)
    obtain ⟨v, r, -, -, he⟩ | ⟨ws, -, m', -, -, -, he⟩ := h.base.iowrite_cases hb hs hw
    · rw [he] at hbase ⊢
      exact monitor_silent rfl (h.update hbase rfl rfl (fun _ _ => rfl) ht hp hother)
    · rw [he] at hbase ⊢
      refine ⟨[_], b, rfl, ?_, h.update hbase rfl rfl (fun _ _ => rfl) ht trivial hother⟩
      have hmask : s.hw.dma.config.mask = dmaMask := h.base.ready.mask
      rw [run_singleton, PageBook.step, hmask, if_pos hp]
  | irq hi => exact (hi.aside h.base.ready).monitored hquiet (h.aside (hi.aside h.base.ready))
  | mmapRaise val =>
    have ha (pending : List Source) := mmapRaise_aside bus h.base.ready val pending
    exact (ha _).monitored hquiet (h.aside (ha _))

theorem own_page_transferred (bus : Bus) (W : Set (List (UInt64 × UInt64))) (hb : bus.Delivers W)
    (s s' : System T) (hs : Probed s) (as : List (Action T))
    (hkept : Along (step bus) (fun s a _ => PageKept s a) s as) (hr : Runs.run (step bus) s as = some s') :
    (Runs.run PageBook.step .empty s'.log).isSome := by
  obtain ⟨b, hrun, -⟩ := run_monitor (R := Booked) (fun s a t b h ht hp => h.move hb (step_move bus s ht) hp)
    as hs.log hs.booked hkept hr
  rw [hrun]
  rfl

end Book

instance {T : Type} [Fintype T] [DecidableEq T] (s : System T) : (a : Action T) → Decidable (PageKept s a)
  | .getUserPagesFast t (some p) =>
    inferInstanceAs (Decidable (∀ t', t' ≠ t → (s.thread t').stage = .readPage → s.dma.page = p))
  | .getUserPagesFast _ none => isTrue trivial
  | .ioctl _ _ _ => isTrue trivial
  | .dmaMapPage _ _ => isTrue trivial
  | .advance _ => isTrue trivial
  | .irq => isTrue trivial
  | .mmapRaise _ => isTrue trivial

def justProbed (T : Type) : System T where
  calls := 0
  thread _ := ⟨.user, 0, .toDevice, 0, 0, 0⟩
  dma := ⟨0, 0, 0, .toDevice, 0, none, none⟩
  hw := Device.run copyBus (pciemuDeviceInit zeroEngine fun i => UInt8.ofNat i) [.setMode true false]
  pending := []
  handler := none
  log := []

theorem justProbed_probed (T : Type) : Probed (justProbed T) :=
  ⟨⟨run_ready copyBus_delivers _ _ _ (.inl rfl), fun _ => rfl, rfl, rfl, rfl⟩, rfl⟩

def programming {T : Type} (t : T) (handle : UInt64) : List (Action T) :=
  List.replicate 3 (.advance t) ++ .dmaMapPage t (some handle) :: List.replicate 5 (.advance t)

theorem own_page_transferred_shared :
    let as := [.ioctl true ioctlDmaToDevice 0x1000, .ioctl false ioctlDmaToDevice 0x1004,
      .getUserPagesFast true (some 1), .getUserPagesFast false (some 1)] ++ programming true 0x1000
    ∃ s, Runs.run (step copyBus) (justProbed Bool) as = some s ∧
      .transfer (.doorbell 0) (.pciDmaRead 0x1000 0 4) ∈ s.log ∧ (Runs.run PageBook.step .empty s.log).isSome := by
  intro as
  have hsome : (Runs.run (step copyBus) (justProbed Bool) as).isSome := by decide
  obtain ⟨s, hr⟩ := Option.isSome_iff_exists.mp hsome
  refine ⟨s, hr, ?_, own_page_transferred copyBus {[]} copyBus_delivers (justProbed Bool) s
    (justProbed_probed Bool) as (by decide) hr⟩
  have hlog : (Runs.run (step copyBus) (justProbed Bool) as).map (fun s => decide (.transfer (.doorbell 0)
      (.pciDmaRead 0x1000 0 4) ∈ s.log)) = some true := by decide
  rw [hr] at hlog
  simpa using hlog

theorem own_page_stolen :
    let as := [.ioctl true ioctlDmaToDevice 0x1000, .ioctl false ioctlDmaToDevice 0x2000,
      .getUserPagesFast true (some 1), .getUserPagesFast false (some 2)] ++ programming true 0x2000
    Probed (justProbed Bool) ∧
      (Runs.run (step copyBus) (justProbed Bool) as).map System.log = some
        [.getUserPagesFast 0 (some 1), .getUserPagesFast 1 (some 2), .dmaMapPage 0 2 0 4 .toDevice (some 0x2000),
          .transfer (.doorbell 0) (.pciDmaRead 0x2000 0 4)] ∧
      (Runs.run (step copyBus) (justProbed Bool) as).map (fun s => (Runs.run PageBook.step .empty s.log).isSome) =
        some false := by
  intro as
  exact ⟨justProbed_probed Bool, by decide, by decide⟩

end Pciemu.Driver
