import Pciemu.Roundtrip
import Mathlib.Algebra.BigOperators.Fin

namespace Pciemu.Driver

open Device AuroraHw Runs

/-- The steps a caller may still cause, where a transfer may bring `k` interrupts besides its own. -/
def Stage.work (k : ℕ) : Stage → ℕ
  | .getUserPages => 18 + 5 * k
  | .readPage => 17 + 5 * k
  | .lock => 16 + 5 * k
  | .structInit => 15 + 5 * k
  | .mapPage => 14 + 5 * k
  | .iowrite n => 13 + 5 * k - n
  | .wait => 3
  | .unlock _ => 2
  | .ret _ => 1
  | .user => 0

def HandlerStage.work : HandlerStage → ℕ
  | .unmap => 4
  | .putPage => 3
  | .ack => 2
  | .complete => 1

section Work

variable {T : Type}

def Action.demand (k : ℕ) : Action T → ℕ
  | .ioctl _ _ _ => 19 + 5 * k
  | .mmapRaise _ => 6
  | _ => 0

def Answered (pin : T → Option ℕ) (map : T → Option UInt64) : Action T → Prop
  | .getUserPagesFast t page => page = pin t
  | .dmaMapPage t handle => handle = map t
  | .advance _ | .irq => True
  | .ioctl _ _ _ | .mmapRaise _ => False

theorem outcomes_answered {pin : T → Option ℕ} {map : T → Option UInt64} {t : T} {a : Action T}
    (h : Outcomes t (pin t) (map t) a) : Answered pin map a := by
  cases a with
  | getUserPagesFast t' page =>
    obtain ⟨rfl, rfl⟩ := h
    rfl
  | dmaMapPage t' handle =>
    obtain ⟨rfl, rfl⟩ := h
    rfl
  | advance t' => trivial
  | irq => trivial
  | ioctl t' cmd vaddr => exact h
  | mmapRaise val => exact h

def System.work [Fintype T] (k : ℕ) (s : System T) : ℕ :=
  ∑ t, (s.thread t).stage.work k + 5 * s.pending.length + s.handler.elim 0 fun h => h.1.work

theorem Quiescent.work_eq [Fintype T] {s : System T} (h : Quiescent s) (k : ℕ) : s.work k = 0 := by
  simp [System.work, h.user, h.pending, h.handler, Stage.work]

structure Live (s : System T) : Prop where
  base : Base s
  writes : ∀ t n, (s.thread t).stage = .iowrite n → n ≤ 4
  awaited : ∀ t, (s.thread t).stage = .wait → Quiet s → s.dma.completion.isSome

theorem Quiescent.live {s : System T} (h : Quiescent s) : Live s where
  base := h.base
  writes := by
    intro t n hs
    rw [h.user t] at hs
    cases hs
  awaited := by
    intro t hs
    rw [h.user t] at hs
    cases hs

theorem Live.handler {s s' : System T} (h : Live s) (hbase : Base s') (hth : s'.thread = s.thread)
    (hdone : Quiet s' → Quiet s ∧ s'.dma.completion = s.dma.completion ∨ s'.dma.completion.isSome) : Live s' where
  base := hbase
  writes := hth ▸ h.writes
  awaited := by
    intro t hs hq
    rw [hth] at hs
    obtain ⟨hq', hc⟩ | hc := hdone hq
    · rw [hc]
      exact h.awaited t hs hq'
    · exact hc

variable [DecidableEq T]

theorem Live.update {s s' : System T} (h : Live s) (hbase : Base s') {t : T} {th : Thread}
    (hth : s'.thread = Function.update s.thread t th) (hw : ∀ n, th.stage = .iowrite n → n ≤ 4)
    (hown : th.stage = .wait → ¬Quiet s')
    (hother : ∀ t' ≠ t, (s.thread t').stage = .wait → Quiet s' → s'.dma.completion.isSome) : Live s' where
  base := hbase
  writes := by
    rw [hth]
    exact (Function.forall_update_iff s.thread fun _ th => ∀ n, th.stage = .iowrite n → n ≤ 4).mpr
      ⟨hw, fun t' _ => h.writes t'⟩
  awaited := by
    rw [hth]
    exact (Function.forall_update_iff s.thread fun _ th => th.stage = .wait → Quiet s' →
      s'.dma.completion.isSome).mpr ⟨fun hs hq => absurd hq (hown hs), hother⟩

theorem Live.turn {s : System T} (h : Live s) {t : T} {a : Action T} {th : Thread} {dma : PciemuDma T}
    {es : List KernelEvent} (ht : Turn s.dma t (s.thread t) a th dma es) : Live (s.turn t th dma es) := by
  have hbase := h.base.turn ht
  have hkeep (hc : dma.completion = s.dma.completion) (t' : T) (_ : t' ≠ t) (hw : (s.thread t').stage = .wait)
      (hq : Quiet s) : dma.completion.isSome := hc ▸ h.awaited t' hw hq
  cases ht with
  | structInit hs =>
    refine h.update hbase rfl (by simp) (by simp) ?_
    -- the completion is armed again, but nobody else can be waiting for it
    intro t' hne hw
    have hown := h.base.owner (t := t) (by rw [hs]; rfl)
    have hown' := h.base.owner (t := t') (by rw [hw]; rfl)
    exact absurd (Option.some.inj (hown'.symm.trans hown)) hne
  | _ => exact h.update hbase rfl (by simp) (by simp) (hkeep rfl)

theorem Live.move {bus : Bus} {W : Set (List (UInt64 × UInt64))} (hb : bus.Delivers W) {s s' : System T}
    {a : Action T} (h : Live s) (hm : Move bus s a s') : Live s' := by
  have hbase := h.base.move hb hm
  have hkeep (t : T) : ∀ t' ≠ t, (s.thread t').stage = .wait → Quiet s → s.dma.completion.isSome :=
    fun t' _ => h.awaited t'
  cases hm with
  | ioctl t cmd vaddr hs =>
    have hu := pciemuIoctl_unlocked s.calls cmd vaddr
    refine h.update hbase rfl ?_ ?_ (hkeep t)
    · intro n hn
      rw [hn] at hu
      cases hu
    · intro hw
      rw [hw] at hu
      cases hu
  | turn t ht => exact h.turn ht
  | iowrite t n w hs hw =>
    obtain ⟨v, r, hn, -, he⟩ | ⟨ws, -, m', -, -, -, he⟩ := h.base.iowrite_cases hb hs hw
    · rw [he] at hbase ⊢
      refine h.update hbase rfl ?_ (by simp) (hkeep t)
      intro k hk
      rw [← Stage.iowrite.inj hk]
      exact hn
    · rw [he] at hbase ⊢
      have hbusy (u : System T) (hp : u.pending = s.pending ++
          List.replicate (raisesIn ws + 1) (Source.doorbell (s.thread t).call)) : ¬Quiet u := by
        intro hq
        simpa using hp.symm.trans hq.1
      exact h.update hbase rfl (by simp) (fun _ => hbusy _ rfl) fun t' _ _ hq => absurd hq (hbusy _ rfl)
  | irq hi =>
    cases hi with
    | complete source hs => exact h.handler hbase rfl fun _ => .inr rfl
    | _ => exact h.handler hbase rfl fun hq => absurd hq (not_quiet_handler rfl)
  | mmapRaise val =>
    refine h.handler hbase rfl fun hq => .inl ⟨⟨?_, hq.2⟩, rfl⟩
    exact (List.append_eq_nil_iff.mp hq.1).1

theorem Live.enabled (bus : Bus) {s : System T} (h : Live s) (hs : ¬Quiescent s) (pin : T → Option ℕ)
    (map : T → Option UInt64) : ∃ a s', Move bus s a s' ∧ Answered pin map a := by
  by_cases hq : Quiet s
  · have hcaller (t : T) (hu : (s.thread t).stage ≠ .user) (hlock : (s.thread t).stage = .lock → s.dma.mtx = none) :
        ∃ a s', Move bus s a s' ∧ Answered pin map a := by
      obtain ⟨a, s', hm, ha⟩ := caller_enabled bus hu hlock (h.writes t) (fun hw => h.awaited t hw hq) (pin t) (map t)
      exact ⟨a, s', hm, outcomes_answered ha⟩
    cases hm : s.dma.mtx with
    | some t =>
      -- the owner of the mutex is never held up
      have hl := (h.base.each t).locked_iff.mpr hm
      refine hcaller t ?_ ?_
      · intro hu
        rw [hu] at hl
        cases hl
      · intro hu
        rw [hu] at hl
        cases hl
    | none =>
      have huser : ¬∀ t, (s.thread t).stage = .user :=
        fun hu => hs ⟨h.base.ready, hu, hm, hq.1, hq.2⟩
      obtain ⟨t, ht⟩ := not_forall.mp huser
      exact hcaller t ht fun _ => hm
  · obtain ⟨s', hi⟩ := irq_enabled bus hq
    exact ⟨.irq, s', .irq hi, trivial⟩

variable [Fintype T]

theorem sum_update_work (k : ℕ) (thread : T → Thread) (t : T) (th : Thread) :
    ∑ t', (Function.update thread t th t').stage.work k + (thread t).stage.work k =
      ∑ t', (thread t').stage.work k + th.stage.work k := by
  have hupd : (fun t' => (Function.update thread t th t').stage.work k) =
      Function.update (fun t' => (thread t').stage.work k) t (th.stage.work k) := by
    funext t'
    exact Function.apply_update (fun _ th => th.stage.work k) thread t th t'
  rw [hupd, Finset.sum_update_of_mem (Finset.mem_univ t),
    ← Finset.add_sum_erase Finset.univ _ (Finset.mem_univ t), Finset.sdiff_singleton_eq_erase]
  omega

theorem work_caller (k : ℕ) {s s' : System T} {t : T} {th : Thread} {gain : ℕ}
    (hth : s'.thread = Function.update s.thread t th) (hh : s'.handler = s.handler)
    (hle : th.stage.work k + 5 * s'.pending.length + 1 ≤ (s.thread t).stage.work k + 5 * s.pending.length + gain) :
    s'.work k + 1 ≤ s.work k + gain := by
  have hsum := sum_update_work k s.thread t th
  rw [System.work, System.work, hth, hh]
  omega

omit [DecidableEq T] in
theorem work_handler (k : ℕ) {s s' : System T} {gain : ℕ} (hth : s'.thread = s.thread)
    (hle : 5 * s'.pending.length + s'.handler.elim 0 (fun h => h.1.work) + 1 ≤
      5 * s.pending.length + s.handler.elim 0 (fun h => h.1.work) + gain) : s'.work k + 1 ≤ s.work k + gain := by
  rw [System.work, System.work, hth]
  omega

theorem pciemuIoctl_work (k call : ℕ) (cmd : UInt32) (vaddr : UInt64) :
    (pciemuIoctl call cmd vaddr).stage.work k ≤ 18 + 5 * k := by
  unfold pciemuIoctl
  dsimp only
  split_ifs
  · exact Nat.le_refl _
  · exact Nat.le_refl _
  · change 1 ≤ 18 + 5 * k
    omega

omit [DecidableEq T] [Fintype T] in
theorem turn_work (k : ℕ) {dma dma' : PciemuDma T} {t : T} {th th' : Thread} {a : Action T} {es : List KernelEvent}
    (h : Turn dma t th a th' dma' es) : th'.stage.work k + 1 ≤ th.stage.work k := by
  cases h with
  | wait source hs hc => simp only [hs, Stage.work, Nat.le_refl]
  | _ =>
    simp_all only [Stage.work]
    omega

omit [DecidableEq T] in
theorem irq_work {bus : Bus} (k gain : ℕ) {s s' : System T} (hready : Ready s.hw) (h : Irq bus s s') :
    s'.work k + 1 ≤ s.work k + gain := by
  cases h with
  | enter source rest hs hp =>
    refine work_handler k rfl ?_
    simp only [hs, hp, System.emit_pending, System.emit_handler, Option.elim, HandlerStage.work, List.length_cons]
    omega
  | unmap source hs =>
    refine work_handler k rfl ?_
    simp only [hs, System.emit_pending, System.emit_handler, Option.elim, HandlerStage.work]
    omega
  | putPage source hs =>
    refine work_handler k rfl ?_
    simp only [hs, System.emit_pending, System.emit_handler, Option.elim, HandlerStage.work]
    omega
  | ack source hs =>
    rw [iowrite32_ack bus { s with handler := some (.complete, source) } hready]
    refine work_handler k rfl ?_
    simp only [hs, Option.elim, HandlerStage.work]
    omega
  | complete source hs =>
    refine work_handler k rfl ?_
    simp only [hs, System.setDma_pending, System.setDma_handler, Option.elim, HandlerStage.work]
    omega

theorem Live.work_le {bus : Bus} {W : Set (List (UInt64 × UInt64))} (hb : bus.Delivers W) {k : ℕ}
    (hk : ∀ ws ∈ W, raisesIn ws ≤ k) {s s' : System T} {a : Action T} (h : Live s) (hm : Move bus s a s') :
    s'.work k + 1 ≤ s.work k + a.demand k := by
  cases hm with
  | ioctl t cmd vaddr hs =>
    have hle := pciemuIoctl_work k s.calls cmd vaddr
    refine work_caller k rfl rfl ?_
    rw [hs]
    change _ + 5 * s.pending.length + 1 ≤ 0 + 5 * s.pending.length + (19 + 5 * k)
    omega
  | turn t ht =>
    have hle := turn_work k ht
    refine work_caller k rfl rfl ?_
    rw [System.turn_pending]
    omega
  | iowrite t n w hs hw =>
    obtain ⟨v, r, hn, -, he⟩ | ⟨ws, hws, m', rfl, -, -, he⟩ := h.base.iowrite_cases hb hs hw
    · rw [he]
      refine work_caller k rfl rfl ?_
      simp only [hs, Stage.work, System.setStage_pending]
      omega
    · -- the interrupts of the transfer are paid for by the write that causes them
      rw [he]
      refine work_caller k rfl rfl ?_
      have hraises := hk ws hws
      simp only [hs, Stage.work, System.setStage_pending, List.length_append, List.length_replicate]
      omega
  | irq hi => exact irq_work k _ h.base.ready hi
  | mmapRaise val =>
    have hone := (raise_reentered s.hw).notified h.base.ready.mode
    refine work_handler k rfl ?_
    change _ ≤ _ + 6
    simp only [raise_write, hone, Nat.add_sub_cancel_left, List.length_append, List.length_replicate]
    omega

theorem calls_return (bus : Bus) (W : Set (List (UInt64 × UInt64))) (hb : bus.Delivers W) (k : ℕ)
    (hk : ∀ ws ∈ W, raisesIn ws ≤ k) (s s' : System T) (hs : Quiescent s) (as : List (Action T))
    (hr : Runs.run (step bus) s as = some s') :
    as.length ≤ (as.map (Action.demand k)).sum ∧
    (∀ bs s'', (∀ b ∈ bs, b.demand k = 0) → Runs.run (step bus) s' bs = some s'' → bs.length ≤ s'.work k) ∧
    ∀ pin map, (¬Quiescent s' → ∃ a s'', step bus s' a = some s'' ∧ Answered pin map a) ∧
      ∃ bs s'', Along (step bus) (fun _ b _ => Answered pin map b) s' bs ∧
        Runs.run (step bus) s' bs = some s'' ∧ Quiescent s'' := by
  have hstep (s : System T) (a : Action T) (t : System T) (h : Live s) (ht : step bus s a = some t) (_ : True) :
      Live t ∧ t.work k + 1 ≤ s.work k + a.demand k :=
    ⟨h.move hb (step_move bus s ht), h.work_le hb hk (step_move bus s ht)⟩
  have hany (s : System T) (as : List (Action T)) : Along (step bus) (fun _ _ _ => True) s as :=
    along_of_forall s as fun _ _ => trivial
  obtain ⟨hlive, hlen⟩ := run_length (System.work k) (Action.demand k) hstep as hs.live (hany s as) hr
  refine ⟨?_, ?_, fun pin map => ⟨?_, ?_⟩⟩
  · rw [hs.work_eq k] at hlen
    omega
  · intro bs s'' hzero hr'
    have hle := (run_length (System.work k) (Action.demand k) hstep bs hlive (hany s' bs) hr').2
    have hsum : (bs.map (Action.demand k)).sum = 0 := by
      apply List.sum_eq_zero
      intro x hx
      obtain ⟨b, hmem, rfl⟩ := List.mem_map.mp hx
      exact hzero b hmem
    omega
  · intro hq
    obtain ⟨a, s'', hm, ha⟩ := hlive.enabled bus hq pin map
    exact ⟨a, s'', move_step bus s' hm, ha⟩
  · apply exists_run (I := Live) (System.work k) _ hlive
    intro u hu hq
    obtain ⟨a, u', hm, ha⟩ := hu.enabled bus hq pin map
    have hw := hu.work_le hb hk hm
    refine ⟨a, u', move_step bus u hm, ha, hu.move hb hm, ?_⟩
    cases a with
    | ioctl t cmd vaddr => exact ha.elim
    | mmapRaise val => exact ha.elim
    | _ => exact hw

end Work

theorem calls_return_two :
    let as := [.ioctl true ioctlDmaToDevice 0x1000, .ioctl false ioctlDmaFromDevice 0x1004, .mmapRaise 1,
      .getUserPagesFast true (some 1), .irq]
    ∃ s, Runs.run (step copyBus) (justProbed Bool) as = some s ∧ as.length ≤ 44 ∧
      ∃ bs s', Runs.run (step copyBus) s bs = some s' ∧ Quiescent s' := by
  intro as
  have hsome : (Runs.run (step copyBus) (justProbed Bool) as).isSome := by decide
  obtain ⟨s, hr⟩ := Option.isSome_iff_exists.mp hsome
  obtain ⟨hlen, -, h⟩ := calls_return copyBus {[]} copyBus_delivers 0 (by simp [raisesIn]) (justProbed Bool) s
    (justProbed_probed Bool).toQuiescent as hr
  obtain ⟨-, bs, s', -, hr', hq⟩ := h (fun _ => none) fun _ => none
  exact ⟨s, hr, hlen, bs, s', hr', hq⟩

end Pciemu.Driver
