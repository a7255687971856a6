import Pciemu.OwnPage

namespace Pciemu.Driver

open Device AuroraHw Runs

structure Mapping where
  call : ℕ
  handle : UInt64
  len : ℕ
  direction : DmaDataDirection
  deriving DecidableEq

/-- The live mapping, if there is one. A second one may not be made, what is unmapped must be the
mapping that is live, the handler must find one, a call must not return before its own is gone, and
a call waits for its own interrupt. -/
def MapBook.step (live : Option Mapping) : KernelEvent → Option (Option Mapping)
  | .dmaMapPage c _ _ len d (some a) => if live = none then some (some ⟨c, a, len, d⟩) else none
  | .dmaUnmapPage a len d => match live with
    | some m => if m.handle = a ∧ m.len = len ∧ m.direction = d then some none else none
    | none => none
  | .irqHandler _ => if live.isSome then some live else none
  | .waitForCompletion c source => if source = .doorbell c then some live else none
  | .returned c _ => if ∃ m ∈ live, m.call = c then none else some live
  | _ => some live

section Handshake

variable {T : Type}

def mappingOf (dma : PciemuDma T) (call : ℕ) : Mapping := ⟨call, dma.dmaHandle, dma.len, dma.direction⟩

def Quiet (s : System T) : Prop := s.pending = [] ∧ s.handler = none

theorem not_quiet_pending {s : System T} {source : Source} {rest : List Source} (h : s.pending = source :: rest) :
    ¬Quiet s := by
  intro hq
  cases h.symm.trans hq.1

theorem not_quiet_handler {s : System T} {r : HandlerStage × Source} (h : s.handler = some r) : ¬Quiet s := by
  intro hq
  cases h.symm.trans hq.2

inductive Waiting (m : Mapping) :
    List Source → Option (HandlerStage × Source) → Option Source → Option Mapping → Prop
  | raised : Waiting m [.doorbell m.call] none none (some m)
  | entered : Waiting m [] (some (.unmap, .doorbell m.call)) none (some m)
  | unmapped (stage : HandlerStage) (h : stage ≠ .unmap) :
      Waiting m [] (some (stage, .doorbell m.call)) none none
  | completed : Waiting m [] none (some (.doorbell m.call)) none

def Phase (s : System T) (live : Option Mapping) (th : Thread) : Prop :=
  match th.stage with
  | .structInit | .unlock _ => Quiet s ∧ live = none
  | .mapPage => Quiet s ∧ live = none ∧ s.dma.completion = none
  | .iowrite _ => Quiet s ∧ live = some (mappingOf s.dma th.call) ∧ s.dma.completion = none
  | .wait => Waiting (mappingOf s.dma th.call) s.pending s.handler s.dma.completion live
  | _ => True

theorem Waiting.of_pending {m : Mapping} {source : Source} {rest : List Source}
    {hd : Option (HandlerStage × Source)} {c : Option Source} {live : Option Mapping}
    (h : Waiting m (source :: rest) hd c live) :
    source = .doorbell m.call ∧ rest = [] ∧ hd = none ∧ c = none ∧ live = some m := by
  cases h
  exact ⟨rfl, rfl, rfl, rfl, rfl⟩

theorem Waiting.of_handler {m : Mapping} {p : List Source} {stage : HandlerStage} {source : Source}
    {c : Option Source} {live : Option Mapping} (h : Waiting m p (some (stage, source)) c live) :
    source = .doorbell m.call ∧ p = [] ∧ c = none ∧ live = if stage = .unmap then some m else none := by
  cases h with
  | entered => exact ⟨rfl, rfl, rfl, rfl⟩
  | unmapped stage hs => exact ⟨rfl, rfl, rfl, (if_neg hs).symm⟩

theorem Waiting.of_completion {m : Mapping} {p : List Source} {hd : Option (HandlerStage × Source)}
    {source : Source} {live : Option Mapping} (h : Waiting m p hd (some source) live) :
    source = .doorbell m.call ∧ p = [] ∧ hd = none ∧ live = none := by
  cases h
  exact ⟨rfl, rfl, rfl, rfl⟩

theorem Waiting.of_live {m n : Mapping} {p : List Source} {hd : Option (HandlerStage × Source)}
    {c : Option Source} (h : Waiting m p hd c (some n)) : n = m := by
  cases h <;> rfl

structure Served (s : System T) (live : Option Mapping) : Prop where
  base : Base s
  free : s.dma.mtx = none → Quiet s ∧ live = none
  each : ∀ t, Phase s live (s.thread t)

theorem phase_unlocked {s : System T} {live : Option Mapping} {th : Thread} (h : th.stage.locked = false) :
    Phase s live th := by
  unfold Phase
  cases hs : th.stage with
  | user => trivial
  | getUserPages => trivial
  | readPage => trivial
  | lock => trivial
  | ret code => trivial
  | _ => simp [hs, Stage.locked] at h

theorem Served.others {s s' : System T} {live live' : Option Mapping} (h : Served s live) {t : T}
    (ht : s.dma.mtx = some t ∨ s.dma.mtx = none) : ∀ t', t' ≠ t → Phase s' live' (s.thread t') := by
  intro t' hne
  apply phase_unlocked
  rw [Bool.eq_false_iff]
  intro hl
  have hown := h.base.owner hl
  obtain ht | ht := ht
  · exact hne (Option.some.inj (hown.symm.trans ht))
  · rw [ht] at hown
    cases hown

theorem Served.busy {s : System T} {live : Option Mapping} (h : Served s live) (hb : ¬Quiet s) :
    ∃ t, s.dma.mtx = some t ∧ (s.thread t).stage = .wait ∧
      Waiting (mappingOf s.dma (s.thread t).call) s.pending s.handler s.dma.completion live := by
  cases hm : s.dma.mtx with
  | none => exact absurd (h.free hm).1 hb
  | some t =>
    have hl := (h.base.each t).locked_iff.mpr hm
    have hp := h.each t
    unfold Phase at hp
    cases hs : (s.thread t).stage with
    | wait =>
      rw [hs] at hp
      exact ⟨t, rfl, hs, hp⟩
    | structInit =>
      rw [hs] at hp
      exact absurd hp.1 hb
    | unlock r =>
      rw [hs] at hp
      exact absurd hp.1 hb
    | mapPage =>
      rw [hs] at hp
      exact absurd hp.1 hb
    | iowrite n =>
      rw [hs] at hp
      exact absurd hp.1 hb
    | _ => simp [hs, Stage.locked] at hl

theorem Served.in_handler {s : System T} {live : Option Mapping} (h : Served s live) {stage : HandlerStage}
    {source : Source} (hh : s.handler = some (stage, source)) :
    ∃ t, s.dma.mtx = some t ∧ (s.thread t).stage = .wait ∧ source = .doorbell (s.thread t).call ∧ s.pending = [] ∧
      s.dma.completion = none ∧ live = if stage = .unmap then some (mappingOf s.dma (s.thread t).call) else none := by
  obtain ⟨t, hm, hst, hw⟩ := h.busy (not_quiet_handler hh)
  rw [hh] at hw
  exact ⟨t, hm, hst, hw.of_handler⟩

theorem Served.at_wait {s : System T} {live : Option Mapping} (h : Served s live) {t : T}
    (hs : (s.thread t).stage = .wait) :
    Waiting (mappingOf s.dma (s.thread t).call) s.pending s.handler s.dma.completion live := by
  simpa only [Phase, hs] using h.each t

theorem Served.live_call {s : System T} {m : Mapping} (h : Served s (some m)) :
    ∃ t, (s.thread t).stage.locked ∧ m.call = (s.thread t).call := by
  cases hm : s.dma.mtx with
  | none => cases (h.free hm).2
  | some t =>
    have hl := (h.base.each t).locked_iff.mpr hm
    refine ⟨t, hl, ?_⟩
    have hp := h.each t
    unfold Phase at hp
    cases hs : (s.thread t).stage with
    | wait =>
      rw [hs] at hp
      rw [hp.of_live, mappingOf]
    | iowrite n =>
      rw [hs] at hp
      rw [Option.some.inj hp.2.1, mappingOf]
    | structInit =>
      rw [hs] at hp
      cases hp.2
    | unlock r =>
      rw [hs] at hp
      cases hp.2
    | mapPage =>
      rw [hs] at hp
      cases hp.2.1
    | _ => simp [hs, Stage.locked] at hl

theorem Served.handle {s s' : System T} {live live' : Option Mapping} (h : Served s live) (hbase : Base s') {t : T}
    (hm : s.dma.mtx = some t) (hs : (s.thread t).stage = .wait) (hth : s'.thread = s.thread)
    (hmtx : s'.dma.mtx = s.dma.mtx) (hw : Waiting (mappingOf s'.dma (s.thread t).call) s'.pending s'.handler
      s'.dma.completion live') : Served s' live' where
  base := hbase
  free := by
    intro hn
    rw [hmtx, hm] at hn
    cases hn
  each := by
    intro t'
    rw [hth]
    by_cases hne : t' = t
    · subst hne
      simpa only [Phase, hs] using hw
    · exact h.others (.inl hm) t' hne

theorem Served.irq {bus : Bus} {s s' : System T} {live : Option Mapping} (h : Served s live) (hbase : Base s')
    (hi : Irq bus s s') :
    ∃ es live', s'.log = s.log ++ es ∧ Runs.run MapBook.step live es = some live' ∧ Served s' live' := by
  cases hi with
  | enter source rest hs hp =>
    obtain ⟨t, hm, hst, hw⟩ := h.busy (not_quiet_pending hp)
    rw [hp] at hw
    obtain ⟨rfl, rfl, -, hc, rfl⟩ := hw.of_pending
    refine ⟨[_], _, rfl, rfl, h.handle hbase hm hst rfl rfl ?_⟩
    rw [System.emit_dma, hc]
    exact .entered
  | unmap source hs =>
    obtain ⟨t, hm, hst, rfl, hpend, hc, rfl⟩ := h.in_handler hs
    refine ⟨[_], none, rfl, ?_, h.handle hbase hm hst rfl rfl ?_⟩
    · rw [run_singleton, if_pos rfl, MapBook.step, if_pos ⟨rfl, rfl, rfl⟩]
    · rw [System.emit_dma, System.emit_pending, hc, hpend]
      exact .unmapped .putPage (by decide)
  | putPage source hs =>
    obtain ⟨t, hm, hst, rfl, hpend, hc, rfl⟩ := h.in_handler hs
    refine ⟨[_], none, rfl, rfl, h.handle hbase hm hst rfl rfl ?_⟩
    rw [System.emit_dma, System.emit_pending, hc, hpend]
    exact .unmapped .ack (by decide)
  | ack source hs =>
    obtain ⟨t, hm, hst, rfl, hpend, hc, rfl⟩ := h.in_handler hs
    rw [iowrite32_ack bus { s with handler := some (.complete, _) } h.base.ready] at hbase ⊢
    refine monitor_silent rfl (h.handle hbase hm hst rfl rfl ?_)
    dsimp only
    rw [hc, hpend]
    exact .unmapped .complete (by decide)
  | complete source hs =>
    obtain ⟨t, hm, hst, rfl, hpend, -, rfl⟩ := h.in_handler hs
    refine monitor_silent rfl (h.handle hbase hm hst rfl rfl ?_)
    rw [System.setDma_pending, hpend]
    exact .completed

theorem Quiescent.served {s : System T} (h : Quiescent s) : Served s none where
  base := h.base
  free := fun _ => ⟨⟨h.pending, h.handler⟩, rfl⟩
  each := by
    intro t
    apply phase_unlocked
    rw [h.user t]
    rfl

def Action.fromDriver : Action T → Bool
  | .mmapRaise _ => false
  | _ => true

variable [DecidableEq T]

theorem Served.update {s s' : System T} {live' : Option Mapping} {t : T} {th : Thread} (hbase : Base s')
    (hth : s'.thread = Function.update s.thread t th) (hfree : s'.dma.mtx = none → Quiet s' ∧ live' = none)
    (hown : Phase s' live' th) (hother : ∀ t', t' ≠ t → Phase s' live' (s.thread t')) : Served s' live' where
  base := hbase
  free := hfree
  each := by
    rw [hth]
    exact (Function.forall_update_iff s.thread fun _ th => Phase s' live' th).mpr ⟨hown, hother⟩

theorem Served.owned {s s' : System T} {live live' : Option Mapping} (h : Served s live) (hbase : Base s') {t : T}
    {th : Thread} (hl : (s.thread t).stage.locked) (hth : s'.thread = Function.update s.thread t th)
    (hmtx : s'.dma.mtx = s.dma.mtx) (hown : Phase s' live' th) : Served s' live' := by
  have hm := h.base.owner hl
  refine .update hbase hth ?_ hown (h.others (.inl hm))
  intro hn
  rw [hmtx, hm] at hn
  cases hn

theorem Served.turn {s : System T} {live : Option Mapping} (h : Served s live) {t : T} {a : Action T} {th : Thread}
    {dma : PciemuDma T} {es : List KernelEvent} (ht : Turn s.dma t (s.thread t) a th dma es) :
    ∃ live', Runs.run MapBook.step live es = some live' ∧ Served (s.turn t th dma es) live' := by
  have hbase := h.base.turn ht
  have hphase := h.each t
  cases ht with
  | pinFailed hs => exact ⟨live, rfl, .update hbase rfl h.free trivial fun t' _ => h.each t'⟩
  | pinned p hs => exact ⟨live, rfl, .update hbase rfl h.free trivial fun t' _ => h.each t'⟩
  | readPage hs => exact ⟨live, rfl, .update hbase rfl h.free trivial fun t' _ => h.each t'⟩
  | lock hs hfree =>
    refine ⟨live, rfl, .update hbase rfl ?_ (h.free hfree) (h.others (.inr hfree))⟩
    intro hn
    cases hn
  | structInit hs =>
    simp only [Phase, hs] at hphase
    exact ⟨live, rfl, h.owned hbase (by rw [hs]; rfl) rfl rfl ⟨hphase.1, hphase.2, rfl⟩⟩
  | mapFailed hs =>
    simp only [Phase, hs] at hphase
    exact ⟨live, rfl, h.owned hbase (by rw [hs]; rfl) rfl rfl ⟨hphase.1, hphase.2.1⟩⟩
  | mapped a hs =>
    simp only [Phase, hs] at hphase
    refine ⟨some ⟨(s.thread t).call, a, s.dma.len, s.dma.direction⟩, ?_,
      h.owned hbase (by rw [hs]; rfl) rfl rfl ⟨hphase.1, rfl, hphase.2.2⟩⟩
    rw [run_singleton, MapBook.step, if_pos hphase.2.1]
  | wait source hs hc =>
    have hw := h.at_wait hs
    rw [hc] at hw
    obtain ⟨rfl, hpend, hhand, rfl⟩ := hw.of_completion
    refine ⟨none, ?_, h.owned hbase (by rw [hs]; rfl) rfl rfl ⟨⟨hpend, hhand⟩, rfl⟩⟩
    rw [run_singleton, MapBook.step]
    exact if_pos rfl
  | unlock r hs =>
    have hm : s.dma.mtx = some t := h.base.owner (by rw [hs]; rfl)
    simp only [Phase, hs] at hphase
    exact ⟨live, rfl, .update hbase rfl (fun _ => hphase) trivial (h.others (.inl hm))⟩
  | ret code hs =>
    refine ⟨live, ?_, .update hbase rfl h.free trivial fun t' _ => h.each t'⟩
    rw [run_singleton, MapBook.step, if_neg]
    -- a live mapping belongs to a caller that holds the mutex, and this one does not
    rintro ⟨m, hlive, hcall⟩
    obtain rfl := Option.mem_def.mp hlive
    obtain ⟨t', hl, hcall'⟩ := h.live_call
    have hne : (s.thread t').stage ≠ .user := fun hu => by simp [hu, Stage.locked] at hl
    have ht := h.base.unique t' t hne (by simp [hs]) (hcall'.symm.trans hcall)
    rw [ht, hs] at hl
    cases hl

theorem Served.move {bus : Bus} (hb : bus.Delivers {[]}) {s s' : System T} {a : Action T} {live : Option Mapping}
    (h : Served s live) (hm : Move bus s a s') (ha : a.fromDriver) :
    ∃ es live', s'.log = s.log ++ es ∧ Runs.run MapBook.step live es = some live' ∧ Served s' live' := by
  have hbase := h.base.move hb hm
  cases hm with
  | ioctl t cmd vaddr hs =>
    exact monitor_silent rfl (.update hbase rfl h.free
      (phase_unlocked (pciemuIoctl_unlocked _ _ _)) fun t' _ => h.each t')
  | turn t ht =>
    obtain ⟨live', hrun, hserved⟩ := h.turn ht
    exact ⟨_, live', rfl, hrun, hserved⟩
  | iowrite t n w hs hw =>
    have hl : (s.thread t).stage.locked := by rw [hs]; rfl
    have hp : Quiet s ∧ live = some (mappingOf s.dma (s.thread t).call) ∧ s.dma.completion = none := by
      simpa only [Phase, hs] using h.each t
    obtain ⟨v, r, -, -, he⟩ | ⟨ws, hws, m', -, -, -, he⟩ := h.base.iowrite_cases hb hs hw
    · rw [he] at hbase ⊢
      exact monitor_silent rfl (h.owned hbase hl rfl rfl hp)
    · obtain rfl := Set.mem_singleton_iff.mp hws
      rw [he] at hbase ⊢
      refine ⟨[_], live, rfl, rfl, h.owned hbase hl rfl rfl ?_⟩
      obtain ⟨⟨hpend, hhand⟩, rfl, hcomp⟩ := hp
      change Waiting _ (s.pending ++ [.doorbell (s.thread t).call]) s.handler s.dma.completion _
      rw [hpend, hhand, hcomp]
      exact .raised
  | irq hi => exact h.irq hbase hi
  | mmapRaise val => cases ha

theorem mappings_paired (bus : Bus) (hb : bus.Delivers {[]}) (s s' : System T) (hs : Probed s)
    (as : List (Action T)) (ha : ∀ a ∈ as, a.fromDriver) (hr : Runs.run (step bus) s as = some s') :
    ∃ live, Runs.run MapBook.step none s'.log = some live ∧
      ∀ m ∈ live, ∃ t, (s'.thread t).stage.locked ∧ m.call = (s'.thread t).call := by
  obtain ⟨live, hrun, hserved⟩ := run_monitor (R := Served)
    (fun s a t live h ht hp => h.move hb (step_move bus s ht) hp) as hs.log hs.served
    (along_of_forall (P := fun a => a.fromDriver) s as ha) hr
  refine ⟨live, hrun, ?_⟩
  intro m hm
  obtain rfl := Option.mem_def.mp hm
  exact hserved.live_call

end Handshake

def finishing {T : Type} (t : T) : List (Action T) := List.replicate 5 .irq ++ List.replicate 3 (.advance t)

theorem mappings_paired_two :
    let as := [.ioctl true ioctlDmaToDevice 0x1000, .ioctl false ioctlDmaFromDevice 0x1004,
      .getUserPagesFast true (some 1), .getUserPagesFast false (some 1)] ++ programming true 0x1000 ++
      finishing true ++ List.replicate 3 (.advance false) ++ [.dmaMapPage false none, .advance false, .advance false]
    ∃ s, Runs.run (step copyBus) (justProbed Bool) as = some s ∧
      (∃ live, Runs.run MapBook.step none s.log = some live ∧
        ∀ m ∈ live, ∃ t, (s.thread t).stage.locked ∧ m.call = (s.thread t).call) ∧
      .dmaUnmapPage 0x1000 4 .toDevice ∈ s.log := by
  intro as
  have hsome : (Runs.run (step copyBus) (justProbed Bool) as).isSome := by decide
  obtain ⟨s, hr⟩ := Option.isSome_iff_exists.mp hsome
  refine ⟨s, hr, mappings_paired copyBus copyBus_delivers (justProbed Bool) s (justProbed_probed Bool) as
    (by decide) hr, ?_⟩
  have hlog : (Runs.run (step copyBus) (justProbed Bool) as).map (fun s => decide (.dmaUnmapPage 0x1000 4 .toDevice
      ∈ s.log)) = some true := by decide
  rw [hr] at hlog
  simpa using hlog

end Pciemu.Driver
