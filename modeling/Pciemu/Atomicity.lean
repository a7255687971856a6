import Pciemu.Roundtrip
import Pciemu.WriteProtection

namespace Pciemu.Driver

open Bytes Device AuroraHw Runs

@[ext]
structure Memory where
  buff : ℕ → UInt8
  host : ℕ → UInt8

-- `page` is the page of `vaddr`, and `busAddr` says where the device finds it
def Memory.ioctl (mem : Memory) (busAddr : ℕ → ℕ → UInt64) (cmd : UInt32) (vaddr : UInt64) (page : ℕ) : Memory :=
  let addr := (busAddr page (pageOfs vaddr)).toNat
  if cmd = ioctlDmaToDevice then
    { mem with buff := splice mem.buff 0 (transferLen vaddr) fun i => mem.host (addr + i) }
  else if cmd = ioctlDmaFromDevice then { mem with host := splice mem.host addr (transferLen vaddr) mem.buff }
  else mem

def IsDma (cmd : UInt32) : Prop := cmd = ioctlDmaToDevice ∨ cmd = ioctlDmaFromDevice

instance (cmd : UInt32) : Decidable (IsDma cmd) := inferInstanceAs (Decidable (_ ∨ _))

inductive CallState
  | fresh
  | invoked (cmd : UInt32) (vaddr : UInt64)
  | pinned (cmd : UInt32) (vaddr : UInt64) (page : ℕ)
  | over
  | returned
  deriving DecidableEq

inductive ServiceEvent
  | invoke (call : ℕ) (cmd : UInt32) (vaddr : UInt64)
  | pin (call page : ℕ)
  | fail (call : ℕ)
  | effect (source : Source)
  | reply (call : ℕ) (code : ℤ)
  deriving DecidableEq

structure Service where
  memory : Memory
  call : ℕ → CallState

@[simps]
def Service.set (v : Service) (c : ℕ) (st : CallState) : Service := { v with call := Function.update v.call c st }

/-- A call of one of the two commands takes effect once, with its own command, address and page, unless
its page cannot be pinned or mapped; then it has none. Nothing but a call has an effect. -/
def Service.step (busAddr : ℕ → ℕ → UInt64) (v : Service) : ServiceEvent → Option Service
  | .invoke c cmd vaddr => if v.call c = .fresh then some (v.set c (.invoked cmd vaddr)) else none
  | .pin c page => match v.call c with
    | .invoked cmd vaddr => if IsDma cmd then some (v.set c (.pinned cmd vaddr page)) else none
    | _ => none
  | .fail c => match v.call c with
    | .invoked cmd _ => if IsDma cmd then some (v.set c .over) else none
    | .pinned _ _ _ => some (v.set c .over)
    | _ => none
  | .effect (.doorbell c) => match v.call c with
    | .pinned cmd vaddr page => some { v.set c .over with memory := v.memory.ioctl busAddr cmd vaddr page }
    | _ => none
  | .effect .mmap => none
  | .reply c code => match v.call c with
    | .over => if code = 0 then some (v.set c .returned) else none
    | .invoked cmd _ => if ¬IsDma cmd ∧ code = -enotty then some (v.set c .returned) else none
    | _ => none

def serviceEvent : KernelEvent → Option ServiceEvent
  | .getUserPagesFast c (some page) => some (.pin c page)
  | .getUserPagesFast c none | .dmaMapPage c _ _ _ _ none => some (.fail c)
  | .transfer source _ => some (.effect source)
  | .returned c code => some (.reply c code)
  | _ => none

def memoryOf (m : Machine) : Memory := ⟨m.dma.buff, m.host⟩

section Simulation

variable {T : Type}

def invocation (s : System T) : Action T → List ServiceEvent
  | .ioctl _ cmd vaddr => [.invoke s.calls cmd vaddr]
  | _ => []

def observed (s : System T) (a : Action T) (s' : System T) : List ServiceEvent :=
  invocation s a ++ (s'.log.drop s.log.length).filterMap serviceEvent

/-- `dma_map_page` returns the bus address of what it is to map, below the mask of the device. -/
def MapsAt (busAddr : ℕ → ℕ → UInt64) (s : System T) : Action T → Prop
  | .dmaMapPage t (some a) => a = busAddr (s.thread t).page s.dma.offset ∧ a.toNat < 2 ^ 32
  | _ => True

theorem observed_eq {s s' : System T} {a : Action T} {es : List KernelEvent} (h : s'.log = s.log ++ es) :
    observed s a s' = invocation s a ++ es.filterMap serviceEvent := by
  rw [observed, h, List.drop_left]

theorem observed_same {s s' : System T} {a : Action T} (h : s'.log = s.log) : observed s a s' = invocation s a := by
  rw [observed, h, List.drop_length, List.filterMap_nil, List.append_nil]

def PinnedFor (th : Thread) (page : ℕ) (st : CallState) : Prop :=
  ∃ vaddr, th.ofs = pageOfs vaddr ∧ th.len = transferLen vaddr ∧ st = .pinned (ioctlCmd th.direction) vaddr page

def Granted (busAddr : ℕ → ℕ → UInt64) (dma : PciemuDma T) (th : Thread) (st : CallState) : Prop :=
  match th.stage with
  | .user => True
  | .getUserPages =>
    ∃ vaddr, th.ofs = pageOfs vaddr ∧ th.len = transferLen vaddr ∧ st = .invoked (ioctlCmd th.direction) vaddr
  | .readPage => PinnedFor th dma.page st
  | .lock | .structInit | .mapPage => PinnedFor th th.page st
  | .iowrite _ =>
    PinnedFor th th.page st ∧ dma.dmaHandle = busAddr th.page th.ofs ∧ dma.dmaHandle.toNat < 2 ^ 32
  | .wait | .unlock _ => st = .over
  | .ret code => code = 0 ∧ st = .over ∨ code = -enotty ∧ ∃ cmd vaddr, ¬IsDma cmd ∧ st = .invoked cmd vaddr

structure Simulates (busAddr : ℕ → ℕ → UInt64) (s : System T) (v : Service) : Prop where
  base : Base s
  memory : v.memory = memoryOf s.hw
  fresh : ∀ c, s.calls ≤ c → v.call c = .fresh
  each : ∀ t, Granted busAddr s.dma (s.thread t) (v.call (s.thread t).call)
  owed : ∀ c, (∀ t, (s.thread t).stage ≠ .user → (s.thread t).call ≠ c) → v.call c = .fresh ∨ v.call c = .returned

theorem transferLen_short (vaddr : UInt64) : transferLen vaddr ≤ sizeofInt := by
  have hofs := pageOfs_lt vaddr
  unfold transferLen
  split_ifs with h
  · omega
  · exact Nat.le_refl _

theorem isDma_ioctlCmd (d : DmaDataDirection) : IsDma (ioctlCmd d) := by
  cases d with
  | toDevice => exact .inl rfl
  | fromDevice => exact .inr rfl

variable {busAddr : ℕ → ℕ → UInt64}

theorem Probed.simulates {s : System T} (h : Probed s) : Simulates busAddr s ⟨memoryOf s.hw, fun _ => .fresh⟩ where
  base := h.base
  memory := rfl
  fresh := fun _ _ => rfl
  each := by
    intro t
    simp only [Granted, h.user t]
  owed := fun _ _ => .inl rfl

theorem Granted.frame {dma dma' : PciemuDma T} {th : Thread} {st : CallState} (h : Granted busAddr dma th st)
    (hpage : th.stage = .readPage → dma'.page = dma.page)
    (hmap : th.stage.locked → dma'.dmaHandle = dma.dmaHandle) : Granted busAddr dma' th st := by
  unfold Granted at h ⊢
  cases hs : th.stage with
  | readPage =>
    rw [hs] at h
    simp only [hpage hs]
    exact h
  | iowrite n =>
    rw [hs] at h
    simp only [hmap (by rw [hs]; rfl)]
    exact h
  | _ =>
    rw [hs] at h
    exact h

theorem Granted.turn {dma dma' : PciemuDma T} {t : T} {th th' : Thread} {a : Action T} {es : List KernelEvent}
    {v : Service} (h : Granted busAddr dma th (v.call th.call)) (ht : Turn dma t th a th' dma' es)
    (hmaps : ∀ handle, a = .dmaMapPage t (some handle) → handle = busAddr th.page th.ofs ∧ handle.toNat < 2 ^ 32) :
    ∃ v', Runs.run (Service.step busAddr) v (es.filterMap serviceEvent) = some v' ∧ v'.memory = v.memory ∧
      Granted busAddr dma' th' (v'.call th.call) ∧ (∀ c, c ≠ th.call → v'.call c = v.call c) ∧
      (th'.stage = .user → v'.call th.call = .returned) := by
  have hset (st : CallState) (c : ℕ) (hc : c ≠ th.call) : (v.set th.call st).call c = v.call c :=
    Function.update_of_ne hc _ _
  have hself (st : CallState) : (v.set th.call st).call th.call = st := Function.update_self _ _ _
  unfold Granted at h
  cases ht with
  | pinFailed hs =>
    rw [hs] at h
    obtain ⟨vaddr, -, -, he⟩ := h
    refine ⟨v.set th.call .over, ?_, rfl, .inl ⟨rfl, hself _⟩, hset _, nofun⟩
    simp [serviceEvent, run_singleton, Service.step, he, isDma_ioctlCmd]
  | pinned p hs =>
    rw [hs] at h
    obtain ⟨vaddr, hofs, hlen, he⟩ := h
    refine ⟨v.set th.call (.pinned (ioctlCmd th.direction) vaddr p), ?_, rfl, ⟨vaddr, hofs, hlen, hself _⟩, hset _,
      nofun⟩
    simp [serviceEvent, run_singleton, Service.step, he, isDma_ioctlCmd]
  | mapFailed hs =>
    rw [hs] at h
    obtain ⟨vaddr, -, -, he⟩ := h
    refine ⟨v.set th.call .over, ?_, rfl, hself _, hset _, nofun⟩
    simp [serviceEvent, run_singleton, Service.step, he]
  | mapped handle hs =>
    rw [hs] at h
    exact ⟨v, rfl, rfl, ⟨h, hmaps handle rfl⟩, fun _ _ => rfl, nofun⟩
  | ret code hs =>
    rw [hs] at h
    refine ⟨v.set th.call .returned, ?_, rfl, trivial, hset _, fun _ => hself _⟩
    obtain ⟨rfl, he⟩ | ⟨rfl, cmd, vaddr, hcmd, he⟩ := h
    · simp [serviceEvent, run_singleton, Service.step, he]
    · simp [serviceEvent, run_singleton, Service.step, he, hcmd]
  | readPage hs =>
    rw [hs] at h
    exact ⟨v, rfl, rfl, h, fun _ _ => rfl, nofun⟩
  | lock hs hfree =>
    rw [hs] at h
    exact ⟨v, rfl, rfl, h, fun _ _ => rfl, nofun⟩
  | structInit hs =>
    rw [hs] at h
    exact ⟨v, rfl, rfl, h, fun _ _ => rfl, nofun⟩
  | wait source hs hc =>
    rw [hs] at h
    exact ⟨v, rfl, rfl, h, fun _ _ => rfl, nofun⟩
  | unlock r hs =>
    rw [hs] at h
    exact ⟨v, rfl, rfl, .inl ⟨rfl, h⟩, fun _ _ => rfl, nofun⟩

theorem granted_invoked (dma : PciemuDma T) (c : ℕ) (cmd : UInt32) (vaddr : UInt64) :
    Granted busAddr dma (pciemuIoctl c cmd vaddr) (.invoked cmd vaddr) := by
  unfold pciemuIoctl
  split_ifs with hto hfrom
  · exact ⟨vaddr, rfl, rfl, by rw [hto]; rfl⟩
  · exact ⟨vaddr, rfl, rfl, by rw [hfrom]; rfl⟩
  · exact .inr ⟨rfl, cmd, vaddr, fun h => h.elim hto hfrom, rfl⟩

theorem busAccess_ioctl (m : Machine) {dma : PciemuDma T} {d : DmaDataDirection} {vaddr : UInt64} {page : ℕ}
    (hlen : dma.len = transferLen vaddr) (hhandle : dma.dmaHandle = busAddr page (pageOfs vaddr))
    (hlow : dma.dmaHandle.toNat < 2 ^ 32) :
    memoryOf (busAccess copyBus m (busCall dmaMask dma.dmaHandle dma.len d)).1 =
      (memoryOf m).ioctl busAddr (ioctlCmd d) vaddr page := by
  have hshort : dma.len < 2 ^ 32 := (hlen.trans_le (transferLen_short vaddr)).trans_lt (by decide)
  have hlen' : (UInt32.ofNat dma.len).toUInt64.toNat = transferLen vaddr := by
    rw [UInt32.toNat_toUInt64, UInt32.toNat_ofNat_of_lt' hshort, hlen]
  have hne : ioctlDmaFromDevice ≠ ioctlDmaToDevice := by decide
  have hmask := low_handle dma.dmaHandle hlow
  cases d with
  | toDevice =>
    simp only [busCall, hmask, Memory.ioctl, ioctlCmd, if_true, ← hhandle, ← hlen']
    rfl
  | fromDevice =>
    simp only [busCall, hmask, Memory.ioctl, ioctlCmd, if_neg hne, if_true, ← hhandle, ← hlen', busAccess, copyBus,
      memoryOf, UInt64.toNat_zero, Nat.zero_add]

variable {s s' : System T} {v v' : Service} (h : Simulates busAddr s v)

include h

theorem Simulates.others {t : T} (ht : (s.thread t).stage ≠ .user) (dma' : PciemuDma T)
    (hcall : ∀ c, c ≠ (s.thread t).call → v'.call c = v.call c)
    (hpage : ∀ t', t' ≠ t → (s.thread t').stage = .readPage → dma'.page = s.dma.page)
    (hmap : (s.thread t).stage.locked ∨ dma'.dmaHandle = s.dma.dmaHandle) :
    ∀ t', t' ≠ t → Granted busAddr dma' (s.thread t') (v'.call (s.thread t').call) := by
  intro t' hne
  by_cases hu : (s.thread t').stage = .user
  · simp only [Granted, hu]
  · rw [hcall _ fun he => hne (h.base.unique t' t hu ht he)]
    apply (h.each t').frame (hpage t' hne)
    intro hl
    obtain hown | hsame := hmap
    · have := (h.base.owner hl).symm.trans (h.base.owner hown)
      exact absurd (Option.some.inj this) hne
    · exact hsame

theorem Simulates.aside (ha : Aside s s') : Simulates busAddr s' v where
  base := h.base.aside ha
  memory := h.memory.trans (Memory.ext (congrArg DmaEngine.buff ha.engine).symm ha.host.symm)
  fresh := ha.calls ▸ h.fresh
  each := by
    intro t
    rw [ha.thread, ha.dma]
    exact h.each t
  owed := by
    rw [ha.thread]
    exact h.owed

theorem Simulates.silent {a : Action T} (hinv : invocation s a = []) (ha : Aside s s') :
    ∃ v', Runs.run (Service.step busAddr) v (observed s a s') = some v' ∧ Simulates busAddr s' v' := by
  obtain ⟨es, hlog, hes⟩ := ha.log
  have hquiet : es.filterMap serviceEvent = [] := by
    rw [List.filterMap_eq_nil_iff]
    intro e he
    have hfrom := hes e he
    cases e <;> first | rfl | cases hfrom
  refine ⟨v, ?_, h.aside ha⟩
  rw [observed_eq hlog, hinv, hquiet]
  rfl

variable [DecidableEq T]

theorem Simulates.update (hbase : Base s') {t : T} {th : Thread} (hth : s'.thread = Function.update s.thread t th)
    (hcalls : s'.calls = s.calls) (ht : (s.thread t).stage ≠ .user) (hth_call : th.call = (s.thread t).call)
    (hmem : v'.memory = memoryOf s'.hw) (hcall : ∀ c, c ≠ (s.thread t).call → v'.call c = v.call c)
    (hown : Granted busAddr s'.dma th (v'.call (s.thread t).call))
    (hleft : th.stage = .user → v'.call (s.thread t).call = .returned)
    (hother : ∀ t', t' ≠ t → Granted busAddr s'.dma (s.thread t') (v'.call (s.thread t').call)) :
    Simulates busAddr s' v' where
  base := hbase
  memory := hmem
  fresh := by
    intro c hc
    rw [hcalls] at hc
    rw [hcall c (Nat.lt_of_lt_of_le (h.base.fresh t ht) hc).ne']
    exact h.fresh c hc
  each := by
    rw [hth]
    refine (Function.forall_update_iff s.thread fun _ th => Granted busAddr s'.dma th (v'.call th.call)).mpr
      ⟨?_, hother⟩
    rw [hth_call]
    exact hown
  owed := by
    intro c hc
    rw [hth] at hc
    by_cases hself : c = (s.thread t).call
    · subst hself
      by_cases hu : th.stage = .user
      · exact .inr (hleft hu)
      · exact absurd hth_call (by simpa [hu] using hc t)
    · rw [hcall c hself]
      refine h.owed c fun t' hst heq => ?_
      have hne : t' ≠ t := fun he => hself (heq.symm.trans (by rw [he]))
      exact absurd heq (by simpa [hne, hst] using hc t')

theorem Simulates.turn {t : T} {a : Action T} {th : Thread} {dma : PciemuDma T} {es : List KernelEvent}
    (ht : Turn s.dma t (s.thread t) a th dma es) (hkept : PageKept s a) (hmaps : MapsAt busAddr s a) :
    ∃ v', Runs.run (Service.step busAddr) v (observed s a (s.turn t th dma es)) = some v' ∧
      Simulates busAddr (s.turn t th dma es) v' := by
  have hinv : invocation s a = [] := by cases ht <;> rfl
  have hhandle (handle : UInt64) (ha : a = .dmaMapPage t (some handle)) :
      handle = busAddr (s.thread t).page (s.thread t).ofs ∧ handle.toNat < 2 ^ 32 := by
    subst ha
    have hst : (s.thread t).stage = .mapPage := by cases ht; assumption
    rw [← (h.base.at_mapPage hst).2.1]
    exact hmaps
  obtain ⟨v', hrun, hmem, hown, hcall, hleft⟩ := (h.each t).turn ht hhandle
  refine ⟨v', ?_, h.update (h.base.turn ht) rfl rfl ht.inside ht.call (hmem.trans h.memory) hcall hown hleft ?_⟩
  · rw [observed_eq rfl, hinv]
    exact hrun
  · refine h.others ht.inside dma hcall ?_ (ht.mapping.imp_right And.left)
    intro t' hne hr
    obtain hpage | ⟨p, rfl, hpage⟩ := ht.page
    · exact hpage
    · exact hpage.trans (hkept t' hne hr).symm

theorem Simulates.invoke (t : T) (cmd : UInt32) (vaddr : UInt64) (hs : (s.thread t).stage = .user) :
    Simulates busAddr ({ s with calls := s.calls + 1 }.setThread t (pciemuIoctl s.calls cmd vaddr))
      (v.set s.calls (.invoked cmd vaddr)) where
  base := h.base.ioctl t cmd vaddr hs
  memory := h.memory
  fresh := by
    intro c hc
    rw [Service.set_call, Function.update_of_ne (Nat.lt_of_succ_le hc).ne']
    exact h.fresh c (Nat.le_of_succ_le hc)
  each := by
    refine (Function.forall_update_iff s.thread fun _ th =>
      Granted busAddr s.dma th ((v.set s.calls (.invoked cmd vaddr)).call th.call)).mpr ⟨?_, fun t' _ => ?_⟩
    · rw [pciemuIoctl_call, Service.set_call, Function.update_self]
      exact granted_invoked s.dma s.calls cmd vaddr
    · by_cases hu : (s.thread t').stage = .user
      · simp only [Granted, hu]
      · rw [Service.set_call, Function.update_of_ne (h.base.fresh t' hu).ne]
        exact h.each t'
  owed := by
    intro c hc
    have hne : c ≠ s.calls := by
      rintro rfl
      have hown := hc t
      rw [System.setThread_thread, Function.update_self, pciemuIoctl_call] at hown
      refine hown ?_ rfl
      unfold pciemuIoctl
      split_ifs <;> exact Stage.noConfusion
    rw [Service.set_call, Function.update_of_ne hne]
    refine h.owed c fun t' hst heq => ?_
    have ht : t' ≠ t := fun he => hst (he ▸ hs)
    exact absurd heq (by simpa [ht, hst] using hc t')

theorem Simulates.move {a : Action T} (hm : Move copyBus s a s') (hkept : PageKept s a) (hmaps : MapsAt busAddr s a) :
    ∃ v', Runs.run (Service.step busAddr) v (observed s a s') = some v' ∧ Simulates busAddr s' v' := by
  have hbase := h.base.move copyBus_delivers hm
  cases hm with
  | ioctl t cmd vaddr hs =>
    refine ⟨_, ?_, h.invoke t cmd vaddr hs⟩
    rw [observed_same, invocation, run_singleton, Service.step, if_pos (h.fresh _ (Nat.le_refl _))]
    rfl
  | turn t ht => exact h.turn ht hkept hmaps
  | iowrite t n w hs hw =>
    have ht : (s.thread t).stage ≠ .user := by simp [hs]
    have hmask : s.hw.dma.config.mask = dmaMask := h.base.ready.mask
    have hg := h.each t
    simp only [Granted, hs] at hg
    have hother (v' : Service) (hcall : ∀ c, c ≠ (s.thread t).call → v'.call c = v.call c) :=
      h.others ht s.dma hcall (fun _ _ _ => rfl) (.inr rfl)
    obtain ⟨val, r, -, -, hnext⟩ | ⟨ws, -, m', rfl, rfl, -, hnext⟩ := h.base.iowrite_cases copyBus_delivers hs hw
    · rw [hnext] at hbase ⊢
      refine ⟨v, ?_, h.update hbase rfl rfl ht rfl h.memory (fun _ _ => rfl) hg nofun (hother v fun _ _ => rfl)⟩
      rw [observed_same]
      · rfl
      · rfl
    · -- here the call takes effect
      obtain ⟨⟨vaddr, hofs, hlen, he⟩, hhandle, hlow⟩ := hg
      obtain ⟨-, hd, hp⟩ := h.base.at_iowrite hs
      obtain ⟨hbuff, hhost⟩ := doorbell_copied s.hw h.base.ready.idle hp.transferCall
      have hcopy := busAccess_ioctl s.hw (d := (s.thread t).direction) (hd.2.1.trans hlen) (hofs ▸ hhandle) hlow
      rw [← hmask] at hcopy
      let v' : Service := { v.set (s.thread t).call .over with
        memory := v.memory.ioctl busAddr (ioctlCmd (s.thread t).direction) vaddr (s.thread t).page }
      have hcall (c : ℕ) (hc : c ≠ (s.thread t).call) : v'.call c = v.call c := Function.update_of_ne hc _ _
      have hover : v'.call (s.thread t).call = .over := Function.update_self _ _ _
      rw [hnext] at hbase ⊢
      refine ⟨v', ?_, h.update hbase rfl rfl ht rfl ?_ hcall hover nofun (hother v' hcall)⟩
      · rw [observed_eq rfl]
        simp [invocation, serviceEvent, run_singleton, Service.step, he, v']
      · change v.memory.ioctl busAddr _ vaddr _ = _
        rw [h.memory, ← hcopy]
        exact Memory.ext hbuff.symm hhost.symm
  | irq hi => exact h.silent rfl (hi.aside h.base.ready)
  | mmapRaise val => exact h.silent rfl (mmapRaise_aside copyBus h.base.ready val _)

theorem Simulates.step_agrees {bus : Bus} (hb : bus.CopiesExactly) (a : Action T) : step bus s a = step copyBus s a := by
  apply h.base.step_agrees hb
  rintro t n - hs
  have hg := h.each t
  simp only [Granted, hs] at hg
  obtain ⟨⟨vaddr, -, hlen, -⟩, -⟩ := hg
  exact hlen.trans_le (transferLen_short vaddr)

omit h in
theorem ioctl_atomic (bus : Bus) (hb : bus.CopiesExactly) (busAddr : ℕ → ℕ → UInt64) (s s' : System T)
    (hs : Probed s) (as : List (Action T))
    (ha : Along (step bus) (fun s a _ => PageKept s a ∧ MapsAt busAddr s a) s as)
    (hr : Runs.run (step bus) s as = some s') :
    ∃ v, Runs.run (Service.step busAddr) ⟨memoryOf s.hw, fun _ => .fresh⟩ (trace (step bus) observed s as) = some v ∧
      v.memory = memoryOf s'.hw ∧
      ((∀ t, (s'.thread t).stage = .user) → ∀ c, v.call c = .fresh ∨ v.call c = .returned) := by
  obtain ⟨v, hrun, hsim⟩ := run_trace (R := Simulates busAddr)
    (fun s a t v h ht hp => h.move (step_move copyBus s ((h.step_agrees hb a).symm.trans ht)) hp.1 hp.2) as
    hs.simulates ha hr
  exact ⟨v, hrun, hsim.memory, fun hu c => hsim.owed c fun t ht => absurd (hu t) ht⟩

end Simulation

instance {T : Type} (busAddr : ℕ → ℕ → UInt64) (s : System T) : (a : Action T) → Decidable (MapsAt busAddr s a)
  | .dmaMapPage t (some a) =>
    inferInstanceAs (Decidable (a = busAddr (s.thread t).page s.dma.offset ∧ a.toNat < 2 ^ 32))
  | .dmaMapPage _ none => isTrue trivial
  | .getUserPagesFast _ _ => isTrue trivial
  | .ioctl _ _ _ => isTrue trivial
  | .advance _ => isTrue trivial
  | .irq => isTrue trivial
  | .mmapRaise _ => isTrue trivial

def flatBus (page ofs : ℕ) : UInt64 := UInt64.ofNat (pageSize * page + ofs)

theorem ioctl_atomic_two :
    let as := [.ioctl true ioctlDmaToDevice 0x1000, .ioctl false ioctlDmaFromDevice 0x1004,
      .getUserPagesFast true (some 1), .getUserPagesFast false (some 1), .mmapRaise 1] ++ programming true 0x1000 ++
      finishing true
    ∃ s v, Runs.run (step copyBus) (justProbed Bool) as = some s ∧
      Runs.run (Service.step flatBus) ⟨memoryOf (justProbed Bool).hw, fun _ => .fresh⟩
        [.invoke 0 ioctlDmaToDevice 0x1000, .invoke 1 ioctlDmaFromDevice 0x1004, .pin 0 1, .pin 1 1,
          .effect (.doorbell 0), .reply 0 0] = some v ∧
      memoryOf s.hw = v.memory := by
  intro as
  have hsome : (Runs.run (step copyBus) (justProbed Bool) as).isSome := by decide
  obtain ⟨s, hr⟩ := Option.isSome_iff_exists.mp hsome
  obtain ⟨v, hv, hmem, -⟩ := ioctl_atomic copyBus (Bus.AgreesWith.refl copyBus) flatBus (justProbed Bool) s
    (justProbed_probed Bool) as (by decide) hr
  have hhistory : trace (step copyBus) observed (justProbed Bool) as =
      [.invoke 0 ioctlDmaToDevice 0x1000, .invoke 1 ioctlDmaFromDevice 0x1004, .pin 0 1, .pin 1 1,
        .effect (.doorbell 0), .reply 0 0] := by decide
  rw [hhistory] at hv
  exact ⟨s, v, hr, hv, hmem.symm⟩

-- where the page of the second caller is stored over that of the first, the device gets the wrong bytes
example :
    let s : System Bool := { justProbed Bool with
      hw := { (justProbed Bool).hw with host := fun i => UInt8.ofNat (i / pageSize) } }
    let as := [.ioctl true ioctlDmaToDevice 0x1000, .ioctl false ioctlDmaToDevice 0x2000,
      .getUserPagesFast true (some 1), .getUserPagesFast false (some 2)] ++ programming true 0x2000
    (Runs.run (step copyBus) s as).map (fun s => s.hw.dma.buff 0) = some 2 ∧
      (Runs.run (Service.step flatBus) ⟨memoryOf s.hw, fun _ => .fresh⟩ (trace (step copyBus) observed s as)).map
        (fun v => v.memory.buff 0) = some 1 := by
  decide

end Pciemu.Driver
