import Pciemu.ExactCopy
import Pciemu.Mappings

namespace Pciemu.Driver

open Bytes Device AuroraHw Runs

def ioctlCmd : DmaDataDirection → UInt32
  | .toDevice => ioctlDmaToDevice
  | .fromDevice => ioctlDmaFromDevice

structure Untouched (m m' : Machine) : Prop where
  host : m'.host = m.host
  buff : m'.dma.buff = m.dma.buff
  raises : raises m'.log = raises m.log

def copiedHost (d : DmaDataDirection) (addr : ℕ) (m : Machine) : ℕ → UInt8 :=
  match d with
  | .toDevice => m.host
  | .fromDevice => splice m.host addr 4 m.dma.buff

def copiedBuff (d : DmaDataDirection) (addr : ℕ) (m : Machine) : ℕ → UInt8 :=
  match d with
  | .toDevice => splice m.dma.buff 0 4 fun i => m.host (addr + i)
  | .fromDevice => m.dma.buff

/-- The four bytes at `addr` have been exchanged with the start of `dma->buff`, nothing else has
changed in either memory, and one interrupt has been raised. -/
structure Copied (d : DmaDataDirection) (addr : ℕ) (m m' : Machine) : Prop where
  host : m'.host = copiedHost d addr m
  buff : m'.dma.buff = copiedBuff d addr m
  raises : raises m'.log = raises m.log + 1

theorem low_handle (a : UInt64) (h : a.toNat < 2 ^ 32) : a.toUInt32.toUInt64 &&& dmaMask = a := by
  apply UInt64.toNat.inj
  have hm : dmaMask.toNat = 2 ^ 32 - 1 := by decide
  rw [UInt64.toNat_and, hm, Nat.and_two_pow_sub_one_eq_mod]
  simp only [UInt32.toNat_toUInt64, UInt64.toNat_toUInt32]
  omega

theorem doorbell_copies {m : Machine} (hm : Ready m) {T : Type} {dma : PciemuDma T} {d : DmaDataDirection}
    (hp : Programmed m.dma.config (txdescOf dma d) d 4) (hlen : dma.len = 4)
    (haddr : dma.dmaHandle.toNat + 4 ≤ 2 ^ 32) :
    Copied d dma.dmaHandle.toNat m (auroraDmaDoorbellRing copyBus m) := by
  have hc := hp.transferCall
  have hmask : m.dma.config.mask = dmaMask := hm.mask
  obtain ⟨hbuff, hhost⟩ := doorbell_copied m hm.idle hc
  obtain ⟨ws, hws, -, -, -, -, hre⟩ := doorbell_around copyBus_delivers m hm.idle _ hc
  obtain rfl := Set.mem_singleton_iff.mp hws
  have h4 : (UInt32.ofNat 4).toUInt64.toNat = 4 := by decide
  have hlow := low_handle dma.dmaHandle (by omega)
  refine ⟨hhost.trans ?_, hbuff.trans ?_, hre.raises⟩
  · cases d with
    | toDevice => rfl
    | fromDevice =>
      simp only [busCall, hmask, hlow, hlen, busAccess, copyBus, h4, UInt64.toNat_zero, Nat.zero_add,
        copiedHost]
  · cases d with
    | toDevice =>
      simp only [busCall, hmask, hlow, hlen, busAccess, copyBus, h4, UInt64.toNat_zero,
        Machine.setBuff, copiedBuff]
    | fromDevice => rfl

theorem Untouched.copied {d : DmaDataDirection} {addr : ℕ} {m m' m'' : Machine} (h : Untouched m m')
    (hc : Copied d addr m' m'') : Copied d addr m m'' where
  host := by
    simp only [hc.host, copiedHost, h.host, h.buff]
  buff := by
    simp only [hc.buff, copiedBuff, h.host, h.buff]
  raises := by
    rw [hc.raises, h.raises]

theorem Copied.lower {d : DmaDataDirection} {addr : ℕ} {m m' : Machine} (h : Copied d addr m m') :
    Copied d addr m (pciemuIrqLower m' irqDmaEndedVector) := by
  obtain ⟨es, hstep, -, hr, -⟩ := lower_step m' irqDmaEndedVector
  refine ⟨hstep.host.trans h.host, (congrArg DmaEngine.buff hstep.dma).trans h.buff, ?_⟩
  rw [hstep.log, raises_append, hr, Nat.add_zero, h.raises]

theorem lower_lowered {m : Machine} (h : m.msixEnabled ∨ m.msiEnabled) :
    (pciemuIrqLower m irqDmaEndedVector).vectorRaised irqDmaEndedVector = false := by
  unfold pciemuIrqLower
  split_ifs with hx hm
  · exact lowerVector_raised irqMaxVectorsMsix m _ (by decide)
  · exact lowerVector_raised irqMaxVectorsMsi m _ (by decide)
  · simp [hx, hm] at h

theorem iowrites_get {T : Type} (dma : PciemuDma T) (d : DmaDataDirection) {n : ℕ} (hn : n ≤ 4) :
    ∃ w, (iowrites dma d)[n]? = some w := by
  obtain ⟨src, dst, len, cmd, hws, -, -⟩ := iowrites_eq dma d
  rw [hws]
  exact ⟨_, List.getElem?_eq_getElem (Nat.lt_succ_of_le hn)⟩

theorem iowrite32_agrees {T : Type} {bus ref : Bus} (hb : bus.AgreesWith ref) (s : System T) (source : Source)
    (addr : UInt64) (val : UInt32)
    (h : decode addr = .doorbell → ∀ call, transferCall s.hw.dma.config = some call → CallFits call) :
    s.iowrite32 bus source addr val = s.iowrite32 ref source addr val := by
  have hw : writeReg bus s.hw val.toUInt64 (decode addr) = writeReg ref s.hw val.toUInt64 (decode addr) := by
    cases hd : decode addr with
    | doorbell => exact doorbell_agrees hb s.hw (h hd)
    | _ => rfl
  simp only [System.iowrite32, regbarWrite_eq, hw]

theorem busCall_fits {len : ℕ} (hlen : len ≤ sizeofInt) (mask handle : UInt64) (d : DmaDataDirection) :
    CallFits (busCall mask handle len d) := by
  have hle : (UInt32.ofNat len).toUInt64.toNat ≤ 4 := by
    rw [UInt32.toNat_toUInt64, UInt32.toNat_ofNat']
    exact (Nat.mod_le _ _).trans hlen
  have hsize : 4 ≤ areaSize := by decide
  cases d with
  | toDevice =>
    change 0 + _ ≤ areaSize
    omega
  | fromDevice =>
    change 0 + _ ≤ areaSize
    omega

section Alone

variable {T : Type}

def Outcomes (t : T) (pinned : Option ℕ) (handle : Option UInt64) : Action T → Prop
  | .getUserPagesFast t' page => t' = t ∧ page = pinned
  | .dmaMapPage t' h => t' = t ∧ h = handle
  | .advance t' => t' = t
  | .irq => True
  | .ioctl _ _ _ | .mmapRaise _ => False

/-- `dma_map_page` returns the bus address of the byte of the page it is given. -/
def Solo (t : T) (page : ℕ) (busAddr : ℕ → ℕ → UInt64) (s : System T) : Action T → Prop :=
  Outcomes t (some page) (some (busAddr (s.thread t).page s.dma.offset))

def System.acked (s : System T) : Bool :=
  match s.pending, s.handler with
  | [], none | [], some (.complete, _) => true
  | _, _ => false

variable (m : Machine) (t : T) (d : DmaDataDirection) (vaddr : UInt64) (page : ℕ) (busAddr : ℕ → ℕ → UInt64)

def Progress (s : System T) : Prop :=
  let done := Copied d (busAddr page (pageOfs vaddr)).toNat m s.hw
  let lowered := s.hw.vectorRaised irqDmaEndedVector = false
  match (s.thread t).stage with
  | .getUserPages => Untouched m s.hw
  | .readPage => s.dma.page = page ∧ Untouched m s.hw
  | .lock | .structInit | .mapPage => (s.thread t).page = page ∧ Untouched m s.hw
  | .iowrite n => n ≤ 4 ∧ s.dma.dmaHandle = busAddr page (pageOfs vaddr) ∧ Untouched m s.hw
  | .wait => done ∧ (s.acked → lowered)
  | .ret code => code = 0 ∧ done ∧ lowered
  | .unlock _ | .user => done ∧ lowered

structure Lone (s : System T) : Prop where
  served : ∃ live, Served s live
  alone : ∀ t', t' ≠ t → (s.thread t').stage = .user
  writes : ∀ n, (s.thread t).stage = .iowrite n → n ≤ 4

structure Course (s : System T) : Prop where
  lone : Lone t s
  direction : (s.thread t).direction = d
  ofs : (s.thread t).ofs = pageOfs vaddr
  len : (s.thread t).len = 4
  progress : Progress m t d vaddr page busAddr s

variable {m t d vaddr page busAddr}

theorem Turn.by {dma dma' : PciemuDma T} {t' : T} {th th' : Thread} {a : Action T} {es : List KernelEvent}
    {pinned : Option ℕ} {handle : Option UInt64} (h : Turn dma t' th a th' dma' es) (ha : Outcomes t pinned handle a) :
    t' = t := by
  cases h with
  | pinFailed hs => exact ha.1
  | pinned p hs => exact ha.1
  | mapFailed hs => exact ha.1
  | mapped a hs => exact ha.1
  | _ => exact ha

theorem Lone.waiting {s : System T} (h : Lone t s) (hb : ¬Quiet s) : (s.thread t).stage = .wait ∧
    ∃ map live, Waiting map s.pending s.handler s.dma.completion live := by
  obtain ⟨live, hs⟩ := h.served
  obtain ⟨t', -, hst, hw⟩ := hs.busy hb
  have ht : t' = t := by
    by_contra hne
    rw [h.alone t' hne] at hst
    cases hst
  subst ht
  exact ⟨hst, _, _, hw⟩

theorem Lone.in_handler {s : System T} (h : Lone t s) {stage : HandlerStage} {source : Source}
    (hh : s.handler = some (stage, source)) : (s.thread t).stage = .wait ∧ s.pending = [] := by
  obtain ⟨hst, map, live, hw⟩ := h.waiting (not_quiet_handler hh)
  rw [hh] at hw
  exact ⟨hst, hw.of_handler.2.1⟩

theorem Lone.pending {s : System T} (h : Lone t s) {source : Source} {rest : List Source}
    (hp : s.pending = source :: rest) : (s.thread t).stage = .wait ∧ rest = [] := by
  obtain ⟨hst, map, live, hw⟩ := h.waiting (not_quiet_pending hp)
  rw [hp] at hw
  exact ⟨hst, hw.of_pending.2.1⟩

theorem Lone.unlocked {s : System T} (h : Lone t s) (hl : (s.thread t).stage.locked = false) : s.dma.mtx = none := by
  obtain ⟨live, hs⟩ := h.served
  cases hm : s.dma.mtx with
  | none => rfl
  | some t' =>
    have hl' := (hs.base.each t').locked_iff.mpr hm
    by_cases hne : t' = t
    · rw [hne, hl] at hl'
      cases hl'
    · rw [h.alone t' hne] at hl'
      cases hl'

theorem Lone.quiescent {s : System T} (h : Lone t s) (hu : (s.thread t).stage = .user) : Quiescent s := by
  obtain ⟨live, hs⟩ := h.served
  have hm := h.unlocked (by rw [hu]; rfl)
  refine ⟨hs.base.ready, ?_, hm, (hs.free hm).1.1, (hs.free hm).1.2⟩
  intro t'
  by_cases hne : t' = t
  · rw [hne, hu]
  · exact h.alone t' hne

theorem Course.waiting {s : System T} (h : Course m t d vaddr page busAddr s) (hst : (s.thread t).stage = .wait) :
    Copied d (busAddr page (pageOfs vaddr)).toNat m s.hw ∧
      (s.acked → s.hw.vectorRaised irqDmaEndedVector = false) := by
  simpa only [Progress, hst] using h.progress

theorem Course.irq {s s' : System T} (h : Course m t d vaddr page busAddr s) (hlone : Lone t s')
    (hi : Irq copyBus s s') : Course m t d vaddr page busAddr s' := by
  have hnext (hth : s'.thread = s.thread) (hprogress : Progress m t d vaddr page busAddr s') :
      Course m t d vaddr page busAddr s' := ⟨hlone, hth ▸ h.direction, hth ▸ h.ofs, hth ▸ h.len, hprogress⟩
  cases hi with
  | enter source rest hh hp =>
    obtain ⟨hst, rfl⟩ := h.lone.pending hp
    refine hnext rfl ?_
    simpa [Progress, hst, System.acked] using (h.waiting hst).1
  | unmap source hh =>
    obtain ⟨hst, hp⟩ := h.lone.in_handler hh
    refine hnext rfl ?_
    simpa [Progress, hst, System.acked, hp] using (h.waiting hst).1
  | putPage source hh =>
    obtain ⟨hst, hp⟩ := h.lone.in_handler hh
    refine hnext rfl ?_
    simpa [Progress, hst, System.acked, hp] using (h.waiting hst).1
  | ack source hh =>
    obtain ⟨live, hs⟩ := h.lone.served
    obtain ⟨hst, -⟩ := h.lone.in_handler hh
    rw [iowrite32_ack copyBus { s with handler := some (.complete, source) } hs.base.ready] at hnext ⊢
    refine hnext rfl ?_
    simpa [Progress, hst] using And.intro (h.waiting hst).1.lower fun _ => lower_lowered hs.base.ready.mode
  | complete source hh =>
    obtain ⟨hst, hp⟩ := h.lone.in_handler hh
    refine hnext rfl ?_
    obtain ⟨hcop, hlow⟩ := h.waiting hst
    have hlow' := hlow (by rw [System.acked, hh, hp])
    simpa [Progress, hst] using And.intro hcop fun _ => hlow'

def rank (t : T) (s : System T) : ℕ :=
  match (s.thread t).stage with
  | .getUserPages => 19
  | .readPage => 18
  | .lock => 17
  | .structInit => 16
  | .mapPage => 15
  | .iowrite n => 14 - n
  | .wait => match s.pending, s.handler with
    | _ :: _, _ => 8
    | [], some (.unmap, _) => 7
    | [], some (.putPage, _) => 6
    | [], some (.ack, _) => 5
    | [], some (.complete, _) => 4
    | [], none => 3
  | .unlock _ => 2
  | .ret _ => 1
  | .user => 0

theorem rank_wait {s : System T} (h : (s.thread t).stage = .wait) : 3 ≤ rank t s ∧ rank t s ≤ 8 := by
  unfold rank
  rw [h]
  dsimp only
  split <;> omega

theorem irq_enabled (bus : Bus) {s : System T} (h : ¬Quiet s) : ∃ s', Irq bus s s' := by
  cases hh : s.handler with
  | none =>
    cases hp : s.pending with
    | nil => exact absurd ⟨hp, hh⟩ h
    | cons source rest => exact ⟨_, .enter source rest hh hp⟩
  | some r =>
    obtain ⟨stage, source⟩ := r
    cases stage with
    | unmap => exact ⟨_, .unmap source hh⟩
    | putPage => exact ⟨_, .putPage source hh⟩
    | ack => exact ⟨_, .ack source hh⟩
    | complete => exact ⟨_, .complete source hh⟩

theorem Lone.irq_rank {bus : Bus} {s s' : System T} (h : Lone t s) (hi : Irq bus s s') : rank t s' < rank t s := by
  cases hi with
  | enter source rest hh hp =>
    obtain ⟨hst, rfl⟩ := h.pending hp
    simp [rank, hst, hp]
  | unmap source hh =>
    obtain ⟨hst, hp⟩ := h.in_handler hh
    simp [rank, hst, hp, hh]
  | putPage source hh =>
    obtain ⟨hst, hp⟩ := h.in_handler hh
    simp [rank, hst, hp, hh]
  | ack source hh =>
    obtain ⟨live, hs⟩ := h.served
    obtain ⟨hst, hp⟩ := h.in_handler hh
    rw [iowrite32_ack bus { s with handler := some (.complete, source) } hs.base.ready]
    simp [rank, hst, hp, hh]
  | complete source hh =>
    obtain ⟨hst, hp⟩ := h.in_handler hh
    simp [rank, hst, hp, hh]

variable [DecidableEq T]

theorem turn_rank {s : System T} {a : Action T} {th : Thread} {dma : PciemuDma T} {es : List KernelEvent}
    (ht : Turn s.dma t (s.thread t) a th dma es) : rank t (s.turn t th dma es) < rank t s := by
  cases ht with
  | wait source hst hc =>
    have hle := (rank_wait hst).1
    simp only [rank, System.turn_thread, Function.update_self]
    exact hle
  | _ => simp_all [rank]

theorem Lone.rank_lt {bus : Bus} {s s' : System T} {a : Action T} {pinned : Option ℕ} {handle : Option UInt64}
    (h : Lone t s) (hm : Move bus s a s') (ha : Outcomes t pinned handle a) : rank t s' < rank t s := by
  cases hm with
  | ioctl t' cmd vaddr' hst => exact ha.elim
  | turn t' ht =>
    obtain rfl := ht.by ha
    exact turn_rank ht
  | iowrite t' n w hst hw =>
    obtain rfl := ha
    have hle := h.writes n hst
    have hold : rank t' s = 14 - n := by rw [rank, hst]
    rw [hold]
    by_cases hn : n < 4
    · rw [if_pos hn]
      simp only [rank, System.setStage_thread, Function.update_self]
      omega
    · rw [if_neg hn]
      refine Nat.lt_of_le_of_lt (rank_wait (by simp)).2 ?_
      omega
  | irq hi => exact h.irq_rank hi
  | mmapRaise val => exact ha.elim

theorem caller_enabled (bus : Bus) {s : System T} (hu : (s.thread t).stage ≠ .user)
    (hlock : (s.thread t).stage = .lock → s.dma.mtx = none) (hwrites : ∀ n, (s.thread t).stage = .iowrite n → n ≤ 4)
    (hwait : (s.thread t).stage = .wait → s.dma.completion.isSome) (pinned : Option ℕ) (handle : Option UInt64) :
    ∃ a s', Move bus s a s' ∧ Outcomes t pinned handle a := by
  cases hst : (s.thread t).stage with
  | user => exact absurd hst hu
  | getUserPages =>
    cases pinned with
    | none => exact ⟨_, _, .turn t (.pinFailed hst), rfl, rfl⟩
    | some page => exact ⟨_, _, .turn t (.pinned page hst), rfl, rfl⟩
  | readPage => exact ⟨_, _, .turn t (.readPage hst), rfl⟩
  | lock => exact ⟨_, _, .turn t (.lock hst (hlock hst)), rfl⟩
  | structInit => exact ⟨_, _, .turn t (.structInit hst), rfl⟩
  | mapPage =>
    cases handle with
    | none => exact ⟨_, _, .turn t (.mapFailed hst), rfl, rfl⟩
    | some a => exact ⟨_, _, .turn t (.mapped a hst), rfl, rfl⟩
  | iowrite n =>
    obtain ⟨w, hw⟩ := iowrites_get s.dma (s.thread t).direction (hwrites n hst)
    exact ⟨_, _, .iowrite t n w hst hw, rfl⟩
  | wait =>
    obtain ⟨source, hc⟩ := Option.isSome_iff_exists.mp (hwait hst)
    exact ⟨_, _, .turn t (.wait source hst hc), rfl⟩
  | unlock r => exact ⟨_, _, .turn t (.unlock r hst), rfl⟩
  | ret code => exact ⟨_, _, .turn t (.ret code hst), rfl⟩

theorem Lone.enabled (bus : Bus) {s : System T} (h : Lone t s) (hu : (s.thread t).stage ≠ .user)
    (pinned : Option ℕ) (handle : Option UInt64) : ∃ a s', Move bus s a s' ∧ Outcomes t pinned handle a := by
  by_cases hq : Quiet s
  · refine caller_enabled bus hu (fun hst => h.unlocked (by rw [hst]; rfl)) h.writes (fun hst => ?_) pinned handle
    obtain ⟨live, hs⟩ := h.served
    have hw := hs.at_wait hst
    rw [hq.1, hq.2] at hw
    generalize s.dma.completion = c at hw
    cases hw
    rfl
  · obtain ⟨s', hi⟩ := irq_enabled bus hq
    exact ⟨.irq, s', .irq hi, trivial⟩

theorem Lone.update {s s' : System T} (h : Lone t s) (hserved : ∃ live, Served s' live) {th : Thread}
    (hth : s'.thread = Function.update s.thread t th) (hw : ∀ n, th.stage = .iowrite n → n ≤ 4) : Lone t s' where
  served := hserved
  alone := by
    intro t' hne
    rw [hth, Function.update_of_ne hne]
    exact h.alone t' hne
  writes := by
    rw [hth, Function.update_self]
    exact hw

theorem Lone.move {bus : Bus} (hb : bus.Delivers {[]}) {s s' : System T} {a : Action T} {pinned : Option ℕ}
    {handle : Option UInt64} (h : Lone t s) (hm : Move bus s a s') (ha : Outcomes t pinned handle a) : Lone t s' := by
  obtain ⟨live, hs⟩ := h.served
  have hdriver : a.fromDriver := by
    cases a with
    | mmapRaise val => exact ha.elim
    | _ => rfl
  obtain ⟨-, live', -, -, hs'⟩ := hs.move hb hm hdriver
  have hserved : ∃ live, Served s' live := ⟨live', hs'⟩
  cases hm with
  | ioctl t' cmd vaddr' hst => exact ha.elim
  | turn t' ht =>
    obtain rfl := ht.by ha
    refine h.update hserved rfl ?_
    cases ht with
    | mapped a hst => exact fun n hn => Stage.iowrite.inj hn ▸ Nat.zero_le 4
    | _ => exact fun _ hn => Stage.noConfusion hn
  | iowrite t' n w hst hw =>
    obtain rfl := ha
    refine h.update hserved rfl fun k hk => ?_
    dsimp only at hk
    split_ifs at hk with hn
    rw [← Stage.iowrite.inj hk]
    exact hn
  | irq hi =>
    have hth := (hi.aside hs.base.ready).thread
    exact ⟨hserved, hth ▸ h.alone, hth ▸ h.writes⟩
  | mmapRaise val => exact ha.elim

theorem Course.update {s s' : System T} (h : Course m t d vaddr page busAddr s) (hlone : Lone t s') {stage : Stage}
    {page' : ℕ} (hth : s'.thread = Function.update s.thread t { s.thread t with stage := stage, page := page' })
    (hprogress : Progress m t d vaddr page busAddr s') : Course m t d vaddr page busAddr s' := by
  have hself : s'.thread t = { s.thread t with stage := stage, page := page' } := by rw [hth, Function.update_self]
  refine ⟨hlone, ?_, ?_, ?_, hprogress⟩
  all_goals rw [hself]
  · exact h.direction
  · exact h.ofs
  · exact h.len

theorem Course.turn {s : System T} {a : Action T} {th : Thread} {dma : PciemuDma T} {es : List KernelEvent}
    (h : Course m t d vaddr page busAddr s) (ht : Turn s.dma t (s.thread t) a th dma es)
    (hsolo : Solo t page busAddr s a) : Progress m t d vaddr page busAddr (s.turn t th dma es) := by
  obtain ⟨live, hs⟩ := h.lone.served
  have hp := h.progress
  cases ht with
  | pinFailed hst => cases hsolo.2
  | pinned p hst =>
    obtain rfl := Option.some.inj hsolo.2
    simp only [Progress, hst] at hp
    simpa [Progress] using hp
  | mapFailed hst => cases hsolo.2
  | mapped a hst =>
    obtain rfl := Option.some.inj hsolo.2
    simp only [Progress, hst] at hp
    have hd := hs.base.at_mapPage hst
    simp [Progress, hp.1, hd.2.1, h.ofs, hp.2]
  | wait source hst hc =>
    have hw := hs.at_wait hst
    rw [hc] at hw
    obtain ⟨-, hpend, hhand, -⟩ := hw.of_completion
    obtain ⟨hcop, hlow⟩ := h.waiting hst
    simpa [Progress] using And.intro hcop (hlow (by rw [System.acked, hpend, hhand]))
  | readPage hst =>
    simp only [Progress, hst] at hp
    simpa [Progress] using hp
  | lock hst hfree =>
    simp only [Progress, hst] at hp
    simpa [Progress] using hp
  | structInit hst =>
    simp only [Progress, hst] at hp
    simpa [Progress] using hp
  | unlock r hst =>
    simp only [Progress, hst] at hp
    simpa [Progress] using hp
  | ret code hst =>
    simp only [Progress, hst] at hp
    simpa [Progress] using hp.2

theorem Course.move {s s' : System T} {a : Action T} (h : Course m t d vaddr page busAddr s)
    (haddr : (busAddr page (pageOfs vaddr)).toNat + 4 ≤ 2 ^ 32) (hm : Move copyBus s a s')
    (hsolo : Solo t page busAddr s a) : Course m t d vaddr page busAddr s' := by
  have hlone := h.lone.move copyBus_delivers hm hsolo
  obtain ⟨live, hs⟩ := h.lone.served
  have hp := h.progress
  cases hm with
  | ioctl t' cmd vaddr' hst => exact hsolo.elim
  | turn t' ht =>
    obtain rfl := ht.by hsolo
    exact h.update hlone (congrArg (Function.update s.thread t') ht.kept) (h.turn ht hsolo)
  | iowrite t' n w hst hw =>
    obtain rfl := hsolo
    simp only [Progress, hst] at hp
    have hd := hs.base.at_iowrite hst
    have hq : Quiet s ∧ live = some (mappingOf s.dma (s.thread t').call) ∧ s.dma.completion = none := by
      simpa only [Phase, hst] using hs.each t'
    obtain ⟨v, r, hn, -, he⟩ | ⟨ws, hws, m', rfl, hm', -, he⟩ := hs.base.iowrite_cases copyBus_delivers hst hw
    · rw [he] at hlone ⊢
      refine h.update hlone rfl ?_
      have hun : Untouched m (s.hw.setConfig (latch s.hw.dma.config v r)) :=
        ⟨hp.2.2.host, hp.2.2.buff, hp.2.2.raises⟩
      simpa [Progress, hp.2.1] using And.intro (Nat.succ_le_of_lt hn) hun
    · -- the whole transfer happens inside the doorbell write
      have hcop := doorbell_copies hs.base.ready hd.2.2 (hd.2.1.2.1.trans h.len) (hp.2.1 ▸ haddr)
      rw [← hm', hp.2.1, h.direction] at hcop
      rw [he] at hlone ⊢
      refine h.update hlone rfl ?_
      have hack : (s.pending ++ List.replicate (raisesIn ws + 1) (Source.doorbell (s.thread t').call)) =
          .doorbell (s.thread t').call :: List.replicate (raisesIn ws) (.doorbell (s.thread t').call) := by
        rw [hq.1.1, List.nil_append, List.replicate_succ]
      simpa [Progress, System.acked, hack] using hp.2.2.copied hcop
  | irq hi => exact h.irq hlone hi
  | mmapRaise val => exact hsolo.elim

theorem Base.step_agrees {bus : Bus} (hb : bus.CopiesExactly) {s : System T} (h : Base s) {a : Action T}
    (hlen : ∀ t n, a = .advance t → (s.thread t).stage = .iowrite n → (s.thread t).len ≤ sizeofInt) :
    step bus s a = step copyBus s a := by
  cases a with
  | advance t =>
    simp only [step, advance]
    cases hs : (s.thread t).stage with
    | iowrite n =>
      obtain ⟨-, hd, hp⟩ := h.at_iowrite hs
      cases hw : (iowrites s.dma (s.thread t).direction)[n]? with
      | none => simp only [hw, Option.map_none]
      | some w =>
        simp only [hw, Option.map_some]
        rw [iowrite32_agrees hb]
        intro hdec call hc
        by_cases hn : n < 4
        · have hr := (hp.next hw hn).1
          rw [hdec] at hr
          cases hr
        · obtain ⟨rfl, -⟩ := iowrites_doorbell hw hn
          rw [hp.transferCall, hd.2.1] at hc
          rw [← Option.some.inj hc]
          exact busCall_fits (hlen t _ rfl hs) _ _ _
    | _ => rfl
  | irq =>
    simp only [step, pciemuIrqHandler]
    cases hh : s.handler with
    | none => rfl
    | some r =>
      obtain ⟨stage, source⟩ := r
      cases stage with
      | ack =>
        dsimp only
        rw [iowrite32_agrees hb]
        intro hdec
        exact absurd hdec (by decide)
      | _ => rfl
  | _ => rfl

theorem Course.step_agrees {bus : Bus} (hb : bus.CopiesExactly) {s : System T} {a : Action T}
    (h : Course m t d vaddr page busAddr s) (hsolo : Solo t page busAddr s a) : step bus s a = step copyBus s a := by
  obtain ⟨live, hs⟩ := h.lone.served
  apply hs.base.step_agrees hb
  rintro t' n rfl -
  obtain rfl := hsolo
  exact h.len.le

theorem pciemuIoctl_cmd (call : ℕ) (d : DmaDataDirection) (vaddr : UInt64) :
    pciemuIoctl call (ioctlCmd d) vaddr = ⟨.getUserPages, call, d, pageOfs vaddr, transferLen vaddr, 0⟩ := by
  cases d with
  | toDevice => rfl
  | fromDevice =>
    have hne : ioctlDmaFromDevice ≠ ioctlDmaToDevice := by decide
    simp only [pciemuIoctl, ioctlCmd, if_neg hne, if_true]

theorem lone_ioctl {bus : Bus} (hb : bus.Delivers {[]}) {s : System T} (hs : Quiescent s) (t : T) (d : DmaDataDirection)
    (vaddr : UInt64) : ∃ s', Move bus s (.ioctl t (ioctlCmd d) vaddr) s' ∧ Lone t s' ∧
      s'.thread t = ⟨.getUserPages, s.calls, d, pageOfs vaddr, transferLen vaddr, 0⟩ ∧ s'.hw = s.hw := by
  have hm : Move bus s (.ioctl t (ioctlCmd d) vaddr) _ := .ioctl t (ioctlCmd d) vaddr (hs.user t)
  obtain ⟨-, live, -, -, hserved⟩ := hs.served.move hb hm rfl
  have hself := pciemuIoctl_cmd s.calls d vaddr
  refine ⟨_, hm, ⟨⟨live, hserved⟩, ?_, ?_⟩, ?_, rfl⟩
  · intro t' hne
    rw [System.setThread_thread, Function.update_of_ne hne]
    exact hs.user t'
  · rw [System.setThread_thread, Function.update_self, hself]
    exact fun _ hn => Stage.noConfusion hn
  · rw [System.setThread_thread, Function.update_self, hself]

theorem course_ioctl (t : T) (d : DmaDataDirection) (page : ℕ) (busAddr : ℕ → ℕ → UInt64) {s : System T}
    (hs : Quiescent s) (hofs : pageOfs vaddr + sizeofInt ≤ pageSize) :
    ∃ s', Move copyBus s (.ioctl t (ioctlCmd d) vaddr) s' ∧ Course s.hw t d vaddr page busAddr s' ∧
      (s'.thread t).stage = .getUserPages := by
  obtain ⟨s', hm, hlone, hth, hhw⟩ := lone_ioctl copyBus_delivers hs t d vaddr
  have hlen : transferLen vaddr = 4 := if_neg (Nat.not_lt.mpr hofs)
  refine ⟨s', hm, ⟨hlone, ?_, ?_, ?_, ?_⟩, ?_⟩
  · rw [hth]
  · rw [hth]
  · rw [hth, hlen]
  · have hun : Untouched s.hw s.hw := ⟨rfl, rfl, rfl⟩
    simpa [Progress, hth, hhw] using hun
  · rw [hth]

def SoloCall (bus : Bus) (t : T) (d : DmaDataDirection) (vaddr : UInt64) (page : ℕ) (busAddr : ℕ → ℕ → UInt64)
    (s : System T) (as : List (Action T)) (s' : System T) : Prop :=
  ∃ s₁, step bus s (.ioctl t (ioctlCmd d) vaddr) = some s₁ ∧
    Along (step bus) (fun s a _ => Solo t page busAddr s a) s₁ as ∧ Runs.run (step bus) s₁ as = some s' ∧
    (s'.thread t).stage = .user

def Reachable (page : ℕ) (busAddr : ℕ → ℕ → UInt64) (vaddr : UInt64) : Prop :=
  pageOfs vaddr + sizeofInt ≤ pageSize ∧ (busAddr page (pageOfs vaddr)).toNat + 4 ≤ 2 ^ 32

structure Outcome (d : DmaDataDirection) (addr : ℕ) (s s' : System T) : Prop where
  copied : Copied d addr s.hw s'.hw
  lowered : s'.hw.vectorRaised irqDmaEndedVector = false
  quiescent : Quiescent s'

omit [DecidableEq T] in
theorem Course.outcome {u s : System T} (h : Course u.hw t d vaddr page busAddr s) (hu : (s.thread t).stage = .user) :
    Outcome d (busAddr page (pageOfs vaddr)).toNat u s := by
  have hp := h.progress
  simp only [Progress, hu] at hp
  exact ⟨hp.1, hp.2, h.lone.quiescent hu⟩

section Calls

variable {bus : Bus} (hb : bus.CopiesExactly) {s : System T} (hs : Quiescent s)

include hb hs

theorem soloCall_returns (h : Reachable page busAddr vaddr) : ∃ as s', SoloCall bus t d vaddr page busAddr s as s' := by
  obtain ⟨s₁, hm, hcourse, -⟩ := course_ioctl t d page busAddr hs h.1
  have hreach : ∃ as s', Along (step bus) (fun s a _ => Solo t page busAddr s a) s₁ as ∧
      Runs.run (step bus) s₁ as = some s' ∧ (s'.thread t).stage = .user := by
    apply exists_run (I := Course s.hw t d vaddr page busAddr) (rank t) _ hcourse
    intro s hc hu
    obtain ⟨a, s', hm, hsolo⟩ := hc.lone.enabled copyBus hu _ _
    exact ⟨a, s', (hc.step_agrees hb hsolo).trans (move_step copyBus s hm), hsolo, hc.move h.2 hm hsolo,
      hc.lone.rank_lt hm hsolo⟩
  obtain ⟨as, s', ha, hr, hu⟩ := hreach
  exact ⟨as, s', s₁, move_step copyBus s hm, ha, hr, hu⟩

theorem soloCall_outcome (h : Reachable page busAddr vaddr) {as : List (Action T)} {s' : System T}
    (hc : SoloCall bus t d vaddr page busAddr s as s') :
    Outcome d (busAddr page (pageOfs vaddr)).toNat s s' := by
  obtain ⟨s₁, hstep, ha, hr, hu⟩ := hc
  obtain ⟨s₂, hm, hcourse, -⟩ := course_ioctl t d page busAddr hs h.1
  obtain rfl := Option.some.inj (hstep.symm.trans (move_step copyBus s hm))
  have hend : Course s.hw t d vaddr page busAddr s' := by
    apply run_invariant (I := Course s.hw t d vaddr page busAddr) _ as hcourse ha hr
    intro s a s' hc ht hsolo
    rw [hc.step_agrees hb hsolo] at ht
    exact hc.move h.2 (step_move copyBus s ht) hsolo
  exact hend.outcome hu

end Calls

theorem ioctl_copies (bus : Bus) (hb : bus.CopiesExactly) (s : System T) (hs : Quiescent s) (t : T)
    (busAddr : ℕ → ℕ → UInt64) :
    (∀ d vaddr page, Reachable page busAddr vaddr →
      (∃ as s', SoloCall bus t d vaddr page busAddr s as s') ∧
      ∀ as s', SoloCall bus t d vaddr page busAddr s as s' →
        Outcome d (busAddr page (pageOfs vaddr)).toNat s s') ∧
    ∀ a b page page', Reachable page busAddr a → Reachable page' busAddr b → ∀ as s₁ host t' bs s₂,
      SoloCall bus t .toDevice a page busAddr s as s₁ →
      SoloCall bus t' .fromDevice b page' busAddr { s₁ with hw := { s₁.hw with host := host } } bs s₂ →
      ∀ i < 4, s₂.hw.host ((busAddr page' (pageOfs b)).toNat + i) =
        s.hw.host ((busAddr page (pageOfs a)).toNat + i) := by
  constructor
  · intro d vaddr page h
    exact ⟨soloCall_returns hb hs h, fun as s' => soloCall_outcome hb hs h⟩
  · intro a b page page' ha hb' as s₁ host t' bs s₂ h1 h2 i hi
    have ho := soloCall_outcome hb hs ha h1
    have hq : Quiescent { s₁ with hw := { s₁.hw with host := host } } :=
      ⟨⟨ho.quiescent.ready.idle, ho.quiescent.ready.mask, ho.quiescent.ready.mode⟩, ho.quiescent.user,
        ho.quiescent.mtx, ho.quiescent.pending, ho.quiescent.handler⟩
    have hend := (soloCall_outcome hb hq hb' h2).copied.host
    rw [hend, copiedHost, splice_inside _ _ _ _ _ hi]
    change s₁.hw.dma.buff i = _
    have hin := splice_inside s.hw.dma.buff (fun i => s.hw.host ((busAddr page (pageOfs a)).toNat + i)) 0 4 i hi
    rw [Nat.zero_add] at hin
    rw [ho.copied.buff, copiedBuff, hin]

end Alone

theorem ioctl_copies_int :
    let busAddr (page ofs : ℕ) := UInt64.ofNat (4096 * page + ofs)
    ∃ as s₁ bs s₂, SoloCall copyBus () .toDevice 0x1004 1 busAddr (justProbed Unit) as s₁ ∧
      SoloCall copyBus () .fromDevice 0x2008 2 busAddr s₁ bs s₂ ∧
      Outcome .toDevice 0x1004 (justProbed Unit) s₁ ∧ ∀ i < 4, s₂.hw.host (0x2008 + i) = UInt8.ofNat (0x1004 + i) := by
  intro busAddr
  have hb : copyBus.CopiesExactly := Bus.AgreesWith.refl copyBus
  have ha : Reachable 1 busAddr 0x1004 := ⟨by decide, by decide⟩
  have ha' : Reachable 2 busAddr 0x2008 := ⟨by decide, by decide⟩
  have hs := (justProbed_probed Unit).toQuiescent
  obtain ⟨hcall, hback⟩ := ioctl_copies copyBus hb (justProbed Unit) hs () busAddr
  obtain ⟨⟨as, s₁, h1⟩, hout⟩ := hcall .toDevice 0x1004 1 ha
  have ho : Outcome .toDevice 0x1004 (justProbed Unit) s₁ := hout as s₁ h1
  obtain ⟨⟨bs, s₂, h2⟩, -⟩ := (ioctl_copies copyBus hb s₁ ho.quiescent () busAddr).1 .fromDevice 0x2008 2 ha'
  exact ⟨as, s₁, bs, s₂, h1, h2, ho, fun i hi => hback 0x1004 0x2008 1 2 ha ha' as s₁ s₁.hw.host () bs s₂ h1 h2 i hi⟩

end Pciemu.Driver
