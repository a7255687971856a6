import Pciemu.WriteProtection

namespace Pciemu.Device

open Bytes

def Bus.Reports (bus : Bus) (r : ℕ) : Prop :=
  (r = 0 → bus.CopiesExactly) ∧ ∀ m addr ofs len, ofs.toNat + len.toNat ≤ areaSize →
    (bus.pciDmaRead m addr ofs len).2 = r ∧ (bus.pciDmaWrite m addr ofs len).2 = r

def replyBus (r : ℕ) : Bus where
  pciDmaRead m addr ofs len := if r = 0 then copyBus.pciDmaRead m addr ofs len else (m, r)
  pciDmaWrite m addr ofs len := if r = 0 then copyBus.pciDmaWrite m addr ofs len else (m, r)

theorem replyBus_error {r : ℕ} (hr : r ≠ 0) (m : Machine) (addr ofs len : UInt64) :
    (replyBus r).pciDmaRead m addr ofs len = (m, r) ∧ (replyBus r).pciDmaWrite m addr ofs len = (m, r) :=
  ⟨if_neg hr, if_neg hr⟩

theorem replyBus_reports (r : ℕ) : (replyBus r).Reports r := by
  by_cases hr : r = 0
  · subst hr
    exact ⟨fun _ => Bus.AgreesWith.refl copyBus, fun _ _ _ _ _ => ⟨rfl, rfl⟩⟩
  · refine ⟨fun h0 => absurd h0 hr, fun m addr ofs len _ => ?_⟩
    rw [(replyBus_error hr m addr ofs len).1, (replyBus_error hr m addr ofs len).2]
    exact ⟨rfl, rfl⟩

theorem replyBus_delivers (r : ℕ) : (replyBus r).Delivers {[]} := by
  by_cases hr : r = 0
  · subst hr
    exact copyBus_delivers
  · intro m addr ofs len
    rw [(replyBus_error hr m addr ofs len).1, (replyBus_error hr m addr ofs len).2]
    exact ⟨⟨[], rfl, .start⟩, [], rfl, .start⟩

end Pciemu.Device

namespace Pciemu.Driver

open Bytes Device AuroraHw Runs

/-- The pages behind an address: the one there, where it is on the bus, and where the one behind the
next page of the address space is. -/
structure UserPages where
  page : ℕ
  first : ℕ
  second : ℕ
  low : first + pageSize ≤ 2 ^ 32
  apart : first = second ∨ first + pageSize ≤ second ∨ second + pageSize ≤ first

def UserPages.byte (u : UserPages) (vaddr : UInt64) (i : ℕ) : ℕ :=
  if pageOfs vaddr + i < pageSize then u.first + pageOfs vaddr + i else u.second + (pageOfs vaddr + i - pageSize)

def UserPages.pinned (u : UserPages) (ok : Bool) : Option ℕ := if ok then some u.page else none

def UserPages.handle (u : UserPages) (ok : Bool) (ofs : ℕ) : Option UInt64 :=
  if ok then some (UInt64.ofNat (u.first + ofs)) else none

def Moved (byte : ℕ → ℕ) (m m' : Machine) : DmaDataDirection → Prop
  | .toDevice => ∀ i < sizeofInt, m'.dma.buff i = m.host (byte i)
  | .fromDevice => ∀ i < sizeofInt, m'.host (byte i) = m.dma.buff i

section Success

variable {T : Type} [DecidableEq T]

def Succeeded (bus : Bus) (t : T) (d : DmaDataDirection) (vaddr : UInt64) (u : UserPages) (pinned mapped : Bool)
    (s : System T) (as : List (Action T)) (s' : System T) : Prop :=
  ∃ s₁, step bus s (.ioctl t (ioctlCmd d) vaddr) = some s₁ ∧
    Along (step bus) (fun s a _ => Outcomes t (u.pinned pinned) (u.handle mapped s.dma.offset) a) s₁ as ∧
    Runs.run (step bus) s₁ as = some s' ∧ (s'.thread t).stage = .user ∧ .returned s.calls 0 ∈ s'.log

def SuccessMeansMoved (t : T) (d : DmaDataDirection) (vaddr : UInt64) (u : UserPages) (pinned mapped : Bool)
    (r : ℕ) : Prop :=
  ∀ bus : Bus, bus.Reports r → ∀ s, Quiescent s → ∀ as s', Succeeded bus t d vaddr u pinned mapped s as s' →
    Moved (u.byte vaddr) s.hw s'.hw d

variable {t : T} {d : DmaDataDirection} {vaddr : UInt64} {u : UserPages} {pinned mapped : Bool} {r : ℕ}

theorem succeeded_moved (hofs : pageOfs vaddr + sizeofInt ≤ pageSize) :
    SuccessMeansMoved t d vaddr u true true 0 := by
  rintro bus hbus s hs as s' ⟨s₁, hstep, halong, hrun, huser, -⟩
  let busAddr (_ ofs : ℕ) := UInt64.ofNat (u.first + ofs)
  have hsize : pageSize = 4096 := rfl
  have hint : sizeofInt = 4 := rfl
  have hlow := u.low
  have haddr : (busAddr u.page (pageOfs vaddr)).toNat = u.first + pageOfs vaddr := by
    apply UInt64.toNat_ofNat_of_lt'
    change _ < 2 ^ 64
    omega
  have hsolo : SoloCall bus t d vaddr u.page busAddr s as s' := by
    refine ⟨s₁, hstep, ?_, hrun, huser⟩
    apply along_invariant (I := fun _ => True) _ as trivial halong
    intro s a s' _ _ ha
    refine ⟨trivial, ?_⟩
    cases a <;> exact ha
  have hreach : Reachable u.page busAddr vaddr := ⟨hofs, by omega⟩
  have hcopied := (soloCall_outcome (hbus.1 rfl) hs hreach hsolo).copied
  rw [haddr] at hcopied
  have hbyte (i : ℕ) (hi : i < sizeofInt) : u.byte vaddr i = u.first + pageOfs vaddr + i := if_pos (by omega)
  cases d with
  | toDevice =>
    intro i hi
    have hin := splice_inside s.hw.dma.buff (fun i => s.hw.host (u.first + pageOfs vaddr + i)) 0 4 i hi
    rw [Nat.zero_add] at hin
    rw [hcopied.buff, copiedBuff, hin, hbyte i hi]
  | fromDevice =>
    intro i hi
    have hin := splice_inside s.hw.host s.hw.dma.buff (u.first + pageOfs vaddr) 4 i hi
    rw [hcopied.host, copiedHost, hbyte i hi, hin]

end Success

section Stalled

variable {T : Type} (t : T) (d : DmaDataDirection) (vaddr : UInt64) (u : UserPages) (pinned mapped : Bool) (r c : ℕ)

def missedByte : ℕ := if r = 0 then 3 else 0

def Missed (m : Machine) : Prop := m.host (u.byte vaddr (missedByte r)) = 1 ∧ m.dma.buff (missedByte r) = 0

def Stage.pastPin : Stage → Bool
  | .readPage | .lock | .structInit | .mapPage | .iowrite _ => true
  | _ => false

structure Stalled (s : System T) : Prop where
  lone : Lone t s
  call : (s.thread t).call = c
  direction : (s.thread t).direction = d
  ofs : (s.thread t).ofs = pageOfs vaddr
  len : (s.thread t).len = transferLen vaddr
  pin : (s.thread t).stage.pastPin → pinned
  write : ∀ n, (s.thread t).stage = .iowrite n →
    mapped ∧ s.dma.dmaHandle = UInt64.ofNat (u.first + pageOfs vaddr)
  code : ∀ k, (s.thread t).stage = .ret k → k = 0
  done : (s.thread t).stage = .user → .returned c 0 ∈ s.log
  missed : Missed vaddr u r s.hw

variable {t d vaddr u pinned mapped r c}

theorem doorbell_short {m : Machine} (hm : Ready m) {dma : PciemuDma T}
    (hp : Programmed m.dma.config (txdescOf dma d) d 4) (hlen : dma.len = transferLen vaddr)
    (hhandle : dma.dmaHandle = UInt64.ofNat (u.first + pageOfs vaddr))
    (hshort : pageSize < pageOfs vaddr + sizeofInt) (h : Missed vaddr u 0 m) :
    Missed vaddr u 0 (auroraDmaDoorbellRing copyBus m) := by
  have hofs := pageOfs_lt vaddr
  have hlow := u.low
  have hsize : pageSize = 4096 := rfl
  have hint : sizeofInt = 4 := rfl
  have haddr : (dma.dmaHandle.toUInt32.toUInt64 &&& dmaMask).toNat = u.first + pageOfs vaddr := by
    have hnat : dma.dmaHandle.toNat = u.first + pageOfs vaddr := by
      rw [hhandle]
      apply UInt64.toNat_ofNat_of_lt'
      change _ < 2 ^ 64
      omega
    rw [low_handle _ (by omega), hnat]
  have hn : (UInt32.ofNat dma.len).toUInt64.toNat = pageSize - pageOfs vaddr := by
    have hval : dma.len = pageSize - pageOfs vaddr := hlen.trans (if_pos hshort)
    rw [UInt32.toNat_toUInt64, hval, UInt32.toNat_ofNat_of_lt']
    change _ < 2 ^ 32
    omega
  have hmask : m.dma.config.mask = dmaMask := hm.mask
  obtain ⟨hbuff, hhost⟩ := doorbell_copied m hm.idle hp.transferCall
  rw [hmask] at hbuff hhost
  refine ⟨(congrFun hhost _).trans (Eq.trans ?_ h.1), (congrFun hbuff _).trans (Eq.trans ?_ h.2)⟩
  · cases d with
    | toDevice => rfl
    | fromDevice =>
      apply (copyBus_keepsHost m _ 0 _).2
      have hbyte : u.byte vaddr 3 = u.second + (pageOfs vaddr + 3 - pageSize) := if_neg (by omega)
      have hapart := u.apart
      rw [haddr, hn]
      change u.byte vaddr 3 < _ ∨ _ ≤ u.byte vaddr 3
      omega
  · cases d with
    | toDevice =>
      let addr := dma.dmaHandle.toUInt32.toUInt64 &&& dmaMask
      refine splice_outside m.dma.buff (fun i => m.host (addr.toNat + i)) (0 : UInt64).toNat
        (UInt32.ofNat dma.len).toUInt64.toNat 3 ?_
      rw [hn, UInt64.toNat_zero]
      omega
    | fromDevice => rfl

theorem doorbell_failed {m : Machine} (hm : Ready m) {dma : PciemuDma T}
    (hp : Programmed m.dma.config (txdescOf dma d) d 4) (hr : r ≠ 0) (h : Missed vaddr u r m) :
    Missed vaddr u r (auroraDmaDoorbellRing (replyBus r) m) := by
  obtain ⟨hbuff, hhost⟩ := doorbell_memory (replyBus r) m hm.idle hp.transferCall
  have hkeep (m' : Machine) (mask : UInt64) : (busAccess (replyBus r) m'
      (busCall mask dma.dmaHandle dma.len d)).1 = m' := by
    cases d with
    | toDevice => exact congrArg Prod.fst (replyBus_error hr _ _ _ _).1
    | fromDevice => exact congrArg Prod.fst (replyBus_error hr _ _ _ _).2
  rw [hkeep] at hbuff hhost
  exact ⟨(congrFun hhost _).trans h.1, (congrFun hbuff _).trans h.2⟩

theorem Stalled.aside {s s' : System T} (h : Stalled t d vaddr u pinned mapped r c s) (hlone : Lone t s')
    (ha : Aside s s') : Stalled t d vaddr u pinned mapped r c s' where
  lone := hlone
  call := ha.thread ▸ h.call
  direction := ha.thread ▸ h.direction
  ofs := ha.thread ▸ h.ofs
  len := ha.thread ▸ h.len
  pin := ha.thread ▸ h.pin
  write := by
    rw [ha.thread, ha.dma]
    exact h.write
  code := ha.thread ▸ h.code
  done := by
    obtain ⟨es, hlog, -⟩ := ha.log
    rw [ha.thread, hlog]
    exact fun hu => List.mem_append_left es (h.done hu)
  missed := by
    rw [Missed, ha.host, ha.engine]
    exact h.missed

variable [DecidableEq T]

theorem Stalled.update {s s' : System T} (h : Stalled t d vaddr u pinned mapped r c s) (hlone : Lone t s')
    {stage : Stage} {page : ℕ}
    (hth : s'.thread = Function.update s.thread t { s.thread t with stage := stage, page := page })
    (hpin : stage.pastPin → pinned)
    (hwrite : ∀ n, stage = .iowrite n → mapped ∧ s'.dma.dmaHandle = UInt64.ofNat (u.first + pageOfs vaddr))
    (hcode : ∀ k, stage = .ret k → k = 0) (hdone : stage = .user → .returned c 0 ∈ s'.log)
    (hmissed : Missed vaddr u r s'.hw) : Stalled t d vaddr u pinned mapped r c s' := by
  have hself : s'.thread t = { s.thread t with stage := stage, page := page } := by rw [hth, Function.update_self]
  refine ⟨hlone, ?_, ?_, ?_, ?_, ?_, ?_, ?_, ?_, hmissed⟩
  all_goals rw [hself]
  · exact h.call
  · exact h.direction
  · exact h.ofs
  · exact h.len
  · exact hpin
  · exact hwrite
  · exact hcode
  · exact hdone

theorem Stalled.turn {s : System T} {a : Action T} {th : Thread} {dma : PciemuDma T} {es : List KernelEvent}
    (h : Stalled t d vaddr u pinned mapped r c s) (ht : Turn s.dma t (s.thread t) a th dma es)
    (ha : Outcomes t (u.pinned pinned) (u.handle mapped s.dma.offset) a) (hlone : Lone t (s.turn t th dma es)) :
    Stalled t d vaddr u pinned mapped r c (s.turn t th dma es) := by
  obtain ⟨live, hs⟩ := h.lone.served
  have hpast (hst : (s.thread t).stage.pastPin) : ∀ _ : th.stage.pastPin, pinned := fun _ => h.pin hst
  cases ht with
  | pinned p hst =>
    have hpin : pinned := by
      by_contra hno
      have hp := ha.2
      rw [UserPages.pinned, if_neg hno] at hp
      cases hp
    exact h.update hlone rfl (fun _ => hpin) (by simp) (by simp) (by simp) h.missed
  | mapped a hst =>
    have hofs : s.dma.offset = pageOfs vaddr := (hs.base.at_mapPage hst).2.1.trans h.ofs
    have hh := ha.2
    have hmap : mapped := by
      by_contra hno
      rw [UserPages.handle, if_neg hno] at hh
      cases hh
    rw [UserPages.handle, if_pos hmap, hofs] at hh
    exact h.update hlone rfl (hpast (by rw [hst]; rfl)) (fun _ _ => ⟨hmap, Option.some.inj hh⟩) (by simp) (by simp)
      h.missed
  | ret code hst =>
    refine h.update hlone rfl (by simp [Stage.pastPin]) (by simp) (by simp) (fun _ => ?_) h.missed
    rw [h.call, h.code code hst]
    exact List.mem_append_right _ (List.mem_singleton_self _)
  | readPage hst => exact h.update hlone rfl (hpast (by rw [hst]; rfl)) (by simp) (by simp) (by simp) h.missed
  | lock hst hfree => exact h.update hlone rfl (hpast (by rw [hst]; rfl)) (by simp) (by simp) (by simp) h.missed
  | structInit hst => exact h.update hlone rfl (hpast (by rw [hst]; rfl)) (by simp) (by simp) (by simp) h.missed
  | pinFailed hst => exact h.update hlone rfl (by simp [Stage.pastPin]) (by simp) (by simp) (by simp) h.missed
  | mapFailed hst => exact h.update hlone rfl (by simp [Stage.pastPin]) (by simp) (by simp) (by simp) h.missed
  | wait source hst hc => exact h.update hlone rfl (by simp [Stage.pastPin]) (by simp) (by simp) (by simp) h.missed
  | unlock k hst => exact h.update hlone rfl (by simp [Stage.pastPin]) (by simp) (by simp) (by simp) h.missed

theorem Stalled.move {s s' : System T} {a : Action T} (h : Stalled t d vaddr u pinned mapped r c s)
    (hshort : pinned → mapped → r = 0 → pageSize < pageOfs vaddr + sizeofInt) (hm : Move (replyBus r) s a s')
    (ha : Outcomes t (u.pinned pinned) (u.handle mapped s.dma.offset) a) :
    Stalled t d vaddr u pinned mapped r c s' := by
  have hlone := h.lone.move (replyBus_delivers r) hm ha
  obtain ⟨live, hs⟩ := h.lone.served
  cases hm with
  | ioctl t' cmd vaddr' hst => exact ha.elim
  | turn t' ht =>
    obtain rfl := ht.by ha
    exact h.turn ht ha hlone
  | iowrite t' n w hst hw =>
    obtain rfl := ha
    have hpin := h.pin (by rw [hst]; rfl)
    obtain ⟨hmap, hhandle⟩ := h.write n hst
    obtain ⟨-, hd, hp⟩ := hs.base.at_iowrite hst
    obtain ⟨v, reg, hn, -, he⟩ | ⟨ws, -, m', rfl, rfl, -, he⟩ := hs.base.iowrite_cases (replyBus_delivers r) hst hw
    · rw [he] at hlone ⊢
      exact h.update hlone rfl (fun _ => hpin) (fun _ _ => ⟨hmap, hhandle⟩) (by simp) (by simp) h.missed
    · -- no other step touches the two memories
      rw [he] at hlone ⊢
      refine h.update hlone rfl (by simp [Stage.pastPin]) (by simp) (by simp) (by simp) ?_
      rw [h.direction] at hp
      by_cases hr : r = 0
      · subst hr
        exact doorbell_short hs.base.ready hp (hd.2.1.trans h.len) hhandle (hshort hpin hmap rfl) h.missed
      · exact doorbell_failed hs.base.ready hp hr h.missed
  | irq hi => exact h.aside hlone (hi.aside hs.base.ready)
  | mmapRaise val => exact ha.elim

def unequal (T : Type) : System T :=
  { justProbed T with hw := { (justProbed T).hw with host := fun _ => 1 } }

theorem unequal_quiescent (T : Type) : Quiescent (unequal T) := by
  obtain ⟨⟨⟨hidle, hmask, hmode⟩, huser, hmtx, hpending, hhandler⟩, -⟩ := justProbed_probed T
  exact ⟨⟨hidle, hmask, hmode⟩, huser, hmtx, hpending, hhandler⟩

theorem unequal_buff (T : Type) (r : ℕ) : (unequal T).hw.dma.buff (missedByte r) = 0 := by
  unfold missedByte
  split_ifs <;> rfl

theorem unequal_stalled (t : T) (d : DmaDataDirection) (vaddr : UInt64) (u : UserPages) (pinned mapped : Bool) (r : ℕ) :
    ∃ s, step (replyBus r) (unequal T) (.ioctl t (ioctlCmd d) vaddr) = some s ∧
      Stalled t d vaddr u pinned mapped r 0 s := by
  obtain ⟨s, hm, hlone, hth, hhw⟩ := lone_ioctl (replyBus_delivers r) (unequal_quiescent T) t d vaddr
  have hmissed : Missed vaddr u r s.hw := by
    rw [hhw]
    exact ⟨rfl, unequal_buff T r⟩
  refine ⟨s, move_step (replyBus r) (unequal T) hm, hlone, ?_, ?_, ?_, ?_, ?_, ?_, ?_, ?_, hmissed⟩
  all_goals rw [hth]
  · rfl
  · exact fun hs => absurd hs Bool.false_ne_true
  · exact fun _ hn => Stage.noConfusion hn
  · exact fun _ hn => Stage.noConfusion hn
  · exact fun hn => Stage.noConfusion hn

theorem not_moved (t : T) (d : DmaDataDirection) (vaddr : UInt64) (u : UserPages) (pinned mapped : Bool) (r : ℕ)
    (hshort : pinned → mapped → r = 0 → pageSize < pageOfs vaddr + sizeofInt) :
    ¬SuccessMeansMoved t d vaddr u pinned mapped r := by
  intro hmoved
  obtain ⟨s₁, hstep, hstalled⟩ := unequal_stalled t d vaddr u pinned mapped r
  have hreach : ∃ as s', Along (step (replyBus r)) (fun s a _ => Outcomes t (u.pinned pinned)
      (u.handle mapped s.dma.offset) a) s₁ as ∧ Runs.run (step (replyBus r)) s₁ as = some s' ∧
      ((s'.thread t).stage = .user ∧ Stalled t d vaddr u pinned mapped r 0 s') := by
    apply exists_run (I := Stalled t d vaddr u pinned mapped r 0) (rank t) _ hstalled
    intro s hs hend
    have hu : (s.thread t).stage ≠ .user := fun hu => hend ⟨hu, hs⟩
    obtain ⟨a, s', hm, ha⟩ := hs.lone.enabled (replyBus r) hu (u.pinned pinned) (u.handle mapped s.dma.offset)
    exact ⟨a, s', move_step (replyBus r) s hm, ha, hs.move hshort hm ha, hs.lone.rank_lt hm ha⟩
  obtain ⟨as, s', halong, hrun, huser, hend⟩ := hreach
  have hdata := hmoved (replyBus r) (replyBus_reports r) (unequal T) (unequal_quiescent T) as s'
    ⟨s₁, hstep, halong, hrun, huser, hend.done huser⟩
  have hlt : missedByte r < sizeofInt := by
    unfold missedByte
    split_ifs <;> decide
  have hne : (1 : UInt8) ≠ 0 := by decide
  cases d with
  | toDevice => exact hne ((hdata (missedByte r) hlt).symm.trans hend.missed.2)
  | fromDevice => exact hne (hend.missed.1.symm.trans ((hdata (missedByte r) hlt).trans (unequal_buff T r)))

theorem success_means_moved_iff (t : T) (d : DmaDataDirection) (vaddr : UInt64) (u : UserPages)
    (pinned mapped : Bool) (r : ℕ) : SuccessMeansMoved t d vaddr u pinned mapped r ↔
      pinned ∧ mapped ∧ pageOfs vaddr + sizeofInt ≤ pageSize ∧ r = 0 := by
  constructor
  · intro h
    by_contra hbad
    refine not_moved t d vaddr u pinned mapped r ?_ h
    intro hpin hmap hr
    by_contra hle
    exact hbad ⟨hpin, hmap, Nat.not_lt.mp hle, hr⟩
  · rintro ⟨rfl, rfl, hofs, rfl⟩
    exact succeeded_moved hofs

end Stalled

theorem success_without_page : ¬SuccessMeansMoved () .toDevice 0x2000
    ⟨2, 0x2000, 0x3000, by decide, by decide⟩ false true 0 :=
  not_moved _ _ _ _ _ _ _ fun hpin => absurd hpin Bool.false_ne_true

end Pciemu.Driver
