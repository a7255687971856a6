import Pciemu.Roundtrip

/-!
The pages of the callers. When a call looks up its address, the page tables of
its process may say anything; what they say is kept for the rest of the call.
-/

namespace Pciemu.Device

def Bus.KeepsHost (bus : Bus) : Prop :=
  ∀ m addr ofs len, (bus.pciDmaRead m addr ofs len).1.host = m.host ∧
    ∀ i, i < addr.toNat ∨ addr.toNat + len.toNat ≤ i → (bus.pciDmaWrite m addr ofs len).1.host i = m.host i

theorem doorbell_host {bus : Bus} (hb : bus.KeepsHost) (m : Machine) (hi : m.dma.status = .idle) {call : Event}
    (hc : transferCall m.dma.config = some call) {i : ℕ} (h : (auroraDmaDoorbellRing bus m).host i ≠ m.host i) :
    ∃ addr ofs len : UInt64, call = .pciDmaWrite addr ofs len ∧ addr.toNat ≤ i ∧ i < addr.toNat + len.toNat := by
  have hhost : (busAccess bus (entered m call) call).1.host i ≠ m.host i := by
    rwa [(doorbell_memory bus m hi hc).2] at h
  obtain rfl | rfl := transferCall_cases hc
  · exact absurd (congrFun (hb _ _ _ _).1 i) hhost
  · refine ⟨_, _, _, rfl, ?_⟩
    by_contra hout
    exact hhost ((hb _ _ _ _).2 i (by omega))

end Pciemu.Device

namespace Pciemu.Driver

open Bytes Device AuroraHw Runs

/-- What is behind an address that can be read: a page, whether the process may write to it, and if not
the copy it would be given by writing, if any. -/
structure PageEntry where
  frame : ℕ
  writable : Bool
  copy : Option ℕ

def follWrite : UInt32 := 1

def getUserPagesFast (gupFlags : UInt32) (entry : Option PageEntry) : Option ℕ :=
  entry.bind fun e => if gupFlags &&& follWrite = 0 ∨ e.writable then some e.frame else e.copy

def gupFlags : DmaDataDirection → UInt32
  | .toDevice => 0
  | .fromDevice => 0

structure Paged (T : Type) where
  sys : System T
  entry : T → Option PageEntry

inductive PagedAction (T : Type)
  | ioctl (t : T) (cmd : UInt32) (vaddr : UInt64)
  | getUserPagesFast (t : T) (entry : Option PageEntry)
  | dmaMapPage (t : T) (mapped : Bool)
  | advance (t : T)
  | irq
  | mmapRaise (val : UInt64)

section Paging

variable {T : Type} (frameAddr : ℕ → ℕ)

def PagedAction.toAction (s : System T) : PagedAction T → Action T
  | .ioctl t cmd vaddr => .ioctl t cmd vaddr
  | .getUserPagesFast t entry =>
    .getUserPagesFast t (Driver.getUserPagesFast (gupFlags (s.thread t).direction) entry)
  | .dmaMapPage t mapped =>
    .dmaMapPage t (if mapped then some (UInt64.ofNat (frameAddr (s.thread t).page + s.dma.offset)) else none)
  | .advance t => .advance t
  | .irq => .irq
  | .mmapRaise val => .mmapRaise val

def PagedAction.noted [DecidableEq T] (entry : T → Option PageEntry) : PagedAction T → T → Option PageEntry
  | .getUserPagesFast t e => Function.update entry t e
  | _ => entry

def Paged.step [DecidableEq T] (bus : Bus) (s : Paged T) (a : PagedAction T) : Option (Paged T) :=
  (Driver.step bus s.sys (a.toAction frameAddr s.sys)).map fun sys => ⟨sys, a.noted s.entry⟩

def Paged.MayWrite (s : Paged T) (t : T) (page : ℕ) : Prop :=
  ∃ e ∈ s.entry t, e.writable ∧ page = e.frame

def WriteProtected (s : Paged T) (a : PagedAction T) (s' : Paged T) : Prop :=
  ∀ i, s'.sys.hw.host i ≠ s.sys.hw.host i → ∃ t page, a = .advance t ∧
    (s.sys.thread t).direction = .fromDevice ∧ s.MayWrite t page ∧
    frameAddr page ≤ i ∧ i < frameAddr page + pageSize

def PinsWritable (s : Paged T) : PagedAction T → Prop
  | .advance t => (s.sys.thread t).stage = .readPage → (s.sys.thread t).direction = .fromDevice →
    s.MayWrite t s.sys.dma.page
  | _ => True

def Stage.holdsPage : Stage → Bool
  | .lock | .structInit | .mapPage | .iowrite _ => true
  | _ => false

structure Backed (s : Paged T) (t : T) (th : Thread) : Prop where
  fits : th.stage ≠ .user → th.ofs < pageSize ∧ th.ofs + th.len ≤ pageSize
  writable : th.direction = .fromDevice → th.stage.holdsPage → s.MayWrite t th.page
  handle : ∀ n, th.stage = .iowrite n → s.sys.dma.dmaHandle.toNat = frameAddr th.page + th.ofs

structure PagedInv (s : Paged T) : Prop where
  base : Base s.sys
  backed : ∀ t, Backed frameAddr s t (s.sys.thread t)

end Paging

theorem pageOfs_lt (vaddr : UInt64) : pageOfs vaddr < pageSize := by
  have hmask : (~~~pageMask).toNat = 2 ^ 12 - 1 := by decide
  rw [pageOfs, UInt64.toNat_and, hmask, Nat.and_two_pow_sub_one_eq_mod]
  exact Nat.mod_lt _ (by decide)

theorem transferLen_le (vaddr : UInt64) : pageOfs vaddr + transferLen vaddr ≤ pageSize := by
  have h := pageOfs_lt vaddr
  unfold transferLen
  split_ifs <;> omega

section Inv

variable {T : Type} {frameAddr : ℕ → ℕ} {s s' : Paged T} {t : T} {th : Thread}

theorem Backed.moved (h : Backed frameAddr s t th) (hu : th.stage ≠ .user) {stage : Stage}
    (hholds : stage.holdsPage → th.stage.holdsPage ∧ s'.entry t = s.entry t)
    (hhandle : ∀ n, stage = .iowrite n → s'.sys.dma.dmaHandle.toNat = frameAddr th.page + th.ofs) :
    Backed frameAddr s' t { th with stage := stage } where
  fits := fun _ => h.fits hu
  writable := by
    intro hd hs
    obtain ⟨hold, he⟩ := hholds hs
    obtain ⟨e, hentry, hw⟩ := h.writable hd hold
    exact ⟨e, he.trans hentry, hw⟩
  handle := hhandle

theorem Backed.without (h : Backed frameAddr s t th) (hu : th.stage ≠ .user) {stage : Stage}
    (hstage : stage.holdsPage = false) : Backed frameAddr s' t { th with stage := stage } := by
  apply h.moved hu
  · intro hs
    rw [hstage] at hs
    cases hs
  · rintro n rfl
    cases hstage

theorem PagedInv.same (h : PagedInv frameAddr s) (hbase : Base s'.sys) (hth : s'.sys.thread = s.sys.thread)
    (hentry : s'.entry = s.entry) (hhandle : s'.sys.dma.dmaHandle = s.sys.dma.dmaHandle) : PagedInv frameAddr s' where
  base := hbase
  backed := by
    intro t
    rw [hth]
    obtain ⟨hfits, hwritable, hback⟩ := h.backed t
    refine ⟨hfits, fun hd hs => ?_, fun n hn => ?_⟩
    · obtain ⟨e, he, hw⟩ := hwritable hd hs
      exact ⟨e, hentry ▸ he, hw⟩
    · rw [hhandle]
      exact hback n hn

theorem pciemuIoctl_backed (call : ℕ) (cmd : UInt32) (vaddr : UInt64) :
    Backed frameAddr s t (pciemuIoctl call cmd vaddr) := by
  have hfits := And.intro (pageOfs_lt vaddr) (transferLen_le vaddr)
  unfold pciemuIoctl
  dsimp only
  split_ifs
  all_goals exact ⟨fun _ => hfits, fun _ hs => absurd hs Bool.false_ne_true, fun _ hn => Stage.noConfusion hn⟩

theorem Base.alone {sys : System T} (h : Base sys) (ht : (sys.thread t).stage.locked) {t' : T} (hne : t' ≠ t) :
    ¬(sys.thread t').stage.locked := fun hl =>
  hne (Option.some.inj ((h.owner hl).symm.trans (h.owner ht)))

variable [DecidableEq T]

theorem PagedInv.update (h : PagedInv frameAddr s) (hbase : Base s'.sys)
    (hth : s'.sys.thread = Function.update s.sys.thread t th) (hentry : ∀ t', t' ≠ t → s'.entry t' = s.entry t')
    (hhandle : ∀ t', t' ≠ t → (s.sys.thread t').stage.locked → s'.sys.dma.dmaHandle = s.sys.dma.dmaHandle)
    (hown : Backed frameAddr s' t th) : PagedInv frameAddr s' where
  base := hbase
  backed := by
    intro t'
    rw [hth]
    by_cases ht : t' = t
    · rw [ht, Function.update_self]
      exact hown
    · rw [Function.update_of_ne ht]
      obtain ⟨hfits, hwritable, hback⟩ := h.backed t'
      refine ⟨hfits, fun hd hs => ?_, fun n hn => ?_⟩
      · obtain ⟨e, he, hw⟩ := hwritable hd hs
        exact ⟨e, (hentry t' ht).trans he, hw⟩
      · rw [hhandle t' ht (by rw [hn]; rfl)]
        exact hback n hn

variable {bus : Bus} {W : Set (List (UInt64 × UInt64))}

theorem PagedInv.advance (hb : bus.Delivers W) (h : PagedInv frameAddr s)
    (hpin : PinsWritable s (.advance t)) {sys : System T} (hm : Move bus s.sys (.advance t) sys) :
    PagedInv frameAddr ⟨sys, s.entry⟩ := by
  have hbase := h.base.move hb hm
  have hback := h.backed t
  have hentry (t' : T) (_ : t' ≠ t) : s.entry t' = s.entry t' := rfl
  have hsame (t' : T) (_ : t' ≠ t) (_ : (s.sys.thread t').stage.locked) :
    s.sys.dma.dmaHandle = s.sys.dma.dmaHandle := rfl
  cases hm with
  | turn t' ht =>
    cases ht with
    | readPage hs =>
      refine h.update hbase rfl hentry hsame ⟨fun _ => hback.fits (by simp [hs]), fun hd _ => hpin hs hd, ?_⟩
      exact fun _ hn => Stage.noConfusion hn
    | lock hs hfree =>
      refine h.update hbase rfl hentry hsame (hback.moved (by simp [hs]) (fun _ => ⟨by rw [hs]; rfl, rfl⟩) ?_)
      exact fun _ hn => Stage.noConfusion hn
    | structInit hs =>
      refine h.update hbase rfl hentry hsame (hback.moved (by simp [hs]) (fun _ => ⟨by rw [hs]; rfl, rfl⟩) ?_)
      exact fun _ hn => Stage.noConfusion hn
    | wait source hs hc => exact h.update hbase rfl hentry hsame (hback.without (by simp [hs]) rfl)
    | unlock r hs => exact h.update hbase rfl hentry hsame (hback.without (by simp [hs]) rfl)
    | ret code hs => exact h.update hbase rfl hentry hsame (hback.without (by simp [hs]) rfl)
  | iowrite _ n w hs hw =>
    obtain ⟨v, r, -, -, he⟩ | ⟨ws, -, m', -, -, -, he⟩ := h.base.iowrite_cases hb hs hw
    · rw [he] at hbase ⊢
      refine h.update hbase rfl hentry hsame (hback.moved (by simp [hs]) (fun _ => ⟨by rw [hs]; rfl, rfl⟩) ?_)
      exact fun _ _ => hback.handle n hs
    · rw [he] at hbase ⊢
      exact h.update hbase rfl hentry hsame (hback.without (by simp [hs]) rfl)

theorem PagedInv.step (hb : bus.Delivers W) (hframe : ∀ p, frameAddr p + pageSize ≤ 2 ^ 32)
    (h : PagedInv frameAddr s) {a : PagedAction T} (hpin : PinsWritable s a)
    (hs : s.step frameAddr bus a = some s') : PagedInv frameAddr s' := by
  obtain ⟨sys, hsys, rfl⟩ := Option.map_eq_some_iff.mp hs
  have hm := step_move bus s.sys hsys
  have hbase := h.base.move hb hm
  cases a with
  | ioctl t cmd vaddr =>
    cases hm with
    | ioctl _ _ _ hst => exact h.update hbase rfl (fun _ _ => rfl) (fun _ _ _ => rfl) (pciemuIoctl_backed ..)
    | turn _ ht => cases ht
  | getUserPagesFast t entry =>
    have hentry (t' : T) (hne : t' ≠ t) : Function.update s.entry t entry t' = s.entry t' :=
      Function.update_of_ne hne _ _
    change Move bus s.sys (.getUserPagesFast t (Driver.getUserPagesFast _ entry)) sys at hm
    generalize Driver.getUserPagesFast _ entry = pinned at hm
    cases hm with
    | turn _ ht =>
      cases ht with
      | pinFailed hst =>
        exact h.update hbase rfl hentry (fun _ _ _ => rfl) ((h.backed t).without (by simp [hst]) rfl)
      | pinned p hst =>
        exact h.update hbase rfl hentry (fun _ _ _ => rfl) ((h.backed t).without (by simp [hst]) rfl)
  | dmaMapPage t mapped =>
    have hother (hst : (s.sys.thread t).stage = .mapPage) (t' : T) (hne : t' ≠ t) :
        ¬(s.sys.thread t').stage.locked := h.base.alone (by rw [hst]; rfl) hne
    cases mapped with
    | false =>
      cases hm with
      | turn _ ht =>
        cases ht with
        | mapFailed hst =>
          refine h.update hbase rfl (fun _ _ => rfl) (fun t' hne hl => absurd hl (hother hst t' hne)) ?_
          exact (h.backed t).without (by simp [hst]) rfl
    | true =>
      cases hm with
      | turn _ ht =>
        cases ht with
        | mapped _ hst =>
          have hu : (s.sys.thread t).stage ≠ .user := by simp [hst]
          refine h.update hbase rfl (fun _ _ => rfl) (fun t' hne hl => absurd hl (hother hst t' hne)) ?_
          refine (h.backed t).moved hu (fun _ => ⟨by rw [hst]; rfl, rfl⟩) fun n _ => ?_
          have hofs : s.sys.dma.offset = (s.sys.thread t).ofs := (h.base.at_mapPage hst).2.1
          have hfits := (h.backed t).fits hu
          have hlow := hframe (s.sys.thread t).page
          change (UInt64.ofNat (frameAddr (s.sys.thread t).page + s.sys.dma.offset)).toNat = _
          rw [hofs, UInt64.toNat_ofNat_of_lt']
          change _ < 2 ^ 64
          omega
  | advance t => exact h.advance hb hpin hm
  | irq =>
    cases hm with
    | turn _ ht => cases ht
    | irq hi =>
      have ha := hi.aside h.base.ready
      refine h.same hbase ha.thread rfl ?_
      rw [ha.dma]
  | mmapRaise val =>
    cases hm with
    | turn _ ht => cases ht
    | mmapRaise _ => exact h.same hbase rfl rfl rfl

theorem move_host {sys sys' : System T} (hb : bus.Delivers W) (h : Base sys) {a : Action T} (hm : Move bus sys a sys')
    {i : ℕ} (hne : sys'.hw.host i ≠ sys.hw.host i) : ∃ t, a = .advance t ∧ (sys.thread t).stage = .iowrite 4 ∧
      sys'.hw.host = (auroraDmaDoorbellRing bus sys.hw).host := by
  cases hm with
  | iowrite t n w hs hw =>
    obtain ⟨v, r, -, -, he⟩ | ⟨ws, -, m', rfl, rfl, -, he⟩ := h.iowrite_cases hb hs hw
    · rw [he] at hne
      exact absurd rfl hne
    · rw [he]
      exact ⟨t, rfl, hs, rfl⟩
  | irq hi => exact absurd (congrFun (hi.aside h.ready).host i) hne
  | mmapRaise val =>
    obtain ⟨e, hstep, -⟩ := raise_step sys.hw
    exact absurd (congrFun hstep.host i) hne
  | _ => exact absurd rfl hne

theorem PagedInv.protected (hb : bus.Delivers W) (hk : bus.KeepsHost) (hframe : ∀ p, frameAddr p + pageSize ≤ 2 ^ 32)
    (h : PagedInv frameAddr s) {a : PagedAction T} (hs : s.step frameAddr bus a = some s') :
    WriteProtected frameAddr s a s' := by
  obtain ⟨sys, hsys, rfl⟩ := Option.map_eq_some_iff.mp hs
  intro i hi
  obtain ⟨t, ha, hst, hhost⟩ := move_host hb h.base (step_move bus s.sys hsys) hi
  obtain ⟨-, hd, hp⟩ := h.base.at_iowrite hst
  have hback := h.backed t
  obtain ⟨hofs, hfits⟩ := hback.fits (by simp [hst])
  have hsize : pageSize = 4096 := rfl
  have hlow := hframe (s.sys.thread t).page
  have hhandle := hback.handle 4 hst
  have hmask : s.sys.hw.dma.config.mask = dmaMask := h.base.ready.mask
  change sys.hw.host i ≠ s.sys.hw.host i at hi
  rw [hhost] at hi
  obtain ⟨addr, ofs, len, hcall, hlo, hhi⟩ := doorbell_host hk s.sys.hw h.base.ready.idle hp.transferCall hi
  refine ⟨t, (s.sys.thread t).page, ?_, ?_⟩
  · cases a with
    | advance t' => exact congrArg PagedAction.advance (Action.advance.inj ha)
    | _ => cases ha
  · cases hdir : (s.sys.thread t).direction with
    | toDevice =>
      rw [hdir] at hcall
      cases hcall
    | fromDevice =>
      rw [hdir, hmask, busCall, low_handle _ (by omega), hd.2.1] at hcall
      obtain ⟨rfl, -, rfl⟩ := Event.pciDmaWrite.inj hcall
      have hlen : (UInt32.ofNat (s.sys.thread t).len).toUInt64.toNat = (s.sys.thread t).len := by
        rw [UInt32.toNat_toUInt64, UInt32.toNat_ofNat_of_lt']
        change _ < 2 ^ 32
        omega
      rw [hlen, hhandle] at hhi
      rw [hhandle] at hlo
      exact ⟨rfl, hback.writable hdir (by rw [hst]; rfl), by omega, by omega⟩

theorem write_protected (bus : Bus) (W : Set (List (UInt64 × UInt64))) (hb : bus.Delivers W) (hk : bus.KeepsHost)
    (frameAddr : ℕ → ℕ) (hframe : ∀ p, frameAddr p + pageSize ≤ 2 ^ 32) (s : Paged T) (hs : Probed s.sys)
    (as : List (PagedAction T)) (hpin : Along (Paged.step frameAddr bus) (fun s a _ => PinsWritable s a) s as) :
    Along (Paged.step frameAddr bus) (WriteProtected frameAddr) s as := by
  have hinv : PagedInv frameAddr s := by
    refine ⟨hs.base, fun t => ⟨?_, fun _ hst => ?_, fun n hn => ?_⟩⟩
    · exact fun hu => absurd (hs.user t) hu
    · rw [hs.user t] at hst
      cases hst
    · rw [hs.user t] at hn
      cases hn
  apply along_invariant (I := PagedInv frameAddr) _ as hinv hpin
  intro s a s' h ht hp
  exact ⟨h.step hb hframe hp ht, h.protected hb hk hframe ht⟩

end Inv

instance {T : Type} (s : Paged T) (t : T) (page : ℕ) : Decidable (s.MayWrite t page) :=
  inferInstanceAs (Decidable (∃ e ∈ s.entry t, e.writable ∧ page = e.frame))

instance {T : Type} (s : Paged T) : (a : PagedAction T) → Decidable (PinsWritable s a)
  | .advance t => inferInstanceAs (Decidable ((s.sys.thread t).stage = .readPage →
      (s.sys.thread t).direction = .fromDevice → s.MayWrite t s.sys.dma.page))
  | .ioctl _ _ _ | .getUserPagesFast _ _ | .dmaMapPage _ _ | .irq | .mmapRaise _ => isTrue trivial

theorem copyBus_keepsHost : copyBus.KeepsHost := by
  intro m addr ofs len
  exact ⟨rfl, fun i hi => splice_outside m.host (fun i => m.dma.buff (ofs.toNat + i)) _ _ i hi⟩

def lowFrames (p : ℕ) : ℕ := 4096 * (p % 2 ^ 20)

theorem lowFrames_le (p : ℕ) : lowFrames p + pageSize ≤ 2 ^ 32 := by
  have hlt : p % 2 ^ 20 < 2 ^ 20 := Nat.mod_lt _ (by decide)
  have hsize : pageSize = 4096 := rfl
  unfold lowFrames
  omega

def fetching (entry : PageEntry) : List (PagedAction Unit) :=
  [.ioctl () ioctlDmaFromDevice 0x2000, .getUserPagesFast () (some entry), .advance (), .advance (), .advance (),
    .dmaMapPage () true, .advance (), .advance (), .advance (), .advance ()]

theorem write_protected_writable :
    let s : Paged Unit := ⟨justProbed Unit, fun _ => none⟩
    let as := fetching ⟨2, true, none⟩ ++ [.advance ()]
    ((Runs.run (Paged.step lowFrames copyBus) s as).map fun s => s.sys.hw.host 8193) = some 0 ∧
      Along (Paged.step lowFrames copyBus) (WriteProtected lowFrames) s as := by
  intro s as
  exact ⟨by decide, write_protected copyBus {[]} copyBus_delivers copyBus_keepsHost lowFrames lowFrames_le s
    (justProbed_probed Unit) as (by decide)⟩

theorem write_protected_shared : ∃ s s', Probed (justProbed Unit) ∧
    Runs.run (Paged.step lowFrames copyBus) ⟨justProbed Unit, fun _ => none⟩ (fetching ⟨2, false, some 9⟩) = some s ∧
    s.step lowFrames copyBus (.advance ()) = some s' ∧ ¬WriteProtected lowFrames s (.advance ()) s' := by
  have hrun : ((Runs.run (Paged.step lowFrames copyBus) ⟨justProbed Unit, fun _ => none⟩
      (fetching ⟨2, false, some 9⟩)).bind fun s => (s.step lowFrames copyBus (.advance ())).map fun s' =>
        (s.sys.hw.host 8193, s'.sys.hw.host 8193, (s.entry ()).map PageEntry.writable)) = some (1, 0, some false) := by
    decide
  obtain ⟨s, hs, hstep⟩ := Option.bind_eq_some_iff.mp hrun
  obtain ⟨s', hs', he⟩ := Option.map_eq_some_iff.mp hstep
  simp only [Prod.mk.injEq] at he
  obtain ⟨h1, h0, hw⟩ := he
  refine ⟨s, s', justProbed_probed Unit, hs, hs', fun hp => ?_⟩
  obtain ⟨t, page, -, -, ⟨e, hentry, hwritable, -⟩, -⟩ := hp 8193 (by rw [h0, h1]; decide)
  rw [Option.mem_def.mp hentry] at hw
  rw [Option.map_some, hwritable] at hw
  cases hw

end Pciemu.Driver
