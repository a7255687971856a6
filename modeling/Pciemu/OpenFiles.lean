import Pciemu.Loading

namespace Pciemu.Driver

open Programs Runs

structure Allocations where
  made : ℕ
  freed : ℕ
  mutexReady : Bool

def KernelCall.onAllocations (z : ℤ) (x : Allocations) : KernelCall → Allocations
  | .kmalloc => if z ≠ 0 then ⟨x.made + 1, x.freed, false⟩ else x
  | .kfree => { x with freed := x.freed + 1 }
  | .mutexInit => { x with mutexReady := true }
  | _ => x

def Life.allocations (s : Life) : Allocations :=
  s.log.foldl (fun x call => call.1.onAllocations call.2 x) ⟨0, 0, false⟩

section Allocations

variable {s : Life} {k : KernelCall → ℤ}

theorem Life.allocations_after (s : Life) (c : KernelCall) (z : ℤ) :
    (s.after c z).allocations = c.onAllocations z s.allocations := by
  rw [allocations, after, List.foldl_append]
  rfl

theorem onAllocations_cases (c : KernelCall) (z : ℤ) (x : Allocations) :
    c.effect z = .acquire .pciemuDev ∧ (c.onAllocations z x).made = x.made + 1 ∧
      (c.onAllocations z x).freed = x.freed ∨
    c.effect z = .release .pciemuDev ∧ (c.onAllocations z x).made = x.made ∧
      (c.onAllocations z x).freed = x.freed + 1 ∨
    (c.effect z ≠ .acquire .pciemuDev ∧ c.effect z ≠ .release .pciemuDev) ∧
      (c.onAllocations z x).made = x.made ∧ (c.onAllocations z x).freed = x.freed := by
  cases c with
  | kmalloc =>
    by_cases hz : z = 0
    · simp [KernelCall.effect, KernelCall.onAllocations, hz]
    · simp [KernelCall.effect, KernelCall.onAllocations, hz]
  | kfree => exact .inr (.inl ⟨rfl, rfl, rfl⟩)
  | _ =>
    refine .inr (.inr ⟨⟨?_, ?_⟩, rfl, rfl⟩)
    all_goals grind [KernelCall.effect]

theorem count_acquire {held : Option (Multiset Resource)} {h : Multiset Resource} {r : Resource}
    (hh : (Effect.acquire r).apply held = some h) (q : Resource) :
    ∃ g, held = some g ∧ h.count q = g.count q + if q = r then 1 else 0 := by
  obtain ⟨g, hg, rfl⟩ := Option.map_eq_some_iff.mp hh
  exact ⟨g, hg, Multiset.count_cons ..⟩

theorem count_release {held : Option (Multiset Resource)} {h : Multiset Resource} {r : Resource}
    (hh : (Effect.release r).apply held = some h) (q : Resource) :
    ∃ g, held = some g ∧ h.count q + (if q = r then 1 else 0) = g.count q := by
  obtain ⟨g, hg, hh⟩ := Option.bind_eq_some_iff.mp hh
  obtain ⟨hmem, hh⟩ := Option.ite_none_right_eq_some.mp hh
  obtain rfl := Option.some.inj hh
  refine ⟨g, hg, ?_⟩
  split_ifs with hq
  · have hpos := Multiset.count_pos.mpr hmem
    rw [hq, Multiset.count_erase_self]
    omega
  · rw [Multiset.count_erase_of_ne hq, Nat.add_zero]

theorem Life.held_count {h : Multiset Resource} (hs : s.held = some h) :
    h.count .pciemuDev + s.allocations.freed = s.allocations.made := by
  obtain ⟨dev, log⟩ := s
  induction log using List.reverseRecOn generalizing h with
  | nil =>
    obtain rfl := Option.some.inj hs
    rfl
  | append_singleton log e ih =>
    obtain ⟨c, z⟩ := e
    let s : Life := ⟨dev, log⟩
    have hheld : (c.effect z).apply s.held = some h := (Life.held_after s c z).symm.trans hs
    have hafter : Life.allocations ⟨dev, log ++ [(c, z)]⟩ = c.onAllocations z s.allocations :=
      Life.allocations_after s c z
    have ih {g : Multiset Resource} (hg : s.held = some g) :
        g.count .pciemuDev + s.allocations.freed = s.allocations.made := ih hg
    rw [hafter]
    rcases onAllocations_cases c z s.allocations with ⟨he, hm, hf⟩ | ⟨he, hm, hf⟩ | ⟨⟨ha, hr⟩, hm, hf⟩
    · rw [he] at hheld
      obtain ⟨g, hg, hcount⟩ := count_acquire hheld .pciemuDev
      rw [if_pos rfl] at hcount
      have hbefore := ih hg
      omega
    · rw [he] at hheld
      obtain ⟨g, hg, hcount⟩ := count_release hheld .pciemuDev
      rw [if_pos rfl] at hcount
      have hbefore := ih hg
      omega
    · rw [hm, hf]
      cases he : c.effect z with
      | acquire r =>
        rw [he] at hheld ha
        have hne : Resource.pciemuDev ≠ r := fun hn => ha (hn ▸ rfl)
        obtain ⟨g, hg, hcount⟩ := count_acquire hheld .pciemuDev
        rw [if_neg hne] at hcount
        have hbefore := ih hg
        omega
      | release r =>
        rw [he] at hheld hr
        have hne : Resource.pciemuDev ≠ r := fun hn => hr (hn ▸ rfl)
        obtain ⟨g, hg, hcount⟩ := count_release hheld .pciemuDev
        rw [if_neg hne] at hcount
        have hbefore := ih hg
        omega
      | neither =>
        rw [he] at hheld
        exact ih hheld

theorem exec_made_le {α : Type} (p : Code α) : s.allocations.made ≤ (exec k p s).2.allocations.made := by
  induction p generalizing s with
  | ret a => exact Nat.le_refl _
  | call c next ih =>
    refine Nat.le_trans ?_ (ih (s.answer k c))
    rw [Life.allocations_after]
    rcases onAllocations_cases c (s.answer k c) s.allocations with ⟨-, hm, -⟩ | ⟨-, hm, -⟩ | ⟨-, hm, -⟩
    all_goals omega

end Allocations

section Mutex

abbrev Unready (s : Life) : Prop := s.allocations.mutexReady = false

abbrev Prepares (k : KernelCall → ℤ) (p : Code ℤ) (s : Life) : Prop :=
  p.Always (fun s c z => z = s.answer k c) Life.after Unready (fun rc s => rc = 0 → s.allocations.mutexReady) s

theorem Unready.after {s : Life} {c : KernelCall} (h : Unready s) (hc : c ≠ .mutexInit) (z : ℤ) :
    Unready (s.after c z) := by
  rw [Unready, Life.allocations_after]
  cases c with
  | mutexInit => exact absurd rfl hc
  | kmalloc =>
    rw [KernelCall.onAllocations]
    split_ifs
    · rfl
    · exact h
  | _ => exact h

variable {k : KernelCall → ℤ} {s : Life}

theorem prepares_request {c : KernelCall} {next : ℤ → Code ℤ} (hs : Unready s) (hc : c ≠ .mutexInit)
    (hnext : ∀ t, Unready t → Prepares k (next (s.answer k c)) t) : Prepares k (request c >>= next) s := by
  refine ⟨hs, ?_⟩
  rintro z rfl
  exact hnext _ (hs.after hc _)

theorem Undoes.prepares {p : Code ℤ} {err : ℤ} (hp : Undoes (· = err) p) (herr : err ≠ 0) (hs : Unready s) :
    Prepares k p s := by
  refine (Prog.Always.of_within hp (fun _ _ _ _ => trivial) ?_ hs).mono (fun _ h => h) ?_
  · exact fun t c z hc ht _ => ht.after (undoes_ne_mutexInit hc) z
  · rintro _ t ⟨rfl, -⟩ h0
    exact absurd h0 herr

theorem ite_prepares {err : ℤ} {label : ℤ → Code ℤ} {next : Code ℤ} (hs : Unready s)
    (hlabel : ∀ err, Undoes (· = err) (label err)) (hnext : err = 0 → Prepares k next s) :
    Prepares k (if err ≠ 0 then label err else next) s := by
  split_ifs with h
  · exact (hlabel err).prepares h hs
  · exact hnext (not_not.mp h)

theorem checked_prepares {c : KernelCall} {label : ℤ → Code ℤ} {next : Code ℤ} (hs : Unready s) (hc : c ≠ .mutexInit)
    (hlabel : ∀ err, Undoes (· = err) (label err)) (hnext : s.answer k c = 0 → ∀ t, Unready t → Prepares k next t) :
    Prepares k (request c >>= fun err => if err ≠ 0 then label err else next) s :=
  prepares_request hs hc fun t ht => ite_prepares ht hlabel fun h0 => hnext h0 t ht

variable (hk : ∀ c, Errno c (k c))

include hk

theorem prepares_bind {p : Code ℤ} {next : ℤ → Code ℤ} (hs : Unready s) (hp : Calm p)
    (hnext : ∀ a t, Unready t → Prepares k (next a) t) : Prepares k (p >>= next) s := by
  apply Prog.Always.bind
  refine (Prog.Always.of_within hp ?_ (fun _ _ z hc ht _ => ht.after hc z) hs).mono (fun _ h => h) fun a t ht => ?_
  · rintro t c z rfl
    exact answer_errno hk t c
  · exact hnext a t ht.2

theorem probeIrqEnable_prepares (hs : Unready s) : Prepares k probeIrqEnable s := by
  apply prepares_bind hk hs pciemuIrqEnable_calm
  intro err t ht
  apply ite_prepares ht errIrqEnable_undoes
  refine fun _ => ⟨ht, fun z _ _ => ?_⟩
  rw [Life.allocations_after]
  rfl

theorem probeAllocChrdev_prepares (hs : Unready s) : Prepares k probeAllocChrdev s := by
  apply checked_prepares hs (by simp) errAllocChrdev_undoes
  intro _ t ht
  apply checked_prepares ht (by simp) errCdevAdd_undoes
  intro _ u hu
  apply checked_prepares hu (by simp) errDeviceCreate_undoes
  exact fun _ _ => probeIrqEnable_prepares hk

theorem probeRequestRegions_prepares (memBars : ℤ) (hs : Unready s) : Prepares k (probeRequestRegions memBars) s := by
  apply checked_prepares hs (by simp) errSelectRegion_undoes
  intro _ t ht
  apply prepares_bind hk ht devInit_calm
  intro err u hu
  exact ite_prepares hu errDevInit_undoes fun _ => probeAllocChrdev_prepares hk hu

theorem probeSelectBars_prepares (hbar : regBarSelected k) (hs : Unready s) : Prepares k (probeSelectBars 0) s := by
  apply prepares_request hs (by simp)
  intro t ht
  apply prepares_request ht (by simp)
  intro u hu
  change Prepares k (if ¬(k .pciSelectBars).testBit AuroraHw.regBar then _ else _) u
  -- without the register BAR the label would be reached with `err` zero
  have hselected : (k .pciSelectBars).testBit AuroraHw.regBar = true := hbar
  rw [if_neg (not_not.mpr hselected)]
  exact probeRequestRegions_prepares hk _ hu

theorem probeEnableDevice_prepares
    (hbar : k .pciEnableDevice = 0 → k .dmaSetMaskAndCoherent = 0 → regBarSelected k) (hs : Unready s) :
    Prepares k probeEnableDevice s := by
  apply checked_prepares hs (by simp) errPciEnable_undoes
  intro henable t ht
  apply prepares_request ht (by simp)
  intro u hu
  apply ite_prepares hu errDmaSetMask_undoes
  intro hmask
  rw [hmask]
  exact probeSelectBars_prepares hk (hbar henable hmask) hu

end Mutex

section Slots

def Binding.isBound : Binding → Bool
  | .bound _ => true
  | _ => false

-- between `cdev_add` and `cdev_del` the device can be opened
def Slot.exposed (x : Slot) : Bool := x.life.held.any fun h => .cdev ∈ h

def Slot.Readied (x : Slot) : Prop :=
  match x.binding with
  | .probing k code => x.life.held = some 0 ∧ code = pciemuProbe ∨ Prepares k code x.life
  | .bound _ => x.life.allocations.mutexReady
  | _ => True

theorem probed_readied {k : KernelCall → ℤ} {code : Code ℤ} {s u : Life} (hk : Obliging k u.dev)
    (he : exec k code s = exec k pciemuProbe u) (h : Prepares k code s) : Slot.Readied ⟨s, .probed k code⟩ := by
  cases code with
  | call c next => exact .inr h
  | ret rc =>
    have hle : rc ≤ 0 := by
      have hprobe := probe_le k hk.errno u
      rw [← he] at hprobe
      exact hprobe
    rw [Slot.Readied, Binding.probed]
    by_cases h0 : 0 ≤ rc
    · rw [if_pos h0]
      exact h (Int.le_antisymm hle h0)
    · rw [if_neg h0]
      trivial

theorem probe_prepares {k : KernelCall → ℤ} {s : Life} {garbage : Field → ℤ} (hk : Obliging k garbage)
    (hz : k .kmalloc ≠ 0) : Prepares k probeEnableDevice (s.after .kmalloc (k .kmalloc)) := by
  apply probeEnableDevice_prepares hk.errno (hk.selected hz)
  rw [Unready, Life.allocations_after, KernelCall.onAllocations, if_pos hz]

theorem Slot.Readied.call {x y : Slot} (hx : x.Readied) (hb : x.Balanced) (h : x.call = some y) : y.Readied := by
  rw [Slot.Readied] at hx
  rw [Slot.Balanced] at hb
  rcases Slot.call_cases h with ⟨k, c, next, hbind, rfl⟩ | ⟨k, c, next, hbind, rfl⟩
  · rw [hbind] at hx hb
    obtain ⟨-, u, -, hk, he⟩ := hb
    have he : exec k (next (x.life.answer k c)) (x.life.after c (x.life.answer k c)) = exec k pciemuProbe u := he
    apply probed_readied hk he
    rcases hx with ⟨-, hstart⟩ | hx
    · -- the first call is that of `kmalloc`
      obtain ⟨rfl, rfl⟩ := Prog.call.inj hstart
      change Prepares k (if k .kmalloc = 0 then .ret (-enomem) else probeEnableDevice) _
      split_ifs with hz
      · exact fun h0 => absurd h0 (by decide)
      · exact probe_prepares hk hz
    · exact hx.2 _ rfl
  · cases hn : next (x.life.answer k c) <;> trivial

theorem Slot.Readied.unready {x : Slot} {k : KernelCall → ℤ} {code : Code ℤ} (hx : x.Readied) (hb : x.Balanced)
    (hbind : x.binding = .probing k code) (he : x.exposed) : Unready x.life := by
  rw [Slot.Readied, hbind] at hx
  rw [Slot.Balanced, hbind] at hb
  rcases hx with ⟨h0, -⟩ | hx
  · rw [Slot.exposed, h0] at he
    cases he
  · cases code with
    | ret rc =>
      have hprobing := hb.1
      rw [Binding.probed] at hprobing
      split_ifs at hprobing
    | call c next => exact hx.1

theorem bound_allocations {x : Slot} {k : KernelCall → ℤ} (h : x.Balanced) (hb : x.binding = .bound k) :
    x.life.allocations.freed + 1 = x.life.allocations.made := by
  rw [Slot.Balanced, hb] at h
  have hcount := Life.held_count h.1
  have hone : (everything k).count .pciemuDev = 1 := by simp [everything]
  omega

end Slots

/-- What a file leads to: `private_data`, by the number of its allocation for the device. -/
structure OpenFile (D : Type) where
  dev : D
  privateData : ℕ

inductive FileOp
  | ioctl
  | mmap
  | release
  deriving DecidableEq

structure Use where
  op : FileOp
  text : Bool
  live : Bool
  mutexReady : Bool

def Use.Sound (u : Use) : Prop := u.text ∧ u.live ∧ (u.op = .ioctl → u.mutexReady)

structure Files (F D : Type) where
  loaded : Loaded D
  file : F → Option (OpenFile D)
  uses : List Use

/-- `openFile` is an open that succeeds: the length that `pciemu_open` looks at is not zero before
`pciemu_dev_clean`, which comes after `cdev_del`. -/
inductive FileAction (F D : Type)
  | load (a : LoadAction D)
  | openFile (f : F) (d : D)
  | use (f : F) (op : FileOp)

def ModuleStage.isUnloaded : ModuleStage → Bool
  | .unloaded => true
  | _ => false

def ModuleStage.isGoing : ModuleStage → Bool
  | .exit _ => true
  | _ => false

section Files

variable {F D : Type} [Fintype F] [DecidableEq F] [Fintype D] [DecidableEq D]

def Files.start : Files F D := ⟨.start, fun _ => none, []⟩

def Files.mayLoad (s : Files F D) : LoadAction D → Bool
  -- the module is the owner of the file operations
  | .rmmod => decide (∀ f, (s.file f).isNone)
  | _ => true

def Files.found (s : Files F D) (x : OpenFile D) (op : FileOp) : Use :=
  let allocations := (s.loaded.slot x.dev).life.allocations
  ⟨op, !s.loaded.stage.isUnloaded, allocations.freed < x.privateData,
    allocations.made = x.privateData && allocations.mutexReady⟩

def Files.step (s : Files F D) : FileAction F D → Option (Files F D)
  | .load a => if s.mayLoad a then (s.loaded.step a).map fun loaded => { s with loaded := loaded } else none
  | .openFile f d =>
    -- no reference to a module that is going is given out
    if (s.file f).isNone ∧ !s.loaded.stage.isGoing ∧ !s.loaded.stage.isUnloaded ∧ (s.loaded.slot d).exposed then
      some { s with file := Function.update s.file f (some ⟨d, (s.loaded.slot d).life.allocations.made⟩) }
    else none
  | .use f op => (s.file f).map fun x =>
    { s with
      file := if op = .release then Function.update s.file f none else s.file
      uses := s.uses ++ [s.found x op] }

def FileAction.Obliging : FileAction F D → Prop
  | .load a => a.Obliging
  | _ => True

/-- No device is removed under an open file, and none opened before its probe has returned. -/
def Files.Careful (s : Files F D) : FileAction F D → Prop
  | .load (.remove d) => ∀ f x, s.file f = some x → x.dev ≠ d
  | .openFile _ d => (s.loaded.slot d).binding.isBound
  | _ => True

instance (s : Files F D) : (a : FileAction F D) → Decidable (s.Careful a)
  | .load (.remove d) => inferInstanceAs (Decidable (∀ f, ∀ x ∈ s.file f, x.dev ≠ d))
  | .openFile _ d => inferInstanceAs (Decidable ((s.loaded.slot d).binding.isBound = true))
  | .use _ _ => isTrue trivial
  | .load .insmod | .load .rmmod | .load (.moduleCall _) | .load (.probe _ _ _) | .load (.deviceCall _) =>
    isTrue trivial

structure Files.Kept (s : Files F D) : Prop where
  balanced : s.loaded.Balanced
  readied : ∀ d, (s.loaded.slot d).Readied
  bound : ∀ f x, s.file f = some x → (s.loaded.slot x.dev).binding.isBound ∧
    x.privateData = (s.loaded.slot x.dev).life.allocations.made
  stage : ∀ f x, s.file f = some x → s.loaded.stage.mayProbe
  uses : ∀ u ∈ s.uses, u.Sound

end Files

section Kept

variable {F D : Type} [Fintype D] {s t : Files F D}

theorem start_kept : (Files.start : Files F D).Kept := ⟨start_balanced, fun _ => trivial, nofun, nofun, nofun⟩

theorem isBound_iff {b : Binding} : b.isBound ↔ ∃ k, b = .bound k := by
  cases b <;> simp [Binding.isBound]

theorem Loaded.Balanced.mayProbe {l : Loaded D} (h : l.Balanced) {d : D} (hd : (l.slot d).binding.isBound)
    (hs : !l.stage.isGoing) : l.stage.mayProbe := by
  have hquiet : ¬l.quiet := by
    apply not_quiet (d := d)
    intro hn
    rw [hn] at hd
    cases hd
  obtain ⟨stage, cls, registered, slot⟩ := l
  obtain ⟨-, hstage⟩ := h
  cases hstage with
  | registering => rfl
  | loaded => rfl
  | unregistering => cases hs
  | _ => contradiction

theorem Files.Kept.found (h : s.Kept) {f : F} {x : OpenFile D} (hf : s.file f = some x) (op : FileOp) :
    (s.found x op).Sound := by
  obtain ⟨hbound, hdata⟩ := h.bound f x hf
  obtain ⟨k, hk⟩ := isBound_iff.mp hbound
  have hlive := bound_allocations (h.balanced.slot x.dev) hk
  have hready := h.readied x.dev
  rw [Slot.Readied, hk] at hready
  refine ⟨?_, ?_, fun _ => ?_⟩
  · have hstage := h.stage f x hf
    cases hs : s.loaded.stage with
    | unloaded =>
      rw [hs] at hstage
      cases hstage
    | _ => simp [Files.found, hs, ModuleStage.isUnloaded]
  · simp only [Files.found, decide_eq_true_iff]
    omega
  · simp only [Files.found, hdata, hready, decide_true, Bool.and_self]

theorem Files.Kept.loaded (h : s.Kept) {loaded : Loaded D} (hb : loaded.Balanced) (hr : ∀ d, (loaded.slot d).Readied)
    (hslot : ∀ f x, s.file f = some x → loaded.slot x.dev = s.loaded.slot x.dev)
    (hstage : ∀ f x, s.file f = some x → loaded.stage.mayProbe) : Files.Kept { s with loaded := loaded } where
  balanced := hb
  readied := hr
  bound f x hf := by
    rw [hslot f x hf]
    exact h.bound f x hf
  stage := hstage
  uses := h.uses

theorem Files.Kept.not_used (h : s.Kept) {d : D} (hd : ¬(s.loaded.slot d).binding.isBound) {f : F} {x : OpenFile D}
    (hf : s.file f = some x) : x.dev ≠ d := by
  rintro rfl
  exact hd (h.bound f x hf).1

variable [DecidableEq D]

theorem Files.Kept.setSlot (h : s.Kept) {d : D} {y : Slot} (hb : (s.loaded.setSlot d y).Balanced) (hy : y.Readied)
    (hd : ∀ f x, s.file f = some x → x.dev ≠ d) : Files.Kept { s with loaded := s.loaded.setSlot d y } := by
  apply h.loaded hb
  · intro e
    change (Function.update s.loaded.slot d y e).Readied
    rcases eq_or_ne e d with rfl | hne
    · rw [Function.update_self]
      exact hy
    · rw [Function.update_of_ne hne]
      exact h.readied e
  · intro f x hf
    exact Function.update_of_ne (hd f x hf) ..
  · exact h.stage

theorem moduleCall_slot {s t : Loaded D} {z : ℤ} (ht : s.step (.moduleCall z) = some t) : t.slot = s.slot := by
  rw [Loaded.step] at ht
  split at ht
  · obtain ⟨-, ht⟩ := Option.ite_none_right_eq_some.mp ht
    exact Option.some.inj ht ▸ rfl
  · obtain ⟨-, ht⟩ := Option.ite_none_right_eq_some.mp ht
    exact Option.some.inj ht ▸ rfl
  · cases ht

theorem moduleCall_going {s t : Loaded D} {z : ℤ} (hs : s.stage.mayProbe) (ht : s.step (.moduleCall z) = some t) :
    !t.stage.isGoing := by
  have hinit (code : ModuleCode ℤ) : !(ModuleStage.initialised code).isGoing := by
    cases code with
    | ret err =>
      rw [ModuleStage.initialised]
      split_ifs <;> rfl
    | call c next => rfl
  rw [Loaded.step] at ht
  split at ht
  · obtain ⟨-, ht⟩ := Option.ite_none_right_eq_some.mp ht
    obtain rfl := Option.some.inj ht
    exact hinit _
  · next hstage =>
    rw [hstage] at hs
    cases hs
  · cases ht

theorem Files.Kept.load (h : s.Kept) {a : LoadAction D} {l : Loaded D} (ha : a.Obliging) (hc : s.Careful (.load a))
    (hr : ∀ f x, s.file f = some x → a ≠ .rmmod) (ht : s.loaded.step a = some l) :
    Files.Kept { s with loaded := l } := by
  have hb := (loaded_step_balanced h.balanced ha ht).1
  cases a with
  | insmod =>
    cases hs : s.loaded.stage with
    | unloaded =>
      rw [Loaded.step, hs] at ht
      obtain rfl := Option.some.inj ht
      refine h.loaded hb h.readied (fun _ _ _ => rfl) fun f x hf => ?_
      have hstage := h.stage f x hf
      rw [hs] at hstage
      cases hstage
    | _ =>
      rw [Loaded.step, hs] at ht
      cases ht
  | rmmod =>
    cases hs : s.loaded.stage with
    | loaded =>
      rw [Loaded.step, hs] at ht
      obtain rfl := Option.some.inj ht
      exact h.loaded hb h.readied (fun _ _ _ => rfl) fun f x hf => absurd rfl (hr f x hf)
    | _ =>
      rw [Loaded.step, hs] at ht
      cases ht
  | moduleCall z =>
    have hslot := moduleCall_slot ht
    refine h.loaded hb (fun d => hslot ▸ h.readied d) (fun f x _ => congrFun hslot x.dev) fun f x hf => ?_
    have hbound : (l.slot x.dev).binding.isBound := hslot ▸ (h.bound f x hf).1
    exact hb.mayProbe hbound (moduleCall_going (h.stage f x hf) ht)
  | probe d k garbage =>
    obtain ⟨⟨-, hun⟩, ht⟩ := Option.ite_none_right_eq_some.mp ht
    obtain rfl := Option.some.inj ht
    have hbind := isUnbound_iff.mp hun
    have hd : ¬(s.loaded.slot d).binding.isBound := by
      rw [hbind]
      exact Bool.false_ne_true
    have hheld := h.balanced.slot d
    rw [Slot.Balanced, hbind] at hheld
    exact h.setSlot hb (.inl ⟨hheld, rfl⟩) fun f x => h.not_used hd
  | remove d =>
    cases hbind : (s.loaded.slot d).binding with
    | bound k =>
      rw [Loaded.step, hbind] at ht
      obtain rfl := Option.some.inj ht
      exact h.setSlot hb trivial hc
    | _ =>
      rw [Loaded.step, hbind] at ht
      cases ht
  | deviceCall d =>
    obtain ⟨y, hy, rfl⟩ := Option.map_eq_some_iff.mp ht
    have hd : ¬(s.loaded.slot d).binding.isBound := by
      rcases Slot.call_cases hy with ⟨k, c, next, hbind, -⟩ | ⟨k, c, next, hbind, -⟩
      · rw [hbind]
        exact Bool.false_ne_true
      · rw [hbind]
        exact Bool.false_ne_true
    exact h.setSlot hb ((h.readied d).call (h.balanced.slot d) hy) fun f x => h.not_used hd

variable [Fintype F] [DecidableEq F]

theorem load_step {a : LoadAction D} (ht : s.step (.load a) = some t) :
    s.mayLoad a ∧ ∃ l, s.loaded.step a = some l ∧ { s with loaded := l } = t := by
  obtain ⟨hmay, ht⟩ := Option.ite_none_right_eq_some.mp ht
  exact ⟨hmay, Option.map_eq_some_iff.mp ht⟩

theorem Files.Kept.openFile (h : s.Kept) {f : F} {d : D} (hc : s.Careful (.openFile f d))
    (ht : s.step (.openFile f d) = some t) : t.Kept := by
  obtain ⟨⟨-, hgoing, -, -⟩, ht⟩ := Option.ite_none_right_eq_some.mp ht
  obtain rfl := Option.some.inj ht
  have hfile (g : F) (x : OpenFile D)
      (hg : Function.update s.file f (some ⟨d, (s.loaded.slot d).life.allocations.made⟩) g = some x) :
      x = ⟨d, (s.loaded.slot d).life.allocations.made⟩ ∨ s.file g = some x := by
    rcases eq_or_ne g f with rfl | hne
    · rw [Function.update_self] at hg
      exact .inl (Option.some.inj hg).symm
    · rw [Function.update_of_ne hne] at hg
      exact .inr hg
  refine ⟨h.balanced, h.readied, ?_, ?_, h.uses⟩
  · intro g x hg
    rcases hfile g x hg with rfl | hg
    · exact ⟨hc, rfl⟩
    · exact h.bound g x hg
  · intro g x _
    exact h.balanced.mayProbe hc hgoing

theorem Files.Kept.use (h : s.Kept) {f : F} {op : FileOp} (ht : s.step (.use f op) = some t) : t.Kept := by
  obtain ⟨x, hf, rfl⟩ := Option.map_eq_some_iff.mp ht
  have hfile (g : F) (y : OpenFile D)
      (hg : (if op = .release then Function.update s.file f none else s.file) g = some y) : s.file g = some y := by
    split_ifs at hg
    · rcases eq_or_ne g f with rfl | hne
      · rw [Function.update_self] at hg
        cases hg
      · rw [Function.update_of_ne hne] at hg
        exact hg
    · exact hg
  refine ⟨h.balanced, h.readied, fun g y hg => h.bound g y (hfile g y hg), fun g y hg => h.stage g y (hfile g y hg), ?_⟩
  intro u hu
  rcases List.mem_append.mp hu with hu | hu
  · exact h.uses u hu
  · rw [List.mem_singleton.mp hu]
    exact h.found hf op

theorem Files.Kept.step (h : s.Kept) {a : FileAction F D} (ha : a.Obliging) (hc : s.Careful a)
    (ht : s.step a = some t) : t.Kept := by
  cases a with
  | load a =>
    obtain ⟨hmay, l, hl, rfl⟩ := load_step ht
    refine h.load ha hc ?_ hl
    rintro f x hf rfl
    have hnone := decide_eq_true_iff.mp hmay f
    rw [hf] at hnone
    cases hnone
  | openFile f d => exact h.openFile hc ht
  | use f op => exact h.use ht

end Kept

section Files

variable {F D : Type} [Fintype F] [DecidableEq F] [Fintype D] [DecidableEq D] {s t : Files F D}

def Files.Secure (s : Files F D) : Prop :=
  ∀ bs t, (∀ b ∈ bs, FileAction.Obliging b) → Along Files.step (fun s b _ => s.Careful b) s bs →
    Runs.run Files.step s bs = some t → ∀ u ∈ t.uses, u.Sound

theorem Files.Kept.run (h : s.Kept) (as : List (FileAction F D)) (ha : ∀ a ∈ as, a.Obliging)
    (hc : Along Files.step (fun s a _ => s.Careful a) s as) (ht : Runs.run Files.step s as = some t) : t.Kept := by
  have hboth : Along Files.step (fun s a _ => FileAction.Obliging a ∧ s.Careful a) s as :=
    along_imp as (fun a hmem _ _ _ hca => ⟨ha a hmem, hca⟩) hc
  exact run_invariant (fun _ _ _ hs hstep hp => hs.step hp.1 hp.2 hstep) as h hboth ht

theorem removed_run {k : KernelCall → ℤ} {d : D} (code : Code Unit) (hb : (s.loaded.slot d).binding = .removed k code) :
    ∃ n, Runs.run Files.step s (List.replicate n (.load (.deviceCall d))) =
      some { s with loaded := s.loaded.setSlot d ⟨(exec k code (s.loaded.slot d).life).2, .unbound⟩ } := by
  induction code generalizing s with
  | ret a =>
    refine ⟨0, ?_⟩
    have hslot : s.loaded.slot d = ⟨(s.loaded.slot d).life, .unbound⟩ := by
      cases hx : s.loaded.slot d with
      | mk life binding =>
        rw [hx] at hb
        rw [show binding = .unbound from hb]
    have hself : s.loaded.setSlot d ⟨(s.loaded.slot d).life, .unbound⟩ = s.loaded := by
      rw [← hslot, setSlot_self]
    exact congrArg some (congrArg (fun l => Files.mk l s.file s.uses) hself.symm)
  | call c next ih =>
    let z := (s.loaded.slot d).life.answer k c
    let y : Slot := ⟨(s.loaded.slot d).life.after c z, .removed k (next z)⟩
    have hcall : (s.loaded.slot d).call = some y := by
      rw [Slot.call, hb]
      rfl
    have hstep : s.step (.load (.deviceCall d)) = some { s with loaded := s.loaded.setSlot d y } := by
      have hmay : s.mayLoad (.deviceCall d) := rfl
      rw [Files.step, if_pos hmay, step_deviceCall hcall, Option.map_some]
    obtain ⟨n, hn⟩ := ih z (s := { s with loaded := s.loaded.setSlot d y }) (congrArg Slot.binding (setSlot_slot ..))
    refine ⟨n + 1, ?_⟩
    rw [List.replicate_succ, run_cons _ hstep, hn]
    simp only [setSlot_slot, setSlot_setSlot]
    rfl

theorem Files.Secure.sound (h : s.Secure) {bs : List (FileAction F D)} (hobl : ∀ b ∈ bs, b.Obliging)
    (hcareful : ∀ b ∈ bs, ∀ s : Files F D, s.Careful b) (hrun : Runs.run Files.step s bs = some t) :
    ∀ u ∈ t.uses, u.Sound := by
  refine h bs t hobl ?_ hrun
  exact along_imp bs (fun b hb s _ _ _ => hcareful b hb s) (along_of_forall s bs fun _ _ => trivial)

theorem use_step {f : F} {x : OpenFile D} (hf : s.file f = some x) (op : FileOp) : ∃ t, s.step (.use f op) = some t ∧
    s.found x op ∈ t.uses := by
  rw [Files.step, hf]
  exact ⟨_, rfl, List.mem_append_right _ List.mem_cons_self⟩

theorem removing_insecure (hb : s.loaded.Balanced) {k : KernelCall → ℤ} {code : Code Unit} {f : F} {x : OpenFile D}
    (hbind : (s.loaded.slot x.dev).binding = .removing k code) (hf : s.file f = some x)
    (hdata : x.privateData ≤ (s.loaded.slot x.dev).life.allocations.made) : ¬s.Secure := by
  intro h
  have hslot := hb.slot x.dev
  rw [Slot.Balanced, hbind] at hslot
  obtain ⟨hremoved, hheld⟩ := hslot
  obtain ⟨n, hn⟩ := removed_run code (hbind.trans hremoved.symm)
  let y : Slot := ⟨(exec k code (s.loaded.slot x.dev).life).2, .unbound⟩
  obtain ⟨t, ht, hmem⟩ := use_step (s := { s with loaded := s.loaded.setSlot x.dev y }) hf .mmap
  have hrun : Runs.run Files.step s (List.replicate n (.load (.deviceCall x.dev)) ++ [.use f .mmap]) = some t := by
    rw [run_append, hn, Option.bind_some, run_singleton, ht]
  have hsound := h.sound (by simp [or_imp, forall_and, FileAction.Obliging, LoadAction.Obliging])
    (by simp [or_imp, forall_and, Files.Careful]) hrun _ hmem
  have hlive : ((s.loaded.setSlot x.dev y).slot x.dev).life.allocations.freed < x.privateData :=
    of_decide_eq_true hsound.2.1
  have hcount : Multiset.count Resource.pciemuDev 0 + y.life.allocations.freed = y.life.allocations.made :=
    Life.held_count hheld
  have hmade : _ ≤ y.life.allocations.made := exec_made_le code
  rw [setSlot_slot] at hlive
  rw [Multiset.count_zero] at hcount
  omega

theorem probing_insecure (h : s.Kept) {k : KernelCall → ℤ} {code : Code ℤ} {d : D} {f : F}
    (hbind : (s.loaded.slot d).binding = .probing k code) (hexposed : (s.loaded.slot d).exposed)
    (ht : s.step (.openFile f d) = some t) : ¬t.Secure := by
  intro hsecure
  obtain ⟨-, ht⟩ := Option.ite_none_right_eq_some.mp ht
  obtain rfl := Option.some.inj ht
  -- `mutex_init` comes last in probe
  have hunready := (h.readied d).unready (h.balanced.slot d) hbind hexposed
  let x : OpenFile D := ⟨d, (s.loaded.slot d).life.allocations.made⟩
  obtain ⟨u, hu, hmem⟩ := use_step (s := { s with file := Function.update s.file f (some x) }) (Function.update_self ..) .ioctl
  have hsound := hsecure.sound (by simp [FileAction.Obliging]) (by simp [Files.Careful])
    ((run_singleton ..).trans hu) _ hmem
  have hready := (Bool.and_eq_true_iff.mp (hsound.2.2 rfl)).2
  exact Bool.false_ne_true (hunready.symm.trans hready)

theorem careless_insecure (h : s.Kept) {a : FileAction F D} (hc : ¬s.Careful a)
    (ht : s.step a = some t) : ¬t.Secure := by
  cases a with
  | use f op => exact absurd trivial hc
  | openFile f d =>
    have hopen := ht
    obtain ⟨⟨-, -, -, hexposed⟩, ht⟩ := Option.ite_none_right_eq_some.mp ht
    obtain rfl := Option.some.inj ht
    cases hbind : (s.loaded.slot d).binding with
    | unbound =>
      have hheld := h.balanced.slot d
      rw [Slot.Balanced, hbind] at hheld
      rw [Slot.exposed, hheld] at hexposed
      cases hexposed
    | bound k => exact absurd (isBound_iff.mpr ⟨k, hbind⟩) hc
    | probing k code => exact probing_insecure h hbind hexposed hopen
    | removing k code => exact removing_insecure h.balanced hbind (Function.update_self ..) (Nat.le_refl _)
  | load a =>
    cases a with
    | remove d =>
      obtain ⟨f, x, hf, rfl⟩ : ∃ f x, s.file f = some x ∧ x.dev = d := by
        by_contra hn
        exact hc fun f x hf hd => hn ⟨f, x, hf, hd⟩
      obtain ⟨hbound, hdata⟩ := h.bound f x hf
      obtain ⟨k, hk⟩ := isBound_iff.mp hbound
      obtain ⟨-, l, hl, rfl⟩ := load_step ht
      have hobl : (LoadAction.remove x.dev).Obliging := trivial
      have hbalanced := (loaded_step_balanced h.balanced hobl hl).1
      rw [Loaded.step, hk] at hl
      obtain rfl := Option.some.inj hl
      let t : Files F D :=
        { s with loaded := s.loaded.setSlot x.dev ⟨(s.loaded.slot x.dev).life, .removing k pciemuRemove⟩ }
      have hslot : t.loaded.slot x.dev = ⟨(s.loaded.slot x.dev).life, .removing k pciemuRemove⟩ := setSlot_slot ..
      apply removing_insecure (s := t) hbalanced (congrArg Slot.binding hslot) hf
      rw [hslot]
      exact hdata.le
    | _ => exact absurd trivial hc

theorem files_secure_iff (as : List (FileAction F D)) (h : ∀ a ∈ as, a.Obliging)
    (hcareful : Along Files.step (fun s a _ => s.Careful a) .start as) (hs : Runs.run Files.step .start as = some s) :
    s.Secure ∧ (∀ a t, a.Obliging → s.step a = some t → (s.Careful a ↔ t.Secure)) ∧
      (s.loaded.stage.isGoing → ∀ d, s.Careful (.load (.remove d))) := by
  have hkept := start_kept.run as h hcareful hs
  have hsecure {s : Files F D} (hs : s.Kept) : s.Secure := fun bs t hb hc ht => (hs.run bs hb hc ht).uses
  refine ⟨hsecure hkept, ?_, ?_⟩
  · intro a t ha ht
    constructor
    · exact fun hc => hsecure (hkept.step ha hc ht)
    · intro ht'
      by_contra hc
      exact careless_insecure hkept hc ht ht'
  · intro hgoing d f x hf
    have hstage := hkept.stage f x hf
    cases hs : s.loaded.stage with
    | exit code =>
      rw [hs] at hstage
      cases hstage
    | _ =>
      rw [hs] at hgoing
      cases hgoing

theorem files_secure_iff_unbound :
    let as : List (FileAction (Fin 2) (Fin 2)) :=
      [.load .insmod, .load (.moduleCall 0), .load (.moduleCall 0), .load (.moduleCall 0),
        .load (.probe 0 obligingKernel fun _ => 5)] ++ List.replicate 25 (.load (.deviceCall 0)) ++
      [.openFile 1 0, .use 1 .ioctl, .load (.probe 1 obligingKernel fun _ => 3), .load (.deviceCall 1), .use 1 .mmap]
    ∃ s, Runs.run Files.step .start as = some s ∧ s.Secure ∧
      ∃ t, s.step (.load (.remove 0)) = some t ∧ ¬t.Secure := by
  intro as
  have hobl : ∀ a ∈ as, a.Obliging := by
    simp [as, or_imp, forall_and, FileAction.Obliging, LoadAction.Obliging, obligingKernel_obliging]
  have hcareful : Along Files.step (fun s a _ => s.Careful a) .start as := by decide
  have hunbind : ((Runs.run Files.step .start as).map fun s =>
      (s.step (.load (.remove 0))).isSome && !decide (s.Careful (.load (.remove 0)))) = some true := by decide
  obtain ⟨s, hs, hunbind⟩ := Option.map_eq_some_iff.mp hunbind
  obtain ⟨hsome, hcareless⟩ := Bool.and_eq_true_iff.mp hunbind
  obtain ⟨t, ht⟩ := Option.isSome_iff_exists.mp hsome
  obtain ⟨hsecure, hiff, -⟩ := files_secure_iff as hobl hcareful hs
  have hnot : ¬s.Careful (.load (.remove 0)) := by simpa using hcareless
  exact ⟨s, hs, hsecure, t, ht, fun h => hnot ((hiff (.load (.remove 0)) t trivial ht).mpr h)⟩

end Files

end Pciemu.Driver
