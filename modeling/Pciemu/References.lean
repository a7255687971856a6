import Pciemu.Mappings

namespace Pciemu.Driver

open Device AuroraHw Runs

def RefBook.drop (refs : List (ℕ × ℕ)) (source : Source) (page : ℕ) : Option (ℕ × ℕ) :=
  (refs.find? fun r => .doorbell r.1 = source ∧ r.2 = page).or (refs.find? fun r => r.2 = page)

/-- The references that are outstanding, each with the call that took it. `put_page` must find one,
and a call must not return before its own is dropped. -/
def RefBook.step (refs : List (ℕ × ℕ)) : KernelEvent → Option (List (ℕ × ℕ))
  | .getUserPagesFast c (some p) => some ((c, p) :: refs)
  | .putPage source p => (RefBook.drop refs source p).map refs.erase
  | .returned c _ => if ∃ r ∈ refs, r.1 = c then none else some refs
  | _ => some refs

section Counting

variable {T : Type}

def System.owes (s : System T) (th : Thread) : Bool :=
  match th.stage with
  | .readPage | .lock | .structInit | .mapPage | .iowrite _ => true
  | .wait => match s.pending, s.handler with
    | _ :: _, _ | [], some (.unmap, _) | [], some (.putPage, _) => true
    | _, _ => false
  | _ => false

/-- Every mapping succeeds, no process raises the interrupt itself, and while a reference is
outstanding nobody stores another page into `dma.page`. -/
def RefsKept (s : System T) : Action T → Prop
  | .getUserPagesFast _ (some p) => ∀ t, s.owes (s.thread t) → s.dma.page = p
  | .dmaMapPage _ none => False
  | .mmapRaise _ => False
  | _ => True

def System.owed (s : System T) : Set ℕ := {c | ∃ t, s.owes (s.thread t) ∧ (s.thread t).call = c}

structure Counted (s : System T) (refs : List (ℕ × ℕ)) : Prop where
  served : ∃ live, Served s live
  nodup : refs.Nodup
  owed : ∀ r, r ∈ refs ↔ r.2 = s.dma.page ∧ r.1 ∈ s.owed

theorem owes_not_wait (s s' : System T) {th : Thread} (h : th.stage ≠ .wait) : s'.owes th = s.owes th := by
  unfold System.owes
  cases hs : th.stage with
  | wait => exact absurd hs h
  | _ => rfl

theorem owes_stage (s : System T) {th : Thread} (h : s.owes th) : th.stage ≠ .user := by
  intro hs
  simp [System.owes, hs] at h

theorem Base.not_wait {s : System T} (h : Base s) {t : T} (hm : s.dma.mtx = some t ∨ s.dma.mtx = none) {t' : T}
    (hne : t' ≠ t) : (s.thread t').stage ≠ .wait := by
  intro hs
  have hown := h.owner (t := t') (by rw [hs]; rfl)
  obtain hm | hm := hm
  · exact hne (Option.some.inj (hown.symm.trans hm))
  · rw [hm] at hown
    cases hown

theorem handler_others {s s' : System T} (hb : Base s) {t : T} (hm : s.dma.mtx = some t) :
    ∀ t', t' ≠ t → s'.owes (s.thread t') = s.owes (s.thread t') :=
  fun _ hne => owes_not_wait s s' (hb.not_wait (.inl hm) hne)

theorem Counted.same {s s' : System T} {refs : List (ℕ × ℕ)} (h : Counted s refs) (hserved : ∃ live, Served s' live)
    (hpage : s'.dma.page = s.dma.page) (howed : s'.owed = s.owed) : Counted s' refs where
  served := hserved
  nodup := h.nodup
  owed := by
    rw [hpage, howed]
    exact h.owed

theorem drop_own {refs : List (ℕ × ℕ)} {c p : ℕ} (h : (c, p) ∈ refs) :
    RefBook.drop refs (.doorbell c) p = some (c, p) := by
  unfold RefBook.drop
  cases hf : refs.find? fun r => .doorbell r.1 = Source.doorbell c ∧ r.2 = p with
  | none =>
    rw [List.find?_eq_none] at hf
    exact absurd (decide_eq_true ⟨rfl, rfl⟩) (hf (c, p) h)
  | some r =>
    have hr := List.find?_some hf
    obtain ⟨hc, hp⟩ := of_decide_eq_true hr
    exact congrArg some (Prod.ext (Source.doorbell.inj hc) hp)

theorem Counted.pin {s s' : System T} {refs : List (ℕ × ℕ)} (h : Counted s refs) (hserved : ∃ live, Served s' live)
    {t : T} {p : ℕ} (ht : (s.thread t).stage = .getUserPages) (hkept : ∀ t, s.owes (s.thread t) → s.dma.page = p)
    (hpage : s'.dma.page = p) (howed : s'.owed = insert (s.thread t).call s.owed) :
    Counted s' (((s.thread t).call, p) :: refs) := by
  obtain ⟨live, hs⟩ := h.served
  have hnew : (s.thread t).call ∉ s.owed := by
    rintro ⟨t', ho, hc⟩
    obtain rfl := hs.base.unique t' t (owes_stage s ho) (by simp [ht]) hc
    simp [System.owes, ht] at ho
  refine ⟨hserved, List.nodup_cons.mpr ⟨fun hr => hnew ((h.owed _).mp hr).2, h.nodup⟩, ?_⟩
  -- all outstanding references are to one page, before and after
  rintro ⟨c, q⟩
  rw [List.mem_cons, h.owed, hpage, howed, Set.mem_insert_iff, Prod.mk.injEq]
  constructor
  · rintro (⟨rfl, rfl⟩ | ⟨hq, hc⟩)
    · exact ⟨rfl, .inl rfl⟩
    · refine ⟨?_, .inr hc⟩
      obtain ⟨t', ho, -⟩ := hc
      exact hq.trans (hkept t' ho)
  · rintro ⟨hq, rfl | hc⟩
    · exact .inl ⟨rfl, hq⟩
    · refine .inr ⟨?_, hc⟩
      obtain ⟨t', ho, -⟩ := hc
      exact hq.trans (hkept t' ho).symm

theorem Counted.put {s s' : System T} {refs : List (ℕ × ℕ)} (h : Counted s refs) (hserved : ∃ live, Served s' live)
    {c : ℕ} (hc : c ∈ s.owed) (hpage : s'.dma.page = s.dma.page) (howed : s'.owed = s.owed \ {c}) :
    RefBook.drop refs (.doorbell c) s.dma.page = some (c, s.dma.page) ∧
      Counted s' (refs.erase (c, s.dma.page)) := by
  have hmem : (c, s.dma.page) ∈ refs := (h.owed _).mpr ⟨rfl, hc⟩
  refine ⟨drop_own hmem, hserved, h.nodup.erase _, ?_⟩
  rintro ⟨d, q⟩
  rw [h.nodup.mem_erase_iff, h.owed, hpage, howed, Set.mem_sdiff, Set.mem_singleton_iff, ne_eq, Prod.mk.injEq]
  constructor
  · rintro ⟨hne, hq, hd⟩
    exact ⟨hq, hd, fun he => hne ⟨he, hq⟩⟩
  · rintro ⟨hq, hd, hne⟩
    exact ⟨fun he => hne he.1, hq, hd⟩

theorem Probed.counted {s : System T} (h : Probed s) : Counted s [] where
  served := ⟨none, h.served⟩
  nodup := List.nodup_nil
  owed := by
    intro r
    simp [System.owed, System.owes, h.user]

variable [DecidableEq T]

section Owed

variable {s s' : System T} {t : T} {th : Thread} (hth : s'.thread = Function.update s.thread t th)
  (hother : ∀ t', t' ≠ t → s'.owes (s.thread t') = s.owes (s.thread t'))

include hth hother

theorem mem_owed (c : ℕ) : c ∈ s'.owed ↔
    (s'.owes th ∧ th.call = c) ∨ ∃ t', t' ≠ t ∧ s.owes (s.thread t') ∧ (s.thread t').call = c := by
  simp only [System.owed, Set.mem_ofPred_eq, hth]
  constructor
  · rintro ⟨t', ho, hc⟩
    by_cases hne : t' = t
    · rw [hne, Function.update_self] at ho hc
      exact .inl ⟨ho, hc⟩
    · rw [Function.update_of_ne hne] at ho hc
      exact .inr ⟨t', hne, (hother t' hne).symm.trans ho, hc⟩
  · rintro (⟨ho, hc⟩ | ⟨t', hne, ho, hc⟩)
    · exact ⟨t, by rwa [Function.update_self], by rwa [Function.update_self]⟩
    · refine ⟨t', ?_⟩
      rw [Function.update_of_ne hne]
      exact ⟨(hother t' hne).trans ho, hc⟩

omit hth hother in
theorem mem_owed_self (s : System T) (t : T) (c : ℕ) : c ∈ s.owed ↔
    (s.owes (s.thread t) ∧ (s.thread t).call = c) ∨ ∃ t', t' ≠ t ∧ s.owes (s.thread t') ∧ (s.thread t').call = c :=
  mem_owed (Function.update_eq_self t s.thread).symm (fun _ _ => rfl) c

theorem owed_update (hself : s'.owes th = s.owes (s.thread t))
    (hcall : s.owes (s.thread t) → th.call = (s.thread t).call) : s'.owed = s.owed := by
  ext c
  rw [mem_owed hth hother, mem_owed_self s t, hself]
  have hc : (s.owes (s.thread t) ∧ th.call = c) ↔ (s.owes (s.thread t) ∧ (s.thread t).call = c) :=
    and_congr_right fun ho => by rw [hcall ho]
  rw [hc]

theorem owed_insert (hself : s'.owes th) (hold : s.owes (s.thread t) = false) (hcall : th.call = (s.thread t).call) :
    s'.owed = insert (s.thread t).call s.owed := by
  ext c
  rw [mem_owed hth hother, Set.mem_insert_iff, mem_owed_self s t, hold, hcall, eq_comm (a := c)]
  simp [hself]

theorem owed_remove (hb : Base s) (hself : s'.owes th = false) (hold : s.owes (s.thread t)) :
    s'.owed = s.owed \ {(s.thread t).call} := by
  ext c
  rw [mem_owed hth hother, Set.mem_sdiff, mem_owed_self s t, hself, Set.mem_singleton_iff]
  constructor
  · rintro (⟨ho, -⟩ | ⟨t', hne, ho, hc⟩)
    · cases ho
    · refine ⟨.inr ⟨t', hne, ho, hc⟩, fun he => hne ?_⟩
      exact hb.unique t' t (owes_stage s ho) (owes_stage s hold) (hc.trans he)
  · rintro ⟨⟨-, hc⟩ | hc, hne⟩
    · exact absurd hc.symm hne
    · exact .inr hc

end Owed

theorem Counted.turn {s : System T} {refs : List (ℕ × ℕ)} (h : Counted s refs) {live : Option Mapping}
    (hs : Served s live) {t : T} {a : Action T} {th : Thread} {dma : PciemuDma T} {es : List KernelEvent}
    (ht : Turn s.dma t (s.thread t) a th dma es) (hserved : ∃ live, Served (s.turn t th dma es) live)
    (hkept : RefsKept s a) :
    ∃ refs', Runs.run RefBook.step refs es = some refs' ∧ Counted (s.turn t th dma es) refs' := by
  -- no turn but these three changes what is owed
  have hsame (howes : (s.turn t th dma es).owes th = s.owes (s.thread t)) (hpage : dma.page = s.dma.page) :
      Counted (s.turn t th dma es) refs :=
    h.same hserved hpage (owed_update rfl (fun t' _ => rfl) howes fun _ => ht.call)
  cases ht with
  | pinned p hst =>
    refine ⟨_, rfl, h.pin hserved hst hkept rfl (owed_insert rfl (fun t' _ => rfl) rfl ?_ rfl)⟩
    simp [System.owes, hst]
  | mapFailed hst => exact hkept.elim
  | wait source hst hc =>
    have hw := hs.at_wait hst
    rw [hc] at hw
    obtain ⟨-, hpend, hhand, -⟩ := hw.of_completion
    exact ⟨refs, rfl, hsame (by simp [System.owes, hst, hpend, hhand]) rfl⟩
  | ret code hst =>
    have hold : s.owes (s.thread t) = false := by simp [System.owes, hst]
    refine ⟨refs, ?_, hsame (hold ▸ rfl) rfl⟩
    rw [run_singleton, RefBook.step, if_neg]
    -- whoever still owes a reference for this call is this caller
    rintro ⟨r, hr, hc⟩
    obtain ⟨t', ho, hc'⟩ := ((h.owed r).mp hr).2
    obtain rfl := hs.base.unique t' t (owes_stage s ho) (by simp [hst]) (hc'.trans hc)
    rw [hold] at ho
    cases ho
  | pinFailed hst => exact ⟨refs, rfl, hsame (by simp [System.owes, hst]) rfl⟩
  | readPage hst => exact ⟨refs, rfl, hsame (by simp [System.owes, hst]) rfl⟩
  | lock hst hfree => exact ⟨refs, rfl, hsame (by simp [System.owes, hst]) rfl⟩
  | structInit hst => exact ⟨refs, rfl, hsame (by simp [System.owes, hst]) rfl⟩
  | mapped a hst => exact ⟨refs, rfl, hsame (by simp [System.owes, hst]) rfl⟩
  | unlock r hst => exact ⟨refs, rfl, hsame (by simp [System.owes, hst]) rfl⟩

theorem Counted.irq {bus : Bus} {s s' : System T} {refs : List (ℕ × ℕ)} (h : Counted s refs) {live : Option Mapping}
    (hs : Served s live) (hi : Irq bus s s') (hserved : ∃ live, Served s' live) :
    ∃ es refs', s'.log = s.log ++ es ∧ Runs.run RefBook.step refs es = some refs' ∧ Counted s' refs' := by
  -- the caller that waits is the only one whose debt depends on the handler
  have hsame {t : T} (hm : s.dma.mtx = some t) (hth : s'.thread = s.thread)
      (howes : s'.owes (s.thread t) = s.owes (s.thread t)) (hpage : s'.dma.page = s.dma.page) : Counted s' refs := by
    refine h.same hserved hpage (owed_update (t := t) ?_ (handler_others hs.base hm) howes fun _ => rfl)
    rw [hth, Function.update_eq_self]
  cases hi with
  | enter source rest hh hp =>
    obtain ⟨t, hm, hst, hw⟩ := hs.busy (not_quiet_pending hp)
    rw [hp] at hw
    obtain ⟨-, rfl, -⟩ := hw.of_pending
    exact ⟨[_], refs, rfl, rfl, hsame hm rfl (by simp [System.owes, hst, hp]) rfl⟩
  | unmap source hh =>
    obtain ⟨t, hm, hst, rfl, hpend, -⟩ := hs.in_handler hh
    exact ⟨[_], refs, rfl, rfl, hsame hm rfl (by simp [System.owes, hst, hh, hpend]) rfl⟩
  | putPage source hh =>
    obtain ⟨t, hm, hst, rfl, hpend, -⟩ := hs.in_handler hh
    have hold : s.owes (s.thread t) = true := by simp [System.owes, hst, hh, hpend]
    obtain ⟨hdrop, hcount⟩ := h.put hserved ⟨t, hold, rfl⟩ rfl (owed_remove (Function.update_eq_self t _).symm
      (handler_others hs.base hm) hs.base (by simp [System.owes, hst, hpend]) hold)
    refine ⟨[_], _, rfl, ?_, hcount⟩
    rw [run_singleton, RefBook.step]
    exact congrArg (Option.map refs.erase) hdrop
  | ack source hh =>
    obtain ⟨t, hm, hst, rfl, hpend, -⟩ := hs.in_handler hh
    rw [iowrite32_ack bus { s with handler := some (.complete, _) } hs.base.ready] at hsame ⊢
    exact monitor_silent rfl (hsame hm rfl (by simp [System.owes, hst, hh, hpend]) rfl)
  | complete source hh =>
    obtain ⟨t, hm, hst, rfl, hpend, -⟩ := hs.in_handler hh
    exact monitor_silent rfl (hsame hm rfl (by simp [System.owes, hst, hh, hpend]) rfl)

theorem Counted.move {bus : Bus} (hb : bus.Delivers {[]}) {s s' : System T} {a : Action T} {refs : List (ℕ × ℕ)}
    (h : Counted s refs) (hm : Move bus s a s') (hkept : RefsKept s a) :
    ∃ es refs', s'.log = s.log ++ es ∧ Runs.run RefBook.step refs es = some refs' ∧ Counted s' refs' := by
  obtain ⟨live, hs⟩ := h.served
  have ha : a.fromDriver := by
    cases a with
    | mmapRaise val => exact hkept.elim
    | _ => rfl
  obtain ⟨-, live', -, -, hs'⟩ := hs.move hb hm ha
  have hserved : ∃ live, Served s' live := ⟨live', hs'⟩
  cases hm with
  | ioctl t cmd vaddr hst =>
    have hold : s.owes (s.thread t) = false := by simp [System.owes, hst]
    refine monitor_silent rfl (h.same hserved rfl (owed_update rfl (fun t' _ => rfl) ?_ ?_))
    · rw [hold]
      unfold pciemuIoctl
      split_ifs <;> rfl
    · intro ho
      rw [hold] at ho
      cases ho
  | turn t ht =>
    obtain ⟨refs', hrun, hcount⟩ := h.turn hs ht hserved hkept
    exact ⟨_, refs', rfl, hrun, hcount⟩
  | iowrite t n w hst hw =>
    have hm : s.dma.mtx = some t := hs.base.owner (by rw [hst]; rfl)
    have hold : s.owes (s.thread t) = true := by simp [System.owes, hst]
    obtain ⟨v, r, -, -, he⟩ | ⟨ws, -, m', -, -, -, he⟩ := hs.base.iowrite_cases hb hst hw
    · rw [he] at hserved ⊢
      refine monitor_silent rfl (h.same hserved rfl (owed_update rfl (fun t' _ => rfl) ?_ fun _ => rfl))
      rw [hold]
      rfl
    · rw [he] at hserved ⊢
      refine ⟨[_], refs, rfl, rfl, h.same hserved rfl
        (owed_update rfl (handler_others hs.base hm) ?_ fun _ => rfl)⟩
      rw [hold, System.owes]
      cases s.pending <;> rfl
  | irq hi => exact h.irq hs hi hserved
  | mmapRaise val => exact hkept.elim

theorem references_conserved (bus : Bus) (hb : bus.Delivers {[]}) (s s' : System T) (hs : Probed s)
    (as : List (Action T)) (hkept : Along (step bus) (fun s a _ => RefsKept s a) s as)
    (hr : Runs.run (step bus) s as = some s') : (Runs.run RefBook.step [] s'.log).isSome := by
  obtain ⟨refs, hrun, -⟩ := run_monitor (R := Counted)
    (fun s a t refs h ht hp => h.move hb (step_move bus s ht) hp) as hs.log hs.counted hkept hr
  rw [hrun]
  rfl

end Counting

instance {T : Type} [Fintype T] (s : System T) : (a : Action T) → Decidable (RefsKept s a)
  | .getUserPagesFast _ (some p) => inferInstanceAs (Decidable (∀ t, s.owes (s.thread t) → s.dma.page = p))
  | .getUserPagesFast _ none => isTrue trivial
  | .dmaMapPage _ none => isFalse id
  | .dmaMapPage _ (some _) => isTrue trivial
  | .ioctl _ _ _ => isTrue trivial
  | .advance _ => isTrue trivial
  | .irq => isTrue trivial
  | .mmapRaise _ => isFalse id

theorem references_conserved_two :
    let as := [.ioctl true ioctlDmaToDevice 0x1000, .ioctl false ioctlDmaFromDevice 0x2004,
      .getUserPagesFast true (some 1)] ++ programming true 0x1000 ++ List.replicate 3 .irq ++
      [.getUserPagesFast false (some 2), .irq, .irq] ++ List.replicate 3 (.advance true) ++ programming false 0x2004 ++
      finishing false
    ∃ s, Runs.run (step copyBus) (justProbed Bool) as = some s ∧ (Runs.run RefBook.step [] s.log).isSome := by
  intro as
  have hsome : (Runs.run (step copyBus) (justProbed Bool) as).isSome := by decide
  obtain ⟨s, hr⟩ := Option.isSome_iff_exists.mp hsome
  exact ⟨s, hr, references_conserved copyBus copyBus_delivers (justProbed Bool) s (justProbed_probed Bool) as
    (by decide) hr⟩

theorem references_lost :
    let leak := [.ioctl true ioctlDmaToDevice 0x1000, .getUserPagesFast true (some 1)] ++
      List.replicate 3 (.advance true) ++ [.dmaMapPage true none, .advance true, .advance true]
    let raised := .mmapRaise 1 :: List.replicate 3 .irq
    let stolen := [.ioctl true ioctlDmaToDevice 0x1000, .getUserPagesFast true (some 1)] ++ programming true 0x1000 ++
      [.ioctl false ioctlDmaToDevice 0x2000, .getUserPagesFast false (some 2)] ++ finishing true
    let balanced (as : List (Action Bool)) := (Runs.run (step copyBus) (justProbed Bool) as).map fun s =>
      (Runs.run RefBook.step [] s.log).isSome
    Probed (justProbed Bool) ∧ balanced leak = some false ∧ balanced raised = some false ∧
      balanced stolen = some false := by
  intro leak raised stolen balanced
  exact ⟨justProbed_probed Bool, by decide, by decide, by decide⟩

end Pciemu.Driver
