import Pciemu.Runs

namespace Pciemu.TcpLock

open Runs

/-- What a thread does next; at `inside` it has returned from `tcp_mutex_lock`. -/
inductive Stage
  | outside
  | initToLock
  | lock
  | inside
  | initToUnlock
  | unlock
  deriving DecidableEq

def Stage.locked : Stage → Bool
  | .inside | .initToUnlock | .unlock => true
  | _ => false

structure TcpMutex (T : Type*) where
  init : Bool
  holder : Option T

structure Threads (T : Type*) where
  tMutex : TcpMutex T
  stage : T → Stage

variable {T : Type*}

def Threads.start : Threads T := ⟨⟨false, none⟩, fun _ => .outside⟩

def qemuMutexInit (m : TcpMutex T) : TcpMutex T := { m with holder := none }

def Owned (s : Threads T) : Prop := ∀ t, (s.stage t).locked → s.tMutex.holder = some t

theorem Owned.unique {s : Threads T} (h : Owned s) {u v : T} (hu : (s.stage u).locked) (hv : (s.stage v).locked) :
    u = v := Option.some.inj ((h u hu).symm.trans (h v hv))

theorem Owned.none_locked {s : Threads T} (h : Owned s) (hfree : s.tMutex.holder = none) {u : T}
    (hu : (s.stage u).locked) : False := by
  have hh := h u hu
  rw [hfree] at hh
  cases hh

def Exclusive (s : Threads T) (t : T) (s' : Threads T) : Prop :=
  (∀ u v, (s'.stage u).locked → (s'.stage v).locked → u = v) ∧
    (s.stage t = .unlock → s.tMutex.holder = some t)

def InitFree (s : Threads T) (t : T) (_ : Threads T) : Prop :=
  s.stage t = .initToLock ∨ s.stage t = .initToUnlock → s.tMutex.holder = none

def Lost (s : Threads T) : Prop := s.tMutex.init = false ∧ ∀ t, s.stage t = .unlock → s.tMutex.holder ≠ some t

variable [DecidableEq T]

def Threads.set (s : Threads T) (t : T) (m : TcpMutex T) (stage : Stage) : Threads T :=
  ⟨m, Function.update s.stage t stage⟩

def step (s : Threads T) (t : T) : Option (Threads T) :=
  match s.stage t with
  | .outside => some (s.set t s.tMutex (if s.tMutex.init then .lock else .initToLock))
  | .initToLock => some (s.set t (qemuMutexInit s.tMutex) .lock)
  | .lock => if s.tMutex.holder = none then some (s.set t { s.tMutex with holder := some t } .inside) else none
  | .inside => some (s.set t s.tMutex (if s.tMutex.init then .unlock else .initToUnlock))
  | .initToUnlock => some (s.set t (qemuMutexInit s.tMutex) .unlock)
  | .unlock => some (s.set t { s.tMutex with holder := none } .outside)

inductive Move (s : Threads T) (t : T) : Threads T → Prop
  | testToLock (h : s.stage t = .outside) :
      Move s t (s.set t s.tMutex (if s.tMutex.init then .lock else .initToLock))
  | initToLock (h : s.stage t = .initToLock) : Move s t (s.set t (qemuMutexInit s.tMutex) .lock)
  | lock (h : s.stage t = .lock) (hfree : s.tMutex.holder = none) :
      Move s t (s.set t { s.tMutex with holder := some t } .inside)
  | testToUnlock (h : s.stage t = .inside) :
      Move s t (s.set t s.tMutex (if s.tMutex.init then .unlock else .initToUnlock))
  | initToUnlock (h : s.stage t = .initToUnlock) : Move s t (s.set t (qemuMutexInit s.tMutex) .unlock)
  | unlock (h : s.stage t = .unlock) : Move s t (s.set t { s.tMutex with holder := none } .outside)

theorem step_move {s s' : Threads T} {t : T} (h : step s t = some s') : Move s t s' := by
  unfold step at h
  cases hst : s.stage t with
  | outside =>
    rw [hst] at h
    exact Option.some.inj h ▸ .testToLock hst
  | initToLock =>
    rw [hst] at h
    exact Option.some.inj h ▸ .initToLock hst
  | lock =>
    rw [hst] at h
    dsimp only at h
    split_ifs at h with hfree
    exact Option.some.inj h ▸ .lock hst hfree
  | inside =>
    rw [hst] at h
    exact Option.some.inj h ▸ .testToUnlock hst
  | initToUnlock =>
    rw [hst] at h
    exact Option.some.inj h ▸ .initToUnlock hst
  | unlock =>
    rw [hst] at h
    exact Option.some.inj h ▸ .unlock hst

theorem Owned.set {s : Threads T} {t : T} {m : TcpMutex T} {stage : Stage} (ht : stage.locked → m.holder = some t)
    (hne : ∀ u ≠ t, (s.stage u).locked → m.holder = some u) : Owned (s.set t m stage) := by
  intro u hu
  rcases eq_or_ne u t with rfl | hut
  · simp only [Threads.set, Function.update_self] at hu
    exact ht hu
  · simp only [Threads.set, Function.update_of_ne hut] at hu
    exact hne u hut hu

theorem step_owned {s s' : Threads T} {t : T} (h : Owned s) (hs : step s t = some s') (hi : InitFree s t s') :
    Owned s' := by
  cases step_move hs with
  | testToLock hst =>
    apply Owned.set
    · split_ifs <;> rintro ⟨⟩
    · exact fun u _ hu => h u hu
  | initToLock hst =>
    apply Owned.set
    · rintro ⟨⟩
    · exact fun u _ hu => (h.none_locked (hi (.inl hst)) hu).elim
  | lock hst hfree =>
    apply Owned.set
    · exact fun _ => rfl
    · exact fun u _ hu => (h.none_locked hfree hu).elim
  | testToUnlock hst =>
    apply Owned.set
    · exact fun _ => h t (by rw [hst]; rfl)
    · exact fun u _ hu => h u hu
  | initToUnlock hst =>
    -- the thread itself holds the mutex that it initialises
    exact (h.none_locked (hi (.inr hst)) (u := t) (by rw [hst]; rfl)).elim
  | unlock hst =>
    apply Owned.set
    · rintro ⟨⟩
    · exact fun u hut hu => absurd (h.unique hu (by rw [hst]; rfl)) hut

theorem Lost.set {s : Threads T} {t : T} {m : TcpMutex T} {stage : Stage} (hm : m.init = false)
    (ht : stage = .unlock → m.holder ≠ some t) (hne : ∀ u ≠ t, s.stage u = .unlock → m.holder ≠ some u) :
    Lost (s.set t m stage) := by
  refine ⟨hm, ?_⟩
  intro u hu
  rcases eq_or_ne u t with rfl | hut
  · simp only [Threads.set, Function.update_self] at hu
    exact ht hu
  · simp only [Threads.set, Function.update_of_ne hut] at hu
    exact hne u hut hu

theorem step_lost {s s' : Threads T} {t : T} (h : Lost s) (hs : step s t = some s') : Lost s' := by
  obtain ⟨hinit, hlost⟩ := h
  cases step_move hs with
  | testToLock hst =>
    rw [hinit]
    exact .set hinit (by rintro ⟨⟩) fun u _ hu => hlost u hu
  | initToLock hst => exact .set hinit (by rintro ⟨⟩) fun u _ _ => by simp [qemuMutexInit]
  | lock hst hfree => exact .set hinit (by rintro ⟨⟩) fun u hut _ he => hut (Option.some.inj he).symm
  | testToUnlock hst =>
    rw [hinit]
    exact .set hinit (by rintro ⟨⟩) fun u _ hu => hlost u hu
  | initToUnlock hst =>
    exact .set hinit (fun _ => by simp [qemuMutexInit]) fun u _ _ => by simp [qemuMutexInit]
  | unlock hst => exact .set hinit (by rintro ⟨⟩) fun u _ _ => by simp

theorem mutex_exclusive (ts : List T) :
    (Along step InitFree Threads.start ts → Along step Exclusive Threads.start ts) ∧
      Along step (fun s t _ => s.stage t = .unlock → s.tMutex.holder ≠ some t) Threads.start ts := by
  constructor
  · intro h
    apply along_invariant (I := Owned) _ ts _ h
    · intro s t s' ho hs hi
      have ho' := step_owned ho hs hi
      exact ⟨ho', fun u v hu hv => ho'.unique hu hv, fun hst => ho t (by rw [hst]; rfl)⟩
    · intro t ht
      cases ht
  · apply along_invariant (I := Lost) (P := fun _ _ _ => True) _ ts _ (along_of_forall _ ts fun _ _ => trivial)
    · intro s t s' hl hs _
      exact ⟨step_lost hl hs, hl.2 t⟩
    · refine ⟨rfl, ?_⟩
      intro t ht
      cases ht

instance (s : Threads T) (t : T) (s' : Threads T) : Decidable (InitFree s t s') :=
  inferInstanceAs (Decidable (_ → _))

theorem mutex_exclusive_first : Along step InitFree Threads.start [false, true, true, false, false] ∧
    Along step Exclusive Threads.start [false, true, true, false, false] := by
  have h : Along step InitFree Threads.start [false, true, true, false, false] := by decide
  exact ⟨h, (mutex_exclusive _).1 h⟩

theorem mutex_shared : ∃ s, Runs.run step Threads.start [false, false, false, true, true, true] = some s ∧
    s.stage false = .inside ∧ s.stage true = .inside ∧
    ¬Along step Exclusive Threads.start [false, false, false, true, true, true] := by
  refine ⟨_, rfl, rfl, rfl, ?_⟩
  intro h
  obtain ⟨-, h⟩ := h _ rfl
  obtain ⟨-, h⟩ := h _ rfl
  obtain ⟨-, h⟩ := h _ rfl
  obtain ⟨-, h⟩ := h _ rfl
  obtain ⟨-, h⟩ := h _ rfl
  obtain ⟨h, -⟩ := h _ rfl
  exact absurd (h.1 false true rfl rfl) (by decide)

end Pciemu.TcpLock
