import Mathlib.Tactic

namespace Pciemu.Runs

variable {σ α : Type*} {step : σ → α → Option σ}

def run (step : σ → α → Option σ) : σ → List α → Option σ
  | s, [] => some s
  | s, a :: as => (step s a).bind fun t => run step t as

def Along (step : σ → α → Option σ) (P : σ → α → σ → Prop) : σ → List α → Prop
  | _, [] => True
  | s, a :: as => ∀ t, step s a = some t → P s a t ∧ Along step P t as

theorem run_cons {s t : σ} {a : α} (as : List α) (h : step s a = some t) :
    run step s (a :: as) = run step t as := by
  rw [run, h, Option.bind_some]

theorem run_singleton (s : σ) (a : α) : run step s [a] = step s a :=
  Option.bind_fun_some (step s a)

theorem run_append (s : σ) (as bs : List α) :
    run step s (as ++ bs) = (run step s as).bind fun t => run step t bs := by
  induction as generalizing s with
  | nil => rfl
  | cons a as ih =>
    simp only [List.cons_append, run, Option.bind_assoc]
    congr 1
    funext t
    exact ih t

theorem along_invariant {I : σ → Prop} {P Q : σ → α → σ → Prop}
    (hstep : ∀ s a t, I s → step s a = some t → P s a t → I t ∧ Q s a t)
    {s : σ} (as : List α) (hs : I s) (h : Along step P s as) : Along step Q s as := by
  induction as generalizing s with
  | nil => trivial
  | cons a as ih =>
    intro t ht
    obtain ⟨hp, hrest⟩ := h t ht
    obtain ⟨hi, hq⟩ := hstep s a t hs ht hp
    exact ⟨hq, ih hi hrest⟩

theorem run_invariant {I : σ → Prop} {P : σ → α → σ → Prop}
    (hstep : ∀ s a t, I s → step s a = some t → P s a t → I t)
    {s t : σ} (as : List α) (hs : I s) (h : Along step P s as) (hr : run step s as = some t) :
    I t := by
  induction as generalizing s with
  | nil => exact Option.some.inj hr ▸ hs
  | cons a as ih =>
    obtain ⟨u, hu, hr'⟩ := Option.bind_eq_some_iff.mp hr
    obtain ⟨hp, hrest⟩ := h u hu
    exact ih (hstep s a u hs hu hp) hrest hr'

theorem run_refines {σ' : Type*} {astep : σ' → α → Option σ'} {I : σ → Prop} (view : σ → σ')
    (hstep : ∀ s a, I s → (step s a).map view = astep (view s) a ∧ ∀ t, step s a = some t → I t)
    {s : σ} (as : List α) (hs : I s) :
    (run step s as).map view = run astep (view s) as ∧ ∀ t, run step s as = some t → I t := by
  induction as generalizing s with
  | nil => exact ⟨rfl, fun t ht => Option.some.inj ht ▸ hs⟩
  | cons a as ih =>
    obtain ⟨hview, hi⟩ := hstep s a hs
    rw [run, run, ← hview]
    cases h : step s a with
    | none => exact ⟨rfl, fun t ht => nomatch ht⟩
    | some u => exact ih (hi u h)

theorem exists_run {I F : σ → Prop} {P : σ → α → σ → Prop} (rank : σ → ℕ)
    (hstep : ∀ s, I s → ¬F s → ∃ a t, step s a = some t ∧ P s a t ∧ I t ∧ rank t < rank s) {s : σ} (hs : I s) :
    ∃ as t, Along step P s as ∧ run step s as = some t ∧ F t := by
  -- on the rank, the invariant carried along
  induction hr : rank s using Nat.strongRecOn generalizing s with
  | ind n ih =>
    by_cases hf : F s
    · exact ⟨[], s, trivial, rfl, hf⟩
    · obtain ⟨a, t, ht, hp, hi, hlt⟩ := hstep s hs hf
      obtain ⟨as, u, ha, hu, hfu⟩ := ih (rank t) (hr ▸ hlt) hi rfl
      refine ⟨a :: as, u, ?_, (run_cons as ht).trans hu, hfu⟩
      intro t' ht'
      obtain rfl := Option.some.inj (ht.symm.trans ht')
      exact ⟨hp, ha⟩

/-- Where a step uses up one unit of work and brings at most `gain` units with it, the length of a run
is bounded by what there was to do and what came in. -/
theorem run_length {I : σ → Prop} {P : σ → α → σ → Prop} (work : σ → ℕ) (gain : α → ℕ)
    (hstep : ∀ s a t, I s → step s a = some t → P s a t → I t ∧ work t + 1 ≤ work s + gain a)
    {s t : σ} (as : List α) (hs : I s) (h : Along step P s as) (hr : run step s as = some t) :
    I t ∧ work t + as.length ≤ work s + (as.map gain).sum := by
  induction as generalizing s with
  | nil =>
    obtain rfl := Option.some.inj hr
    exact ⟨hs, Nat.le_refl _⟩
  | cons a as ih =>
    obtain ⟨u, hu, hr'⟩ := Option.bind_eq_some_iff.mp hr
    obtain ⟨hp, hrest⟩ := h u hu
    obtain ⟨hi, hle⟩ := hstep s a u hs hu hp
    obtain ⟨ht, hlen⟩ := ih hi hrest hr'
    refine ⟨ht, ?_⟩
    rw [List.length_cons, List.map_cons, List.sum_cons]
    omega

/-- A monitor reads the log of a run. If every step writes what the monitor accepts in the state it
is in, which `R` relates to the state of the run, then it accepts the log of every run. -/
theorem run_monitor {ε μ : Type*} {mon : μ → ε → Option μ} {log : σ → List ε} {R : σ → μ → Prop} {m₀ : μ}
    {P : σ → α → σ → Prop}
    (hstep : ∀ s a t m, R s m → step s a = some t → P s a t →
      ∃ es m', log t = log s ++ es ∧ run mon m es = some m' ∧ R t m')
    {s t : σ} (as : List α) (hl : log s = []) (hs : R s m₀) (h : Along step P s as)
    (hr : run step s as = some t) : ∃ m, run mon m₀ (log t) = some m ∧ R t m := by
  apply run_invariant (I := fun s => ∃ m, run mon m₀ (log s) = some m ∧ R s m) _ as _ h hr
  · rintro s a t ⟨m, hm, hR⟩ ht hp
    obtain ⟨es, m', he, hm', hR'⟩ := hstep s a t m hR ht hp
    refine ⟨m', ?_, hR'⟩
    rw [he, run_append, hm, Option.bind_some, hm']
  · exact ⟨m₀, by rw [hl, run], hs⟩

theorem monitor_silent {ε μ : Type*} {mon : μ → ε → Option μ} {log log' : List ε} {R : μ → Prop} {m : μ}
    (hlog : log' = log) (hR : R m) : ∃ es m', log' = log ++ es ∧ run mon m es = some m' ∧ R m' :=
  ⟨[], m, hlog.trans (List.append_nil log).symm, rfl, hR⟩

def trace {ε : Type*} (step : σ → α → Option σ) (obs : σ → α → σ → List ε) : σ → List α → List ε
  | _, [] => []
  | s, a :: as => match step s a with
    | none => []
    | some t => obs s a t ++ trace step obs t as

theorem run_trace {ε μ : Type*} {mon : μ → ε → Option μ} {obs : σ → α → σ → List ε} {R : σ → μ → Prop}
    {P : σ → α → σ → Prop}
    (hstep : ∀ s a t m, R s m → step s a = some t → P s a t → ∃ m', run mon m (obs s a t) = some m' ∧ R t m')
    {s t : σ} {m : μ} (as : List α) (hs : R s m) (h : Along step P s as) (hr : run step s as = some t) :
    ∃ m', run mon m (trace step obs s as) = some m' ∧ R t m' := by
  induction as generalizing s m with
  | nil => exact ⟨m, rfl, Option.some.inj hr ▸ hs⟩
  | cons a as ih =>
    obtain ⟨u, hu, hr'⟩ := Option.bind_eq_some_iff.mp hr
    obtain ⟨hp, hrest⟩ := h u hu
    obtain ⟨m', hm', hR⟩ := hstep s a u m hs hu hp
    rw [trace, hu, run_append, hm', Option.bind_some]
    exact ih hR hrest hr'

theorem along_of_forall {P : α → Prop} (s : σ) (as : List α) (h : ∀ a ∈ as, P a) :
    Along step (fun _ a _ => P a) s as := by
  induction as generalizing s with
  | nil => trivial
  | cons a as ih =>
    intro t _
    exact ⟨h a List.mem_cons_self, ih t fun b hb => h b (List.mem_cons_of_mem a hb)⟩

theorem along_imp {P Q : σ → α → σ → Prop} (as : List α)
    (h : ∀ a ∈ as, ∀ s t, step s a = some t → P s a t → Q s a t) {s : σ} (hp : Along step P s as) :
    Along step Q s as := by
  induction as generalizing s with
  | nil => trivial
  | cons a as ih =>
    intro t ht
    obtain ⟨hpa, hrest⟩ := hp t ht
    exact ⟨h a List.mem_cons_self s t ht hpa, ih (fun b hb => h b (List.mem_cons_of_mem a hb)) hrest⟩

theorem along_append {P : σ → α → σ → Prop} (s : σ) (as bs : List α) :
    Along step P s (as ++ bs) ↔
      Along step P s as ∧ ∀ t, run step s as = some t → Along step P t bs := by
  induction as generalizing s with
  | nil => simp [Along, run]
  | cons a as ih =>
    simp only [List.cons_append, Along, ih, run, Option.bind_eq_some_iff]
    constructor
    · intro h
      refine ⟨fun t ht => ⟨(h t ht).1, (h t ht).2.1⟩, ?_⟩
      rintro t ⟨u, hu, hr⟩
      exact (h u hu).2.2 t hr
    · rintro ⟨h, hb⟩ t ht
      exact ⟨(h t ht).1, (h t ht).2, fun u hu => hb u ⟨t, ht, hu⟩⟩

instance decidableAlong {P : σ → α → σ → Prop} [∀ s a t, Decidable (P s a t)] (s : σ) :
    (as : List α) → Decidable (Along step P s as)
  | [] => isTrue trivial
  | a :: as =>
    match h : step s a with
    | none => isTrue (fun t ht => by rw [h] at ht; cases ht)
    | some u =>
      have : Decidable (Along step P u as) := decidableAlong u as
      decidable_of_iff (P s a u ∧ Along step P u as) (by simp only [Along, h, Option.some.injEq, forall_eq'])

section Interleave

variable {ι : Type*} [DecidableEq ι]

def interleave (step : σ → α → Option σ) (f : ι → σ) (e : ι × α) : Option (ι → σ) :=
  (step (f e.1) e.2).map (Function.update f e.1)

def turnsOf (i : ι) (es : List (ι × α)) : List α := es.filterMap fun e => if e.1 = i then some e.2 else none

theorem run_interleave {f g : ι → σ} (es : List (ι × α)) (h : run (interleave step) f es = some g) (i : ι) :
    run step (f i) (turnsOf i es) = some (g i) := by
  induction es generalizing f with
  | nil => exact congrArg some (congrFun (Option.some.inj h) i)
  | cons e es ih =>
    obtain ⟨f', hf', hrun⟩ := Option.bind_eq_some_iff.mp h
    obtain ⟨t, ht, rfl⟩ := Option.map_eq_some_iff.mp hf'
    have hrest := ih hrun
    rcases eq_or_ne e.1 i with rfl | hne
    · rw [Function.update_self] at hrest
      rw [turnsOf, List.filterMap_cons, if_pos rfl]
      exact (run_cons _ ht).trans hrest
    · rw [Function.update_of_ne hne.symm] at hrest
      rw [turnsOf, List.filterMap_cons, if_neg hne]
      exact hrest

end Interleave

def total (f : σ → α → σ) : σ → α → Option σ := fun s a => some (f s a)

theorem run_total (f : σ → α → σ) (s : σ) (as : List α) :
    run (total f) s as = some (as.foldl f s) := by
  induction as generalizing s with
  | nil => rfl
  | cons a as ih => exact ih (f s a)

end Pciemu.Runs
