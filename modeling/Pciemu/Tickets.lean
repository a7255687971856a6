import Mathlib.Tactic

namespace Pciemu.Tickets

variable {T : Type*}

structure Issued (held : T → Option ℕ) (queue : List ℕ) (next : ℕ) : Prop where
  consecutive : ∃ first, queue = List.range' first queue.length ∧ first + queue.length = next
  queued : ∀ t k, held t = some k → k ∈ queue
  owned : ∀ k ∈ queue, ∃ t, held t = some k
  distinct : ∀ t u k, held t = some k → held u = some k → t = u

theorem issued_empty (next : ℕ) : Issued (fun _ : T => none) [] next := by
  refine ⟨⟨next, rfl, rfl⟩, ?_, ?_, ?_⟩
  · intro t k h
    cases h
  · intro k h
    cases h
  · intro t u k h
    cases h

variable {held : T → Option ℕ} {queue : List ℕ} {next : ℕ}

theorem Issued.lt_next (h : Issued held queue next) {t : T} {k : ℕ} (ht : held t = some k) : k < next := by
  obtain ⟨first, hq, hn⟩ := h.consecutive
  have hk := h.queued t k ht
  rw [hq, List.mem_range'_1] at hk
  omega

theorem Issued.front_lt {k m : ℕ} (h : Issued held (k :: queue) next) (hm : m ∈ queue) : k < m := by
  obtain ⟨first, hq, -⟩ := h.consecutive
  rw [List.length_cons, List.range'_succ] at hq
  obtain ⟨rfl, hq⟩ := List.cons.inj hq
  rw [hq, List.mem_range'_1] at hm
  omega

theorem Issued.front_eq {k m : ℕ} (h : Issued held (k :: queue) next) {t : T} (ht : held t = some m)
    (hmin : ∀ u n, held u = some n → m ≤ n) : m = k := by
  obtain ⟨u, hu⟩ := h.owned k List.mem_cons_self
  have hle := hmin u k hu
  rcases List.mem_cons.mp (h.queued t m ht) with hm | hm
  · exact hm
  · exact absurd (h.front_lt hm) (by omega)

variable [DecidableEq T]

theorem Issued.issue (h : Issued held queue next) {t : T} (ht : held t = none) :
    Issued (Function.update held t (some next)) (queue ++ [next]) (next + 1) := by
  obtain ⟨first, hq, hn⟩ := h.consecutive
  refine ⟨⟨first, ?_, ?_⟩, ?_, ?_, ?_⟩
  · rw [List.length_append, List.length_singleton, List.range'_1_concat, ← hq, hn]
  · rw [List.length_append, List.length_singleton]
    omega
  · intro u k hu
    rw [Function.update_apply] at hu
    split_ifs at hu with hut
    · exact Option.some.inj hu ▸ List.mem_append_right _ List.mem_cons_self
    · exact List.mem_append_left _ (h.queued u k hu)
  · intro k hk
    rcases List.mem_append.mp hk with hk | hk
    · obtain ⟨u, hu⟩ := h.owned k hk
      have hne : u ≠ t := by
        rintro rfl
        cases ht.symm.trans hu
      exact ⟨u, (Function.update_of_ne hne _ _).trans hu⟩
    · rw [List.mem_singleton.mp hk]
      exact ⟨t, Function.update_self _ _ _⟩
  · -- the number that is given out now is above all that are held
    intro u v k hu hv
    rw [Function.update_apply] at hu hv
    split_ifs at hu hv with hut hvt hvt
    · exact hut.trans hvt.symm
    · exact absurd (h.lt_next hv) (by simp [Option.some.inj hu])
    · exact absurd (h.lt_next hu) (by simp [Option.some.inj hv])
    · exact h.distinct u v k hu hv

theorem Issued.serve {k : ℕ} (h : Issued held (k :: queue) next) {t : T} (ht : held t = some k) :
    Issued (Function.update held t none) queue next := by
  obtain ⟨first, hq, hn⟩ := h.consecutive
  rw [List.length_cons, List.range'_succ] at hq
  refine ⟨⟨first + 1, (List.cons.inj hq).2, ?_⟩, ?_, ?_, ?_⟩
  · rw [List.length_cons] at hn
    omega
  · intro u m hu
    rw [Function.update_apply] at hu
    split_ifs at hu with hut
    rcases List.mem_cons.mp (h.queued u m hu) with rfl | hm
    · exact absurd (h.distinct u t m hu ht) hut
    · exact hm
  · intro m hm
    obtain ⟨u, hu⟩ := h.owned m (List.mem_cons_of_mem k hm)
    have hne : u ≠ t := by
      rintro rfl
      have hlt := h.front_lt hm
      have hkm : k = m := Option.some.inj (ht.symm.trans hu)
      omega
    exact ⟨u, (Function.update_of_ne hne _ _).trans hu⟩
  · intro u v m hu hv
    rw [Function.update_apply] at hu hv
    split_ifs at hu hv
    exact h.distinct u v m hu hv

end Pciemu.Tickets
