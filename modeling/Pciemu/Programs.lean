import Mathlib.Tactic

/-!
Sequential programs that call an environment. A program is a tree: it returns,
or it makes a call and goes on as the answer says.
-/

namespace Pciemu.Programs

inductive Prog (κ ρ α : Type)
  | ret (a : α)
  | call (c : κ) (k : ρ → Prog κ ρ α)

variable {κ ρ α β σ : Type}

def Prog.bind : Prog κ ρ α → (α → Prog κ ρ β) → Prog κ ρ β
  | .ret a, f => f a
  | .call c k, f => .call c fun z => (k z).bind f

instance : Monad (Prog κ ρ) where
  pure := .ret
  bind := .bind

def request (c : κ) : Prog κ ρ ρ := .call c .ret

section Exec

variable (answer : σ → κ → ρ) (after : σ → κ → ρ → σ)

def Prog.exec : Prog κ ρ α → σ → α × σ
  | .ret a, s => (a, s)
  | .call c k, s => (k (answer s c)).exec (after s c (answer s c))

theorem Prog.exec_bind (p : Prog κ ρ α) (f : α → Prog κ ρ β) (s : σ) : (p >>= f).exec answer after s =
    (f (p.exec answer after s).1).exec answer after (p.exec answer after s).2 := by
  induction p generalizing s with
  | ret a => rfl
  | call c k ih => exact ih (answer s c) (after s c (answer s c))

end Exec

section Within

variable (allowed : κ → ρ → Prop)

/-- As long as the answers are allowed ones, every call satisfies `P`, and what is returned `R`. -/
def Prog.Within (P : κ → Prop) (R : α → Prop) : Prog κ ρ α → Prop
  | .ret a => R a
  | .call c k => P c ∧ ∀ z, allowed c z → (k z).Within P R

variable {allowed} {P P' : κ → Prop}

theorem Prog.Within.bind {R : β → Prop} {p : Prog κ ρ α} {f : α → Prog κ ρ β}
    (h : p.Within allowed P fun a => (f a).Within allowed P R) : (p >>= f).Within allowed P R := by
  induction p with
  | ret a => exact h
  | call c k ih => exact ⟨h.1, fun z hz => ih z (h.2 z hz)⟩

theorem Prog.Within.mono {allowed' : κ → ρ → Prop} {R R' : α → Prop} {p : Prog κ ρ α} (h : p.Within allowed P R)
    (hallowed : ∀ c z, allowed' c z → allowed c z) (hP : ∀ c, P c → P' c) (hR : ∀ a, R a → R' a) :
    p.Within allowed' P' R' := by
  induction p with
  | ret a => exact hR a h
  | call c k ih => exact ⟨hP c h.1, fun z hz => ih z (h.2 z (hallowed c z hz))⟩

theorem Prog.Within.exec {answer : σ → κ → ρ} {after : σ → κ → ρ → σ} {R : α → Prop} {p : Prog κ ρ α}
    (h : p.Within allowed P R) (ha : ∀ s c, allowed c (answer s c)) (s : σ) : R (p.exec answer after s).1 := by
  induction p generalizing s with
  | ret a => exact h
  | call c k ih => exact ih _ (h.2 _ (ha s c)) _

end Within

section Always

variable (allowed : σ → κ → ρ → Prop) (after : σ → κ → ρ → σ)

/-- Whatever is answered, `Q` holds before every call and `R` at the end. -/
def Prog.Always (Q : σ → Prop) (R : α → σ → Prop) : Prog κ ρ α → σ → Prop
  | .ret a, s => R a s
  | .call c k, s => Q s ∧ ∀ z, allowed s c z → (k z).Always Q R (after s c z)

variable {allowed after}

theorem Prog.Always.bind {Q : σ → Prop} {R : β → σ → Prop} {p : Prog κ ρ α} {f : α → Prog κ ρ β} {s : σ}
    (h : p.Always allowed after Q (fun a s => (f a).Always allowed after Q R s) s) :
    (p >>= f).Always allowed after Q R s := by
  induction p generalizing s with
  | ret a => exact h
  | call c k ih => exact ⟨h.1, fun z hz => ih z (h.2 z hz)⟩

theorem Prog.Always.mono {Q Q' : σ → Prop} {R R' : α → σ → Prop} {p : Prog κ ρ α} {s : σ}
    (h : p.Always allowed after Q R s) (hQ : ∀ s, Q s → Q' s) (hR : ∀ a s, R a s → R' a s) :
    p.Always allowed after Q' R' s := by
  induction p generalizing s with
  | ret a => exact hR a s h
  | call c k ih => exact ⟨hQ s h.1, fun z hz => ih z (h.2 z hz)⟩

theorem Prog.Always.of_within {allowed' : κ → ρ → Prop} {I : σ → Prop} {P : κ → Prop} {R : α → Prop} {p : Prog κ ρ α}
    (hp : p.Within allowed' P R) (hallowed : ∀ s c z, allowed s c z → allowed' c z)
    (hI : ∀ s c z, P c → I s → allowed s c z → I (after s c z)) {s : σ} (hs : I s) :
    p.Always allowed after I (fun a s => R a ∧ I s) s := by
  induction p generalizing s with
  | ret a => exact ⟨hp, hs⟩
  | call c k ih => exact ⟨hs, fun z hz => ih z (hp.2 z (hallowed s c z hz)) (hI s c z hp.1 hs hz)⟩

end Always

end Pciemu.Programs
