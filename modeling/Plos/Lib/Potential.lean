import Mathlib.Algebra.GroupWithZero.Nat
import Plos.Lib.Run

/-! Runs that come to a goal.

That a run comes to a goal follows from a potential that pays for its steps (`runFrom_potential`):
until the goal is reached, every step costs something, and only some steps add to the potential. -/

namespace Plos

universe u v

variable {σ : Type u} {ω : Type v} {step : σ → ω → Option σ} {s s' t : σ} {op : ω} {ops : List ω}
  {I P : σ → Prop}

/-- The run comes to a state that meets `P`. -/
def Reaches (step : σ → ω → Option σ) (P : σ → Prop) (s : σ) (ops : List ω) : Prop :=
  ∃ pre post m, ops = pre ++ post ∧ runFrom step s pre = some m ∧ P m

theorem Reaches.here (h : P s) : Reaches step P s ops := ⟨[], ops, s, rfl, rfl, h⟩

theorem Reaches.cons (hop : step s op = some s') (h : Reaches step P s' ops) :
    Reaches step P s (op :: ops) := by
  obtain ⟨pre, post, m, rfl, hm, hP⟩ := h
  exact ⟨op :: pre, post, m, rfl, runFrom_cons.mpr ⟨s', hop, hm⟩, hP⟩

theorem Reaches.imp {P' : σ → Prop} (h : Reaches step P s ops) (himp : ∀ s, P s → P' s) :
    Reaches step P' s ops := by
  obtain ⟨pre, post, m, hops, hm, hP⟩ := h
  exact ⟨pre, post, m, hops, hm, himp m hP⟩

/-- Until the goal `P` is reached every step is paid for: what it costs comes out of the potential
and out of what the step gains. -/
theorem runFrom_potential {Φ : σ → Nat} {cost gain : ω → Nat}
    (hstep : ∀ s op s', I s → step s op = some s' → P s' ∨ I s' ∧ Φ s' + cost op ≤ Φ s + gain op)
    (hs : I s) (h : runFrom step s ops = some t) :
    Reaches step P s ops ∨ I t ∧ Φ t + (ops.map cost).sum ≤ Φ s + (ops.map gain).sum := by
  induction ops generalizing s with
  | nil =>
    cases h
    exact .inr ⟨hs, Nat.le_refl _⟩
  | cons op ops ih =>
    obtain ⟨s', h₁, h₂⟩ := runFrom_cons.mp h
    rcases hstep s op s' hs h₁ with hP | ⟨hI, hle⟩
    · exact .inl (.cons h₁ (.here hP))
    · rcases ih hI h₂ with hreach | ⟨hI', hle'⟩
      · exact .inl (.cons h₁ hreach)
      · refine .inr ⟨hI', ?_⟩
        simp only [List.map_cons, List.sum_cons]
        omega

end Plos
