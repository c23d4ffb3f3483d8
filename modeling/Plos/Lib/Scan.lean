import Mathlib.Data.List.Basic

/-! Scanners that read one token after the other off the front of a sequence.

A token `t` is written as `text t` and changes the state by `act t`. `Splits` describes a scanner
that always succeeds, perhaps with an empty token: it takes `t` off exactly if what follows may not
belong to `t` any more. `Scans` describes one that may fail and needs no look at what follows. Both
are about the sequences that meet a condition `P`. A scanner of the first kind and then one of the
second kind are of the second kind again (`Splits.next`). -/

namespace Plos

universe u v w x

variable {α : Type u} {σ : Type v} {τ : Type w} {τ' : Type x}

/-- `scan` takes off a token whose end is marked by `stop`. -/
def Splits (P : List α → Prop) (scan : σ → List α → σ × List α) (text : τ → List α)
    (act : τ → σ → σ) (stop : τ → List α → Prop) : Prop :=
  ∀ x s x' rest, P s →
    (scan x s = (x', rest) ↔ ∃ t, s = text t ++ rest ∧ stop t rest ∧ x' = act t x)

/-- `scan` takes off a token, or fails if there is none. -/
def Scans (P : List α → Prop) (scan : σ → List α → Option (σ × List α)) (text : τ → List α)
    (act : τ → σ → σ) : Prop :=
  ∀ x s x' rest, P s → (scan x s = some (x', rest) ↔ ∃ t, s = text t ++ rest ∧ x' = act t x)

/-- The second scanner goes on where the first one has stopped. -/
def scanNext (first : σ → List α → σ × List α) (second : σ → List α → Option (σ × List α)) (x : σ)
    (s : List α) : Option (σ × List α) :=
  second (first x s).1 (first x s).2

/-- The end of the first token is all that the second scanner may count on, and a second token ends
the first one. -/
theorem Splits.next {P P' : List α → Prop} {first : σ → List α → σ × List α}
    {second : σ → List α → Option (σ × List α)} {text : τ → List α} {text' : τ' → List α}
    {act : τ → σ → σ} {act' : τ' → σ → σ} {stop : τ → List α → Prop}
    (h : Splits P first text act stop) (h' : Scans P' second text' act')
    (hP : ∀ t rest, stop t rest → P' rest) (hstop : ∀ t t' rest, stop t (text' t' ++ rest)) :
    Scans P (scanNext first second) (fun t : τ × τ' => text t.1 ++ text' t.2) fun t x =>
      act' t.2 (act t.1 x) := by
  intro x s x' rest hs
  constructor
  · intro hscan
    obtain ⟨t, htext, hend, hx⟩ := (h x s _ _ hs).mp rfl
    obtain ⟨t', htext', hx'⟩ := (h' _ _ _ _ (hP t _ hend)).mp hscan
    refine ⟨(t, t'), ?_, ?_⟩
    · rw [htext, htext', List.append_assoc]
    · rw [hx', hx]
  · rintro ⟨⟨t, t'⟩, rfl, rfl⟩
    have hfirst : first x (text t ++ text' t' ++ rest) = (act t x, text' t' ++ rest) :=
      (h _ _ _ _ hs).mpr ⟨t, List.append_assoc .., hstop t t' rest, rfl⟩
    rw [scanNext, hfirst]
    exact (h' _ _ _ _ (hP t _ (hstop t t' rest))).mpr ⟨t', rfl, rfl⟩

/-- Reads symbols as long as `step` takes them. -/
def scanWhile (step : α → Option (σ → σ)) : σ → List α → σ × List α
  | x, [] => (x, [])
  | x, c :: s =>
    match step c with
    | some f => scanWhile step (f x) s
    | none => (x, c :: s)

/-- What the symbols of a token do, one after the other. -/
def actAll (act : τ → σ → σ) (ts : List τ) (x : σ) : σ := ts.foldl (fun x t => act t x) x

/-- A token of the loop is a sequence of symbols, and it ends where `step` takes no more. -/
theorem splits_scanWhile {step : α → Option (σ → σ)} {sym : τ → α} {act : τ → σ → σ}
    (hstep : ∀ c f, step c = some f ↔ ∃ t, c = sym t ∧ f = act t) :
    Splits (fun _ => True) (scanWhile step) (List.map sym) (actAll act)
      fun _ rest => ∀ c ∈ rest.head?, step c = none := by
  intro x s x' rest _
  constructor
  · intro hscan
    induction s generalizing x with
    | nil =>
      obtain ⟨rfl, rfl⟩ := Prod.mk.inj hscan
      exact ⟨[], rfl, fun c hc => by simp at hc, rfl⟩
    | cons c s ih =>
      rw [scanWhile] at hscan
      cases hc : step c with
      | none =>
        rw [hc] at hscan
        obtain ⟨rfl, rfl⟩ := Prod.mk.inj hscan
        refine ⟨[], rfl, fun d hd => ?_, rfl⟩
        rw [List.head?_cons, Option.mem_some_iff] at hd
        rw [← hd, hc]
      | some f =>
        rw [hc] at hscan
        obtain ⟨t, rfl, rfl⟩ := (hstep c f).mp hc
        obtain ⟨ts, rfl, hstop, rfl⟩ := ih _ hscan
        exact ⟨t :: ts, rfl, hstop, rfl⟩
  · rintro ⟨ts, rfl, hstop, rfl⟩
    induction ts generalizing x with
    | nil =>
      cases rest with
      | nil => rfl
      | cons c rest =>
        rw [List.map_nil, List.nil_append, scanWhile, hstop c rfl]
        rfl
    | cons t ts ih =>
      rw [List.map_cons, List.cons_append, scanWhile, (hstep _ _).mpr ⟨t, rfl, rfl⟩]
      exact ih (act t x)

end Plos
