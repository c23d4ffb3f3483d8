import Mathlib.Tactic.Common

/-! Runs of a guarded transition function.

`step s op` is the state after the operation `op`, or `none` where the operation is not enabled.
A property is carried along a run by one step lemma: `runFrom_induction` for an invariant,
`Along.of_allSteps` for a property that only steps of some kind keep, and `along_iff_allSteps`
where exactly those steps keep it. -/

namespace Plos

universe u v

variable {σ : Type u} {ω : Type v} {step : σ → ω → Option σ} {s s' t : σ} {op : ω} {ops : List ω}
  {I P : σ → Prop} {Q : σ → ω → Prop}

/-- The state after a list of operations, `none` if one of them was not enabled. -/
def runFrom (step : σ → ω → Option σ) : σ → List ω → Option σ
  | s, [] => some s
  | s, op :: ops => match step s op with
    | none => none
    | some s' => runFrom step s' ops

/-- Every step of the run meets `Q`. -/
def AllSteps (step : σ → ω → Option σ) (Q : σ → ω → Prop) : σ → List ω → Prop
  | _, [] => True
  | s, op :: ops => match step s op with
    | none => True
    | some s' => Q s op ∧ AllSteps step Q s' ops

instance AllSteps.decidable [∀ s op, Decidable (Q s op)] :
    (s : σ) → (ops : List ω) → Decidable (AllSteps step Q s ops)
  | _, [] => .isTrue trivial
  | s, op :: ops => by
    unfold AllSteps
    exact match step s op with
      | none => .isTrue trivial
      | some s' => @instDecidableAnd _ _ _ (AllSteps.decidable s' ops)

/-- Every state the run reaches, the first one included, meets `P`. -/
def Along (step : σ → ω → Option σ) (P : σ → Prop) : σ → List ω → Prop
  | s, [] => P s
  | s, op :: ops => P s ∧ match step s op with
    | none => True
    | some s' => Along step P s' ops

theorem runFrom_cons : runFrom step s (op :: ops) = some t ↔
    ∃ s', step s op = some s' ∧ runFrom step s' ops = some t := by
  rw [runFrom]
  cases step s op with
  | none => simp
  | some s' => simp

theorem runFrom_append {ops' : List ω} (h : runFrom step s ops = some t) :
    runFrom step s (ops ++ ops') = runFrom step t ops' := by
  induction ops generalizing s with
  | nil =>
    cases h
    rfl
  | cons op ops ih =>
    obtain ⟨s', h₁, h₂⟩ := runFrom_cons.mp h
    rw [List.cons_append, runFrom, h₁]
    exact ih h₂

theorem AllSteps.cons (h : AllSteps step Q s (op :: ops)) (hs : step s op = some s') :
    Q s op ∧ AllSteps step Q s' ops := by
  unfold AllSteps at h
  rwa [hs] at h

theorem AllSteps.intro (hq : Q s op) (h : ∀ s', step s op = some s' → AllSteps step Q s' ops) :
    AllSteps step Q s (op :: ops) := by
  unfold AllSteps
  cases hop : step s op with
  | none => trivial
  | some s' => exact ⟨hq, h s' hop⟩

/-- Operations that meet `Q` in every state. -/
theorem AllSteps.of_forall (h : ∀ op ∈ ops, ∀ s, Q s op) : AllSteps step Q s ops := by
  induction ops generalizing s with
  | nil => trivial
  | cons op ops ih =>
    obtain ⟨hop, hops⟩ := List.forall_mem_cons.mp h
    exact .intro (hop s) fun _ _ => ih hops

theorem AllSteps.and {Q' : σ → ω → Prop} (h : AllSteps step Q s ops) (h' : AllSteps step Q' s ops) :
    AllSteps step (fun s op => Q s op ∧ Q' s op) s ops := by
  induction ops generalizing s with
  | nil => trivial
  | cons op ops ih =>
    unfold AllSteps at h h' ⊢
    cases hop : step s op with
    | none => trivial
    | some s' =>
      rw [hop] at h h'
      exact ⟨⟨h.1, h'.1⟩, ih h.2 h'.2⟩

theorem AllSteps.snoc (h : AllSteps step Q s ops) (hop : ∀ t ∈ runFrom step s ops, Q t op) :
    AllSteps step Q s (ops ++ [op]) := by
  induction ops generalizing s with
  | nil => exact .intro (hop s rfl) fun _ _ => trivial
  | cons op₁ ops ih =>
    rw [List.cons_append]
    unfold AllSteps at h ⊢
    rw [runFrom] at hop
    cases hop₁ : step s op₁ with
    | none => trivial
    | some s' =>
      rw [hop₁] at h hop
      exact ⟨h.1, ih h.2 hop⟩

theorem Along.head (h : Along step P s ops) : P s := by
  cases ops with
  | nil => exact h
  | cons op ops => exact h.1

theorem Along.imp {P' : σ → Prop} (h : Along step P s ops) (himp : ∀ s, P s → P' s) :
    Along step P' s ops := by
  induction ops generalizing s with
  | nil => exact himp s h
  | cons op ops ih =>
    refine ⟨himp s h.1, ?_⟩
    have hrest := h.2
    cases hop : step s op with
    | none => trivial
    | some s' =>
      rw [hop] at hrest
      exact ih hrest

/-- An invariant of the steps is an invariant of the runs. -/
theorem runFrom_induction (hstep : ∀ s op s', I s → step s op = some s' → I s') (hs : I s)
    (h : runFrom step s ops = some t) : I t := by
  induction ops generalizing s with
  | nil => cases h; exact hs
  | cons op ops ih =>
    obtain ⟨s', h₁, h₂⟩ := runFrom_cons.mp h
    exact ih (hstep s op s' hs h₁) h₂

/-- Forward simulation: operations that meet `C` take related states to related states, and so do
runs of them. -/
theorem runFrom_simulation {τ : Type*} {astep : τ → ω → τ} {R : σ → τ → Prop} {C : ω → Prop} {a : τ}
    (hstep : ∀ s a op s', R s a → C op → step s op = some s' → R s' (astep a op)) (hs : R s a)
    (hops : ∀ op ∈ ops, C op) (h : runFrom step s ops = some t) : R t (ops.foldl astep a) := by
  induction ops generalizing s a with
  | nil => cases h; exact hs
  | cons op ops ih =>
    obtain ⟨s', h₁, h₂⟩ := runFrom_cons.mp h
    obtain ⟨hop, hops⟩ := List.forall_mem_cons.mp hops
    exact ih (hstep s a op s' hs hop h₁) hops h₂

/-- Forward simulation of the runs whose steps meet `Q`. -/
theorem runFrom_simulation_of {τ : Type*} {astep : τ → ω → τ} {R : σ → τ → Prop} {a : τ}
    (hstep : ∀ s a op s', R s a → Q s op → step s op = some s' → R s' (astep a op)) (hs : R s a)
    (hops : AllSteps step Q s ops) (h : runFrom step s ops = some t) : R t (ops.foldl astep a) := by
  induction ops generalizing s a with
  | nil => cases h; exact hs
  | cons op ops ih =>
    obtain ⟨s', h₁, h₂⟩ := runFrom_cons.mp h
    obtain ⟨hop, hops⟩ := hops.cons h₁
    exact ih (hstep s a op s' hs hop h₁) hops h₂

/-- A property kept by the steps that meet `Q` holds along the runs of such steps. -/
theorem Along.of_allSteps (hstep : ∀ s op s', P s → Q s op → step s op = some s' → P s')
    (hs : P s) (h : AllSteps step Q s ops) : Along step P s ops := by
  induction ops generalizing s with
  | nil => exact hs
  | cons op ops ih =>
    refine ⟨hs, ?_⟩
    cases hop : step s op with
    | none => trivial
    | some s' =>
      obtain ⟨hq, hrest⟩ := h.cons hop
      exact ih (hstep s op s' hs hq hop) hrest

/-- In a run of steps that meet `R`, a property that such a step keeps exactly if it meets `Q` holds
in every state exactly if it holds at the start and all steps meet `Q`. The step lemma may use what
the steps that keep the property keep. -/
theorem along_iff_allSteps_of {R : σ → ω → Prop}
    (hinv : ∀ s op s', I s → P s → R s op → step s op = some s' → P s' → I s')
    (hstep : ∀ s op s', I s → P s → R s op → step s op = some s' → (P s' ↔ Q s op)) (hs : I s)
    (hR : AllSteps step R s ops) : Along step P s ops ↔ P s ∧ AllSteps step Q s ops := by
  induction ops generalizing s with
  | nil => exact ⟨fun h => ⟨h, trivial⟩, fun h => h.1⟩
  | cons op ops ih =>
    simp only [Along, AllSteps] at hR ⊢
    cases hop : step s op with
    | none => simp
    | some s' =>
      rw [hop] at hR
      obtain ⟨hr, hR⟩ := hR
      constructor
      · intro ⟨hp, hrest⟩
        have hp' := hrest.head
        exact ⟨hp, (hstep s op s' hs hp hr hop).mp hp',
          ((ih (hinv s op s' hs hp hr hop hp') hR).mp hrest).2⟩
      · intro ⟨hp, hq, hrest⟩
        have hp' := (hstep s op s' hs hp hr hop).mpr hq
        exact ⟨hp, (ih (hinv s op s' hs hp hr hop hp') hR).mpr ⟨hp', hrest⟩⟩

/-- The same for all runs. -/
theorem along_iff_allSteps
    (hinv : ∀ s op s', I s → P s → step s op = some s' → P s' → I s')
    (hstep : ∀ s op s', I s → P s → step s op = some s' → (P s' ↔ Q s op)) (hs : I s) :
    Along step P s ops ↔ P s ∧ AllSteps step Q s ops :=
  along_iff_allSteps_of (fun s op s' hs hp _ => hinv s op s' hs hp)
    (fun s op s' hs hp _ => hstep s op s' hs hp) hs
    (AllSteps.of_forall fun _ _ _ => trivial)

/-- What holds along every run holds in the state a run ends in. -/
theorem Along.last (h : Along step P s ops) (hr : runFrom step s ops = some t) : P t := by
  induction ops generalizing s with
  | nil => cases hr; exact h
  | cons op ops ih =>
    obtain ⟨s', h₁, h₂⟩ := runFrom_cons.mp hr
    have h' := h.2
    rw [h₁] at h'
    exact ih h' h₂

/-- The state after a run that is enabled. -/
theorem runFrom_getD (h : (runFrom step s ops).isSome) :
    runFrom step s ops = some ((runFrom step s ops).getD s) := by
  obtain ⟨t, ht⟩ := Option.isSome_iff_exists.mp h
  rw [ht]
  rfl

end Plos
