/-!
# Runs of a state machine

A machine is a step function; `run` takes it through a list of events, and
`Along` says that a condition on the state before a step and on its event
holds of every step of the run. A property that every such step keeps holds
where the run ends (`Along.inv`), and a relation to an abstract machine that
every such step keeps relates the two runs (`Along.sim`).
-/

namespace Nonos

variable {σ τ ε : Type}

/-- The state after the events `es`. -/
def run (step : σ → ε → σ) (s : σ) (es : List ε) : σ := es.foldl step s

@[simp] theorem run_nil (step : σ → ε → σ) (s : σ) : run step s [] = s := rfl

@[simp] theorem run_cons (step : σ → ε → σ) (s : σ) (e : ε) (es : List ε) :
    run step s (e :: es) = run step (step s e) es := rfl

theorem run_append (step : σ → ε → σ) (s : σ) (es es' : List ε) :
    run step s (es ++ es') = run step (run step s es) es' := List.foldl_append

/-- `P` holds at every step of the run: of the state before it and its event. -/
def Along (step : σ → ε → σ) (P : σ → ε → Prop) : σ → List ε → Prop
  | _, [] => True
  | s, e :: es => P s e ∧ Along step P (step s e) es

instance Along.decidable {step : σ → ε → σ} {P : σ → ε → Prop} [∀ s e, Decidable (P s e)] :
    ∀ (s : σ) (es : List ε), Decidable (Along step P s es)
  | _, [] => isTrue trivial
  | s, e :: es => @instDecidableAnd _ _ _ (Along.decidable (step s e) es)

theorem Along.append {step : σ → ε → σ} {P : σ → ε → Prop} {es es' : List ε} {s : σ}
    (ha : Along step P s es) (hb : Along step P (run step s es) es') : Along step P s (es ++ es') := by
  induction es generalizing s with
  | nil => exact hb
  | cons e es ih => exact ⟨ha.1, ih ha.2 hb⟩

theorem Along.last {step : σ → ε → σ} {P : σ → ε → Prop} {es : List ε} {e : ε} {s : σ}
    (h : Along step P s (es ++ [e])) : P (run step s es) e := by
  induction es generalizing s with
  | nil => exact h.1
  | cons e' es ih => exact ih h.2

/-- A condition on the events alone. -/
theorem Along.of_mem {step : σ → ε → σ} {P : σ → ε → Prop} {es : List ε} (h : ∀ e ∈ es, ∀ s, P s e)
    (s : σ) : Along step P s es := by
  induction es generalizing s with
  | nil => trivial
  | cons e es ih => exact ⟨h e (by simp) s, ih (fun e' he => h e' (by simp [he])) _⟩

/-- A condition on the run and one on its events. -/
theorem Along.and_mem {step : σ → ε → σ} {P : σ → ε → Prop} {Q : ε → Prop} {es : List ε} {s : σ}
    (ha : Along step P s es) (hq : ∀ e ∈ es, Q e) : Along step (fun s e => P s e ∧ Q e) s es := by
  induction es generalizing s with
  | nil => trivial
  | cons e es ih =>
    exact ⟨⟨ha.1, hq e (by simp)⟩, ih ha.2 fun e' h' => hq e' (by simp [h'])⟩

theorem Along.and {step : σ → ε → σ} {P Q : σ → ε → Prop} {es : List ε} {s : σ}
    (hp : Along step P s es) (hq : Along step Q s es) : Along step (fun s e => P s e ∧ Q s e) s es := by
  induction es generalizing s with
  | nil => trivial
  | cons e es ih => exact ⟨⟨hp.1, hq.1⟩, ih hp.2 hq.2⟩

/-- What a step always keeps holds after any run. -/
theorem run_inv {step : σ → ε → σ} {I : σ → Prop} (hstep : ∀ s e, I s → I (step s e)) {s : σ}
    (hi : I s) (es : List ε) : I (run step s es) := by
  induction es generalizing s with
  | nil => exact hi
  | cons e es ih => exact ih (hstep s e hi)

/-- What every step keeps holds at the end. -/
theorem Along.inv {step : σ → ε → σ} {P : σ → ε → Prop} {I : σ → Prop}
    (hstep : ∀ s e, I s → P s e → I (step s e)) {es : List ε} {s : σ} (hi : I s)
    (ha : Along step P s es) : I (run step s es) := by
  induction es generalizing s with
  | nil => exact hi
  | cons e es ih => exact ih (hstep s e hi ha.1) ha.2

/-- How many steps of the run meet `P`. -/
def count (step : σ → ε → σ) (P : σ → ε → Prop) [∀ s e, Decidable (P s e)] : σ → List ε → Nat
  | _, [] => 0
  | s, e :: es => (if P s e then 1 else 0) + count step P (step s e) es

/-- Steps that a measure pays for. -/
theorem count_add_le {step : σ → ε → σ} {P Q : σ → ε → Prop} [∀ s e, Decidable (P s e)] {I : σ → Prop}
    {μ : σ → Nat} (hstep : ∀ s e, I s → Q s e → I (step s e))
    (hμ : ∀ s e, I s → Q s e → (if P s e then 1 else 0) + μ (step s e) ≤ μ s) {es : List ε} {s : σ}
    (hi : I s) (ha : Along step Q s es) : count step P s es + μ (run step s es) ≤ μ s := by
  induction es generalizing s with
  | nil => exact Nat.le_of_eq (Nat.zero_add _)
  | cons e es ih =>
    have h1 := hμ s e hi ha.1
    have h2 := ih (hstep s e hi ha.1) ha.2
    simp only [count, run_cons]
    omega

/-- Two conditions that agree wherever an invariant holds, which steps that meet them
keep, agree along a run. -/
theorem Along.congr_of_keeps {step : σ → ε → σ} {P Q : σ → ε → Prop} {I : σ → Prop}
    (hstep : ∀ s e, I s → Q s e → I (step s e)) (hpq : ∀ s e, I s → (P s e ↔ Q s e)) {s : σ} (hi : I s)
    (es : List ε) : Along step P s es ↔ Along step Q s es := by
  induction es generalizing s with
  | nil => exact Iff.rfl
  | cons e es ih =>
    rw [Along, Along, hpq s e hi]
    exact and_congr_right fun hq => ih (hstep s e hi hq)

/-- Two conditions that agree wherever an invariant holds agree along a run. -/
theorem Along.congr {step : σ → ε → σ} {P Q : σ → ε → Prop} {I : σ → Prop}
    (hstep : ∀ s e, I s → I (step s e)) (hpq : ∀ s e, I s → (P s e ↔ Q s e)) {s : σ} (hi : I s)
    (es : List ε) : Along step P s es ↔ Along step Q s es :=
  Along.congr_of_keeps (fun s e h _ => hstep s e h) hpq hi es

/-- A relation that every step keeps relates the ends of two runs. -/
theorem Along.sim {step : σ → ε → σ} {step' : τ → ε → τ} {P : σ → ε → Prop} {R : σ → τ → Prop}
    (hstep : ∀ s t e, R s t → P s e → R (step s e) (step' t e)) {es : List ε} {s : σ} {t : τ}
    (hr : R s t) (ha : Along step P s es) : R (run step s es) (run step' t es) := by
  induction es generalizing s t with
  | nil => exact hr
  | cons e es ih => exact ih (hstep s t e hr ha.1) ha.2

end Nonos
