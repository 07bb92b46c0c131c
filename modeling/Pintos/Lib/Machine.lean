import Mathlib.Data.List.Basic

/-!
# Runs of a machine

A machine is a partial step function: `step s e` is the state after event `e`,
or nothing when `e` cannot happen in `s`. A run may be held to a condition on
the state each event starts from. Histories have the newest event first.
-/

namespace Pintos.Machine

variable {σ ε : Type*} {step : σ → ε → Option σ} {ok ok' : σ → ε → Prop} {s t : σ}
  {history : List ε}

inductive Run (step : σ → ε → Option σ) (ok : σ → ε → Prop) (s : σ) : List ε → σ → Prop where
  | start : Run step ok s [] s
  | next {history : List ε} {t u : σ} (e : ε) : Run step ok s history t → ok t e →
      step t e = some u → Run step ok s (e :: history) u

/-- Every event may happen whenever the machine has a step for it. -/
abbrev Free : σ → ε → Prop := fun _ _ => True

theorem Run.invariant {I : σ → Prop} (run : Run step ok s history t)
    (start : I s) (preserved : ∀ a e b, I a → ok a e → step a e = some b → I b) : I t := by
  induction run with
  | start => exact start
  | next e _ allowed ran ih => exact preserved _ e _ ih allowed ran

theorem Run.append {u : σ} {first second : List ε} (was : Run step ok s first t)
    (after : Run step ok t second u) : Run step ok s (second ++ first) u := by
  induction after with
  | start => exact was
  | next e _ allowed ran ih => exact .next e ih allowed ran

/-- Feed a list of events, oldest first. -/
def runs (step : σ → ε → Option σ) (ok : σ → ε → Prop) [∀ s, DecidablePred (ok s)] :
    σ → List ε → Option σ
  | s, [] => some s
  | s, e :: es => if ok s e then (step s e).bind fun t => runs step ok t es else none

theorem runs_run [∀ s, DecidablePred (ok s)] {es : List ε} : ∀ {s t : σ},
    runs step ok s es = some t → Run step ok s es.reverse t := by
  induction es with
  | nil =>
    intro s t h
    cases h
    exact .start
  | cons e es ih =>
    intro s t h
    unfold runs at h
    split_ifs at h with allowed
    obtain ⟨next, first, rest⟩ := Option.bind_eq_some_iff.mp h
    have one : Run step ok s [e] next := .next e .start allowed first
    simpa using one.append (ih rest)

/-- The state after a history, if every event of it could happen. -/
def replay (step : σ → ε → Option σ) (s : σ) : List ε → Option σ
  | [] => some s
  | e :: history => (replay step s history).bind fun t => step t e

theorem Run.replay_eq (run : Run step ok s history t) : replay step s history = some t := by
  induction run with
  | start => rfl
  | next e _ _ ran ih => simp [replay, ih, ran]

/-- What an observer writes down along a history, newest first. -/
def log {α : Type*} (step : σ → ε → Option σ) (observe : σ → ε → List α) (s : σ) :
    List ε → List α
  | [] => []
  | e :: history =>
    ((replay step s history).elim [] fun t => observe t e) ++ log step observe s history

theorem Run.log_invariant {α : Type*} {observe : σ → ε → List α} {I : List α → σ → Prop}
    (run : Run step ok s history t) (start : I [] s)
    (preserved : ∀ seen a e b, I seen a → ok a e → step a e = some b → I (observe a e ++ seen) b) :
    I (log step observe s history) t := by
  induction run with
  | start => exact start
  | next e was allowed ran ih =>
    have := preserved _ _ e _ ih allowed ran
    simpa [log, was.replay_eq] using this

end Pintos.Machine
