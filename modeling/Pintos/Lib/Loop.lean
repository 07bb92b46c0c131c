import Pintos.Lib.Prog

/-!
# Loops

A loop runs its body until it gives a result. The number of rounds it may take is a parameter; a
loop whose measure goes down needs one more than the measure.
-/

namespace Pintos.Prog

variable {σ α β : Type} {body : α → Prog σ (α ⊕ β)} {I : Nat → α → σ → Prop} {Q : β → σ → Prop}

def loop (body : α → Prog σ (α ⊕ β)) : Nat → α → Prog σ β
  | 0, _ => throw "out of rounds"
  | rounds + 1, a => do
    match ← body a with
    | .inl a => loop body rounds a
    | .inr b => pure b

theorem Wp.loop (step : ∀ n a s, I n a s → Wp (body a) (fun r s' => match r with
      | .inl a' => ∃ m < n, I m a' s'
      | .inr b => Q b s') s)
    {rounds n : Nat} {a : α} {s : σ} (start : I n a s) (he : n < rounds) :
    Wp (Prog.loop body rounds a) Q s := by
  induction rounds generalizing n a s with
  | zero => omega
  | succ rounds ih =>
    refine .bind ((step n a s start).mono fun r s' res => ?_)
    cases r with
    | inl a' =>
      obtain ⟨m, lt, next⟩ := res
      exact ih next (by omega)
    | inr b => exact .pure res

/-- Runs the body on 0, 1, … up to the bound. -/
def upto (body : Nat → α → Prog σ α) : Nat → α → Prog σ α
  | 0, a => pure a
  | n + 1, a => do
    let a ← upto body n a
    body n a

theorem Runs.upto {ok : Prop} {I : Nat → α → σ → Prop} {body : Nat → α → Prog σ α} {n : Nat} {a : α}
    {s : σ} (start : I 0 a s) (step : ∀ i < n, ∀ a s, I i a s → Runs ok (body i a) (I (i + 1)) s) :
    Runs ok (Prog.upto body n a) (I n) s := by
  induction n with
  | zero => exact .pure start
  | succ n ih =>
    apply Runs.bind
    apply (ih fun i lt => step i (by omega)).mono
    exact step n (by omega)

theorem Wp.upto {I : Nat → α → σ → Prop} {body : Nat → α → Prog σ α} {n : Nat} {a : α} {s : σ}
    (start : I 0 a s) (step : ∀ i < n, ∀ a s, I i a s → Wp (body i a) (I (i + 1)) s) :
    Wp (Prog.upto body n a) (I n) s :=
  (Runs.upto start fun i lt a s now => (step i lt a s now).runs).wp trivial

end Pintos.Prog
