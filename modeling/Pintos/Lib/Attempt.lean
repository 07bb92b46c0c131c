import Pintos.Lib.Prog

/-!
# Programs that stop in the middle

An attempt changes a state and returns a value, or stops for some reason; the state it has then
is not lost. `Ends m Q E s` says that `m`, run from `s`, returns with `Q` or stops with `E`.
-/

namespace Pintos

abbrev Attempt (ε σ α : Type) := ExceptT ε (StateM σ) α

namespace Attempt

variable {ε σ α β : Type} {m : Attempt ε σ α} {f : α → Attempt ε σ β} {P Q : α → σ → Prop}
  {R : β → σ → Prop} {E F : ε → σ → Prop} {s s' : σ} {a : α} {e : ε}

def outcome (m : Attempt ε σ α) (s : σ) : Except ε α × σ := Id.run (StateT.run (ExceptT.run m) s)

def Ends (m : Attempt ε σ α) (Q : α → σ → Prop) (E : ε → σ → Prop) (s : σ) : Prop :=
  match outcome m s with
  | (.ok a, s') => Q a s'
  | (.error e, s') => E e s'

/-- A program that keeps its state only when it returns. -/
def lift {τ : Type} (part : σ → τ) (update : τ → σ → σ) (reason : String → ε) (m : Prog τ α) :
    Attempt ε σ α := fun s =>
  match m (part s) with
  | .ok (a, t) => (.ok a, update t s)
  | .error text => (.error (reason text), s)

/-- An outcome, from the value that was seen. -/
theorem returned_of_toOption {r : Except ε α × σ} (h : r.1.toOption = some a) :
    r = (.ok a, r.2) := by
  have first : r.1 = .ok a := Prog.ok_of_toOption h
  rw [← first]

theorem outcome_bind : outcome (m >>= f) s = match outcome m s with
    | (.ok a, s') => outcome (f a) s'
    | (.error e, s') => (.error e, s') := by
  show Id.run (StateT.run (ExceptT.run (m >>= f)) s) = _
  simp only [ExceptT.run_bind, StateT.run_bind, Id.run_bind]
  unfold outcome
  generalize Id.run (StateT.run (ExceptT.run m) s) = r
  obtain ⟨r, t⟩ := r
  cases r <;> rfl

@[simp] theorem ends_pure : Ends (pure a) Q E s ↔ Q a s := Iff.rfl

@[simp] theorem ends_get {Q : σ → σ → Prop} : Ends (get : Attempt ε σ σ) Q E s ↔ Q s s := Iff.rfl

@[simp] theorem ends_set {Q : PUnit → σ → Prop} {t : σ} :
    Ends (set t : Attempt ε σ PUnit) Q E s ↔ Q ⟨⟩ t := Iff.rfl

@[simp] theorem ends_modify {Q : PUnit → σ → Prop} {g : σ → σ} :
    Ends (modify g : Attempt ε σ PUnit) Q E s ↔ Q ⟨⟩ (g s) := Iff.rfl

@[simp] theorem ends_throw : Ends (throw e : Attempt ε σ α) Q E s ↔ E e s := Iff.rfl

@[simp] theorem ends_bind : Ends (m >>= f) R E s ↔ Ends m (fun a s' => Ends (f a) R E s') E s := by
  unfold Ends
  rw [outcome_bind]
  generalize outcome m s = r
  obtain ⟨r, t⟩ := r
  cases r <;> rfl

theorem ends_lift {τ : Type} {part : σ → τ} {update : τ → σ → σ} {reason : String → ε}
    {m : Prog τ α} :
    Ends (lift part update reason m) Q E s ↔
      match m (part s) with
      | .ok (a, t) => Q a (update t s)
      | .error text => E (reason text) s := by
  have runs : outcome (lift part update reason m) s = match m (part s) with
      | .ok (a, t) => (.ok a, update t s)
      | .error text => (.error (reason text), s) := rfl
  unfold Ends
  rw [runs]
  cases m (part s) <;> rfl

theorem Ends.mono (h : Ends m P F s) (returns : ∀ a s', P a s' → Q a s')
    (stops : ∀ e s', F e s' → E e s') : Ends m Q E s := by
  unfold Ends at h ⊢
  split at h
  · exact returns _ _ h
  · exact stops _ _ h

theorem Ends.result (h : Ends m Q E s) (ran : outcome m s = (.ok a, s')) : Q a s' := by
  unfold Ends at h
  rwa [ran] at h

theorem Ends.stopped (h : Ends m Q E s) (ran : outcome m s = (.error e, s')) : E e s' := by
  unfold Ends at h
  rwa [ran] at h

end Attempt

end Pintos
