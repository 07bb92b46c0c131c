import Mathlib.Logic.Function.Basic

/-!
# Programs that may panic

A program changes a state and returns a value, or stops with a message. `Wp m Q s`
says that `m`, run from `s`, does not stop and that its result and the state it
leaves satisfy `Q`.
-/

namespace Pintos

abbrev Prog (σ α : Type) := StateT σ (Except String) α

namespace Prog

variable {σ α β : Type} {m : Prog σ α} {f : α → Prog σ β} {P Q : α → σ → Prop} {R : β → σ → Prop}
  {s s' t : σ} {a : α} {c : Prop} {text : String}

/-- `ASSERT`, with the text of its condition. -/
def assert (c : Prop) [Decidable c] (text : String) : Prog σ Unit :=
  if c then pure () else throw text

def Wp (m : Prog σ α) (Q : α → σ → Prop) (s : σ) : Prop :=
  ∃ a s', m s = .ok (a, s') ∧ Q a s'

/-- `m` stops only where `ok` does not hold, and otherwise `Q` holds of its result. -/
def Runs (ok : Prop) (m : Prog σ α) (Q : α → σ → Prop) (s : σ) : Prop :=
  match m s with
  | .ok (a, s') => Q a s'
  | .error _ => ¬ ok

/-- A program has one run. -/
theorem Wp.result (h : Wp m Q s) (run : m s = .ok (a, s')) : Q a s' := by
  obtain ⟨b, t, run', post⟩ := h
  rw [run] at run'
  cases run'
  exact post

theorem Wp.mono (h : Wp m P s) (weaker : ∀ a s', P a s' → Q a s') : Wp m Q s := by
  obtain ⟨a, s', run, post⟩ := h
  exact ⟨a, s', run, weaker a s' post⟩

theorem ok_of_toOption {ε : Type} {r : Except ε α} (h : r.toOption = some a) : r = .ok a := by
  cases r with
  | error e => cases h
  | ok b => cases h; rfl

/-- The run itself may be used after it. -/
theorem Wp.traced (h : Wp m Q s) : Wp m (fun a s' => m s = .ok (a, s') ∧ Q a s') s := by
  obtain ⟨a, s', run, post⟩ := h
  exact ⟨a, s', run, run, post⟩

theorem Wp.pure (h : Q a s) : Wp (Pure.pure a : Prog σ α) Q s := ⟨a, s, rfl, h⟩

theorem Wp.get {Q : σ → σ → Prop} (h : Q s s) : Wp (MonadState.get : Prog σ σ) Q s := ⟨s, s, rfl, h⟩

theorem Wp.set {Q : PUnit → σ → Prop} (h : Q ⟨⟩ t) : Wp (MonadStateOf.set t : Prog σ PUnit) Q s :=
  ⟨⟨⟩, t, rfl, h⟩

theorem bind_ok (run : m s = .ok (a, s')) : (m >>= f) s = f a s' := by
  show (StateT.bind m f) s = f a s'
  unfold StateT.bind
  rw [run]
  rfl

theorem Wp.bind (h : Wp m (fun a s' => Wp (f a) R s') s) : Wp (m >>= f) R s := by
  obtain ⟨a, s', run, b, t, run', post⟩ := h
  exact ⟨b, t, by rw [bind_ok run, run'], post⟩

theorem Wp.assert [Decidable c] {Q : Unit → σ → Prop} (holds : c)
    (h : Q () s) : Wp (Prog.assert c text) Q s := by
  unfold Prog.assert
  rw [if_pos holds]
  exact .pure h

/-! ### Execution by rewriting -/

@[simp] theorem wp_pure : Wp (Pure.pure a : Prog σ α) Q s ↔ Q a s :=
  ⟨fun h => h.result rfl, .pure⟩

@[simp] theorem wp_get {Q : σ → σ → Prop} : Wp (MonadState.get : Prog σ σ) Q s ↔ Q s s :=
  ⟨fun h => h.result rfl, .get⟩

@[simp] theorem wp_set {Q : PUnit → σ → Prop} :
    Wp (MonadStateOf.set t : Prog σ PUnit) Q s ↔ Q ⟨⟩ t :=
  ⟨fun h => h.result rfl, .set⟩

@[simp] theorem wp_bind : Wp (m >>= f) R s ↔ Wp m (fun a s' => Wp (f a) R s') s := by
  refine ⟨?_, .bind⟩
  rintro ⟨b, t, run, post⟩
  cases first : m s with
  | error e =>
    have stops : (m >>= f) s = .error e := by
      show (StateT.bind m f) s = .error e
      simp [StateT.bind, first, Bind.bind, Except.bind]
    rw [stops] at run
    cases run
  | ok r =>
    obtain ⟨a, s'⟩ := r
    rw [bind_ok first] at run
    exact ⟨a, s', first, b, t, run, post⟩

@[simp] theorem wp_map {g : α → β} : Wp (g <$> m) R s ↔ Wp m (fun a s' => R (g a) s') s := by
  rw [← bind_pure_comp, wp_bind]
  simp only [wp_pure]

@[simp] theorem wp_assert [Decidable c] {Q : Unit → σ → Prop} :
    Wp (Prog.assert c text) Q s ↔ c ∧ Q () s := by
  refine ⟨fun ⟨a, s', run, post⟩ => ?_, fun ⟨holds, post⟩ => .assert holds post⟩
  by_cases holds : c
  · rw [Prog.assert, if_pos holds] at run
    cases run
    exact ⟨holds, post⟩
  · rw [Prog.assert, if_neg holds] at run
    cases run

@[simp] theorem wp_lift {x : Except String α} :
    Wp (liftM x : Prog σ α) Q s ↔ ∃ a, x = .ok a ∧ Q a s := by
  cases x with
  | error e =>
    constructor
    · rintro ⟨a, s', run, _⟩
      cases run
    · rintro ⟨a, run, _⟩
      cases run
  | ok a =>
    exact ⟨fun h => ⟨a, rfl, h.result rfl⟩, fun ⟨b, eq, post⟩ => by cases eq; exact .pure post⟩

/-! ### Programs that may stop -/

section
variable {ok : Prop}

theorem Wp.runs (h : Wp m Q s) : Runs ok m Q s := by
  obtain ⟨a, s', run, post⟩ := h
  unfold Runs
  rw [run]
  exact post

theorem Runs.wp (h : Runs ok m Q s) (holds : ok) : Wp m Q s := by
  unfold Runs at h
  split at h
  · rename_i a s' run
    exact ⟨a, s', run, h⟩
  · exact absurd holds h

theorem Runs.result (h : Runs ok m Q s) (run : m s = .ok (a, s')) : Q a s' := by
  unfold Runs at h
  rwa [run] at h

theorem Runs.mono (h : Runs ok m P s) (weaker : ∀ a s', P a s' → Q a s') : Runs ok m Q s := by
  unfold Runs at h ⊢
  split at h
  · exact weaker _ _ h
  · exact h

theorem Runs.weaken {ok' : Prop} (h : Runs ok m Q s) (he : ok' → ok) : Runs ok' m Q s := by
  unfold Runs at h ⊢
  split at h
  · exact h
  · exact fun holds => h (he holds)

theorem Runs.bind (h : Runs ok m (fun a s' => Runs ok (f a) R s') s) : Runs ok (m >>= f) R s := by
  unfold Runs at h
  cases first : m s with
  | error e =>
    have stops : (m >>= f) s = .error e := by
      show (StateT.bind m f) s = .error e
      simp [StateT.bind, first, Bind.bind, Except.bind]
    rw [first] at h
    unfold Runs
    rw [stops]
    exact h
  | ok r =>
    obtain ⟨a, s'⟩ := r
    rw [first] at h
    unfold Runs
    rw [bind_ok first]
    exact h

theorem Runs.pure (h : Q a s) : Runs ok (Pure.pure a : Prog σ α) Q s := h

theorem Runs.get {Q : σ → σ → Prop} (h : Q s s) : Runs ok (MonadState.get : Prog σ σ) Q s := h

theorem Runs.set {Q : PUnit → σ → Prop} (h : Q ⟨⟩ t) :
    Runs ok (MonadStateOf.set t : Prog σ PUnit) Q s := h

theorem Runs.assert [Decidable c] {Q : Unit → σ → Prop} (holds : ok → c)
    (h : c → Q () s) : Runs ok (Prog.assert c text) Q s := by
  by_cases true : c
  · rw [Prog.assert, if_pos true]
    exact h true
  · rw [Prog.assert, if_neg true]
    exact fun may => true (holds may)

/-- Where nothing is said about stopping, every result has to be considered. -/
theorem Runs.any (fails : ¬ ok) (h : ∀ a s', Q a s') : Runs ok m Q s := by
  unfold Runs
  split
  · exact h _ _
  · exact fails

theorem Runs.throw (fails : ¬ ok) : Runs ok (MonadExcept.throw text : Prog σ α) Q s :=
  fails

end

/-! ### Parts of a state -/

section
variable {τ : Type} {part : σ → τ} {update : τ → σ → σ} {m : Prog τ α}

/-- A program on a part of the state. -/
def zoom (part : σ → τ) (update : τ → σ → σ) (m : Prog τ α) : Prog σ α := fun s =>
  match m (part s) with
  | .ok (a, t) => .ok (a, update t s)
  | .error e => .error e

@[simp] theorem wp_zoom :
    Wp (zoom part update m) Q s ↔ Wp m (fun a t => Q a (update t s)) (part s) := by
  constructor
  · rintro ⟨a, s', run, post⟩
    unfold zoom at run
    split at run
    · rename_i a t ran
      cases run
      exact ⟨a, t, ran, post⟩
    · cases run
  · rintro ⟨a, t, run, post⟩
    refine ⟨a, update t s, ?_, post⟩
    unfold zoom
    rw [run]

end

end Prog

end Pintos
