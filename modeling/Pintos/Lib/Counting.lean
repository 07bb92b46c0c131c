import Mathlib.Data.Finset.Card

/-!
# Counting semaphores

A semaphore seen from outside: its value, the threads that sleep on it, and those
that were woken and have not looked at the value again. A woken thread has no claim
on the unit it was woken for, another may take it first. The value is kept modulo
`size`.
-/

namespace Pintos.Counting

open List

structure View (τ : Type*) where
  value : Nat
  waiting : Finset τ
  woken : Finset τ

/-- What is counted; `init` starts the count again. -/
inductive Event where
  | init (value : Nat)
  | up
  | down
  deriving DecidableEq, Repr

structure Tally where
  start : Nat
  ups : Nat
  downs : Nat
  deriving DecidableEq, Repr

/-- The count after a list of events, newest first. -/
def tally (start : Nat) : List Event → Tally
  | [] => ⟨start, 0, 0⟩
  | .init value :: _ => ⟨value, 0, 0⟩
  | .up :: seen => { tally start seen with ups := (tally start seen).ups + 1 }
  | .down :: seen => { tally start seen with downs := (tally start seen).downs + 1 }

section
variable {τ : Type*} [DecidableEq τ]

/-- The moves of a semaphore. A thread sleeps only when it finds the value 0, and
`up` wakes a sleeper if there is one. -/
inductive Move (size : Nat) : View τ → List Event → View τ → Prop where
  | stay (v : View τ) : Move size v [] v
  | take (v : View τ) (t : τ) : 0 < v.value →
      Move size v [.down] { v with value := v.value - 1, woken := v.woken.erase t }
  | sleep (v : View τ) (t : τ) : v.value = 0 →
      Move size v [] { v with waiting := insert t v.waiting, woken := v.woken.erase t }
  | up (v : View τ) : v.waiting = ∅ →
      Move size v [.up] { v with value := (v.value + 1) % size }
  | wake (v : View τ) (t : τ) : t ∉ v.woken →
      Move size v [.up] ⟨(v.value + 1) % size, v.waiting.erase t, insert t v.woken⟩
  | init (v : View τ) (value : Nat) : value < size →
      Move size v [.init value] ⟨value, ∅, v.woken⟩

/-- The value is what was put in less what was taken out, and no thread sleeps over
a unit that no woken thread is on its way to. -/
structure Counted (size : Nat) (count : Tally) (v : View τ) : Prop where
  enough : count.downs ≤ count.start + count.ups
  value : v.value = (count.start + count.ups - count.downs) % size
  covered : v.waiting.Nonempty → v.value ≤ v.woken.card

theorem pred_mod {n size : Nat} (pos : 0 < n % size) : (n - 1) % size = n % size - 1 := by
  have split : n - 1 = size * (n / size) + (n % size - 1) := by
    have := Nat.div_add_mod n size
    omega
  by_cases none : size = 0
  · simp [none]
  · rw [split, Nat.mul_add_mod, Nat.mod_eq_of_lt]
    have := Nat.mod_lt n (Nat.pos_of_ne_zero none)
    omega

theorem Move.counted {size start : Nat} {v v' : View τ} {events seen : List Event}
    (move : Move size v events v') (was : Counted size (tally start seen) v) :
    Counted size (tally start (events ++ seen)) v' := by
  obtain ⟨he, value, covered⟩ := was
  cases move with
  | stay => exact ⟨he, value, covered⟩
  | take t unit =>
    have pos : 0 < ((tally start seen).start + (tally start seen).ups -
        (tally start seen).downs) % size := value ▸ unit
    have more : 0 < (tally start seen).start + (tally start seen).ups -
        (tally start seen).downs := Nat.pos_of_ne_zero fun none => by simp [none] at pos
    refine ⟨?_, ?_, fun some => ?_⟩
    · simp only [cons_append, nil_append, tally]
      omega
    · simp only [cons_append, nil_append, tally]
      rw [value, ← pred_mod pos, Nat.sub_add_eq]
    · -- Whoever took the unit, at most one woken thread has left.
      have erased := Finset.pred_card_le_card_erase (a := t) (s := v.woken)
      have := covered some
      simp only
      omega
  | sleep t empty =>
    exact ⟨he, value, fun _ => by simp [empty]⟩
  | up none =>
    refine ⟨?_, ?_, fun some => ?_⟩
    · simp only [cons_append, nil_append, tally]
      omega
    · simp only [cons_append, nil_append, tally]
      rw [value, Nat.mod_add_mod, ← Nat.sub_add_comm he, Nat.add_assoc]
    · simp [none] at some
  | wake t asleep =>
    refine ⟨?_, ?_, fun some => ?_⟩
    · simp only [cons_append, nil_append, tally]
      omega
    · simp only [cons_append, nil_append, tally]
      rw [value, Nat.mod_add_mod, ← Nat.sub_add_comm he, Nat.add_assoc]
    · have more : v.waiting.Nonempty := Finset.Nonempty.mono (Finset.erase_subset t v.waiting) some
      calc (v.value + 1) % size ≤ v.value + 1 := Nat.mod_le _ _
        _ ≤ v.woken.card + 1 := Nat.add_le_add_right (covered more) 1
        _ = (insert t v.woken).card := (Finset.card_insert_of_notMem asleep).symm
  | init value hs =>
    refine ⟨by simp [tally], ?_, by simp⟩
    simp [tally, Nat.mod_eq_of_lt hs]

end

end Pintos.Counting
