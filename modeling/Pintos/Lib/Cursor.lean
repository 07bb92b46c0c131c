import Mathlib.Data.List.Nodup

/-!
# Walking a list by its elements

A walk is at an element of a list, or at its end, and goes from an element to the
one behind it while the list may grow or shrink at its end.
-/

namespace Pintos.Cursor

open List

variable {α : Type*} [DecidableEq α] {l l' : List α} {e x : α} {place : Option α}

/-- The part of the list that a walk has before it. -/
def rest (l : List α) : Option α → List α
  | none => []
  | some e => l.dropWhile (· ≠ e)

theorem rest_cons_self : rest (e :: l) (some e) = e :: l := by simp [rest]

theorem rest_cons_ne (ne : x ≠ e) : rest (x :: l) (some e) = rest l (some e) := by
  simp [rest, ne]

@[simp] theorem rest_head : rest l l.head? = l := by
  cases l with
  | nil => rfl
  | cons a l => exact rest_cons_self

theorem rest_sublist : (rest l place).Sublist l := by
  cases place with
  | none => exact nil_sublist l
  | some e => exact dropWhile_sublist _

/-- An element that is still to come shows that the walk has not left the list. -/
theorem mem_of_mem_rest (h : x ∈ rest l (some e)) : e ∈ l := by
  induction l with
  | nil => simp [rest] at h
  | cons a l ih =>
    by_cases eq : a = e
    · exact eq ▸ (.head _)
    · rw [rest_cons_ne eq] at h
      exact mem_cons_of_mem a (ih h)

theorem rest_eq_cons (h : e ∈ l) : rest l (some e) = e :: (rest l (some e)).tail := by
  induction l with
  | nil => cases h
  | cons a l ih =>
    by_cases eq : a = e
    · subst eq
      rw [rest_cons_self]
      rfl
    · rw [rest_cons_ne eq]
      exact ih ((mem_cons.mp h).resolve_left (Ne.symm eq))

/-- One turn of a walk over distinct elements. -/
theorem rest_next (nodup : l.Nodup) : rest l (rest l (some e)).tail.head? =
    (rest l (some e)).tail := by
  induction l with
  | nil => rfl
  | cons a l ih =>
    obtain ⟨hf, nodup'⟩ := nodup_cons.mp nodup
    by_cases eq : a = e
    · subst eq
      rw [rest_cons_self, tail_cons]
      cases l with
      | nil => rfl
      | cons b l =>
        have ne : a ≠ b := fun same => hf (same ▸ (.head _))
        rw [head?_cons, rest_cons_ne ne, rest_cons_self]
    · rw [rest_cons_ne eq]
      have ahead := ih nodup'
      cases next : (rest l (some e)).tail.head? with
      | none =>
        rw [next] at ahead
        exact ahead
      | some b =>
        have hi : b ∈ l :=
          rest_sublist.subset (mem_of_mem_tail (mem_of_mem_head? next))
        have ne : a ≠ b := fun same => hf (same ▸ hi)
        rw [rest_cons_ne ne, ← next]
        exact ahead

theorem mem_rest_append (h : x ∈ rest l place) : x ∈ rest (l ++ l') place := by
  cases place with
  | none => cases h
  | some e =>
    induction l with
    | nil => simp [rest] at h
    | cons a l ih =>
      by_cases eq : a = e
      · subst eq
        rw [rest_cons_self] at h
        rw [cons_append, rest_cons_self]
        exact mem_append_left l' h
      · rw [rest_cons_ne eq] at h
        rw [cons_append, rest_cons_ne eq]
        exact ih h

/-- Taking away the element a walk is at, before it goes on, hides no other one. -/
theorem mem_rest_erase (nodup : l.Nodup) (h : x ∈ rest l (some e)) (other : x ≠ e) :
    x ∈ rest (l.erase e) (rest l (some e)).tail.head? := by
  induction l with
  | nil => simp [rest] at h
  | cons a l ih =>
    obtain ⟨hf, nodup'⟩ := nodup_cons.mp nodup
    by_cases eq : a = e
    · subst eq
      rw [rest_cons_self] at h ⊢
      simpa [other] using h
    · rw [rest_cons_ne eq] at h ⊢
      rw [erase_cons_tail (by simpa using eq)]
      cases next : (rest l (some e)).tail.head? with
      | none =>
        have found := ih nodup' h
        rw [next] at found
        cases found
      | some b =>
        have hi : b ∈ l :=
          rest_sublist.subset (mem_of_mem_tail (mem_of_mem_head? next))
        have ne : a ≠ b := fun same => hf (same ▸ hi)
        rw [rest_cons_ne ne, ← next]
        exact ih nodup' h

/-- What is put at the end is still to come in every walk that is in the list. -/
theorem mem_rest_of_last (h : e ∈ l) : x ∈ rest (l ++ [x]) (some e) := by
  induction l with
  | nil => cases h
  | cons a l ih =>
    by_cases eq : a = e
    · subst eq
      rw [cons_append, rest_cons_self]
      simp
    · rw [cons_append, rest_cons_ne eq]
      exact ih ((mem_cons.mp h).resolve_left (Ne.symm eq))

/-- Taking the last element away hides no other one. -/
theorem mem_rest_init (h : x ∈ rest (l ++ [e]) place) (ne : x ≠ e) : x ∈ rest l place := by
  cases place with
  | none => cases h
  | some e' =>
    induction l with
    | nil =>
      have hi := rest_sublist.subset h
      simp only [nil_append, mem_singleton] at hi
      exact absurd hi ne
    | cons a l ih =>
      by_cases eq : a = e'
      · subst eq
        rw [cons_append, rest_cons_self] at h
        rw [rest_cons_self]
        simpa [ne] using h
      · rw [cons_append, rest_cons_ne eq] at h
        rw [rest_cons_ne eq]
        exact ih h

end Pintos.Cursor
