import Mathlib.Data.List.Sort

/-!
# Lists kept in order by a comparison function

A comparison `less` is a strict weak order: it may leave distinct elements
equivalent. `insertOrdered` puts an element before the first one it is less
than, so equivalent elements stay in order of arrival. `stableSort` is the
result that a stable sort for the same comparison has; how a sort reaches it is not
modelled.
-/

namespace Pintos.Ordered

open List

section
variable {α : Type*}

@[grind cases] structure StrictWeak (less : α → α → Prop) : Prop where
  asymm : ∀ a b, less a b → ¬ less b a
  between : ∀ a b c, less a c → less a b ∨ less b c

/-- No element is less than one that stands before it. -/
def Sorted (less : α → α → Prop) (l : List α) : Prop := l.Pairwise fun a b => ¬ less b a

def insertOrdered (less : α → α → Prop) [DecidableRel less] (x : α) (l : List α) : List α :=
  l.orderedInsert less x

def stableSort (less : α → α → Prop) [DecidableRel less] (l : List α) : List α :=
  l.insertionSort fun a b => ¬ less b a

variable {lt : α → α → Prop}

/-- Where no element passes a test behind one that fails it, dropping from the front while the
test passes drops all that pass it. -/
theorem dropWhile_eq_filter {test : α → Bool} {l : List α}
    (downward : l.Pairwise fun a b => test b → test a) :
    l.dropWhile test = l.filter fun a => !test a := by
  induction l with
  | nil => rfl
  | cons a l ih =>
    obtain ⟨first, rest⟩ := pairwise_cons.mp downward
    by_cases passes : test a
    · rw [dropWhile_cons_of_pos passes, filter_cons_of_neg (by simp [passes]), ih rest]
    · rw [dropWhile_cons_of_neg passes, filter_eq_self.mpr]
      intro b hb
      rcases mem_cons.mp hb with rfl | hb
      · simpa using passes
      · simpa using fun later => passes (first b hb later)

theorem StrictWeak.trans_not (weak : StrictWeak lt) {a b c : α}
    (hab : ¬ lt b a) (hbc : ¬ lt c b) : ¬ lt c a := by
  intro hca
  rcases weak.between c b a hca with h | h
  · exact hbc h
  · exact hab h

variable [DecidableRel lt]

@[simp] theorem mem_insertOrdered {x y : α} {l : List α} :
    y ∈ insertOrdered lt x l ↔ y = x ∨ y ∈ l := by
  simp [insertOrdered, mem_orderedInsert]

theorem insertOrdered_congr {less' : α → α → Prop} [DecidableRel less']
    (same : ∀ a b, lt a b ↔ less' a b) (x : α) (l : List α) :
    insertOrdered lt x l = insertOrdered less' x l := by
  have eq : lt = less' := funext fun a => funext fun b => propext (same a b)
  subst eq
  congr!

theorem insertOrdered_perm (x : α) (l : List α) : (insertOrdered lt x l).Perm (x :: l) :=
  perm_orderedInsert lt x l

theorem insertOrdered_nodup {x : α} {l : List α} (ha : x ∉ l) (nodup : l.Nodup) :
    (insertOrdered lt x l).Nodup :=
  (insertOrdered_perm x l).nodup_iff.mpr (nodup_cons.mpr ⟨ha, nodup⟩)

/-- The new element goes behind those that are not greater, and before the others. -/
theorem insertOrdered_pairwise {R : α → α → Prop} (weak : StrictWeak lt) {x : α} {l : List α}
    (sorted : Sorted lt l) (related : l.Pairwise R) (behind : ∀ a ∈ l, ¬ lt x a → R a x)
    (ahead : ∀ a ∈ l, lt x a → R x a) : (insertOrdered lt x l).Pairwise R := by
  induction l with
  | nil => simp [insertOrdered]
  | cons a l ih =>
    obtain ⟨first, rest⟩ := pairwise_cons.mp sorted
    unfold insertOrdered
    rw [orderedInsert_cons]
    split
    · rename_i was
      refine pairwise_cons.mpr ⟨fun b hb => ahead b hb ?_, related⟩
      rcases mem_cons.mp hb with rfl | hb
      · exact was
      · exact (weak.between x b a was).resolve_right (first b hb)
    · rename_i after
      obtain ⟨above, below⟩ := pairwise_cons.mp related
      refine pairwise_cons.mpr ⟨?_, ih rest below (fun b hb => behind b (.tail a hb))
        fun b hb => ahead b (.tail a hb)⟩
      intro b hb
      rcases mem_insertOrdered.mp hb with rfl | hb
      · exact behind a (.head _) after
      · exact above b hb

theorem insertOrdered_sorted (weak : StrictWeak lt) (x : α) {l : List α}
    (sorted : Sorted lt l) : Sorted lt (insertOrdered lt x l) :=
  insertOrdered_pairwise weak sorted sorted (fun _ _ later => later)
    fun a _ was => weak.asymm x a was

theorem stableSort_perm (l : List α) : (stableSort lt l).Perm l :=
  perm_insertionSort _ l

@[simp] theorem mem_stableSort {x : α} {l : List α} : x ∈ stableSort lt l ↔ x ∈ l :=
  (stableSort_perm l).mem_iff

theorem stableSort_sorted (weak : StrictWeak lt) (l : List α) : Sorted lt (stableSort lt l) := by
  have total : ∀ a b, ¬ lt b a ∨ ¬ lt a b := by
    intro a b
    by_cases h : lt a b
    · exact .inl (weak.asymm a b h)
    · exact .inr h
  have : Std.Total fun a b => ¬ lt b a := ⟨total⟩
  have : IsTrans α fun a b => ¬ lt b a := ⟨fun _ _ _ => weak.trans_not⟩
  exact pairwise_insertionSort _ l

end

section
variable {α β : Type*} [LinearOrder β]

/-- Comparing by a key, smallest first. -/
theorem strictWeak_lt (key : α → β) : StrictWeak fun a b => key a < key b where
  asymm _ _ h := h.not_gt
  between a b _ h := (lt_or_ge (key a) (key b)).imp_right fun hb => hb.trans_lt h

/-- Comparing by a key, greatest first. -/
theorem strictWeak_gt (key : α → β) : StrictWeak fun a b => key a > key b where
  asymm _ _ h := h.not_gt
  between a b _ h := (lt_or_ge (key b) (key a)).imp_right fun hb => h.trans_le hb

end

end Pintos.Ordered
