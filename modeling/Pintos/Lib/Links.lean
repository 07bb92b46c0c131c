import Mathlib.Data.List.Chain
import Mathlib.Data.List.Nodup

/-!
# Doubly linked cells

Cells refer to a previous and a next cell. What changes a row of cells is `link`, which makes one
cell the successor of another; two rows are joined by linking the last cell of one to the first
of the other.
-/

namespace Pintos

open List

variable {P : Type}

@[ext]
structure Heap (P : Type) where
  prev : P → Option P
  next : P → Option P

namespace Heap

/-- The links between the two cells agree. -/
def Linked (h : Heap P) (a b : P) : Prop := h.next a = some b ∧ h.prev b = some a

/-- The cells outside `cells` are the same. -/
def Same (h h' : Heap P) (cells : List P) : Prop :=
  ∀ p ∉ cells, h'.prev p = h.prev p ∧ h'.next p = h.next p

variable {h h' h'' : Heap P} {a b x y : P} {l l1 l2 cells cells' : List P}

theorem Same.refl (h : Heap P) (cells : List P) : h.Same h cells := fun _ _ => ⟨rfl, rfl⟩

theorem Same.trans (first : h.Same h' cells) (second : h'.Same h'' cells) : h.Same h'' cells :=
  fun p out => ⟨(second p out).1.trans (first p out).1, (second p out).2.trans (first p out).2⟩

theorem Same.mono (eq : h.Same h' cells) (more : cells ⊆ cells') : h.Same h' cells' :=
  fun p out => eq p fun hi => out (more hi)

theorem chain_agree (chain : l.IsChain h.Linked)
    (agree : ∀ p ∈ l, h'.prev p = h.prev p ∧ h'.next p = h.next p) : l.IsChain h'.Linked := by
  refine chain.imp_of_mem_imp fun x y hx hy hl => ?_
  rw [Linked, (agree x hx).2, (agree y hy).1]
  exact hl

variable [DecidableEq P]

def setPrev (h : Heap P) (p : P) (q : Option P) : Heap P :=
  { h with prev := Function.update h.prev p q }

def setNext (h : Heap P) (p : P) (q : Option P) : Heap P :=
  { h with next := Function.update h.next p q }

section
variable (h : Heap P) (p : P) (q : Option P)

@[simp] theorem setPrev_next : (h.setPrev p q).next = h.next := rfl

@[simp] theorem setNext_prev : (h.setNext p q).prev = h.prev := rfl

@[simp] theorem setPrev_prev (x : P) : (h.setPrev p q).prev x = if x = p then q else h.prev x :=
  Function.update_apply ..

@[simp] theorem setNext_next (x : P) : (h.setNext p q).next x = if x = p then q else h.next x :=
  Function.update_apply ..

end

def link (h : Heap P) (a b : P) : Heap P := (h.setNext a (some b)).setPrev b (some a)

theorem link_prev (h : Heap P) (a b p : P) :
    (h.link a b).prev p = if p = b then some a else h.prev p := by
  simp [link]

theorem link_next (h : Heap P) (a b p : P) :
    (h.link a b).next p = if p = a then some b else h.next p := by
  simp [link]

theorem link_linked (h : Heap P) (a b : P) : (h.link a b).Linked a b := by
  simp [Linked, link_prev, link_next]

theorem Linked.link (hl : h.Linked x y) (was : x ≠ a) (after : y ≠ b) :
    (h.link a b).Linked x y := by
  rw [Linked, link_next, link_prev, if_neg was, if_neg after]
  exact hl

theorem link_same (ha : a ∈ cells) (hb : b ∈ cells) : h.Same (h.link a b) cells := by
  intro p out
  rw [link_prev, link_next, if_neg, if_neg]
  · exact ⟨rfl, rfl⟩
  · rintro rfl; exact out ha
  · rintro rfl; exact out hb

/-- A row keeps its links if `a` is at most its last cell, and `b` its first. -/
theorem chain_link (chain : l.IsChain h.Linked) (was : a ∉ l.dropLast) (after : b ∉ l.tail) :
    l.IsChain (h.link a b).Linked := by
  rw [isChain_iff_forall_rel_of_append_cons_cons] at chain ⊢
  intro x y l1 l2 eq
  apply (chain eq).link
  · rintro rfl
    apply was
    simp [eq, dropLast_append_of_ne_nil]
  · rintro rfl
    apply after
    cases l1 <;> simp [eq]

/-- Two rows become one. -/
theorem chain_join (first : (l1 ++ [a]).IsChain h.Linked) (second : (b :: l2).IsChain h.Linked)
    (once : (l1 ++ a :: b :: l2).Nodup) : (l1 ++ a :: b :: l2).IsChain (h.link a b).Linked := by
  rw [nodup_append] at once
  obtain ⟨_, once2, ne⟩ := once
  simp only [nodup_cons, mem_cons, not_or] at once2
  rw [isChain_append_cons_cons]
  refine ⟨chain_link first ?_ ?_, link_linked h a b, chain_link second ?_ once2.2.1⟩
  · rw [dropLast_concat]
    exact fun hi => ne a hi a (by simp) rfl
  · intro hi
    obtain old | eq := mem_append.mp (mem_of_mem_tail hi)
    · exact ne b old b (by simp) rfl
    · exact once2.1.1 (mem_singleton.mp eq).symm
  · intro hi
    obtain eq | old := mem_cons.mp (dropLast_subset _ hi)
    · exact once2.1.1 eq
    · exact once2.1.2 old

end Heap

end Pintos
