import Mathlib.Data.List.Basic
import Mathlib.Tactic.Ring

/-!
# Searching

`binary_search` and `bsearch` of `lib/stdlib.c`. Pointers are addresses, and a comparison reads
the element that its pointer points to; where there is none, it stops.
-/

namespace Pintos.Stdlib

variable {κ α γ : Type} {size : Nat}

/-- The element at `p`, in an array at `base` of elements of `size` bytes. -/
def elementAt (base size : Nat) (array : List α) (p : Nat) : Except String α :=
  match array[(p - base) / size]? with
  | some a => if p = base + (p - base) / size * size then .ok a else .error "inside an element"
  | none => .error "behind the array"

/-- A half of the bytes, in whole elements, is less than all of them. -/
theorem half_lt {n : Nat} (pos : 0 < n) : n / size / 2 * size < n := by
  have half := Nat.div_mul_le_self n (size * 2)
  rw [← Nat.div_div_eq_div_mul, ← Nat.mul_assoc] at half
  omega

def searchLoop (pos : 0 < size) (compare : Nat → Except String Int) (first last : Nat) :
    Except String (Option Nat) :=
  if first < last then do
    let range := (last - first) / size
    let middle := first + range / 2 * size
    let cmp ← compare middle
    if cmp < 0 then searchLoop pos compare first middle
    else if cmp > 0 then searchLoop pos compare (middle + size) last
    else pure (some middle)
  else pure none
termination_by last - first
decreasing_by
  · rw [Nat.add_sub_cancel_left]
    exact half_lt (Nat.sub_pos_of_lt ‹_›)
  · omega

def binarySearch (key : κ) (base : Nat) (array : List α) (pos : 0 < size)
    (compare : κ → α → γ → Int) (aux : γ) : Except String (Option Nat) :=
  searchLoop pos (fun middle => (compare key · aux) <$> elementAt base size array middle) base
    (base + size * array.length)

def compareThunk (a : κ) (b : α) (compare : κ → α → Int) : Int := compare a b

def bsearch (key : κ) (base : Nat) (array : List α) (pos : 0 < size) (compare : κ → α → Int) :
    Except String (Option Nat) :=
  binarySearch key base array pos compareThunk compare

variable {base i j m : Nat} {array : List α} {c : α → Int} {a : α}

theorem elementAt_eq (pos : 0 < size) (at_ : array[m]? = some a) :
    elementAt base size array (base + m * size) = .ok a := by
  rw [elementAt, Nat.add_sub_cancel_left, Nat.mul_div_cancel _ pos, at_]
  exact if_pos rfl

theorem middle_eq (pos : 0 < size) :
    base + i * size + (base + j * size - (base + i * size)) / size / 2 * size =
      base + (i + (j - i) / 2) * size := by
  rw [Nat.add_sub_add_left, ← Nat.sub_mul, Nat.mul_div_cancel _ pos]
  ring

/-- What a search returns: an element that is equal, or none if there is none. -/
def Finds (base size : Nat) (array : List α) (c : α → Int) (found : Option Nat) : Prop :=
  (∀ p, found = some p → ∃ i a, array[i]? = some a ∧ p = base + i * size ∧ c a = 0) ∧
    (found = none ↔ ∀ a ∈ array, c a ≠ 0)

/-- The elements in front of `first` are less than the key, those from `last` on are greater. -/
theorem searchLoop_finds (base : Nat) (pos : 0 < size)
    (sorted : array.Pairwise fun a b => (0 < c b → 0 < c a) ∧ (c a < 0 → c b < 0)) (le : i ≤ j)
    (hi : j ≤ array.length) (hb : ∀ (k : Nat) a, k < i → array[k]? = some a → 0 < c a)
    (above : ∀ (k : Nat) a, j ≤ k → array[k]? = some a → c a < 0) :
    ∃ found, searchLoop pos (fun middle => c <$> elementAt base size array middle)
      (base + i * size) (base + j * size) = .ok found ∧ Finds base size array c found := by
  have order : ∀ (k l : Nat) (a b : α), k < l → array[k]? = some a → array[l]? = some b →
      (0 < c b → 0 < c a) ∧ (c a < 0 → c b < 0) := by
    intro k l a b lt at_k at_l
    obtain ⟨hk, rfl⟩ := List.getElem?_eq_some_iff.mp at_k
    obtain ⟨hl, rfl⟩ := List.getElem?_eq_some_iff.mp at_l
    exact List.pairwise_iff_getElem.mp sorted k l hk hl lt
  generalize span : j - i = n
  induction n using Nat.strong_induction_on generalizing i j with
  | _ n ih =>
  unfold searchLoop
  by_cases lt : i < j
  · have bytes : base + i * size < base + j * size :=
      Nat.add_lt_add_left (Nat.mul_lt_mul_of_pos_right lt pos) base
    obtain ⟨m, half⟩ : ∃ m, i + (j - i) / 2 = m := ⟨_, rfl⟩
    have within : m < array.length := by omega
    have at_ : array[m]? = some array[m] := List.getElem?_eq_getElem within
    simp only [if_pos bytes, middle_eq pos, half, elementAt_eq pos at_]
    show ∃ found, (if c array[m] < 0 then _ else if 0 < c array[m] then _ else _) = _ ∧ _
    split_ifs with lower upper
    · refine ih (m - i) (by omega) (by omega) (by omega) hb (fun k b from_ at_k => ?_) rfl
      rcases Nat.eq_or_lt_of_le from_ with rfl | later
      · rw [at_] at at_k
        exact Option.some.inj at_k ▸ lower
      · exact (order m k _ b later at_ at_k).2 lower
    · have next : base + m * size + size = base + (m + 1) * size := by ring
      rw [next]
      refine ih (j - (m + 1)) (by omega) (by omega) hi (fun k b before at_k => ?_) above rfl
      rcases Nat.eq_or_lt_of_le (Nat.le_of_lt_succ before) with rfl | earlier
      · rw [at_] at at_k
        exact Option.some.inj at_k ▸ upper
      · exact (order k m b _ earlier at_k at_).1 upper
    · have equal : c array[m] = 0 := by omega
      refine ⟨_, rfl, ?_, nofun, fun none => absurd equal (none _ (List.getElem_mem within))⟩
      rintro _ ⟨⟩
      exact ⟨m, _, at_, rfl, equal⟩
  · obtain rfl : i = j := by omega
    refine ⟨none, by rw [if_neg (Nat.lt_irrefl _)]; rfl, nofun, fun _ a mem => ?_, fun _ => rfl⟩
    obtain ⟨k, at_k⟩ := List.mem_iff_getElem?.mp mem
    rcases Nat.lt_or_ge k i with before | after
    · exact (hb k a before at_k).ne'
    · exact (above k a after at_k).ne

/-- In a sorted array, with comparisons to the key that agree with its order, the search reads
elements only, and returns one that is equal to the key if there is one. -/
theorem binary_search_correct (key : κ) (base : Nat) (array : List α) (pos : 0 < size)
    (compare : κ → α → γ → Int) (aux : γ) (le : α → α → Prop) (sorted : array.Pairwise le)
    (consistent : ∀ a b, le a b → (0 < compare key b aux → 0 < compare key a aux) ∧
      (compare key a aux < 0 → compare key b aux < 0)) :
    (∃ found, binarySearch key base array pos compare aux = .ok found ∧
      Finds base size array (compare key · aux) found) ∧
    bsearch key base array pos (compare · · aux) = binarySearch key base array pos compare aux := by
  refine ⟨?_, rfl⟩
  have run := searchLoop_finds (i := 0) (j := array.length) base pos
    (sorted.imp fun order => consistent _ _ order) (Nat.zero_le _) (Nat.le_refl _)
    (fun _ _ none => absurd none (Nat.not_lt_zero _)) fun k a past at_k => by
      rw [List.getElem?_eq_none past] at at_k
      cases at_k
  rw [Nat.zero_mul, Nat.add_zero, Nat.mul_comm] at run
  exact run

theorem binary_search_correct_third : ∃ found, binarySearch 7 100 [2, 5, 7, 9] (by decide : 0 < 4)
    (fun key a (_ : Unit) => key - a) () = .ok found ∧
      Finds 100 4 [2, 5, 7, 9] (fun a => 7 - a) found :=
  (binary_search_correct (7 : Int) 100 [2, 5, 7, 9] (by decide : 0 < 4)
    (fun key a (_ : Unit) => key - a) () (· ≤ ·) (by decide) (by omega)).1

end Pintos.Stdlib
