import Mathlib.Logic.Function.Basic
import Mathlib.Tactic.SplitIfs

/-!
# Bitmaps in words

The functions of `lib/kernel/bitmap.c` on the words that hold the bits, and the vector of Booleans
that they stand for. Counts are not bounded by `size_t`, and `none` is `BITMAP_ERROR`.
-/

namespace Pintos

open Function List

structure Bitmap where
  bitCnt : Nat
  bits : Nat → BitVec 32

namespace Bitmap

def elemIdx (bitIdx : Nat) : Nat := bitIdx / 32

def bitMask (bitIdx : Nat) : BitVec 32 := 1 <<< (bitIdx % 32)

variable (b : Bitmap)

def mark (i : Nat) : Bitmap :=
  { b with bits := update b.bits (elemIdx i) (b.bits (elemIdx i) ||| bitMask i) }

def reset (i : Nat) : Bitmap :=
  { b with bits := update b.bits (elemIdx i) (b.bits (elemIdx i) &&& ~~~bitMask i) }

def set (idx : Nat) (value : Bool) : Except String Bitmap :=
  if idx < b.bitCnt then .ok (if value then b.mark idx else b.reset idx)
  else .error "idx < b->bit_cnt"

def test (idx : Nat) : Except String Bool :=
  if idx < b.bitCnt then .ok (b.bits (elemIdx idx) &&& bitMask idx ≠ 0)
  else .error "idx < b->bit_cnt"

/-- The assertions about a range. -/
def checkRange (start cnt : Nat) : Except String Unit :=
  if start ≤ b.bitCnt then
    if start + cnt ≤ b.bitCnt then .ok () else .error "start + cnt <= b->bit_cnt"
  else .error "start <= b->bit_cnt"

def setMultiple (start cnt : Nat) (value : Bool) : Except String Bitmap := do
  b.checkRange start cnt
  (range cnt).foldlM (fun b i => b.set (start + i) value) b

def count (start cnt : Nat) (value : Bool) : Except String Nat := do
  b.checkRange start cnt
  (range cnt).foldlM (fun valueCnt i => do
    pure (if (← b.test (start + i)) = value then valueCnt + 1 else valueCnt)) 0

def contains (start cnt : Nat) (value : Bool) : Except String Bool := do
  b.checkRange start cnt
  (range cnt).anyM fun i => (· == value) <$> b.test (start + i)

def scan (start cnt : Nat) (value : Bool) : Except String (Option Nat) :=
  if start ≤ b.bitCnt then
    if cnt ≤ b.bitCnt then
      let last := b.bitCnt - cnt
      (range' start (last + 1 - start)).findM? fun i => not <$> b.contains i cnt (!value)
    else .ok none
  else .error "start <= b->bit_cnt"

def scanAndFlip (start cnt : Nat) (value : Bool) : Except String (Option Nat × Bitmap) := do
  match ← b.scan start cnt value with
  | some idx => pure (some idx, ← b.setMultiple idx cnt (!value))
  | none => pure (none, b)

/-! ### The vector -/

def view (i : Nat) : Bool := (b.bits (i / 32)).getLsbD (i % 32)

variable {b} {start cnt i : Nat} {value : Bool}

theorem test_eq (hi : i < b.bitCnt) : b.test i = .ok (b.view i) := by
  have low : i % 32 < 32 := Nat.mod_lt _ (by decide)
  have mask : b.bits (elemIdx i) &&& bitMask i =
      if b.view i then BitVec.twoPow 32 (i % 32) else 0 := BitVec.and_twoPow _ _
  have some : BitVec.twoPow 32 (i % 32) ≠ 0#32 := by
    intro zero
    have bit := BitVec.getLsbD_twoPow (w := 32) (i % 32) (i % 32)
    rw [zero] at bit
    simp [low] at bit
  rw [test, if_pos hi, mask]
  cases b.view i <;> simp [some]

/-- A bit is set where it is, and nowhere else. -/
theorem set_eq (hi : i < b.bitCnt) : ∃ b', b.set i value = .ok b' ∧
    b'.bitCnt = b.bitCnt ∧ b'.view = update b.view i value := by
  have low : i % 32 < 32 := Nat.mod_lt _ (by decide)
  refine ⟨_, if_pos hi, by cases value <;> rfl, funext fun j => ?_⟩
  have bit : (bitMask i).getLsbD (j % 32) = decide (i % 32 = j % 32) := by
    rw [show bitMask i = BitVec.twoPow 32 (i % 32) from rfl, BitVec.getLsbD_twoPow]
    simp [low]
  have low' : j % 32 < 32 := Nat.mod_lt _ (by decide)
  by_cases h : j / 32 = i / 32
  · have same : (i % 32 = j % 32) = (j = i) := by
      rw [eq_iff_iff]
      omega
    cases value <;>
      simp only [Bool.false_eq_true, if_false, if_true, view, mark, reset, elemIdx, h, update_apply,
        BitVec.getLsbD_or, BitVec.getLsbD_and, BitVec.getLsbD_not, bit, same] <;>
      by_cases eq : j = i <;> simp [eq, low']
  · have ne : j ≠ i := by
      rintro rfl
      exact h rfl
    cases value <;> simp [view, mark, reset, elemIdx, h, ne]

/-! ### The loops -/

theorem checkRange_eq (hi : start + cnt ≤ b.bitCnt) : b.checkRange start cnt = .ok () := by
  rw [checkRange, if_pos (by omega), if_pos hi]

theorem anyM_ok {p : Nat → Except String Bool} {q : Nat → Bool} {l : List Nat}
    (h : ∀ i ∈ l, p i = .ok (q i)) : l.anyM p = .ok (l.any q) := by
  induction l with
  | nil => rfl
  | cons i l ih =>
    rw [anyM, h i (.head _), any_cons, ih fun i hi => h i (.tail _ hi)]
    cases q i <;> rfl

theorem findM_ok {p : Nat → Except String Bool} {q : Nat → Bool} {l : List Nat}
    (h : ∀ i ∈ l, p i = .ok (q i)) : l.findM? p = .ok (l.find? q) := by
  induction l with
  | nil => rfl
  | cons i l ih =>
    rw [findM?, h i (.head _), find?_cons, ih fun i hi => h i (.tail _ hi)]
    cases q i <;> rfl

theorem setMultiple_eq (hi : start + cnt ≤ b.bitCnt) :
    ∃ b', b.setMultiple start cnt value = .ok b' ∧
    b'.bitCnt = b.bitCnt ∧
    ∀ j, b'.view j = if start ≤ j ∧ j < start + cnt then value else b.view j := by
  rw [setMultiple, checkRange_eq hi]
  show ∃ b', (range cnt).foldlM _ b = _ ∧ _
  induction cnt with
  | zero => exact ⟨b, rfl, rfl, fun j => (if_neg (by omega)).symm⟩
  | succ cnt ih =>
    obtain ⟨b1, ran, size, bits⟩ := ih (by omega)
    obtain ⟨b', set, size', bits'⟩ := @set_eq b1 (start + cnt) value (by omega)
    refine ⟨b', ?_, size'.trans size, fun j => ?_⟩
    · rw [range_succ, foldlM_append, ran]
      simp [set, bind, Except.bind, pure, Except.pure]
    · rw [bits', update_apply, bits]
      split_ifs <;> first | rfl | omega

theorem count_eq (hi : start + cnt ≤ b.bitCnt) : b.count start cnt value =
    .ok ((range cnt).countP fun i => b.view (start + i) == value) := by
  rw [count, checkRange_eq hi]
  show (range cnt).foldlM _ 0 = _
  induction cnt with
  | zero => rfl
  | succ cnt ih =>
    rw [range_succ, foldlM_append, ih (by omega), countP_append]
    simp [test_eq (show start + cnt < b.bitCnt by omega), bind, Except.bind, pure, Except.pure]
    split_ifs <;> simp_all

theorem contains_eq (hi : start + cnt ≤ b.bitCnt) : b.contains start cnt value =
    .ok (decide (∃ i < cnt, b.view (start + i) = value)) := by
  rw [contains, checkRange_eq hi]
  refine (anyM_ok (q := fun i => b.view (start + i) == value) fun i mem => ?_).trans ?_
  · rw [test_eq (by have := mem_range.mp mem; omega)]
    rfl
  · congr 1
    rw [Bool.eq_iff_iff]
    simp

/-- A group of `cnt` bits with the value begins here, at or behind `start`. -/
def Group (b : Bitmap) (start cnt : Nat) (value : Bool) (i : Nat) : Prop :=
  start ≤ i ∧ i + cnt ≤ b.bitCnt ∧ ∀ j < cnt, b.view (i + j) = value

theorem scan_eq (hi : start ≤ b.bitCnt) : ∃ found, b.scan start cnt value = .ok found ∧
    (∀ i, found = some i → b.Group start cnt value i ∧ ∀ j < i, ¬ b.Group start cnt value j) ∧
    (found = none → ∀ i, ¬ b.Group start cnt value i) := by
  have all : ∀ i, (!decide (∃ j < cnt, b.view (i + j) = !value)) = true ↔
      ∀ j < cnt, b.view (i + j) = value := by simp
  rw [scan, if_pos hi]
  by_cases room : cnt ≤ b.bitCnt
  · rw [if_pos room]
    refine ⟨_, findM_ok (q := fun i => !decide (∃ j < cnt, b.view (i + j) = !value)) fun i mem =>
      ?_,
      fun i found => ?_, fun none i group => ?_⟩
    · rw [contains_eq (by have := mem_range'_1.mp mem; omega)]
      rfl
    · obtain ⟨here, mem, first⟩ := find?_range'_eq_some.mp found
      have := mem_range'_1.mp mem
      refine ⟨⟨by omega, by omega, (all i).mp here⟩, fun j less group => ?_⟩
      have missed := first j group.1 less
      rw [(all j).mpr group.2.2] at missed
      cases missed
    · have missed := find?_range'_eq_none.mp none i group.1 (by have := group.2.1; omega)
      rw [(all i).mpr group.2.2] at missed
      cases missed
  · rw [if_neg room]
    refine ⟨none, rfl, nofun, fun _ i group => ?_⟩
    have := group.2.1
    omega

/-- The functions compute on the words what they say of the vector. -/
theorem bitmap_exact (b : Bitmap) :
    (∀ start cnt value, start ≤ b.bitCnt → ∃ found b', b.scan start cnt value = .ok found ∧
      (∀ i, found = some i → b.Group start cnt value i ∧ ∀ j < i, ¬ b.Group start cnt value j) ∧
      (found = none → ∀ i, ¬ b.Group start cnt value i) ∧
      b.scanAndFlip start cnt value = .ok (found, b') ∧ (found = none → b' = b) ∧
      ∀ i, found = some i → b'.bitCnt = b.bitCnt ∧
        ∀ j, b'.view j = if i ≤ j ∧ j < i + cnt then !value else b.view j) ∧
    (∀ idx value, idx < b.bitCnt → ∃ b', b.set idx value = .ok b' ∧ b'.bitCnt = b.bitCnt ∧
      b'.view = update b.view idx value) ∧
    ∀ start cnt value, start + cnt ≤ b.bitCnt →
      (∃ b', b.setMultiple start cnt value = .ok b' ∧ b'.bitCnt = b.bitCnt ∧
        ∀ j, b'.view j = if start ≤ j ∧ j < start + cnt then value else b.view j) ∧
      b.count start cnt value =
        .ok ((range cnt).countP fun i => b.view (start + i) == value) ∧
      b.contains start cnt value = .ok (decide (∃ i < cnt, b.view (start + i) = value)) := by
  refine ⟨fun start cnt value hi => ?_, fun _ _ hi => set_eq hi,
    fun _ _ _ hi => ⟨setMultiple_eq hi, count_eq hi, contains_eq hi⟩⟩
  obtain ⟨found, ran, least, missing⟩ := @scan_eq b start cnt value hi
  cases found with
  | none =>
    refine ⟨none, b, ran, least, missing, ?_, fun _ => rfl, nofun⟩
    rw [scanAndFlip, ran]
    rfl
  | some i =>
    obtain ⟨b', set, size, bits⟩ := @setMultiple_eq b i cnt (!value) (least i rfl).1.2.1
    refine ⟨some i, b', ran, least, missing, ?_, nofun, ?_⟩
    · rw [scanAndFlip, ran]
      simp [set, bind, Except.bind, pure, Except.pure]
    · rintro _ ⟨⟩
      exact ⟨size, bits⟩

end Bitmap

end Pintos
