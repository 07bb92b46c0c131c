import Mathlib.Data.BitVec
import Mathlib.Tactic.IntervalCases
import Mathlib.Tactic.Ring

/-!
# 64-bit division

`lib/arithmetic.c`: the routines the compiler calls to divide 64-bit integers, on top of the 32-bit
`divl` instruction. `none` is the divide error that `divl` raises.
-/

namespace Pintos.Arithmetic

/-- The instruction: an exact quotient, or a trap when it does not fit in 32 bits. -/
def divl (n : BitVec 64) (d : BitVec 32) : Option (BitVec 32) :=
  if d ≠ 0 ∧ n.toNat / d.toNat < 2 ^ 32 then some (BitVec.ofNat 32 (n.toNat / d.toNat)) else none

/-- One `if` of `nlz`: a word of at most `limit` is shifted by `k`. -/
def nlzStep (limit : BitVec 32) (k : Nat) (s : Nat × BitVec 32) : Nat × BitVec 32 :=
  if s.2 ≤ limit then (s.1 + k, s.2 <<< k) else s

def nlz (x : BitVec 32) : Nat :=
  let s := nlzStep 0x0000FFFF 16 (0, x)
  let s := nlzStep 0x00FFFFFF 8 s
  let s := nlzStep 0x0FFFFFFF 4 s
  let s := nlzStep 0x3FFFFFFF 2 s
  (nlzStep 0x7FFFFFFF 1 s).1

def udiv64 (n d : BitVec 64) : Option (BitVec 64) :=
  if d >>> 32 = 0 then
    let b := 1#64 <<< 32
    let n1 := (n >>> 32).setWidth 32
    let n0 := n.setWidth 32
    let d0 := d.setWidth 32
    (divl (b * (n1 % d0).setWidth 64 + n0.setWidth 64) d0).map fun q =>
      q.setWidth 64 + b * (n1 / d0).setWidth 64
  else if n < d then some 0
  else
    let d1 := (d >>> 32).setWidth 32
    let s := nlz d1
    (divl (n >>> 1) (((d <<< s) >>> 32).setWidth 32)).map fun (q1 : BitVec 32) =>
      let q := (q1 >>> (31 - s)).setWidth 64
      if n - (q - 1) * d < d then q - 1 else q

/-- The result is a `uint32_t`. -/
def umod64 (n d : BitVec 64) : Option (BitVec 32) :=
  (udiv64 n d).map fun q => (n - d * q).setWidth 32

def abs64 (n : BitVec 64) : BitVec 64 := if 0 ≤ n.toInt then n else -n

def sdiv64 (n d : BitVec 64) : Option (BitVec 64) :=
  (udiv64 (abs64 n) (abs64 d)).map fun q =>
    if (n.toInt < 0) = (d.toInt < 0) then q else -q

/-- The result is an `int32_t`. -/
def smod64 (n d : BitVec 64) : Option (BitVec 32) :=
  (sdiv64 n d).map fun q => (n - d * q).setWidth 32

def divdi3 (n d : BitVec 64) : Option (BitVec 64) := sdiv64 n d

def moddi3 (n d : BitVec 64) : Option (BitVec 64) := (smod64 n d).map (·.signExtend 64)

def umoddi3 (n d : BitVec 64) : Option (BitVec 64) := (umod64 n d).map (·.setWidth 64)

/-! ## The instruction and the normalising shift -/

variable {n d q : BitVec 64} {x : BitVec 32} {s : Nat}

theorem divl_of_lt {d : BitVec 32} (hf : n.toNat < d.toNat * 2 ^ 32) :
    ∃ q, divl n d = some q ∧ q.toNat = n.toNat / d.toNat := by
  have hs : n.toNat / d.toNat < 2 ^ 32 := Nat.div_lt_of_lt_mul hf
  have nonzero : d ≠ 0 := by
    rintro rfl
    simp at hf
  exact ⟨_, if_pos ⟨nonzero, hs⟩, by simpa using hs⟩

/-- The word is `x` shifted, with nothing lost and a bit set among its `k` highest. -/
@[grind cases] structure Scaled (x : BitVec 32) (k : Nat) (s : Nat × BitVec 32) : Prop where
  shifted : s.2.toNat = x.toNat * 2 ^ s.1
  filled : 2 ^ (32 - k) ≤ s.2.toNat

theorem Scaled.step {k : Nat} {s : Nat × BitVec 32}
    (scaled : Scaled x (2 * k) s) (limit : BitVec 32) (half : 2 * k ≤ 32)
    (hb : limit.toNat + 1 = 2 ^ (32 - k)) :
    Scaled x k (nlzStep limit k s) := by
  have split : 2 ^ (32 - k) * 2 ^ k = 2 ^ 32 := by rw [← Nat.pow_add]; congr 1; omega
  unfold nlzStep
  split
  · rename_i hs
    have lower : s.2.toNat < 2 ^ (32 - k) := by
      have := BitVec.le_def.mp hs
      omega
    have room : s.2.toNat * 2 ^ k < 2 ^ 32 := by
      rw [← split]
      gcongr
    have shift : (s.2 <<< k).toNat = s.2.toNat * 2 ^ k := by
      rw [BitVec.toNat_shiftLeft, Nat.shiftLeft_eq, Nat.mod_eq_of_lt room]
    constructor
    · grind
    · calc 2 ^ (32 - k) = 2 ^ (32 - 2 * k) * 2 ^ k := by rw [← Nat.pow_add]; congr 1; omega
        _ ≤ s.2.toNat * 2 ^ k := Nat.mul_le_mul_right _ scaled.filled
        _ = (s.2 <<< k).toNat := shift.symm
  · rename_i large
    have := BitVec.le_def.not.mp large
    exact ⟨scaled.shifted, by omega⟩

/-- `nlz` shifts the highest bit set to the top. -/
theorem nlz_normal (nonzero : x ≠ 0) :
    2 ^ 31 ≤ x.toNat * 2 ^ nlz x ∧ x.toNat * 2 ^ nlz x < 2 ^ 32 := by
  have start : Scaled x (2 * 16) (0, x) :=
    ⟨by simp, Nat.pos_of_ne_zero fun zero => nonzero (BitVec.eq_of_toNat_eq zero)⟩
  have after16 : Scaled x (2 * 8) _ := start.step 0x0000FFFF (by decide) (by decide)
  have after8 : Scaled x (2 * 4) _ := after16.step 0x00FFFFFF (by decide) (by decide)
  have after4 : Scaled x (2 * 2) _ := after8.step 0x0FFFFFFF (by decide) (by decide)
  have after2 : Scaled x (2 * 1) _ := after4.step 0x3FFFFFFF (by decide) (by decide)
  have done : Scaled x 1 _ := after2.step 0x7FFFFFFF (by decide) (by decide)
  have shifted : _ = x.toNat * 2 ^ nlz x := done.shifted
  rw [← shifted]
  exact ⟨done.filled, BitVec.isLt _⟩

/-! ## The estimate for wide divisors -/

/-- Dividing by `d` without its low part gives the quotient or one more, as long as the quotient
is too small for what was dropped to matter. -/
theorem div_trim_le {n d w : Nat} (trim : w ≤ d) (slack : (d - w) * (n / d + 1) ≤ w) (pos : 0 < w) :
    n / d ≤ n / w ∧ n / w ≤ n / d + 1 := by
  constructor
  · exact Nat.div_le_div_left trim pos
  · apply Nat.le_of_lt_add_one
    rw [Nat.div_lt_iff_lt_mul pos]
    have upper : n < d * (n / d + 1) := Nat.lt_mul_div_succ n (by omega)
    obtain ⟨r, rfl⟩ := Nat.exists_eq_add_of_le trim
    rw [Nat.add_sub_cancel_left] at slack
    calc n < (w + r) * (n / (w + r) + 1) := upper
      _ = w * (n / (w + r) + 1) + r * (n / (w + r) + 1) := Nat.add_mul ..
      _ ≤ w * (n / (w + r) + 1) + w := by gcongr
      _ = (n / (w + r) + 1 + 1) * w := by ring

/-- The shift that brings the upper word of `d` to the top brings `d` there. -/
theorem shift_normal {d : Nat} (low : 2 ^ 31 ≤ d / 2 ^ 32 * 2 ^ s)
    (high : d / 2 ^ 32 * 2 ^ s < 2 ^ 32) : s ≤ 31 ∧ 2 ^ 63 ≤ d * 2 ^ s ∧ d * 2 ^ s < 2 ^ 64 := by
  have le : s ≤ 31 := by
    apply Nat.le_of_lt_add_one
    rw [← Nat.pow_lt_pow_iff_right (show 1 < 2 by decide)]
    apply Nat.lt_of_le_of_lt _ high
    apply Nat.le_mul_of_pos_left
    apply Nat.pos_of_ne_zero
    intro zero
    rw [zero, Nat.zero_mul] at low
    exact absurd low (by decide)
  have whole : 2 ^ 32 = 2 ^ (32 - s) * 2 ^ s := by rw [← Nat.pow_add]; congr 1; omega
  refine ⟨le, ?_, ?_⟩
  · calc 2 ^ 63 = 2 ^ 31 * 2 ^ 32 := by decide
      _ ≤ d / 2 ^ 32 * 2 ^ s * 2 ^ 32 := by gcongr
      _ = d / 2 ^ 32 * 2 ^ 32 * 2 ^ s := by ring
      _ ≤ d * 2 ^ s := by gcongr; exact Nat.div_mul_le_self d _
  · have upper : d / 2 ^ 32 < 2 ^ (32 - s) := by
      apply Nat.lt_of_mul_lt_mul_right (a := 2 ^ s)
      rwa [← whole]
    calc d * 2 ^ s < 2 ^ (32 - s) * 2 ^ 32 * 2 ^ s := by
          gcongr
          exact (Nat.div_lt_iff_lt_mul (by decide)).mp upper
      _ = 2 ^ (32 - s) * 2 ^ s * 2 ^ 32 := by ring
      _ = 2 ^ 32 * 2 ^ 32 := by rw [← whole]

/-- Half the dividend over the upper word of the shifted divisor, shifted back. -/
theorem estimate_eq (n d s : Nat) (le : s ≤ 31) :
    n / 2 / (d / 2 ^ (32 - s)) / 2 ^ (31 - s) = n / (d / 2 ^ (32 - s) * 2 ^ (32 - s)) := by
  have double : 2 ^ (32 - s) = 2 * 2 ^ (31 - s) := by rw [← Nat.pow_succ']; congr 1; omega
  rw [Nat.div_div_eq_div_mul, Nat.div_div_eq_div_mul]
  congr 1
  rw [double]
  ring

theorem upperWord_ge {d : Nat} (le : s ≤ 31) (normal : 2 ^ 63 ≤ d * 2 ^ s) :
    2 ^ 31 ≤ d / 2 ^ (32 - s) := by
  rw [Nat.le_div_iff_mul_le (Nat.two_pow_pos _)]
  apply Nat.le_of_mul_le_mul_right _ (Nat.two_pow_pos s)
  calc 2 ^ 31 * 2 ^ (32 - s) * 2 ^ s = 2 ^ 63 := by
        rw [← Nat.pow_add, ← Nat.pow_add]
        congr 1
        omega
    _ ≤ d * 2 ^ s := normal

theorem estimate_bounds {n d : Nat} (le : s ≤ 31) (wide : n < 2 ^ 64)
    (normal : 2 ^ 63 ≤ d * 2 ^ s) :
    n / d ≤ n / (d / 2 ^ (32 - s) * 2 ^ (32 - s)) ∧
      n / (d / 2 ^ (32 - s) * 2 ^ (32 - s)) ≤ n / d + 1 := by
  have parts := Nat.div_add_mod' d (2 ^ (32 - s))
  have low := Nat.mod_lt d (Nat.two_pow_pos (32 - s))
  have high : 2 ^ (63 - s) ≤ d / 2 ^ (32 - s) * 2 ^ (32 - s) := by
    calc 2 ^ (63 - s) = 2 ^ 31 * 2 ^ (32 - s) := by rw [← Nat.pow_add]; congr 1; omega
      _ ≤ _ := Nat.mul_le_mul_right _ (upperWord_ge le normal)
  have quotient : n / d + 1 ≤ 2 ^ (s + 1) := by
    have : 2 ^ 64 = 2 ^ (s + 1) * 2 ^ (63 - s) := by rw [← Nat.pow_add]; congr 1; omega
    apply Nat.div_lt_of_lt_mul
    calc n < 2 ^ (63 - s) * 2 ^ (s + 1) := by rw [Nat.mul_comm, ← this]; exact wide
      _ ≤ d * 2 ^ (s + 1) := by gcongr; omega
  apply div_trim_le (by omega)
  · calc (d - d / 2 ^ (32 - s) * 2 ^ (32 - s)) * (n / d + 1)
        ≤ (2 ^ (32 - s) - 1) * 2 ^ (s + 1) := by
          apply Nat.mul_le_mul _ quotient
          omega
      _ ≤ 2 ^ (63 - s) := by interval_cases s <;> decide
      _ ≤ _ := high
  · exact Nat.lt_of_lt_of_le (Nat.two_pow_pos _) high

/-- The last line of `udiv64` mends an estimate that is one too large. -/
theorem correction_eq (pos : 0 < d.toNat) (ge : d.toNat ≤ n.toNat)
    (low : n.toNat / d.toNat ≤ q.toNat) (high : q.toNat ≤ n.toNat / d.toNat + 1) :
    (if n - (q - 1) * d < d then q - 1 else q).toNat = n.toNat / d.toNat := by
  have quotient : 1 ≤ n.toNat / d.toNat := Nat.div_pos ge pos
  have lt : (q - 1).toNat = q.toNat - 1 := by
    have := q.isLt
    rw [BitVec.toNat_sub_of_le (BitVec.le_def.mpr (by simp; omega))]
    rfl
  have hb : (q.toNat - 1) * d.toNat ≤ n.toNat := by
    calc (q.toNat - 1) * d.toNat ≤ n.toNat / d.toNat * d.toNat := by gcongr; omega
      _ ≤ n.toNat := Nat.div_mul_le_self ..
  have product : ((q - 1) * d).toNat = (q.toNat - 1) * d.toNat := by
    rw [BitVec.toNat_mul, lt, Nat.mod_eq_of_lt (Nat.lt_of_le_of_lt hb n.isLt)]
  have rest : (n - (q - 1) * d).toNat = n.toNat - (q.toNat - 1) * d.toNat := by
    rw [BitVec.toNat_sub_of_le (BitVec.le_def.mpr (product ▸ hb)), product]
  simp only [apply_ite BitVec.toNat, BitVec.lt_def, rest, lt]
  have division := Nat.div_add_mod' n.toNat d.toNat
  have remainder := Nat.mod_lt n.toNat pos
  obtain right | above : q.toNat = n.toNat / d.toNat ∨ q.toNat = n.toNat / d.toNat + 1 := by omega
  · rw [right]
    have : (n.toNat / d.toNat - 1) * d.toNat = n.toNat / d.toNat * d.toNat - d.toNat :=
      Nat.sub_one_mul ..
    rw [if_neg (by omega)]
  · rw [above, Nat.add_sub_cancel, if_pos (by omega)]

/-! ## The quotient -/

theorem highWord_eq_zero : d >>> 32 = 0 ↔ d.toNat < 2 ^ 32 := by
  rw [← BitVec.toNat_inj, BitVec.toNat_ushiftRight, Nat.shiftRight_eq_div_pow]
  exact Nat.div_eq_zero_iff_lt (by decide)

/-- The proof in the source: `[n/d] = [(b[n1 % d] + n0)/d] + b[n1/d]`. -/
theorem div_by_words (n d : Nat) (pos : 0 < d) :
    n / d = (2 ^ 32 * (n / 2 ^ 32 % d) + n % 2 ^ 32) / d + 2 ^ 32 * (n / 2 ^ 32 / d) := by
  have whole : n = (2 ^ 32 * (n / 2 ^ 32 % d) + n % 2 ^ 32) + d * (2 ^ 32 * (n / 2 ^ 32 / d)) := by
    calc n = 2 ^ 32 * (n / 2 ^ 32) + n % 2 ^ 32 := (Nat.div_add_mod n _).symm
      _ = 2 ^ 32 * (d * (n / 2 ^ 32 / d) + n / 2 ^ 32 % d) + n % 2 ^ 32 := by
        rw [Nat.div_add_mod (n / 2 ^ 32) d]
      _ = _ := by ring
  calc n / d =
    ((2 ^ 32 * (n / 2 ^ 32 % d) + n % 2 ^ 32) + d * (2 ^ 32 * (n / 2 ^ 32 / d))) / d := by
        rw [← whole]
    _ = _ := Nat.add_mul_div_left _ _ pos

/-- Two words make one 64-bit integer: the sums in `udiv64` do not overflow. -/
theorem toNat_words (x y : BitVec 32) :
    ((1#64 <<< 32) * x.setWidth 64 + y.setWidth 64).toNat = 2 ^ 32 * x.toNat + y.toNat := by
  have := x.isLt
  have := y.isLt
  simp
  omega

theorem udiv64_narrow (nonzero : d ≠ 0) (narrow : d.toNat < 2 ^ 32) :
    ∃ q, udiv64 n d = some q ∧ q.toNat = n.toNat / d.toNat := by
  have pos : 0 < d.toNat := Nat.pos_of_ne_zero fun zero => nonzero (BitVec.eq_of_toNat_eq zero)
  have d0 : (d.setWidth 32).toNat = d.toNat := by
    rw [BitVec.toNat_setWidth, Nat.mod_eq_of_lt narrow]
  have n0 : (n.setWidth 32).toNat = n.toNat % 2 ^ 32 := BitVec.toNat_setWidth ..
  have n1 : ((n >>> 32).setWidth 32).toNat = n.toNat / 2 ^ 32 := by
    rw [BitVec.toNat_setWidth, BitVec.toNat_ushiftRight, Nat.shiftRight_eq_div_pow]
    have := n.isLt
    omega
  have rest := Nat.mod_lt (n.toNat / 2 ^ 32) pos
  have hf : ((1#64 <<< 32) * ((n >>> 32).setWidth 32 % d.setWidth 32).setWidth 64 +
      (n.setWidth 32).setWidth 64).toNat < (d.setWidth 32).toNat * 2 ^ 32 := by
    rw [toNat_words, BitVec.toNat_umod, n1, n0, d0]
    omega
  obtain ⟨q, divided, value⟩ := divl_of_lt hf
  rw [toNat_words, BitVec.toNat_umod, n1, n0, d0] at value
  unfold udiv64
  rw [if_pos (highWord_eq_zero.mpr narrow)]
  refine ⟨_, congrArg (Option.map _) divided, ?_⟩
  dsimp only
  rw [div_by_words n.toNat d.toNat pos, BitVec.add_comm, toNat_words, BitVec.toNat_udiv, n1, d0,
    value, Nat.add_comm]

theorem udiv64_wide (wide : 2 ^ 32 ≤ d.toNat) :
    ∃ q, udiv64 n d = some q ∧ q.toNat = n.toNat / d.toNat := by
  unfold udiv64
  rw [if_neg (fun narrow => absurd (highWord_eq_zero.mp narrow) (by omega))]
  split
  · rename_i less
    exact ⟨0, rfl, (Nat.div_eq_of_lt (BitVec.lt_def.mp less)).symm⟩
  rename_i less
  have ge : d.toNat ≤ n.toNat := Nat.le_of_not_lt fun lt => less (BitVec.lt_def.mpr lt)
  have d1 : ((d >>> 32).setWidth 32).toNat = d.toNat / 2 ^ 32 := by
    rw [BitVec.toNat_setWidth, BitVec.toNat_ushiftRight, Nat.shiftRight_eq_div_pow]
    have := d.isLt
    omega
  have normal := @nlz_normal ((d >>> 32).setWidth 32) (by
    intro zero
    rw [zero] at d1
    simp at d1
    omega)
  rw [d1] at normal
  dsimp only
  generalize nlz ((d >>> 32).setWidth 32) = s at *
  obtain ⟨le, low, high⟩ := shift_normal normal.1 normal.2
  have divisor : (((d <<< s) >>> 32).setWidth 32).toNat = d.toNat / 2 ^ (32 - s) := by
    have whole : 2 ^ 32 = 2 ^ (32 - s) * 2 ^ s := by rw [← Nat.pow_add]; congr 1; omega
    have word : d.toNat * 2 ^ s / 2 ^ 32 < 2 ^ 32 := Nat.div_lt_of_lt_mul high
    rw [BitVec.toNat_setWidth, BitVec.toNat_ushiftRight, BitVec.toNat_shiftLeft, Nat.shiftLeft_eq,
      Nat.shiftRight_eq_div_pow, Nat.mod_eq_of_lt high, Nat.mod_eq_of_lt word]
    rw [whole]
    exact Nat.mul_div_mul_right _ _ (Nat.two_pow_pos s)
  have half : (n >>> 1).toNat = n.toNat / 2 := by
    rw [BitVec.toNat_ushiftRight, Nat.shiftRight_eq_div_pow]
  have hf : (n >>> 1).toNat < (((d <<< s) >>> 32).setWidth 32).toNat * 2 ^ 32 := by
    have := upperWord_ge le low
    have := n.isLt
    rw [half, divisor]
    omega
  obtain ⟨q, divided, value⟩ := divl_of_lt hf
  have estimate : ((q >>> (31 - s)).setWidth 64).toNat =
      n.toNat / (d.toNat / 2 ^ (32 - s) * 2 ^ (32 - s)) := by
    have : (q >>> (31 - s)).toNat < 2 ^ 64 := Nat.lt_trans (BitVec.isLt _) (by decide)
    rw [BitVec.toNat_setWidth, Nat.mod_eq_of_lt this, BitVec.toNat_ushiftRight,
      Nat.shiftRight_eq_div_pow, value, half, divisor, estimate_eq _ _ _ le]
  obtain ⟨lower, upper⟩ := estimate_bounds le n.isLt low
  exact ⟨_, congrArg (Option.map _) divided,
    correction_eq (by omega) ge (estimate ▸ lower) (estimate ▸ upper)⟩

theorem udiv64_eq (n : BitVec 64) (nonzero : d ≠ 0) :
    ∃ q, udiv64 n d = some q ∧ q.toNat = n.toNat / d.toNat := by
  by_cases narrow : d.toNat < 2 ^ 32
  · exact udiv64_narrow nonzero narrow
  · exact udiv64_wide (by omega)

/-! ## Signed operands -/

theorem toNat_abs64 (n : BitVec 64) : (abs64 n).toNat = n.toInt.natAbs := by
  have := n.isLt
  unfold abs64
  split
  · simp only [BitVec.toInt_eq_toNat_cond] at *
    split at * <;> omega
  · simp only [BitVec.toInt_eq_toNat_cond, BitVec.toNat_neg] at *
    split at * <;> omega

theorem abs64_ne_zero (nonzero : d ≠ 0) : abs64 d ≠ 0 := by
  intro zero
  have := toNat_abs64 d
  rw [zero] at this
  exact nonzero (BitVec.eq_of_toInt_eq (Int.natAbs_eq_zero.mp this.symm))

theorem toInt_neg_of_le (le : q.toNat ≤ 2 ^ 63) : (-q).toInt = -(q.toNat : Int) := by
  have := q.isLt
  rw [BitVec.toInt_eq_toNat_cond, BitVec.toNat_neg]
  split <;> omega

theorem toInt_of_lt (lt : q.toNat < 2 ^ 63) : q.toInt = q.toNat := by
  rw [BitVec.toInt_eq_toNat_cond, if_pos (by omega)]

/-- The quotient truncated toward zero, from the absolute values. -/
theorem tdiv_eq_natAbs (n d : Int) :
    n.tdiv d = if (n < 0) = (d < 0) then ((n.natAbs / d.natAbs : Nat) : Int)
      else -((n.natAbs / d.natAbs : Nat) : Int) := by
  have pos (m : Nat) : ¬ (Int.ofNat m < 0) := by simp
  have negative (m : Nat) : Int.negSucc m < 0 := Int.negSucc_lt_zero m
  cases n with
  | ofNat m =>
    cases d with
    | ofNat k => rw [if_pos (by simp only [pos])]; rfl
    | negSucc k => rw [if_neg (by simp only [pos, negative]; decide)]; rfl
  | negSucc m =>
    cases d with
    | ofNat k => rw [if_neg (by simp only [pos, negative]; decide)]; rfl
    | negSucc k => rw [if_pos (by simp only [negative])]; rfl

/-- The quotient that no 64-bit integer holds. -/
def Overflows (n d : BitVec 64) : Prop := n.toInt = -2 ^ 63 ∧ d.toInt = -1

instance (n d : BitVec 64) : Decidable (Overflows n d) := inferInstanceAs (Decidable (_ ∧ _))

theorem sdiv64_eq (nonzero : d ≠ 0) (inRange : ¬ Overflows n d) :
    ∃ q, sdiv64 n d = some q ∧ q.toInt = n.toInt.tdiv d.toInt := by
  obtain ⟨q, divided, value⟩ := udiv64_eq (abs64 n) (abs64_ne_zero nonzero)
  rw [toNat_abs64, toNat_abs64] at value
  refine ⟨_, congrArg (Option.map _) divided, ?_⟩
  have most : n.toInt.natAbs / d.toInt.natAbs ≤ n.toInt.natAbs := Nat.div_le_self ..
  have least := BitVec.le_toInt n
  have greatest : n.toInt < 2 ^ 63 := BitVec.toInt_lt
  rw [tdiv_eq_natAbs, ← value]
  dsimp only
  split
  · rename_i eq
    apply toInt_of_lt
    rw [value]
    by_cases hs : n.toInt.natAbs < 2 ^ 63
    · omega
    -- only the least integer is left, and its divisor is below -1
    have extreme : n.toInt = -2 ^ 63 := by omega
    have divisor : d.toInt < 0 := by
      rw [← eq, extreme]
      decide
    have two : 2 ≤ d.toInt.natAbs := by
      have : d.toInt ≠ -1 := fun minus => inRange ⟨extreme, minus⟩
      omega
    have halved : n.toInt.natAbs / d.toInt.natAbs ≤ n.toInt.natAbs / 2 :=
      Nat.div_le_div_left two (by decide)
    omega
  · apply toInt_neg_of_le
    omega

/-- Division is exact and no `divl` on the way traps. -/
theorem division_exact (n d : BitVec 64) (nonzero : d ≠ 0) :
    (udiv64 n d).map BitVec.toNat = some (n.toNat / d.toNat) ∧
      (¬ Overflows n d → (sdiv64 n d).map BitVec.toInt = some (n.toInt.tdiv d.toInt)) := by
  constructor
  · obtain ⟨q, divided, value⟩ := udiv64_eq n nonzero
    rw [divided, Option.map_some, value]
  · intro inRange
    obtain ⟨q, divided, value⟩ := sdiv64_eq nonzero inRange
    rw [divided, Option.map_some, value]

theorem division_exact_wide :
    (udiv64 0x4000000000003039 0x200000003).map BitVec.toNat = some 536870911 ∧
      (sdiv64 (BitVec.ofInt 64 (-4611686018427387909)) 0x200000003).map BitVec.toInt = some
      (-536870911) :=
  ⟨(division_exact 0x4000000000003039 0x200000003 (by decide)).1,
    (division_exact (BitVec.ofInt 64 (-4611686018427387909)) 0x200000003 (by decide)).2 (by decide)⟩

/-! ## Remainders -/

theorem umoddi3_eq (nonzero : d ≠ 0) (hf : n.toNat % d.toNat < 2 ^ 32) :
    ∃ r, umoddi3 n d = some r ∧ r.toNat = n.toNat % d.toNat := by
  obtain ⟨q, divided, value⟩ := udiv64_eq n nonzero
  have hb : d.toNat * q.toNat ≤ n.toNat := value ▸ Nat.mul_div_le ..
  have product : (d * q).toNat = d.toNat * q.toNat := by
    rw [BitVec.toNat_mul, Nat.mod_eq_of_lt (Nat.lt_of_le_of_lt hb n.isLt)]
  have rest : (n - d * q).toNat = n.toNat % d.toNat := by
    rw [BitVec.toNat_sub_of_le (BitVec.le_def.mpr (product ▸ hb)), product, value,
      Nat.mod_eq_sub]
  refine ⟨((n - d * q).setWidth 32).setWidth 64, ?_, ?_⟩
  · rw [umoddi3, umod64, divided]
    rfl
  · rw [BitVec.toNat_setWidth, BitVec.toNat_setWidth, rest, Nat.mod_eq_of_lt hf]
    omega

/-- Passing through an `int32_t` keeps what fits in one. -/
theorem toInt_narrowed {x : BitVec 64} (hf : -2 ^ 31 ≤ x.toInt ∧ x.toInt < 2 ^ 31) :
    ((x.setWidth 32).signExtend 64).toInt = x.toInt := by
  have := x.isLt
  rw [BitVec.toInt_signExtend_of_le (by decide), BitVec.toInt_setWidth, Int.bmod_def]
  rw [BitVec.toInt_eq_toNat_cond] at *
  split at * <;> split <;> omega

theorem moddi3_eq (nonzero : d ≠ 0) (inRange : ¬ Overflows n d)
    (hf : -2 ^ 31 ≤ n.toInt.tmod d.toInt ∧ n.toInt.tmod d.toInt < 2 ^ 31) :
    ∃ r, moddi3 n d = some r ∧ r.toInt = n.toInt.tmod d.toInt := by
  obtain ⟨q, divided, value⟩ := sdiv64_eq nonzero inRange
  have rest : (n - d * q).toInt = n.toInt.tmod d.toInt := by
    rw [BitVec.toInt_sub, BitVec.toInt_mul, Int.sub_bmod_bmod, value, ← Int.tmod_def]
    apply Int.bmod_eq_of_le <;> omega
  refine ⟨((n - d * q).setWidth 32).signExtend 64, ?_, ?_⟩
  · rw [moddi3, smod64, divided]
    rfl
  · rw [toInt_narrowed (rest ▸ hf), rest]

theorem umoddi3_lt {r : BitVec 64} (reduced : umoddi3 n d = some r) : r.toNat < 2 ^ 32 := by
  obtain ⟨x, -, rfl⟩ := Option.map_eq_some_iff.mp reduced
  rw [BitVec.toNat_setWidth]
  omega

theorem moddi3_range {r : BitVec 64} (reduced : moddi3 n d = some r) :
    -2 ^ 31 ≤ r.toInt ∧ r.toInt < 2 ^ 31 := by
  obtain ⟨x, -, rfl⟩ := Option.map_eq_some_iff.mp reduced
  rw [BitVec.toInt_signExtend_of_le (by decide)]
  exact ⟨BitVec.le_toInt x, BitVec.toInt_lt⟩

/-- Just the remainders that fit in the 32-bit types they pass through are exact. -/
theorem remainder_exact (n d : BitVec 64) (nonzero : d ≠ 0) :
    ((umoddi3 n d).map BitVec.toNat = some (n.toNat - d.toNat * (n.toNat / d.toNat)) ↔
      n.toNat - d.toNat * (n.toNat / d.toNat) < 2 ^ 32) ∧
    (¬ Overflows n d →
      ((∃ q r, divdi3 n d = some q ∧ moddi3 n d = some r ∧
        r.toInt = n.toInt - d.toInt * n.toInt.tdiv d.toInt ∧
        r.toInt.natAbs < d.toInt.natAbs ∧ n.toInt = d.toInt * q.toInt + r.toInt) ↔
      -2 ^ 31 ≤ n.toInt - d.toInt * n.toInt.tdiv d.toInt ∧
        n.toInt - d.toInt * n.toInt.tdiv d.toInt < 2 ^ 31)) := by
  rw [← Nat.mod_eq_sub, ← Int.tmod_def]
  refine ⟨⟨fun exact_ => ?_, fun hf => ?_⟩, fun inRange => ⟨?_, fun hf => ?_⟩⟩
  · obtain ⟨r, reduced, value⟩ := Option.map_eq_some_iff.mp exact_
    exact value ▸ umoddi3_lt reduced
  · obtain ⟨r, reduced, value⟩ := umoddi3_eq nonzero hf
    rw [reduced, Option.map_some, value]
  · rintro ⟨_, r, _, reduced, value, _⟩
    exact value ▸ moddi3_range reduced
  · obtain ⟨q, divided, quotient⟩ := sdiv64_eq nonzero inRange
    obtain ⟨r, reduced, value⟩ := moddi3_eq nonzero inRange hf
    have divisor : d.toInt ≠ 0 := fun zero => nonzero (BitVec.eq_of_toInt_eq zero)
    refine ⟨q, r, divided, reduced, value, ?_, ?_⟩
    · rw [value, Int.natAbs_tmod]
      exact Nat.mod_lt _ (Int.natAbs_pos.mpr divisor)
    · rw [quotient, value, Int.mul_tdiv_add_tmod]

theorem remainder_exact_small :
    (umoddi3 (BitVec.ofNat 64 (2 ^ 63 + 5)) 7).map BitVec.toNat = some ((2 ^ 63 + 5) % 7) ∧
      ∃ q r, divdi3 (BitVec.ofNat 64 (2 ^ 63 + 5)) 7 = some q ∧
        moddi3 (BitVec.ofNat 64 (2 ^ 63 + 5)) 7 = some r ∧ r.toInt = -3 ∧ r.toInt.natAbs < 7 ∧
        -2 ^ 63 + 5 = 7 * q.toInt + r.toInt :=
  ⟨(remainder_exact (BitVec.ofNat 64 (2 ^ 63 + 5)) 7 (by decide)).1.mpr (by decide),
    ((remainder_exact (BitVec.ofNat 64 (2 ^ 63 + 5)) 7 (by decide)).2 (by decide)).mpr (by decide)⟩

/-- `2^32` modulo `2^33`, in both versions: the remainder loses its upper word. -/
theorem remainder_truncated :
    umoddi3 (2 ^ 32) (2 ^ 33) = some 0 ∧ moddi3 (2 ^ 32) (2 ^ 33) = some 0 ∧
      (2 ^ 32 : Nat) - 2 ^ 33 * (2 ^ 32 / 2 ^ 33) = 2 ^ 32 := by
  decide

end Pintos.Arithmetic
