import Mathlib.Algebra.Order.Ring.Int

/-!
The 17.14 fixed-point macros of `threads/fixed-point.h`. C division truncates
toward zero. The macros that cast to `int64_t` compute without loss here; the
result narrows when it is stored in an `int` (`int32`).
-/

namespace Pintos.Threads

/-- Storing a value in an `int`. -/
def int32 (x : Int) : Int := Int.bmod x (2 ^ 32)

/-- The values of an `int`. -/
def Fits (x : Int) : Prop := -2 ^ 31 ≤ x ∧ x < 2 ^ 31

theorem int32_of_fits {x : Int} (hf : Fits x) : int32 x = x := by
  obtain ⟨low, high⟩ := hf
  unfold int32
  apply Int.bmod_eq_of_le <;> omega

def fpF : Int := 2 ^ 14

def fpFromInt (n : Int) : Int := n * fpF

def fpToIntNear (x : Int) : Int :=
  if x ≥ 0 then (x + fpF / 2).tdiv fpF else (x - fpF / 2).tdiv fpF

def fpAdd (x y : Int) : Int := x + y

def fpAddInt (x n : Int) : Int := x + n * fpF

def fpMul (x y : Int) : Int := (x * y).tdiv fpF

def fpDiv (x y : Int) : Int := (x * fpF).tdiv y

def fpMulInt (x n : Int) : Int := x * n

def fpDivInt (x n : Int) : Int := x.tdiv n

end Pintos.Threads
