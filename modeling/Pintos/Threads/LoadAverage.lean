import Mathlib.Tactic.Linarith
import Mathlib.Tactic.Ring
import Pintos.Threads.Frame

/-!
# The load average

`load_avg` is multiplied by 59/60 and raised by 1/60 of the ready threads once a second, with both
fractions and every product truncated. What is lost stays bounded however often that is done: the
loss of one update is at most `N + 1`, and one sixtieth of the loss so far is forgotten.
-/

namespace Pintos.Threads

namespace Kernel

/-- The threads that are ready or running, without the idle thread. -/
def readyThreads (k : Kernel) : Nat :=
  k.readyList.length + if k.idleThread = some k.current then 0 else 1

/-- What is stored in `load_avg`, before it is narrowed to an `int`. -/
def loadAvgSum (k : Kernel) : Int :=
  fpAdd (fpMul (fpDiv (fpFromInt 59) (fpFromInt 60)) k.loadAvg)
    (fpMulInt (fpDiv (fpFromInt 1) (fpFromInt 60)) k.readyThreads)

/-- `FP_TO_INT_NEAR (FP_MUL_INT (x, 100))`, in the arithmetic of `int`. -/
def hundredfold (x : Int) : Int :=
  let y := int32 (fpMulInt x 100)
  if y ≥ 0 then (int32 (y + fpF / 2)).tdiv fpF else (int32 (y - fpF / 2)).tdiv fpF

def threadGetLoadAvg (k : Kernel) : Int := hundredfold k.loadAvg

def nextLoadAvg (k : Kernel) : Int := if int32 k.loadAvgSum < 0 then 0 else int32 k.loadAvgSum

theorem mlfqsUpdate_eq (k : Kernel) :
    k.mlfqsUpdateLoadAvgAndRecentCpu =
      { k with loadAvg := k.nextLoadAvg }.threadForeach mlfqsCalcRecentCpu := by
  have count : (k.readyList.length : Int) + (if k.idleThread = some k.current then 0 else 1) =
      (k.readyThreads : Int) := by
    unfold readyThreads
    split <;> simp
  unfold mlfqsUpdateLoadAvgAndRecentCpu
  dsimp only
  rw [count]
  rfl

theorem mlfqsCalcRecentCpu_loadAvg (k : Kernel) (t : ThreadPtr) :
    (mlfqsCalcRecentCpu k t).loadAvg = k.loadAvg := by
  unfold mlfqsCalcRecentCpu
  split <;> rfl

theorem mlfqsUpdate_loadAvg (k : Kernel) :
    k.mlfqsUpdateLoadAvgAndRecentCpu.loadAvg = k.nextLoadAvg := by
  rw [mlfqsUpdate_eq, threadForeach_keep loadAvg mlfqsCalcRecentCpu_loadAvg]

/-- The fractions 59/60 and 1/60 are 16110 and 273 parts of 2^14. -/
theorem loadAvgSum_eq (k : Kernel) (nonneg : 0 ≤ k.loadAvg) :
    k.loadAvgSum = 16110 * k.loadAvg / 2 ^ 14 + 273 * k.readyThreads := by
  unfold loadAvgSum fpAdd fpMulInt fpMul
  rw [show fpDiv (fpFromInt 59) (fpFromInt 60) = 16110 by decide,
    show fpDiv (fpFromInt 1) (fpFromInt 60) = 273 by decide, Int.tdiv_eq_ediv_of_nonneg (by omega)]
  rfl

end Kernel

/-- The load average of the counts `n 0`, `n 1`, …, without rounding. -/
def exactLoad (n : Nat → Nat) : Nat → Rat
  | 0 => 0
  | i + 1 => 59 / 60 * exactLoad n i + n i / 60

theorem exactLoad_le {n : Nat → Nat} {N : Nat} (few : ∀ i, n i ≤ N) (i : Nat) :
    exactLoad n i ≤ N := by
  induction i with
  | zero => simp [exactLoad]
  | succ i ih =>
    have count : (n i : Rat) ≤ N := by exact_mod_cast few i
    rw [exactLoad]
    linarith

/-- The kernel when update `i` is made, with at most `N` threads ready or running. -/
structure Loads (before : Nat → Kernel) (N : Nat) : Prop where
  start : (before 0).loadAvg = 0
  update : ∀ i, (before (i + 1)).loadAvg = (before i).mlfqsUpdateLoadAvgAndRecentCpu.loadAvg
  few : ∀ i, (before i).readyThreads ≤ N

namespace Loads

variable {before : Nat → Kernel} {N : Nat}

/-- What holds of the load average `x` when `exact` is the one without rounding. -/
structure Close (N : Nat) (exact : Rat) (x : Int) : Prop where
  nonneg : 0 ≤ x
  below : (x : Rat) ≤ 2 ^ 14 * exact
  near : 2 ^ 14 * exact - x ≤ 60 * (N + 1)

theorem Close.le {exact : Rat} {x : Int} (close : Close N exact x) (most : exact ≤ N) :
    x ≤ 2 ^ 14 * N := by
  have : (x : Rat) ≤ 2 ^ 14 * N := close.below.trans (by linarith)
  exact_mod_cast this

/-- One update loses at most `N + 1`: the fractions lose `56 N / 60` and `4 N / 60`, the product
less than 1. -/
theorem Close.step {exact : Rat} {k : Kernel} (close : Close N exact k.loadAvg) (most : exact ≤ N)
    (few : k.readyThreads ≤ N) : Close N (59 / 60 * exact + k.readyThreads / 60) k.loadAvgSum := by
  have sum := k.loadAvgSum_eq close.nonneg
  have nonneg := close.nonneg
  generalize product : 16110 * k.loadAvg / 2 ^ 14 = p at sum
  have truncated : (p : Rat) * 2 ^ 14 ≤ 16110 * k.loadAvg ∧
      16110 * (k.loadAvg : Rat) ≤ p * 2 ^ 14 + 2 ^ 14 := by
    constructor <;> (norm_cast; omega)
  have range : (k.loadAvg : Rat) ≤ 2 ^ 14 * N := close.below.trans (by linarith)
  have count : (k.readyThreads : Rat) ≤ N := by exact_mod_cast few
  have hc : (0 : Rat) ≤ k.readyThreads := Nat.cast_nonneg _
  have lower : (0 : Rat) ≤ k.loadAvg := by exact_mod_cast nonneg
  have hb := close.below
  have near := close.near
  constructor
  · rw [sum]
    omega
  · rw [sum]
    push_cast
    linarith
  · rw [sum]
    push_cast
    linarith

theorem close (loads : Loads before N) (bounded : N ≤ 1300) (i : Nat) :
    Close N (exactLoad (fun j => (before j).readyThreads) i) (before i).loadAvg := by
  induction i with
  | zero =>
    rw [loads.start]
    exact ⟨le_rfl, by simp [exactLoad], by simp [exactLoad]; positivity⟩
  | succ i ih =>
    have next := ih.step (exactLoad_le loads.few i) (loads.few i)
    have range := next.le (exactLoad_le loads.few (i + 1))
    have nonneg := next.nonneg
    have hf : Fits (before i).loadAvgSum := ⟨by omega, by omega⟩
    rw [loads.update, Kernel.mlfqsUpdate_loadAvg, Kernel.nextLoadAvg, int32_of_fits hf,
      if_neg (by omega)]
    exact next

end Loads

/-- As long as the hundredfold fits, the report is the nearest integer. -/
theorem hundredfold_near {x : Int} (range : |x| ≤ 21474754) :
    |fpF * Kernel.hundredfold x - 100 * x| ≤ fpF / 2 := by
  have bounds := abs_le.mp range
  unfold Kernel.hundredfold fpMulInt
  rw [int32_of_fits (by unfold Fits; omega)]
  dsimp only
  split
  · rw [int32_of_fits (by unfold Fits fpF; omega), Int.tdiv_eq_ediv_of_nonneg
      (by unfold fpF; omega)]
    unfold fpF
    rw [abs_le]
    omega
  · rw [int32_of_fits (by unfold Fits fpF; omega)]
    have negated : x * 100 - fpF / 2 = -(-(x * 100) + fpF / 2) := by omega
    rw [negated, Int.neg_tdiv, Int.tdiv_eq_ediv_of_nonneg (by unfold fpF; omega)]
    unfold fpF
    rw [abs_le]
    omega

/-- The load average stays within `60 (N + 1)` parts of 2^14 below the exact one, neither its update
nor its report overflows, and the report is the nearest integer. -/
theorem load_average_accurate {before : Nat → Kernel} {N : Nat} (bounded : N ≤ 1300)
    (loads : Loads before N) (i : Nat) :
    0 ≤ 2 ^ 14 * exactLoad (fun j => (before j).readyThreads) i - (before i).loadAvg ∧
      2 ^ 14 * exactLoad (fun j => (before j).readyThreads) i - (before i).loadAvg ≤ 60 * (N + 1) ∧
      0 ≤ (before i).loadAvg ∧ (before i).loadAvg ≤ 2 ^ 14 * N ∧
      0 ≤ (before i).loadAvgSum ∧ Fits (before i).loadAvgSum ∧
      Fits (fpMulInt (before i).loadAvg 100) ∧
      Fits (fpMulInt (before i).loadAvg 100 + fpF / 2) ∧
      |fpF * (before i).threadGetLoadAvg - 100 * (before i).loadAvg| ≤ fpF / 2 := by
  have close := loads.close bounded i
  have most := exactLoad_le loads.few i
  have range := close.le most
  have nonneg := close.nonneg
  have next := close.step most (loads.few i)
  have nextRange := next.le (exactLoad_le loads.few (i + 1))
  have nextNonneg := next.nonneg
  have report : |fpF * (before i).threadGetLoadAvg - 100 * (before i).loadAvg| ≤ fpF / 2 :=
    hundredfold_near (abs_le.mpr ⟨by omega, by omega⟩)
  refine ⟨by linarith [close.below], close.near, nonneg, range, nextNonneg, ?_, ?_, ?_, report⟩
  all_goals
    unfold Fits
    try unfold fpMulInt
    try unfold fpF
    omega

/-- An idle thread 0 and the threads 1 to `n`, all of them ready or running with one `nice` and one
`recent_cpu`. -/
def crowd (n : Nat) (nice : Int) (account : Int × Int) : Kernel where
  thread _ := { nice, recentCpu := account.2 }
  created := n + 1
  current := 1
  idleThread := some 0
  readyList := List.range' 2 (n - 1)
  allList := List.range' 1 n
  sleepList := []
  sema _ := ⟨0, []⟩
  holder _ := none
  condWaiters _ := []
  nextTid := 1
  mlfqs := true
  loadAvg := account.1
  ticks := 0
  currentTicks := 0
  threadTicks := 0

theorem crowd_readyThreads {n : Nat} (populated : 0 < n) (nice : Int) (account : Int × Int) :
    (crowd n nice account).readyThreads = n := by
  simp [Kernel.readyThreads, crowd]
  omega

def crowdLoad (n : Nat) : Nat → Int
  | 0 => 0
  | i + 1 => (crowd n 0 (crowdLoad n i, 0)).nextLoadAvg

theorem crowd_loads (n : Nat) (populated : 0 < n) :
    Loads (fun i => crowd n 0 (crowdLoad n i, 0)) n where
  start := rfl
  update i := by rw [Kernel.mlfqsUpdate_loadAvg]; rfl
  few i := (crowd_readyThreads populated ..).le

theorem load_average_accurate_crowd :
    0 ≤ crowdLoad 3 2 ∧ crowdLoad 3 2 ≤ 2 ^ 14 * 3 :=
  have accurate := load_average_accurate (N := 3) (by decide) (crowd_loads 3 (by decide)) 2
  ⟨accurate.2.2.1, accurate.2.2.2.1⟩

end Pintos.Threads
