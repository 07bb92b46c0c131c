import Mathlib.Algebra.Order.Ring.Abs
import Pintos.Threads.LoadAverage

/-!
# Recent CPU time

`recent_cpu` grows by one with every tick of the running thread and is scaled by
`2 load_avg / (2 load_avg + 1)` once a second, so it stays within `120 (2 N + 1)` when at most `N`
threads are ready or running. That is far from the limits of an `int`; a hundred times as much,
which `thread_get_recent_cpu` computes, is not.
-/

namespace Pintos.Threads

open List

/-- The ticks of a running thread, on its `recent_cpu`. -/
def charged : Nat → Int → Int
  | 0, x => x
  | m + 1, x => int32 (fpAddInt (charged m x) 1)

/-- What is stored in `recent_cpu`, before it is narrowed to an `int`. -/
def recentCpuSum (loadAvg recentCpu nice : Int) : Int :=
  let twiceLoad := int32 (fpMulInt loadAvg 2)
  let coeff := int32 (fpDiv twiceLoad (fpAddInt twiceLoad 1))
  fpAddInt (fpMul coeff recentCpu) nice

namespace Kernel

def threadGetRecentCpu (k : Kernel) : Int := hundredfold (k.thread k.current).recentCpu

section
variable {k : Kernel} {t u : ThreadPtr}

theorem mlfqsCalcRecentCpu_self (hb : k.idleThread ≠ some t) :
    ((mlfqsCalcRecentCpu k t).thread t).recentCpu =
      int32 (recentCpuSum k.loadAvg (k.thread t).recentCpu (k.thread t).nice) := by
  simp [mlfqsCalcRecentCpu, hb, modify_thread, recentCpuSum]

theorem mlfqsCalcRecentCpu_other (ne : t ≠ u) : (mlfqsCalcRecentCpu k u).thread t = k.thread t := by
  unfold mlfqsCalcRecentCpu
  split
  · rfl
  · rw [modify_thread, if_neg ne]

theorem foldl_recentCpu_other {all : List ThreadPtr} (ha : t ∉ all) :
    (all.foldl mlfqsCalcRecentCpu k).thread t = k.thread t := by
  induction all generalizing k with
  | nil => rfl
  | cons u all ih =>
    rw [foldl_cons, ih (fun mem => ha (mem_cons_of_mem u mem))]
    exact mlfqsCalcRecentCpu_other fun eq => ha (eq ▸ (.head _))

/-- `thread_foreach` comes to a thread once. -/
theorem foldl_recentCpu {all : List ThreadPtr} (distinct : all.Nodup) (hl : t ∈ all)
    (hb : k.idleThread ≠ some t) :
    ((all.foldl mlfqsCalcRecentCpu k).thread t).recentCpu =
      int32 (recentCpuSum k.loadAvg (k.thread t).recentCpu (k.thread t).nice) := by
  induction all generalizing k with
  | nil => cases hl
  | cons u all ih =>
    obtain ⟨ha, distinct⟩ := nodup_cons.mp distinct
    rw [foldl_cons]
    by_cases h : t = u
    · subst h
      rw [foldl_recentCpu_other ha, mlfqsCalcRecentCpu_self hb]
    · have later : t ∈ all := (mem_cons.mp hl).resolve_left h
      have hi : (mlfqsCalcRecentCpu k u).idleThread = k.idleThread := by
        unfold mlfqsCalcRecentCpu
        split <;> rfl
      rw [ih distinct later (hi ▸ hb), mlfqsCalcRecentCpu_loadAvg, mlfqsCalcRecentCpu_other h]

theorem mlfqsUpdate_recentCpu (distinct : k.allList.Nodup) (hl : t ∈ k.allList)
    (hb : k.idleThread ≠ some t) :
    (k.mlfqsUpdateLoadAvgAndRecentCpu.thread t).recentCpu =
      int32 (recentCpuSum k.nextLoadAvg (k.thread t).recentCpu (k.thread t).nice) := by
  rw [mlfqsUpdate_eq]
  exact foldl_recentCpu distinct hl hb

end

end Kernel

/-! ## The range of `recent_cpu` -/

/-- With `load_avg` at most `N`, the coefficient is at most `2 N / (2 N + 1)`. -/
theorem coefficient_le {load N : Int} (nonneg : 0 ≤ load) (le : load ≤ fpF * N) :
    0 ≤ fpDiv (2 * load) (2 * load + fpF) ∧
      fpDiv (2 * load) (2 * load + fpF) * (2 * N + 1) ≤ 2 * N * fpF := by
  unfold fpDiv fpF at *
  rw [Int.tdiv_eq_ediv_of_nonneg (by positivity)]
  have division : 2 * load * 2 ^ 14 / (2 * load + 2 ^ 14) * (2 * load + 2 ^ 14) ≤
    2 * load * 2 ^ 14 :=
    Int.ediv_mul_le _ (by omega)
  have pos : 0 ≤ 2 * load * 2 ^ 14 / (2 * load + 2 ^ 14) := by positivity
  generalize 2 * load * 2 ^ 14 / (2 * load + 2 ^ 14) = c at *
  refine ⟨pos, ?_⟩
  have hs : c ≤ 2 ^ 14 := by
    by_contra large
    nlinarith
  have scaled : c * 2 ^ 14 ≤ 2 * (2 ^ 14 * N) * (2 ^ 14 - c) := by nlinarith
  nlinarith

/-- A truncated product with a coefficient of parts of 2^14. -/
theorem fpMul_abs_le {c x bound : Int} (nonneg : 0 ≤ c) (range : |x| ≤ bound) :
    |fpMul c x| * fpF ≤ c * bound := by
  have truncated : (fpMul c x).natAbs * fpF.natAbs ≤ (c * x).natAbs := by
    unfold fpMul
    rw [Int.natAbs_tdiv]
    exact Nat.div_mul_le_self ..
  calc |fpMul c x| * fpF = ((fpMul c x).natAbs * fpF.natAbs : Nat) := by
        rw [Nat.cast_mul, Int.natCast_natAbs, Int.natCast_natAbs]
        rfl
    _ ≤ ((c * x).natAbs : Nat) := by exact_mod_cast truncated
    _ = c * |x| := by rw [Int.natCast_natAbs, abs_mul, abs_of_nonneg nonneg]
    _ ≤ c * bound := Int.mul_le_mul_of_nonneg_left range nonneg

/-- The most that `recent_cpu` comes to right after an update. -/
def cpuLimit (N : Int) : Int := fpF * (240 * N + 20)

theorem recentCpuSum_abs_le {load N x nice : Int} (nonneg : 0 ≤ load) (le : load ≤ fpF * N)
    (few : N ≤ 100) (range : |x| ≤ cpuLimit N + 100 * fpF) (polite : |nice| ≤ 20) :
    |recentCpuSum load x nice| ≤ cpuLimit N := by
  obtain ⟨coeffNonneg, coeffLe⟩ := coefficient_le nonneg le
  have doubled : int32 (fpMulInt load 2) = 2 * load := by
    rw [fpMulInt, int32_of_fits (by unfold Fits fpF at *; omega), Int.mul_comm]
  unfold recentCpuSum
  dsimp only
  rw [doubled, show fpAddInt (2 * load) 1 = 2 * load + fpF by simp [fpAddInt]]
  generalize fpDiv (2 * load) (2 * load + fpF) = c at *
  have count : 0 ≤ N := by
    unfold fpF at le
    omega
  have hs : c ≤ fpF := by
    unfold fpF at *
    nlinarith
  rw [int32_of_fits (by unfold Fits fpF at *; omega)]
  have product : |fpMul c x| ≤ 240 * N * fpF := by
    have scaled := fpMul_abs_le coeffNonneg range
    have limit : c * (cpuLimit N + 100 * fpF) = 120 * (c * (2 * N + 1)) * fpF := by
      unfold cpuLimit
      ring
    have hb : |fpMul c x| * fpF ≤ 240 * N * fpF * fpF := by
      calc |fpMul c x| * fpF ≤ 120 * (c * (2 * N + 1)) * fpF := limit ▸ scaled
        _ ≤ 120 * (2 * N * fpF) * fpF := by
          apply Int.mul_le_mul_of_nonneg_right _ (by decide)
          omega
        _ = 240 * N * fpF * fpF := by ring
    exact Int.le_of_mul_le_mul_right hb (by decide)
  calc |fpAddInt (fpMul c x) nice| ≤ |fpMul c x| + |nice * fpF| := abs_add_le ..
    _ = |fpMul c x| + |nice| * fpF := by rw [abs_mul, abs_of_nonneg (show 0 ≤ fpF by decide)]
    _ ≤ 240 * N * fpF + 20 * fpF :=
      Int.add_le_add product (Int.mul_le_mul_of_nonneg_right polite (by decide))
    _ = cpuLimit N := by unfold cpuLimit; ring

theorem charged_eq {x : Int} {m : Nat} {N : Int} (range : |x| ≤ cpuLimit N) (few : N ≤ 100)
    (ticks : m ≤ 100) : charged m x = x + m * fpF := by
  induction m with
  | zero => simp [charged]
  | succ m ih =>
    rw [charged, ih (by omega), int32_of_fits]
    · unfold fpAddInt
      push_cast
      ring
    · have := abs_le.mp range
      unfold Fits fpAddInt cpuLimit fpF at *
      omega

/-- The accounts of the threads when update `i` is made: since the update before, or since it was
created, a thread has been charged for at most 100 ticks. -/
structure Accounts (before : Nat → Kernel) (N : Nat) : Prop extends Loads before N where
  nice : ∀ i, ∀ t ∈ (before i).allList, |((before i).thread t).nice| ≤ 20
  distinct : ∀ i, (before i).allList.Nodup
  first : ∀ t ∈ (before 0).allList, ∃ m ≤ 100, ((before 0).thread t).recentCpu = charged m 0
  next : ∀ i, ∀ t ∈ (before (i + 1)).allList,
    (∃ m ≤ 100, ((before (i + 1)).thread t).recentCpu = charged m 0) ∨
    t ∈ (before i).allList ∧ (before i).idleThread ≠ some t ∧
      ∃ m ≤ 100, ((before (i + 1)).thread t).recentCpu =
        charged m ((before i).mlfqsUpdateLoadAvgAndRecentCpu.thread t).recentCpu

namespace Accounts

variable {before : Nat → Kernel} {N : Nat} {t : ThreadPtr}

theorem charged_abs_le {x : Int} {m : Nat} {N : Int} (range : |x| ≤ cpuLimit N) (few : N ≤ 100)
    (ticks : m ≤ 100) : |charged m x| ≤ cpuLimit N + 100 * fpF := by
  rw [charged_eq range few ticks]
  have := abs_le.mp range
  unfold fpF at *
  rw [abs_le]
  omega

/-- What an update stores, given what it finds. -/
theorem updated (accounts : Accounts before N) (few : N ≤ 100) {i : Nat}
    (hl : t ∈ (before i).allList) (hb : (before i).idleThread ≠ some t)
    (range : |((before i).thread t).recentCpu| ≤ cpuLimit N + 100 * fpF) :
    ((before i).mlfqsUpdateLoadAvgAndRecentCpu.thread t).recentCpu =
        recentCpuSum (before (i + 1)).loadAvg ((before i).thread t).recentCpu
          ((before i).thread t).nice ∧
      |((before i).mlfqsUpdateLoadAvgAndRecentCpu.thread t).recentCpu| ≤ cpuLimit N := by
  have close := accounts.toLoads.close (by omega) (i + 1)
  have most := close.le (exactLoad_le accounts.few (i + 1))
  have limit := recentCpuSum_abs_le close.nonneg most (by omega) range (accounts.nice i t hl)
  have stored := Kernel.mlfqsUpdate_recentCpu (accounts.distinct i) hl hb
  rw [← Kernel.mlfqsUpdate_loadAvg, ← accounts.update, int32_of_fits] at stored
  · exact ⟨stored, stored ▸ limit⟩
  · have := abs_le.mp limit
    unfold Fits cpuLimit fpF at *
    omega

theorem range (accounts : Accounts before N) (few : N ≤ 100) (i : Nat)
    (hl : t ∈ (before i).allList) :
    |((before i).thread t).recentCpu| ≤ cpuLimit N + 100 * fpF := by
  have zero : |(0 : Int)| ≤ cpuLimit N := by
    unfold cpuLimit fpF
    rw [abs_zero]
    positivity
  induction i with
  | zero =>
    obtain ⟨m, ticks, start⟩ := accounts.first t hl
    exact start ▸ charged_abs_le zero (by omega) ticks
  | succ i ih =>
    cases accounts.next i t hl with
    | inl created =>
      obtain ⟨m, ticks, start⟩ := created
      exact start ▸ charged_abs_le zero (by omega) ticks
    | inr old =>
      obtain ⟨earlier, hb, m, ticks, eq⟩ := old
      have limit := (accounts.updated few earlier hb (ih earlier)).2
      exact eq ▸ charged_abs_le limit (by omega) ticks

end Accounts

/-! ## The report -/

/-- `recent_cpu` stays in range, and the report is exact while the hundredfold fits, which it does
as long as no more than four threads are ready or running. -/
theorem recent_cpu_reported {before : Nat → Kernel} {N : Nat} (few : N ≤ 100)
    (accounts : Accounts before N) (i : Nat) {t : ThreadPtr} (listed : t ∈ (before i).allList) :
    |((before i).thread t).recentCpu| ≤ fpF * (240 * N + 120) ∧
      ((before i).idleThread ≠ some t →
        ((before i).mlfqsUpdateLoadAvgAndRecentCpu.thread t).recentCpu =
          recentCpuSum (before (i + 1)).loadAvg ((before i).thread t).recentCpu
            ((before i).thread t).nice ∧
        ∀ m ≤ 100, charged m ((before i).mlfqsUpdateLoadAvgAndRecentCpu.thread t).recentCpu =
          ((before i).mlfqsUpdateLoadAvgAndRecentCpu.thread t).recentCpu + m * fpF) ∧
      (|((before i).thread t).recentCpu| ≤ 21474754 ∨ N ≤ 4 → (before i).current = t →
        |fpF * (before i).threadGetRecentCpu - 100 * ((before i).thread t).recentCpu| ≤
          fpF / 2) := by
  have range := accounts.range few i listed
  refine ⟨?_, ?_, ?_⟩
  · unfold cpuLimit fpF at *
    omega
  · intro hb
    obtain ⟨stored, limit⟩ := accounts.updated few listed hb range
    exact ⟨stored, fun m ticks => charged_eq limit (by omega) ticks⟩
  · intro hs current
    rw [Kernel.threadGetRecentCpu, current]
    apply hundredfold_near
    cases hs with
    | inl hf => exact hf
    | inr four =>
      apply le_trans range
      unfold cpuLimit fpF
      omega

/-- `load_avg` and `recent_cpu` in the crowd, every thread being charged for one tick a second. -/
def crowdAccount (n : Nat) (nice : Int) : Nat → Int × Int
  | 0 => (0, charged 1 0)
  | i + 1 =>
    let account := crowdAccount n nice i
    let load := (crowd n nice account).nextLoadAvg
    (load, charged 1 (int32 (recentCpuSum load account.2 nice)))

theorem crowd_accounts (n : Nat) (nice : Int) (populated : 0 < n) (polite : |nice| ≤ 20) :
    Accounts (fun i => crowd n nice (crowdAccount n nice i)) n where
  start := rfl
  update i := by rw [Kernel.mlfqsUpdate_loadAvg]; rfl
  few i := (crowd_readyThreads populated ..).le
  nice _ _ _ := polite
  distinct _ := nodup_range'
  first _ _ := ⟨1, by decide, rfl⟩
  next i t hl := by
    have range := mem_range'_1.mp hl
    have hb : (crowd n nice (crowdAccount n nice i)).idleThread ≠ some t := by
      intro hi
      have : (0 : Nat) = t := Option.some.inj hi
      omega
    have h : t ∈ (crowd n nice (crowdAccount n nice i)).allList := hl
    refine .inr ⟨h, hb, 1, by decide, ?_⟩
    rw [Kernel.mlfqsUpdate_recentCpu nodup_range' h hb]
    rfl

theorem recent_cpu_reported_alone :
    |fpF * (crowd 1 0 (crowdAccount 1 0 3)).threadGetRecentCpu -
      100 * (crowdAccount 1 0 3).2| ≤ fpF / 2 :=
  (recent_cpu_reported (t := 1) (by decide) (crowd_accounts 1 0 (by decide) (by decide)) 3
    (by decide)).2.2 (.inr (by decide)) rfl

/-- A hundred threads with `nice` 20: after 90 updates `recent_cpu` is above 1315, and the report
is negative. -/
theorem recent_cpu_report_overflows :
    Accounts (fun i => crowd 100 20 (crowdAccount 100 20 i)) 100 ∧
      crowdAccount 100 20 90 = (1274602, 21559671) ∧
      (crowd 100 20 (crowdAccount 100 20 90)).threadGetRecentCpu = -130554 ∧
      100 * 21559671 / fpF = 131589 := by
  have account : crowdAccount 100 20 90 = (1274602, 21559671) := by decide +kernel
  refine ⟨crowd_accounts 100 20 (by decide) (by decide), account, ?_, by decide⟩
  rw [account]
  decide

end Pintos.Threads
