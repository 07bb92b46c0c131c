import Pintos.Lib.Machine
import Pintos.Threads.Paging

/-!
# The page allocator

`threads/palloc.c` over `lib/kernel/bitmap.c`. Any number of calls are under way at a time. A call
tests, sets or clears one bit of a `used_map` in a step; `palloc_get_multiple` holds the lock of its
pool meanwhile and `palloc_free_multiple` does not.
-/

namespace Pintos.Palloc

open Pintos.Paging Machine Function

inductive Side where
  | kernel
  | user
  deriving DecidableEq

structure Pool where
  /-- The address of `used_map`. -/
  map : Nat
  base : Nat
  bitCnt : Nat

abbrev Layout := Side → Pool

/-! ### palloc_init -/

/-- What `start.S` stores in `init_ram_pages`, from the size of extended memory in kB. -/
def initRamPages (extended : Nat) : Nat := min (extended + 1024) 0x10000 >>> 2

def divRoundUp (x step : Nat) : Nat := (x + step - 1) / step

def bitmapBufSize (bitCnt : Nat) : Nat := 8 + 4 * divRoundUp bitCnt 32

def initPool (base pageCnt : Nat) (name : String) : Except String Pool :=
  let bmPages := divRoundUp (bitmapBufSize pageCnt) pgSize
  if bmPages > pageCnt then throw ("Not enough memory in " ++ name ++ " for bitmap.")
  else if bitmapBufSize (pageCnt - bmPages) ≤ bmPages * pgSize then
    pure { map := base, base := base + bmPages * pgSize, bitCnt := pageCnt - bmPages }
  else throw "block_size >= bitmap_buf_size (bit_cnt)"

/-- Free memory starts at 1 MB. -/
def freeStart : Nat := 1024 * 1024 + physBase

/-- `start.S` counts the first MB, so that RAM does not end before free memory starts. -/
def freePages (ramPages : Nat) : Nat := (ramPages * pgSize + physBase - freeStart) / pgSize

def userPages (ramPages : Nat) (userPageLimit : UInt32) : Nat :=
  min (freePages ramPages / 2) userPageLimit.toNat

def kernelPages (ramPages : Nat) (userPageLimit : UInt32) : Nat :=
  freePages ramPages - userPages ramPages userPageLimit

def pallocInit (ramPages : Nat) (userPageLimit : UInt32) : Except String Layout := do
  let kernel ← initPool freeStart (kernelPages ramPages userPageLimit) "kernel pool"
  let user ← initPool (freeStart + kernelPages ramPages userPageLimit * pgSize)
    (userPages ramPages userPageLimit) "user pool"
  pure fun side => match side with
    | .kernel => kernel
    | .user => user

def pageFromPool (pool : Pool) (page : Nat) : Bool :=
  decide (pgNo pool.base ≤ pgNo page ∧ pgNo page < pgNo pool.base + pool.bitCnt)

/-! ### Calls -/

/-- Where a call is: in `palloc_get_multiple` up to its `lock_release`, or in
`palloc_free_multiple`. -/
inductive Stage where
  | idle
  | acquiring (side : Side) (cnt : Nat)
  /-- In `bitmap_contains (b, i, cnt, true)`, at bit `i + j`. -/
  | scanning (side : Side) (cnt i j : Nat)
  | marking (side : Side) (cnt idx k : Nat)
  | releasing (side : Side) (cnt : Nat) (found : Option Nat)
  | checking (side : Side) (cnt idx k : Nat)
  | clearing (side : Side) (cnt idx k : Nat)
  | panicked

/-- A run of pages that was returned. -/
structure Grant where
  side : Side
  pages : Nat
  cnt : Nat
  deriving DecidableEq

structure Alloc where
  layout : Layout
  used : Side → Nat → Bool
  lock : Side → Option Nat
  stage : Nat → Stage
  outstanding : List Grant

inductive Event where
  | get (call : Nat) (side : Side) (cnt : Nat)
  | free (call : Nat) (grant : Grant)
  | step (call : Nat)

def setBit (used : Side → Nat → Bool) (side : Side) (bit : Nat) (value : Bool) :
    Side → Nat → Bool :=
  update used side (update (used side) bit value)

namespace Alloc

def moveTo (s : Alloc) (call : Nat) (stage : Stage) : Alloc :=
  { s with stage := update s.stage call stage }

/-- The loop of `bitmap_scan` at group `i`. -/
def scanFrom (s : Alloc) (side : Side) (cnt i : Nat) : Stage :=
  if i + cnt ≤ (s.layout side).bitCnt then .scanning side cnt i 0 else .releasing side cnt none

/-- `bitmap_all`, up to its first test, and the assertions about its range. -/
def checkFrom (s : Alloc) (side : Side) (cnt idx : Nat) : Stage :=
  if idx + cnt ≤ (s.layout side).bitCnt then .checking side cnt idx 0 else .panicked

/-- `palloc_free_multiple`, up to its first access to the bitmap. -/
def freeing (s : Alloc) (pages cnt : Nat) : Stage :=
  if pageFromPool (s.layout .kernel) pages then
    s.checkFrom .kernel cnt (pgNo pages - pgNo (s.layout .kernel).base)
  else if pageFromPool (s.layout .user) pages then
    s.checkFrom .user cnt (pgNo pages - pgNo (s.layout .user).base)
  else .panicked

def advance (s : Alloc) (call : Nat) : Option Alloc :=
  match s.stage call with
  | .idle => none
  | .acquiring side cnt =>
    if s.lock side = none then
      some { s.moveTo call (s.scanFrom side cnt 0) with lock := update s.lock side (some call) }
    else none
  | .scanning side cnt i j =>
    if j < cnt then
      if s.used side (i + j) then some (s.moveTo call (s.scanFrom side cnt (i + 1)))
      else some (s.moveTo call (.scanning side cnt i (j + 1)))
    else some (s.moveTo call (.marking side cnt i 0))
  | .marking side cnt idx k =>
    if k < cnt then
      some { s.moveTo call (.marking side cnt idx (k + 1)) with
        used := setBit s.used side (idx + k) true }
    else some (s.moveTo call (.releasing side cnt (some idx)))
  | .releasing side cnt found =>
    some { s.moveTo call .idle with
      lock := update s.lock side none
      outstanding := (found.map fun idx =>
        { side, pages := (s.layout side).base + pgSize * idx, cnt }).toList ++ s.outstanding }
  | .checking side cnt idx k =>
    if k < cnt then
      if s.used side (idx + k) then
        some (s.moveTo call (.checking side cnt idx (k + 1)))
      else some (s.moveTo call .panicked)
    else some (s.moveTo call (.clearing side cnt idx 0))
  | .clearing side cnt idx k =>
    if k < cnt then
      some { s.moveTo call (.clearing side cnt idx (k + 1)) with
        used := setBit s.used side (idx + k) false }
    else some (s.moveTo call .idle)
  | .panicked => none

def isIdle : Stage → Bool
  | .idle => true
  | _ => false

/-- A run may be freed once it was returned, and once. -/
def step (s : Alloc) : Event → Option Alloc
  | .get call side cnt =>
    if isIdle (s.stage call) then
      if cnt = 0 then some s else some (s.moveTo call (.acquiring side cnt))
    else none
  | .free call grant =>
    if isIdle (s.stage call) && decide (grant ∈ s.outstanding) then
      some { s.moveTo call (s.freeing grant.pages grant.cnt) with
        outstanding := s.outstanding.erase grant }
    else none
  | .step call => s.advance call

def boot (layout : Layout) : Alloc where
  layout
  used _ _ := false
  lock _ := none
  stage _ := .idle
  outstanding := []

end Alloc

/-! ### The pools -/

/-- The two pools and the pages of their bitmaps, one after the other. -/
@[grind cases] structure Layout.Separate (layout : Layout) : Prop where
  kernelMap : (layout .kernel).map + bitmapBufSize (layout .kernel).bitCnt ≤ (layout .kernel).base
  userMap : (layout .user).map + bitmapBufSize (layout .user).bitCnt ≤ (layout .user).base
  apart : (layout .kernel).base + pgSize * (layout .kernel).bitCnt ≤ (layout .user).map
  aligned : ∀ side, (layout side).base % pgSize = 0 ∧ (layout side).map % pgSize = 0

theorem bind_eq_ok {α β : Type} {m : Except String α} {f : α → Except String β} {b : β} :
    (m >>= f) = .ok b ↔ ∃ a, m = .ok a ∧ f a = .ok b := by
  cases m with
  | error e => simp [Bind.bind, Except.bind]
  | ok a => simp [Bind.bind, Except.bind]

theorem initPool_ok {base pageCnt : Nat} {name : String} {pool : Pool}
    (h : initPool base pageCnt name = .ok pool) (ha : base % pgSize = 0) :
    pool.map = base ∧ base + bitmapBufSize pool.bitCnt ≤ pool.base ∧ pool.base % pgSize = 0 ∧
      pool.base + pgSize * pool.bitCnt = base + pgSize * pageCnt := by
  unfold initPool at h
  dsimp only at h
  split_ifs at h with few he
  · cases h
    refine ⟨rfl, ?_, ?_, ?_⟩
    · dsimp only
      omega
    · dsimp only
      rw [Nat.add_mul_mod_self_right]
      exact ha
    · dsimp only
      have : pgSize * (pageCnt - divRoundUp (bitmapBufSize pageCnt) pgSize) +
          divRoundUp (bitmapBufSize pageCnt) pgSize * pgSize = pgSize * pageCnt := by
        rw [Nat.mul_comm _ pgSize, ← Nat.mul_add]
        congr 1
        omega
      omega

variable {layout : Layout}

theorem pallocInit_separate {ramPages : Nat} {limit : UInt32}
    (h : pallocInit ramPages limit = .ok layout) : layout.Separate := by
  have start : freeStart % pgSize = 0 := by decide
  unfold pallocInit at h
  generalize kernelPages ramPages limit = n at h
  obtain ⟨kernel, first, h⟩ := bind_eq_ok.mp h
  obtain ⟨user, second, h⟩ := bind_eq_ok.mp h
  cases h
  have next : (freeStart + n * pgSize) % pgSize = 0 := by
    rw [Nat.add_mul_mod_self_right]
    exact start
  obtain ⟨map, size, aligned, stop⟩ := initPool_ok first start
  obtain ⟨map', size', aligned', _⟩ := initPool_ok second next
  constructor
  case kernelMap => rwa [← map] at size
  case userMap => rwa [← map'] at size'
  case apart =>
    dsimp only
    rw [map', stop, Nat.mul_comm n]
  case aligned => grind

/-! ### Owners of bits -/

/-- A set bit belongs to a call that is under way or to a run that was returned. -/
inductive Owner where
  | call (call : Nat)
  | run (side : Side) (idx cnt : Nat)

/-- The bits that a call has set and not given away. -/
def Stage.Holds : Stage → Side → Nat → Prop
  | marking side _ idx k, p, b => p = side ∧ idx ≤ b ∧ b < idx + k
  | releasing side cnt (some idx), p, b => p = side ∧ idx ≤ b ∧ b < idx + cnt
  | checking side cnt idx _, p, b => p = side ∧ idx ≤ b ∧ b < idx + cnt
  | clearing side cnt idx k, p, b => p = side ∧ idx + k ≤ b ∧ b < idx + cnt
  | _, _, _ => False

def Stage.Locks : Stage → Side → Prop
  | scanning side .., p | marking side .., p | releasing side .., p => p = side
  | _, _ => False

/-- The run is not empty and in its pool, and the bits a scan has seen are still clear. -/
def Stage.Sound (layout : Layout) (used : Side → Nat → Bool) : Stage → Prop
  | idle => True
  | acquiring _ cnt => 0 < cnt
  | scanning side cnt i j => 0 < cnt ∧ i + cnt ≤ (layout side).bitCnt ∧ j ≤ cnt ∧
      ∀ m < j, used side (i + m) = false
  | marking side cnt idx k => 0 < cnt ∧ idx + cnt ≤ (layout side).bitCnt ∧ k ≤ cnt ∧
      ∀ m, k ≤ m → m < cnt → used side (idx + m) = false
  | releasing side cnt found => 0 < cnt ∧ ∀ idx, found = some idx → idx + cnt ≤ (layout side).bitCnt
  | checking side cnt idx k => 0 < cnt ∧ idx + cnt ≤ (layout side).bitCnt ∧ k ≤ cnt
  | clearing side cnt idx k => 0 < cnt ∧ idx + cnt ≤ (layout side).bitCnt ∧ k ≤ cnt
  | panicked => False

structure CallOk (s : Alloc) (owner : Side → Nat → Option Owner) (call : Nat) : Prop where
  holds : ∀ p b, (s.stage call).Holds p b → owner p b = some (.call call)
  locks : ∀ p, (s.stage call).Locks p → s.lock p = some call
  sound : (s.stage call).Sound s.layout s.used

/-- The run's bits belong to it. -/
def GrantOk (s : Alloc) (owner : Side → Nat → Option Owner) (g : Grant) : Prop :=
  ∃ idx, g.pages = (s.layout g.side).base + pgSize * idx ∧ 0 < g.cnt ∧
    idx + g.cnt ≤ (s.layout g.side).bitCnt ∧
    ∀ b, idx ≤ b → b < idx + g.cnt → owner g.side b = some (.run g.side idx g.cnt)

@[grind cases] structure Inv (s : Alloc) (owner : Side → Nat → Option Owner) : Prop where
  separate : s.layout.Separate
  used : ∀ p b w, owner p b = some w → s.used p b = true
  calls : ∀ call, CallOk s owner call
  grants : ∀ g ∈ s.outstanding, GrantOk s owner g
  once : s.outstanding.Nodup

variable {s s' : Alloc} {owner owner' : Side → Nat → Option Owner} {call other n : Nat}
  {side p : Side} {cnt idx i j k b : Nat} {used : Side → Nat → Bool} {stage : Stage}
  {w : Option Owner} {value : Bool} {g : Grant}

theorem Stage.Sound.mono {used' : Side → Nat → Bool} (hs : stage.Sound layout used)
    (clear : ∀ p, stage.Locks p → ∀ b, used p b = false → used' p b = false) :
    stage.Sound layout used' := by
  cases stage with
  | idle => trivial
  | acquiring side cnt => exact hs
  | scanning side cnt i j =>
    obtain ⟨pos, hi, hb, seen⟩ := hs
    exact ⟨pos, hi, hb, fun m lt => clear side rfl _ (seen m lt)⟩
  | marking side cnt idx k =>
    obtain ⟨pos, hi, hb, left⟩ := hs
    exact ⟨pos, hi, hb, fun m le lt => clear side rfl _ (left m le lt)⟩
  | releasing side cnt found => exact hs
  | checking side cnt idx k => exact hs
  | clearing side cnt idx k => exact hs
  | panicked => exact hs

/-- A call goes on as it was while other calls move. -/
theorem CallOk.frame (ok : CallOk s owner ne) (stage : s'.stage ne = s.stage ne)
    (layout : s'.layout = s.layout) (lock : ∀ p, s.lock p = some ne → s'.lock p = some ne)
    (clear : ∀ p, s.lock p = some ne → ∀ b, s.used p b = false → s'.used p b = false)
    (owned : ∀ p b, owner p b = some (.call ne) → owner' p b = some (.call ne)) :
    CallOk s' owner' ne where
  holds p b holds := owned p b (ok.holds p b (by rwa [stage] at holds))
  locks p locks := lock p (ok.locks p (by rwa [stage] at locks))
  sound := by
    rw [stage, layout]
    exact ok.sound.mono fun p locks => clear p (ok.locks p locks)

/-- Gives `n` bits to a new owner, or frees them. -/
def give (owner : Side → Nat → Option Owner) (side : Side) (idx n : Nat) (w : Option Owner) :
    Side → Nat → Option Owner :=
  fun p b => if p = side ∧ idx ≤ b ∧ b < idx + n then w else owner p b

theorem give_inside (low : idx ≤ b) (high : b < idx + n) : give owner side idx n w side b = w :=
  if_pos ⟨rfl, low, high⟩

/-- Bits of any other owner keep it. -/
theorem give_keeps {v : Owner} (owned : owner p b = some v)
    (ne : ∀ b, idx ≤ b → b < idx + n → owner side b ≠ some v) :
    give owner side idx n w p b = some v := by
  unfold give
  rw [if_neg]
  · exact owned
  · rintro ⟨rfl, low, high⟩
    exact ne b low high owned

theorem setBit_of_ne (ne : p ≠ side ∨ b ≠ k) : setBit used side k value p b = used p b := by
  unfold setBit
  by_cases eq : p = side
  · subst eq
    rw [update_self]
    apply update_of_ne
    simpa using ne
  · rw [update_of_ne eq]

theorem setBit_self : setBit used side k value side k = value := by
  unfold setBit
  rw [update_self, update_self]

/-- The runs that were returned keep their bits when others change hands. -/
theorem GrantOk.frame (ok : GrantOk s owner g) (layout : s'.layout = s.layout)
    (owned : ∀ b idx, owner g.side b = some (.run g.side idx g.cnt) →
      owner' g.side b = some (.run g.side idx g.cnt)) : GrantOk s' owner' g := by
  obtain ⟨idx, pages, pos, hi, bits⟩ := ok
  refine ⟨idx, by rw [layout, pages], pos, by rwa [layout], fun b low high => ?_⟩
  exact owned b idx (bits b low high)

/-- A scan at a group holds no bits yet. -/
theorem scanFrom_spec (side : Side) (pos : 0 < cnt) (i : Nat) :
    (∀ p b, ¬ (s.scanFrom side cnt i).Holds p b) ∧
    (∀ p, (s.scanFrom side cnt i).Locks p → p = side) ∧
      (s.scanFrom side cnt i).Sound s.layout s.used := by
  unfold Alloc.scanFrom
  split_ifs with hi
  · exact ⟨fun _ _ => id, fun _ => id, pos, hi, by omega, by simp⟩
  · exact ⟨fun _ _ => id, fun _ => id, pos, by simp⟩

namespace Inv

section
variable (inv : Inv s owner)
include inv

/-- The call that moves and the calls that do not. -/
theorem calls_of (stages : s'.stage = update s.stage call stage)
    (layout : s'.layout = s.layout)
    (holds : ∀ p b, stage.Holds p b → owner' p b = some (.call call))
    (locks : ∀ p, stage.Locks p → s'.lock p = some call) (hs : stage.Sound s.layout s'.used)
    (lock : ∀ ne, ne ≠ call → ∀ p, s.lock p = some ne → s'.lock p = some ne)
    (clear : ∀ ne, ne ≠ call → ∀ p, s.lock p = some ne →
      ∀ b, s.used p b = false → s'.used p b = false)
    (owned : ∀ ne, ne ≠ call → ∀ p b, owner p b = some (.call ne) →
      owner' p b = some (.call ne)) : ∀ ne, CallOk s' owner' ne := by
  intro ne
  by_cases eq : ne = call
  · subst eq
    have now : s'.stage ne = stage := by rw [stages, update_self]
    exact ⟨by rwa [now], by rwa [now], by rwa [now, layout]⟩
  · apply (inv.calls ne).frame _ layout (lock ne eq) (clear ne eq) (owned ne eq)
    rw [stages]
    exact update_of_ne eq ..

/-- A step that changes no bit. -/
theorem quiet
    (holds : ∀ p b, stage.Holds p b → (s.stage call).Holds p b)
    (locks : ∀ p, stage.Locks p → (s.stage call).Locks p)
    (hs : stage.Sound s.layout s.used) : Inv (s.moveTo call stage) owner where
  separate := inv.separate
  used := inv.used
  calls := inv.calls_of rfl rfl (fun p b held => (inv.calls call).holds p b (holds p b held))
    (fun p locked => (inv.calls call).locks p (locks p locked)) hs (fun _ _ _ h => h)
    (fun _ _ _ _ _ h => h) fun _ _ _ _ h => h
  grants := inv.grants
  once := inv.once

/-- Letting go of a lock leaves the locks of other calls. -/
theorem unlock {found : Option Nat} (now : s.stage call = .releasing side cnt found)
    (differ : ne ≠ call) (locked : s.lock p = some ne) : update s.lock side none p = some ne := by
  rw [update_of_ne]
  · exact locked
  · rintro rfl
    have mine := (inv.calls call).locks p (now ▸ rfl)
    rw [mine] at locked
    cases locked
    exact differ rfl

theorem acquire (stage : Stage) (free : s.lock side = none) (holds : ∀ p b, ¬ stage.Holds p b)
    (locks : ∀ p, stage.Locks p → p = side) (hs : stage.Sound s.layout s.used) :
    Inv { s.moveTo call stage with lock := update s.lock side (some call) } owner where
  separate := inv.separate
  used := inv.used
  calls := by
    refine inv.calls_of rfl rfl (fun p b held => absurd held (holds p b)) ?_ hs ?_
      (fun _ _ _ _ _ h => h) fun _ _ _ _ h => h
    · intro p locked
      rw [locks p locked]
      exact update_self ..
    · grind
  grants := inv.grants
  once := inv.once

theorem mark (now : s.stage call = .marking side cnt idx k) (more : k < cnt) :
    Inv { s.moveTo call (.marking side cnt idx (k + 1)) with
      used := setBit s.used side (idx + k) true }
      (give owner side (idx + k) 1 (some (.call call))) := by
  obtain ⟨holds, locks, hs⟩ := inv.calls call
  rw [now] at holds locks hs
  obtain ⟨pos, hi, hb, left⟩ := hs
  have locked := locks side rfl
  have vacant : ∀ b w, idx + k ≤ b → b < idx + k + 1 → owner side b ≠ some w := by grind
  constructor
  case separate => exact inv.separate
  case used =>
    intro p b w owned
    show setBit s.used side (idx + k) true p b = true
    by_cases at_bit : p = side ∧ b = idx + k
    · obtain ⟨rfl, rfl⟩ := at_bit
      exact setBit_self
    · rw [setBit_of_ne (by tauto)]
      apply inv.used p b w
      unfold give at owned
      rwa [if_neg (by rintro ⟨rfl, low, high⟩; exact at_bit ⟨rfl, by omega⟩)] at owned
  case calls =>
    refine inv.calls_of rfl rfl ?_ locks ⟨pos, hi, more, ?_⟩ (fun _ _ _ h => h) ?_ ?_
    · rintro p b ⟨rfl, low, high⟩
      by_cases last : b = idx + k
      · exact give_inside (by omega) (by omega)
      · exact give_keeps (holds p b ⟨rfl, low, by omega⟩) fun b low high => vacant b _ low high
    · intro m le lt
      show setBit s.used side (idx + k) true side (idx + m) = false
      rw [setBit_of_ne (.inr (by omega))]
      exact left m (by omega) lt
    · intro ne differ p locked' b clear
      have ha : p ≠ side := by
        rintro rfl
        rw [locked] at locked'
        cases locked'
        exact differ rfl
      show setBit s.used side (idx + k) true p b = false
      rw [setBit_of_ne (.inl ha)]
      exact clear
    · intro ne _ p b owned
      exact give_keeps owned fun b low high => vacant b _ low high
  case grants =>
    intro g mem
    apply (inv.grants g mem).frame rfl
    intro b idx' owned
    exact give_keeps owned fun b low high => vacant b _ low high
  case once => exact inv.once

theorem clear (now : s.stage call = .clearing side cnt idx k) (more : k < cnt) :
    Inv { s.moveTo call (.clearing side cnt idx (k + 1)) with
      used := setBit s.used side (idx + k) false }
      (give owner side (idx + k) 1 none) := by
  obtain ⟨holds, locks, hs⟩ := inv.calls call
  rw [now] at holds locks hs
  obtain ⟨pos, hi, hb⟩ := hs
  have mine : ∀ b w, idx + k ≤ b → b < idx + k + 1 → w ≠ .call call → owner side b ≠ some w := by
    intro b w low high differ owned
    rw [holds side b ⟨rfl, low, by omega⟩] at owned
    cases owned
    exact differ rfl
  constructor
  case separate => exact inv.separate
  case used =>
    intro p b w owned
    unfold give at owned
    split_ifs at owned with inside'
    show setBit s.used side (idx + k) false p b = true
    rw [setBit_of_ne]
    · exact inv.used p b w owned
    · by_contra both
      push Not at both
      exact inside' ⟨both.1, by omega, by omega⟩
  case calls =>
    refine inv.calls_of rfl rfl ?_ locks ⟨pos, hi, more⟩ (fun _ _ _ h => h) ?_ ?_
    · rintro p b ⟨rfl, low, high⟩
      unfold give
      rw [if_neg (by omega)]
      exact holds p b ⟨rfl, by omega, high⟩
    · intro ne _ p _ b free
      show setBit s.used side (idx + k) false p b = false
      by_cases at_bit : p = side ∧ b = idx + k
      · obtain ⟨rfl, rfl⟩ := at_bit
        exact setBit_self
      · rw [setBit_of_ne (by tauto)]
        exact free
    · intro ne differ p b owned
      exact give_keeps owned fun b low high => mine b _ low high (by simpa using differ)
  case grants =>
    intro g mem
    apply (inv.grants g mem).frame rfl
    intro b idx' owned
    exact give_keeps owned fun b low high => mine b _ low high (by simp)
  case once => exact inv.once

/-- `lock_release`, when nothing was found. -/
theorem giveUp (now : s.stage call = .releasing side cnt none) :
    Inv { s.moveTo call .idle with lock := update s.lock side none } owner where
  separate := inv.separate
  used := inv.used
  calls := by
    refine inv.calls_of rfl rfl (fun _ _ held => held.elim) (fun _ locked => locked.elim) trivial
      ?_ (fun _ _ _ _ _ h => h) fun _ _ _ _ h => h
    exact fun ne differ p locked => inv.unlock now differ locked
  grants := inv.grants
  once := inv.once

/-- `lock_release`, and the run is returned. -/
theorem release (now : s.stage call = .releasing side cnt (some idx)) :
    Inv { s.moveTo call .idle with
        lock := update s.lock side none
        outstanding :=
          { side, pages := (s.layout side).base + pgSize * idx, cnt } :: s.outstanding }
      (give owner side idx cnt (some (.run side idx cnt))) := by
  obtain ⟨holds, _, hs⟩ := inv.calls call
  rw [now] at holds hs
  obtain ⟨pos, hi⟩ := hs
  have mine : ∀ b w, idx ≤ b → b < idx + cnt → w ≠ .call call → owner side b ≠ some w := by
    intro b w low high differ owned
    rw [holds side b ⟨rfl, low, high⟩] at owned
    cases owned
    exact differ rfl
  constructor
  case separate => exact inv.separate
  case used =>
    intro p b w owned
    unfold give at owned
    split_ifs at owned with range
    · obtain ⟨rfl, low, high⟩ := range
      exact inv.used p b _ (holds p b ⟨rfl, low, high⟩)
    · exact inv.used p b w owned
  case calls =>
    refine inv.calls_of rfl rfl (fun _ _ held => held.elim) (fun _ locked => locked.elim) trivial
      ?_ (fun _ _ _ _ _ h => h) ?_
    · exact fun ne differ p locked => inv.unlock now differ locked
    · intro ne differ p b owned
      exact give_keeps owned fun b low high => mine b _ low high (by simpa using differ)
  case grants =>
    intro g mem
    rcases List.mem_cons.mp mem with rfl | mem
    · exact ⟨idx, rfl, pos, hi idx rfl, fun b low high => give_inside low high⟩
    · apply (inv.grants g mem).frame rfl
      intro b idx' owned
      exact give_keeps owned fun b low high => mine b _ low high (by simp)
  case once =>
    refine List.nodup_cons.mpr ⟨fun mem => ?_, inv.once⟩
    obtain ⟨idx', pages, _, _, bits⟩ := inv.grants _ mem
    have eq : idx' = idx := by
      have : pgSize * idx = pgSize * idx' := Nat.add_left_cancel pages
      exact (Nat.eq_of_mul_eq_mul_left (by decide) this).symm
    subst eq
    exact mine idx' _ (by omega) (by omega) (by simp) (bits idx' (by omega) (by simpa using pos))

/-- `palloc_free_multiple` finds the pool and the bits of a run. -/
theorem freeing_eq (pages : g.pages = (s.layout g.side).base + pgSize * idx)
    (pos : 0 < g.cnt) (hi : idx + g.cnt ≤ (s.layout g.side).bitCnt) :
    s.freeing g.pages g.cnt = .checking g.side g.cnt idx 0 := by
  obtain ⟨side, start, cnt⟩ := g
  dsimp only at *
  have ha := (inv.separate.aligned side).1
  unfold pgSize at ha pages
  have number : pgNo start = pgNo (s.layout side).base + idx := by
    rw [pgNo_eq, pgNo_eq, pages]
    omega
  have own : pageFromPool (s.layout side) start = true := by
    unfold pageFromPool
    rw [decide_eq_true_iff, number]
    omega
  have checks : s.checkFrom side cnt (pgNo start - pgNo (s.layout side).base) =
      .checking side cnt idx 0 := by
    unfold Alloc.checkFrom
    rw [number, Nat.add_sub_cancel_left, if_pos hi]
  unfold Alloc.freeing
  cases side with
  | kernel => rw [if_pos own, checks]
  | user =>
    have foreign : pageFromPool (s.layout .kernel) start = false := by
      have ne := inv.separate.apart
      have above := inv.separate.userMap
      have aligned' := (inv.separate.aligned .kernel).1
      unfold pgSize at ne aligned'
      unfold pageFromPool
      rw [decide_eq_false_iff_not, number, pgNo_eq, pgNo_eq]
      omega
    rw [foreign, if_neg (by simp), if_pos own, checks]

theorem free (mem : g ∈ s.outstanding) : ∃ owner',
    Inv { s.moveTo call (s.freeing g.pages g.cnt) with outstanding := s.outstanding.erase g }
      owner' := by
  obtain ⟨idx, pages, pos, hi, bits⟩ := inv.grants g mem
  rw [inv.freeing_eq pages pos hi]
  have mine : ∀ b w, idx ≤ b → b < idx + g.cnt → w ≠ .run g.side idx g.cnt →
      owner g.side b ≠ some w := by
    intro b w low high differ owned
    rw [bits b low high] at owned
    cases owned
    exact differ rfl
  refine ⟨give owner g.side idx g.cnt (some (.call call)), ?_⟩
  constructor
  case separate => exact inv.separate
  case used =>
    intro p b w owned
    unfold give at owned
    split_ifs at owned with range
    · obtain ⟨rfl, low, high⟩ := range
      exact inv.used _ b _ (bits b low high)
    · exact inv.used p b w owned
  case calls =>
    refine inv.calls_of rfl rfl ?_ (fun _ locked => locked.elim) ⟨pos, hi, by omega⟩
      (fun _ _ _ h => h) (fun _ _ _ _ _ h => h) ?_
    · rintro p b ⟨rfl, low, high⟩
      exact give_inside low high
    · intro ne _ p b owned
      exact give_keeps owned fun b low high => mine b _ low high (by simp)
  case grants =>
    intro h left
    have differ : h ≠ g := by
      rintro rfl
      exact (List.Nodup.not_mem_erase inv.once) left
    have still := List.mem_of_mem_erase left
    obtain ⟨idx', pages', positive', inside', bits'⟩ := inv.grants h still
    refine ⟨idx', pages', positive', inside', fun b low high => ?_⟩
    apply give_keeps (bits' b low high)
    intro c low' high' owned
    rw [bits c low' high'] at owned
    injection owned with eq
    injection eq with sides index count
    apply differ
    obtain ⟨side, start, cnt⟩ := h
    obtain ⟨side', start', cnt'⟩ := g
    dsimp only at *
    subst sides index count
    rw [pages, pages']
  case once => exact inv.once.erase g

theorem advance (ran : s.advance call = some s') : ∃ owner', Inv s' owner' := by
  obtain ⟨holds, locks, hs⟩ := inv.calls call
  unfold Alloc.advance at ran
  cases now : s.stage call with
  | idle =>
    rw [now] at ran
    cases ran
  | panicked =>
    rw [now] at ran
    cases ran
  | acquiring side cnt =>
    rw [now] at ran hs
    dsimp only at ran
    split_ifs at ran with free
    cases ran
    obtain ⟨holds', locks', sound'⟩ := scanFrom_spec side hs 0
    exact ⟨owner, inv.acquire _ free holds' locks' sound'⟩
  | scanning side cnt i j =>
    rw [now] at ran hs
    obtain ⟨pos, hi, hb, seen⟩ := hs
    dsimp only at ran
    split_ifs at ran with more used
    · cases ran
      obtain ⟨holds', locks', sound'⟩ := scanFrom_spec side pos (i + 1)
      refine ⟨owner, inv.quiet (fun p b held => absurd held (holds' p b)) ?_ sound'⟩
      rw [now]
      exact locks'
    · cases ran
      refine ⟨owner, inv.quiet (fun _ _ held => held.elim) ?_ ⟨pos, hi, more, ?_⟩⟩
      · rw [now]
        exact fun _ => id
      · intro m lt
        by_cases last : m = j
        · rw [last]
          simpa using used
        · exact seen m (by omega)
    · cases ran
      refine ⟨owner, inv.quiet ?_ ?_ ⟨pos, hi, by omega, ?_⟩⟩
      · rintro p b ⟨_, low, high⟩
        omega
      · rw [now]
        exact fun _ => id
      · exact fun m _ lt => seen m (by omega)
  | marking side cnt idx k =>
    rw [now] at ran hs
    obtain ⟨pos, hi, hb, left⟩ := hs
    dsimp only at ran
    split_ifs at ran with more
    · cases ran
      exact ⟨_, inv.mark now more⟩
    · cases ran
      refine ⟨owner, inv.quiet ?_ ?_ ⟨pos, ?_⟩⟩
      · rintro p b ⟨rfl, low, high⟩
        rw [now]
        exact ⟨rfl, low, by omega⟩
      · rw [now]
        exact fun _ => id
      · rintro _ ⟨⟩
        exact hi
  | releasing side cnt found =>
    rw [now] at ran
    cases ran
    cases found with
    | none => exact ⟨owner, inv.giveUp now⟩
    | some idx => exact ⟨_, inv.release now⟩
  | checking side cnt idx k =>
    rw [now] at ran hs holds
    obtain ⟨pos, hi, hb⟩ := hs
    dsimp only at ran
    split_ifs at ran with more used
    · cases ran
      refine ⟨owner, inv.quiet ?_ (fun _ locked => locked.elim) ⟨pos, hi, more⟩⟩
      rw [now]
      exact fun _ _ => id
    · -- the assertion: every bit of the run is owned, and so it is set
      have owned := holds side (idx + k) ⟨rfl, by omega, by omega⟩
      exact absurd (inv.used side (idx + k) _ owned) used
    · cases ran
      refine ⟨owner, inv.quiet ?_ (fun _ locked => locked.elim) ⟨pos, hi, by omega⟩⟩
      rintro p b ⟨rfl, low, high⟩
      rw [now]
      exact ⟨rfl, low, high⟩
  | clearing side cnt idx k =>
    rw [now] at ran
    dsimp only at ran
    split_ifs at ran with more
    · cases ran
      exact ⟨_, inv.clear now more⟩
    · cases ran
      exact ⟨owner, inv.quiet (fun _ _ held => held.elim) (fun _ locked => locked.elim) trivial⟩

theorem step {e : Event} (ran : s.step e = some s') : ∃ owner', Inv s' owner' := by
  cases e with
  | get call side cnt =>
    simp only [Alloc.step] at ran
    split_ifs at ran with hi empty
    · cases ran
      exact ⟨owner, inv⟩
    · cases ran
      exact ⟨owner, inv.quiet (fun _ _ held => held.elim) (fun _ locked => locked.elim)
        (Nat.pos_of_ne_zero empty)⟩
  | free call grant =>
    simp only [Alloc.step, Bool.and_eq_true, decide_eq_true_eq] at ran
    split_ifs at ran with allowed
    cases ran
    exact inv.free allowed.2
  | step call => exact inv.advance ran

end

end Inv

/-- The run is made of whole pages of its pool. -/
def Grant.Inside (layout : Layout) (g : Grant) : Prop :=
  0 < g.cnt ∧ g.pages % pgSize = 0 ∧ (layout g.side).base ≤ g.pages ∧
    g.pages + pgSize * g.cnt ≤ (layout g.side).base + pgSize * (layout g.side).bitCnt

def Grant.Disjoint (g h : Grant) : Prop :=
  g.pages + pgSize * g.cnt ≤ h.pages ∨ h.pages + pgSize * h.cnt ≤ g.pages

namespace Inv

theorem inside (inv : Inv s owner) (mem : g ∈ s.outstanding) : g.Inside s.layout := by
  obtain ⟨idx, pages, pos, hi, _⟩ := inv.grants g mem
  have ha := (inv.separate.aligned g.side).1
  refine ⟨pos, ?_, by omega, ?_⟩
  · rw [pages, Nat.add_mul_mod_self_left]
    exact ha
  · rw [pages, Nat.add_assoc, ← Nat.mul_add]
    exact Nat.add_le_add_left (Nat.mul_le_mul_left pgSize hi) _

variable {h : Grant}

/-- Two runs of one pool have different owners for their bits. -/
theorem disjoint_of_side (inv : Inv s owner) (mem : g ∈ s.outstanding)
    (member' : h ∈ s.outstanding) (ne : g ≠ h) (eq : g.side = h.side) : g.Disjoint h := by
  obtain ⟨idx, pages, pos, _, bits⟩ := inv.grants g mem
  obtain ⟨idx', pages', positive', _, bits'⟩ := inv.grants h member'
  have ha : idx + g.cnt ≤ idx' ∨ idx' + h.cnt ≤ idx := by
    by_contra overlap
    push Not at overlap
    have first := bits (max idx idx') (by omega) (by omega)
    have second := bits' (max idx idx') (by omega) (by omega)
    rw [eq, second] at first
    injection first with runs
    injection runs with _ index count
    apply ne
    obtain ⟨side, start, cnt⟩ := g
    obtain ⟨side', start', cnt'⟩ := h
    dsimp only at *
    subst eq index count
    rw [pages, pages']
  unfold Grant.Disjoint
  rw [pages, pages', eq, Nat.add_assoc, Nat.add_assoc, ← Nat.mul_add, ← Nat.mul_add]
  rcases ha with was | after
  · exact .inl (Nat.add_le_add_left (Nat.mul_le_mul_left pgSize was) _)
  · exact .inr (Nat.add_le_add_left (Nat.mul_le_mul_left pgSize after) _)

theorem disjoint (inv : Inv s owner) (mem : g ∈ s.outstanding)
    (member' : h ∈ s.outstanding) (ne : g ≠ h) : g.Disjoint h := by
  by_cases eq : g.side = h.side
  · exact inv.disjoint_of_side mem member' ne eq
  · obtain ⟨_, _, low, high⟩ := inv.inside mem
    obtain ⟨_, _, low', high'⟩ := inv.inside member'
    have ha := inv.separate.apart
    have above := inv.separate.userMap
    unfold Grant.Disjoint
    cases side : g.side with
    | kernel =>
      cases side' : h.side with
      | kernel => exact absurd (side.trans side'.symm) eq
      | user =>
        rw [side] at high
        rw [side'] at low'
        omega
    | user =>
      cases side' : h.side with
      | kernel =>
        rw [side] at low
        rw [side'] at high'
        omega
      | user => exact absurd (side.trans side'.symm) eq

end Inv

theorem Alloc.advance_layout (ran : s.advance call = some s') : s'.layout = s.layout := by
  unfold Alloc.advance at ran
  split at ran
  all_goals first
    | (split_ifs at ran <;> cases ran <;> rfl)
    | (cases ran <;> rfl)

theorem Alloc.step_layout {e : Event} (ran : s.step e = some s') : s'.layout = s.layout := by
  cases e with
  | get call side cnt =>
    simp only [Alloc.step] at ran
    split_ifs at ran <;> cases ran <;> rfl
  | free call grant =>
    simp only [Alloc.step] at ran
    split_ifs at ran
    cases ran
    rfl
  | step call => exact Alloc.advance_layout ran

theorem Alloc.boot_inv (separate : layout.Separate) : Inv (Alloc.boot layout) fun _ _ => none where
  separate := separate
  used _ _ _ owned := by cases owned
  calls _ := ⟨fun _ _ held => held.elim, fun _ locked => locked.elim, trivial⟩
  grants _ mem := by cases mem
  once := List.nodup_nil

/-- In every state: the runs that were returned are in their pools and apart from each other, the
pools are apart from each other and from the bitmaps, and no assertion has failed. -/
structure Disjointness (layout : Layout) (s : Alloc) : Prop where
  inside : ∀ g ∈ s.outstanding, g.Inside layout
  disjoint : s.outstanding.Pairwise Grant.Disjoint
  pools : layout.Separate
  asserts : ∀ call, s.stage call ≠ .panicked

theorem palloc_runs_disjoint {extended : Nat} {limit : UInt32} {layout : Layout}
    {history : List Event} (init : pallocInit (initRamPages extended) limit = .ok layout)
    (run : Run Alloc.step Free (Alloc.boot layout) history s) : Disjointness layout s := by
  have separate := pallocInit_separate init
  have hr : s.layout = layout ∧ ∃ owner, Inv s owner := by
    apply run.invariant (I := fun s => s.layout = layout ∧ ∃ owner, Inv s owner)
      ⟨rfl, _, Alloc.boot_inv separate⟩
    rintro a e b ⟨eq, owner, inv⟩ _ ran
    exact ⟨(Alloc.step_layout ran).trans eq, inv.step ran⟩
  obtain ⟨eq, owner, inv⟩ := hr
  constructor
  case inside =>
    intro g mem
    rw [← eq]
    exact inv.inside mem
  case disjoint =>
    exact inv.once.imp_of_mem fun mem member' ne => inv.disjoint mem member' ne
  case pools => exact separate
  case asserts =>
    intro call panicked
    have hs := (inv.calls call).sound
    rw [panicked] at hs
    exact hs

/-- Two calls for user pages, the second of which scans while the run of the first is freed. -/
def twoCalls : List Event :=
  [.get 0 .user 2] ++ List.replicate 8 (.step 0) ++
  [.get 1 .user 1, .step 1, .step 1,
    .free 2 { side := .user, pages := 0xc0109000, cnt := 2 }, .step 2, .step 2, .step 2, .step 2] ++
  List.replicate 6 (.step 1)

theorem palloc_runs_disjoint_twoCalls : ∃ layout s,
    pallocInit (initRamPages 64) 100 = .ok layout ∧
    runs Alloc.step Free (Alloc.boot layout) twoCalls = some s ∧
    s.outstanding = [{ side := .user, pages := 0xc010b000, cnt := 1 }] ∧ Disjointness layout s := by
  have found : ((pallocInit (initRamPages 64) 100).toOption.bind fun layout =>
      (runs Alloc.step Free (Alloc.boot layout) twoCalls).map fun s => s.outstanding) =
      some [{ side := .user, pages := 0xc010b000, cnt := 1 }] := by decide +kernel
  obtain ⟨layout, init, found⟩ := Option.bind_eq_some_iff.mp found
  obtain ⟨s, run, out⟩ := Option.map_eq_some_iff.mp found
  have booted := Prog.ok_of_toOption init
  exact ⟨layout, s, booted, run, out, palloc_runs_disjoint booted (runs_run run)⟩

end Pintos.Palloc
