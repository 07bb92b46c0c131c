import Mathlib.Tactic.Ring
import Mathlib.Data.Nat.ModEq

/-!
# Words in memory

Four bytes hold a number of 32 bits, the lowest byte first, and a number of 32
bits holds a signed one in two's complement.
-/

namespace Pintos.LittleEndian

/-- Contents of memory, from some address on. -/
abbrev Bytes := Nat → UInt8

def get32 (b : Bytes) (place : Nat) : Nat :=
  (b place).toNat + 256 * (b (place + 1)).toNat + 65536 * (b (place + 2)).toNat +
    16777216 * (b (place + 3)).toNat

def put32 (n : Nat) : Bytes := fun i => UInt8.ofNat (n / 256 ^ i)

theorem get32_congr {b b' : Bytes} {place : Nat} (eq : ∀ i < 4, b (place + i) = b' (place + i)) :
    get32 b place = get32 b' place := by
  have h0 := eq 0 (by decide)
  have h1 := eq 1 (by decide)
  have h2 := eq 2 (by decide)
  have h3 := eq 3 (by decide)
  simp only [Nat.add_zero] at h0
  simp only [get32, h0, h1, h2, h3]

theorem get32_lt (b : Bytes) (place : Nat) : get32 b place < 2 ^ 32 := by
  have h0 := (b place).toNat_lt
  have h1 := (b (place + 1)).toNat_lt
  have h2 := (b (place + 2)).toNat_lt
  have h3 := (b (place + 3)).toNat_lt
  unfold get32
  omega

theorem get32_put32 {n : Nat} (hb : n < 2 ^ 32) : get32 (put32 n) 0 = n := by
  simp only [get32, put32, Nat.zero_add, UInt8.toNat_ofNat', Nat.reducePow]
  omega

/-- A word is read where its bytes are. -/
theorem get32_of_bytes {b : Bytes} {place n : Nat} (hb : n < 2 ^ 32)
    (bytes : ∀ i < 4, b (place + i) = put32 n i) : get32 b place = n := by
  have shifted : get32 (fun i => b (place + i)) 0 = get32 (put32 n) 0 := by
    apply get32_congr
    intro i lt
    rw [Nat.zero_add]
    exact bytes i lt
  exact shifted.trans (get32_put32 hb)

/-- The signed number that a word stands for. -/
def toInt32 (n : Nat) : Int := if n < 2 ^ 31 then n else n - 2 ^ 32

def ofInt32 (i : Int) : Nat := (i % 2 ^ 32).toNat

theorem ofInt32_lt (i : Int) : ofInt32 i < 2 ^ 32 := by
  unfold ofInt32
  omega

theorem toInt32_ofInt32 {i : Int} (low : -2 ^ 31 ≤ i) (high : i < 2 ^ 31) :
    toInt32 (ofInt32 i) = i := by
  unfold toInt32 ofInt32
  split_ifs <;> omega

end Pintos.LittleEndian
