import Mathlib.Data.List.Basic
import Pintos.Lib.LittleEndian

/-!
# The kernel command line

`make_kernel_command_line` of the build tools writes the arguments into the loader, and
`read_command_line` of `threads/init.c` finds them there when the kernel starts.
-/

namespace Pintos.Threads.CommandLine

open LittleEndian Function List

def loaderArgsLen : Nat := 128

def loaderArgCntLen : Nat := 4

def argvLen : Nat := loaderArgsLen / 2 + 1

/-- `pack ("V", n)`. -/
def packV (n : Nat) : List UInt8 := (range 4).map (put32 n)

/-- `join ('', map ("$_\0", @args))`. -/
def joined (args : List (List UInt8)) : List UInt8 := args.flatMap (· ++ [0])

def makeKernelCommandLine (args : List (List UInt8)) : Except String (List UInt8) :=
  if (joined args).length > 128 then .error "command line exceeds 128 bytes"
  else .ok (packV args.length ++ (joined args ++ replicate (128 - (joined args).length) 0))

/-- `*(uint32_t *) ptov (LOADER_ARG_CNT)`, as an int. The memory is that from this address on. -/
def argc (mem : Bytes) : Int := toInt32 (get32 mem 0)

def strnlen (mem : Bytes) (p : Nat) : Nat → Nat
  | 0 => 0
  | maxlen + 1 => if mem p = 0 then 0 else strnlen mem (p + 1) maxlen + 1

/-- The elements of `argv`, null or an address. -/
abbrev Argv := Nat → Option Nat

def store (argv : Argv) (i : Int) (p : Option Nat) : Except String Argv :=
  if 0 ≤ i ∧ i < argvLen then .ok (update argv i.toNat p) else .error "argv out of bounds"

/-- The loop over the arguments, `left` of which are to come. -/
def readArgs (mem : Bytes) : Nat → Nat → Nat → Argv → Except String Argv
  | 0, _, _, argv => .ok argv
  | left + 1, i, p, argv =>
    if p ≥ loaderArgCntLen + loaderArgsLen then .error "command line arguments overflow"
    else do
      let argv ← store argv i (some p)
      readArgs mem left (i + 1) (p + strnlen mem p (loaderArgCntLen + loaderArgsLen - p) + 1) argv

def readCommandLine (mem : Bytes) : Except String Argv := do
  let argv ← readArgs mem (argc mem).toNat 0 loaderArgCntLen fun _ => none
  store argv (argc mem) none

/-- The string at an address, of which `most` bytes are looked at. -/
def stringAt (mem : Bytes) (p : Nat) : Nat → List UInt8
  | 0 => []
  | most + 1 => if mem p = 0 then [] else mem p :: stringAt mem (p + 1) most

/-- The bytes are in memory from `p` on. -/
def Holds (mem : Bytes) (p : Nat) (bytes : List UInt8) : Prop :=
  ∀ (i : Nat) (h : i < bytes.length), mem (p + i) = bytes[i]

variable {mem : Bytes} {args : List (List UInt8)} {arg bytes rest : List UInt8} {p i : Nat}

theorem Holds.append (holds : Holds mem p (bytes ++ rest)) :
    Holds mem p bytes ∧ Holds mem (p + bytes.length) rest := by
  constructor
  · intro i hi
    rw [holds i (by simp; omega), getElem_append_left]
  · intro i hi
    rw [Nat.add_assoc, holds (bytes.length + i) (by simp; omega), getElem_append_right (by omega)]
    simp

/-- An argument ends at its null byte. -/
theorem ends_at_null (most : Nat) (holds : Holds mem p (arg ++ [0])) (hp : 0 ∉ arg)
    (he : arg.length < most) : strnlen mem p most = arg.length ∧ stringAt mem p most = arg := by
  induction arg generalizing p most with
  | nil =>
    obtain ⟨n, rfl⟩ : ∃ n, most = n + 1 := ⟨most - 1, by simp at he; omega⟩
    have first : mem p = 0 := holds 0 (by simp)
    simp [strnlen, stringAt, first]
  | cons c arg ih =>
    obtain ⟨n, rfl⟩ : ∃ n, most = n + 1 := ⟨most - 1, by simp at he; omega⟩
    have first : mem p = c := holds 0 (by simp)
    have ne : c ≠ 0 := by
      rintro rfl
      exact hp (.head _)
    have later : Holds mem (p + 1) (arg ++ [0]) := by
      intro i hi
      rw [Nat.add_assoc, Nat.add_comm 1 i, holds (i + 1) (by simpa using hi)]
      rfl
    obtain ⟨length, string⟩ := ih n later (fun hi => hp (mem_cons_of_mem c hi))
      (by simp at he; omega)
    simp [strnlen, stringAt, first, ne, length, string]

/-- The elements of `argv` from `i` on are these strings. -/
def Reads (mem : Bytes) (argv : Argv) (i : Nat) (args : List (List UInt8)) : Prop :=
  ∀ (j : Nat) (h : j < args.length), ∃ p, argv (i + j) = some p ∧
    stringAt mem p (loaderArgCntLen + loaderArgsLen - p) = args[j]

theorem readArgs_reads (argv : Argv) (holds : Holds mem p (joined args))
    (hp : ∀ arg ∈ args, 0 ∉ arg)
    (hf : p + (joined args).length ≤ loaderArgCntLen + loaderArgsLen)
    (room : i + args.length ≤ argvLen) :
    ∃ argv', readArgs mem args.length i p argv = .ok argv' ∧ Reads mem argv' i args ∧
      ∀ j, j < i ∨ i + args.length ≤ j → argv' j = argv j := by
  induction args generalizing p i argv with
  | nil => exact ⟨argv, rfl, nofun, fun _ _ => rfl⟩
  | cons arg args ih =>
    have split : joined (arg :: args) = (arg ++ [0]) ++ joined args := rfl
    rw [split] at holds hf
    rw [length_append, length_append, length_singleton] at hf
    obtain ⟨h, later⟩ := holds.append
    rw [length_append, length_singleton] at later
    obtain ⟨length, string⟩ := ends_at_null (loaderArgCntLen + loaderArgsLen - p) h
      (hp arg (.head _)) (by omega)
    rw [length_cons] at room ⊢
    have stored : store argv i (some p) = .ok (update argv i (some p)) := by
      unfold store
      rw [if_pos (by omega)]
      rfl
    obtain ⟨argv', reads, strings, others⟩ := ih (update argv i (some p)) later
      (fun arg hArg => hp arg (.tail _ hArg)) (by omega)
      (show i + 1 + args.length ≤ argvLen by omega)
    refine ⟨argv', ?_, ?_, ?_⟩
    · unfold readArgs
      rw [if_neg (by omega), stored, length]
      exact reads
    · intro j hi
      cases j with
      | zero => grind
      | succ j =>
        obtain ⟨q, at_, text⟩ := strings j (by simpa using hi)
        exact ⟨q, by rw [← at_]; congr 1; omega, text⟩
    · intro j outside
      rw [others j (by omega), update_of_ne (by omega)]

/-! ### Round trip -/

theorem length_le_joined (args : List (List UInt8)) : args.length ≤ (joined args).length := by
  induction args with
  | nil => exact Nat.le_refl 0
  | cons arg args ih =>
    show _ ≤ ((arg ++ [0]) ++ joined args).length
    simp
    omega

/-- What the tools write is read back just if there are at most 64 arguments. -/
theorem command_line_reads (accepted : makeKernelCommandLine args = .ok bytes)
    (plain : ∀ arg ∈ args, 0 ∉ arg) (loaded : Holds mem 0 bytes) :
    (∃ argv, readCommandLine mem = .ok argv ∧ Reads mem argv 0 args ∧ argv args.length = none) ↔
      args.length ≤ 64 := by
  unfold makeKernelCommandLine at accepted
  split_ifs at accepted with long
  cases accepted
  obtain ⟨count, area⟩ := loaded.append
  obtain ⟨strings, _⟩ := area.append
  have four : (packV args.length).length = loaderArgCntLen := by simp [packV, loaderArgCntLen]
  rw [four, Nat.zero_add] at strings
  have most := length_le_joined args
  have number : get32 mem 0 = args.length := by
    rw [← get32_put32 (n := args.length) (by omega)]
    apply get32_congr
    intro j hi
    rw [count j (by simpa [packV] using hi)]
    simp [packV]
  have total : argc mem = args.length := by
    unfold argc toInt32
    rw [number, if_pos (by omega)]
  unfold readCommandLine
  rw [total, Int.toNat_natCast]
  constructor
  · rintro ⟨argv, run, -⟩
    cases read : readArgs mem args.length 0 loaderArgCntLen fun _ => none with
    | error text =>
      rw [read] at run
      cases run
    | ok argv' =>
      rw [read] at run
      -- the null behind the last argument is stored inside the array
      have last : store argv' args.length none = .ok argv := run
      unfold store at last
      split_ifs at last with hi
      unfold argvLen loaderArgsLen at hi
      omega
  · intro few
    obtain ⟨argv, reads, texts, others⟩ := readArgs_reads (i := 0) (fun _ => none) strings plain
      (by unfold loaderArgsLen; omega) (by unfold argvLen loaderArgsLen; omega)
    refine ⟨update argv args.length none, ?_, fun j hi => ?_, ?_⟩
    · rw [reads]
      show store argv args.length none = _
      unfold store
      rw [if_pos (by unfold argvLen loaderArgsLen; omega), Int.toNat_natCast]
    · obtain ⟨p, at_, text⟩ := texts j hi
      refine ⟨p, ?_, text⟩
      rw [update_of_ne (by omega), at_]
    · exact update_self ..

theorem holds_getD (bytes : List UInt8) : Holds (fun i => bytes.getD i 0) 0 bytes := by
  intro i hi
  simp [hi]

/-- `run echo`, behind an option without a value. -/
def runEcho : List (List UInt8) := [[45, 113], [], [114, 117, 110], [101, 99, 104, 111]]

theorem command_line_reads_runEcho : ∃ bytes, makeKernelCommandLine runEcho = .ok bytes ∧
    ∃ argv, readCommandLine (fun i => bytes.getD i 0) = .ok argv ∧
      Reads (fun i => bytes.getD i 0) argv 0 runEcho ∧ argv 4 = none := by
  exact ⟨_, rfl, (command_line_reads rfl (by decide) (holds_getD _)).mpr (by decide)⟩

/-- An empty argument takes one byte, and `argv` has room for one argument in two bytes. -/
theorem command_line_overruns : ∃ args bytes, makeKernelCommandLine args = .ok bytes ∧
    (∀ arg ∈ args, 0 ∉ arg) ∧ Holds (fun i => bytes.getD i 0) 0 bytes ∧
    readCommandLine (fun i => bytes.getD i 0) = .error "argv out of bounds" := by
  exact ⟨replicate 65 [], _, rfl, by simp, holds_getD _, rfl⟩

end Pintos.Threads.CommandLine
