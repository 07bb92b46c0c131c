import Pintos.Userprog.Syscall

/-!
# The memory of a process, seen from the kernel

What each access of a system call to the memory of the process does: which bytes it touches, what
it reads there, and when it stops.
-/

namespace Pintos.Userprog

open LittleEndian Paging Filesys Attempt List

variable {c c' c'' : Caller} {α β : Type} {vaddr count : Nat} {store : Bool}

/-- The bytes that `touchAll` touches, the last one first. -/
def touches (vaddr : Nat) (store : Bool) (count : Nat) : List Access :=
  ((range count).map fun i => ⟨offset vaddr i, store⟩).reverse

theorem mem_touches {a : Access} :
    a ∈ touches vaddr store count ↔ ∃ i < count, a = ⟨offset vaddr i, store⟩ := by
  simp [touches, eq_comm]

theorem touches_succ : touches vaddr store (count + 1) =
    ⟨offset vaddr count, store⟩ :: touches vaddr store count := by
  simp [touches, range_succ]

/-- More bytes have been touched. -/
def Caller.after (c : Caller) (accesses : List Access) : Caller :=
  { c with accesses := accesses ++ c.accesses }

theorem Caller.after_after (first second : List Access) :
    (c.after first).after second = c.after (second ++ first) := by
  simp [Caller.after]

@[simp] theorem Caller.after_allows (accesses : List Access) (a : Access) :
    (c.after accesses).allows a = c.allows a := rfl

def Caller.word (c : Caller) (vaddr : Nat) : Nat := get32 (c.buffer vaddr) 0

/-- The four bytes that `check_valid_ptr` tests. -/
def Caller.Window (c : Caller) (vaddr : Nat) : Prop := ∀ i < 4, c.passes (offset vaddr i) = true

theorem ends_checkValidPtr : Ends (checkValidPtr vaddr) (fun _ c' => c' = c ∧ c.Window vaddr)
    (fun stop c' => stop = .exit ∧ c' = { c with exitStatus := -1 } ∧ ¬ c.Window vaddr) c := by
  have tested : (range 4).all (fun i => c.passes (offset vaddr i)) = true ↔ c.Window vaddr := by
    simp [Caller.Window]
  simp only [checkValidPtr, ends_bind, ends_get]
  split
  · rename_i passed
    exact ⟨rfl, tested.mp passed⟩
  · rename_i failed
    simp only [ends_bind, ends_set, threadExit, ends_throw]
    exact ⟨trivial, trivial, fun window => failed (tested.mpr window)⟩

theorem ends_touch {a : Access} : Ends (touch a) (fun _ c' => c' = c.after [a] ∧ c.allows a = true)
    (fun stop c' => stop = .fault ∧ c' = c.after [a] ∧ c.allows a = false) c := by
  simp only [touch, ends_bind, ends_modify, ends_get]
  split
  · rename_i allowed
    exact ⟨rfl, allowed⟩
  · rename_i faults
    simp only [ends_throw]
    exact ⟨trivial, rfl, eq_false_of_ne_true faults⟩

/-- The kernel faults at byte `k`, after it has touched those before. -/
@[grind cases] structure Faults (c c' : Caller) (vaddr : Nat) (store : Bool) (k : Nat) : Prop where
  touched : c' = c.after (touches vaddr store (k + 1))
  before : ∀ i < k, c.allows ⟨offset vaddr i, store⟩ = true
  here : c.allows ⟨offset vaddr k, store⟩ = false

theorem ends_touchAll : Ends (touchAll vaddr store count)
    (fun _ c' => c' = c.after (touches vaddr store count) ∧
      ∀ i < count, c.allows ⟨offset vaddr i, store⟩ = true)
    (fun stop c' => stop = .fault ∧ ∃ k < count, Faults c c' vaddr store k) c := by
  induction count with
  | zero =>
    rw [touchAll, ends_pure]
    exact ⟨rfl, nofun⟩
  | succ count ih =>
    rw [touchAll, ends_bind]
    apply ih.mono
    · rintro _ c1 ⟨rfl, was⟩
      apply ends_touch.mono
      · rintro _ c2 ⟨rfl, h⟩
        refine ⟨by rw [Caller.after_after, touches_succ]; rfl, fun i lt => ?_⟩
        by_cases last : i = count
        · rw [last]
          exact h
        · exact was i (by omega)
      · rintro _ c2 ⟨rfl, rfl, h⟩
        exact ⟨rfl, count, Nat.lt_succ_self _, by rw [Caller.after_after, touches_succ]; rfl, was,
          h⟩
    · rintro _ c1 ⟨rfl, k, lt, faults⟩
      exact ⟨rfl, k, by omega, faults⟩

theorem ends_loadWord : Ends (loadWord vaddr)
    (fun n c' => n = c.word vaddr ∧ c' = c.after (touches vaddr false 4) ∧
      ∀ i < 4, c.allows ⟨offset vaddr i, false⟩ = true)
    (fun stop c' => stop = .fault ∧ ∃ k < 4, Faults c c' vaddr false k) c := by
  rw [loadWord, ends_bind]
  apply ends_touchAll.mono
  · rintro _ c1 ⟨rfl, allowed⟩
    simp only [ends_bind, ends_get, ends_pure]
    exact ⟨rfl, trivial, allowed⟩
  · exact fun _ _ => id

theorem ends_loadInt : Ends (loadInt vaddr)
    (fun n c' => n = toInt32 (c.word vaddr) ∧ c' = c.after (touches vaddr false 4) ∧
      ∀ i < 4, c.allows ⟨offset vaddr i, false⟩ = true)
    (fun stop c' => stop = .fault ∧ ∃ k < 4, Faults c c' vaddr false k) c := by
  rw [loadInt, ends_bind]
  apply ends_loadWord.mono
  · rintro n c1 ⟨rfl, rfl, allowed⟩
    exact ⟨rfl, rfl, allowed⟩
  · exact fun _ _ => id

theorem offset_offset (vaddr i j : Nat) : offset (offset vaddr i) j = offset vaddr (i + j) := by
  simp only [offset]
  omega

theorem offset_zero (hs : vaddr < 2 ^ 32) : offset vaddr 0 = vaddr := by
  simp only [offset]
  omega

theorem touches_shift : touches vaddr store (count + 1) =
    touches (offset vaddr 1) store count ++ [⟨offset vaddr 0, store⟩] := by
  simp only [touches, range_succ_eq_map, map_cons, map_map, reverse_cons]
  congr 2
  apply map_congr_left
  intro i _
  simp only [Function.comp_apply, offset_offset, Nat.add_comm 1 i]

/-- What holds of the first byte and of those behind it holds of all. -/
theorem forall_offset {P : Nat → Prop} (first : P (offset vaddr 0))
    (rest : ∀ i < count, P (offset (offset vaddr 1) i)) : ∀ i < count + 1, P (offset vaddr i) := by
  intro i lt
  cases i with
  | zero => exact first
  | succ i =>
    have later := rest i (by omega)
    rwa [offset_offset, Nat.add_comm] at later

theorem Caller.after_shift :
    (c.after [⟨offset vaddr 0, store⟩]).after (touches (offset vaddr 1) store count) =
      c.after (touches vaddr store (count + 1)) := by
  rw [Caller.after_after, touches_shift]

/-- The kernel reads characters, none of which is the null, until it cannot go on. -/
structure Runaway (c c' : Caller) (vaddr most k : Nat) : Prop where
  chars : ∀ i < k, c.memory (offset vaddr i) ≠ 0
  ends : Faults c c' vaddr false k ∨
    k = most ∧ c' = c.after (touches vaddr false k) ∧ ∀ i < k, c.allows ⟨offset vaddr i, false⟩ =
      true

theorem Runaway.shift {most k : Nat} (char : c.memory (offset vaddr 0) ≠ 0)
    (allowed : c.allows ⟨offset vaddr 0, false⟩ = true)
    (h : Runaway (c.after [⟨offset vaddr 0, false⟩]) c' (offset vaddr 1) most k) :
    Runaway c c' vaddr (most + 1) (k + 1) where
  chars := forall_offset (P := fun a => c.memory a ≠ 0) char h.chars
  ends := by
    cases h.ends with
    | inl faults =>
      refine .inl ⟨faults.touched.trans c.after_shift, ?_, ?_⟩
      · exact forall_offset (P := fun a => c.allows ⟨a, false⟩ = true) allowed faults.before
      · have hp := faults.here
        rwa [Caller.after_allows, offset_offset, Nat.add_comm] at hp
    | inr all =>
      obtain ⟨rfl, touched, was⟩ := all
      refine .inr ⟨rfl, touched.trans c.after_shift, ?_⟩
      exact forall_offset (P := fun a => c.allows ⟨a, false⟩ = true) allowed was

def Caller.HasString (c : Caller) (vaddr : Nat) (text : CString) : Prop :=
  (∀ i < text.length, c.memory (offset vaddr i) = text.char i) ∧
    c.memory (offset vaddr text.length) = 0

theorem ends_loadString {most : Nat} (hs : vaddr < 2 ^ 32) : Ends (loadString vaddr most)
    (fun text c' => c.HasString vaddr text ∧ c' = c.after (touches vaddr false (text.length + 1)) ∧
      ∀ i < text.length + 1, c.allows ⟨offset vaddr i, false⟩ = true)
    (fun stop c' => stop = .fault ∧ ∃ k ≤ most, Runaway c c' vaddr most k) c := by
  induction most generalizing vaddr c with
  | zero =>
    rw [loadString, ends_throw]
    exact ⟨rfl, 0, Nat.le_refl 0, by simp, .inr ⟨rfl, rfl, by simp⟩⟩
  | succ most ih =>
    have h : (⟨vaddr, false⟩ : Access) = ⟨offset vaddr 0, false⟩ := by rw [offset_zero hs]
    rw [loadString, ends_bind, h]
    apply ends_touch.mono
    · rintro _ c1 ⟨rfl, allowed⟩
      simp only [ends_bind, ends_get]
      by_cases null : (c.after [⟨offset vaddr 0, false⟩]).memory vaddr = 0
      · rw [dif_pos null, ends_pure]
        have ends : c.memory (offset vaddr 0) = 0 := by
          rw [offset_zero hs]
          exact null
        refine ⟨⟨by rintro _ ⟨⟩, ends⟩, rfl, ?_⟩
        exact forall_offset (P := fun a => c.allows ⟨a, false⟩ = true) allowed (by rintro _ ⟨⟩)
      · have first : c.memory (offset vaddr 0) ≠ 0 := by rwa [offset_zero hs]
        have next : offset vaddr 1 < 2 ^ 32 := Nat.mod_lt _ (by decide)
        rw [dif_neg null, ends_bind]
        apply (ih next).mono
        · rintro text c2 ⟨⟨chars, null⟩, rfl, after⟩
          rw [ends_pure]
          refine ⟨⟨fun i hi => ?_, ?_⟩, c.after_shift, ?_⟩
          · cases i with
            | zero => rw [offset_zero hs]; rfl
            | succ i =>
              have char := chars i (by simpa [CString.length] using hi)
              rw [offset_offset, Nat.add_comm 1 i] at char
              exact char
          · rwa [offset_offset, Nat.add_comm] at null
          · exact forall_offset (P := fun a => c.allows ⟨a, false⟩ = true) allowed after
        · rintro _ c2 ⟨rfl, k, most, away⟩
          exact ⟨rfl, k + 1, by omega, away.shift first allowed⟩
    · rintro _ c1 ⟨rfl, rfl, faults⟩
      exact ⟨rfl, 0, Nat.zero_le _, by simp, .inl ⟨rfl, by simp, faults⟩⟩

end Pintos.Userprog
