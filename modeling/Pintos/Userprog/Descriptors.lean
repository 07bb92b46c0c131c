import Pintos.Userprog.FdTable

/-!
# File descriptors

A process opens, uses and closes files by their descriptors, in any order and with any
descriptors, until it exits. Other processes use their files in between.
-/

namespace Pintos.Userprog

open LittleEndian Prog Filesys Machine Attempt Paging Option

variable {c c' : Caller}

/-- A system call, with the memory of the process when it is made and the allocations that
succeed in it; an exception in the code of the process; what other processes do with files. -/
inductive DeskEvent where
  | call (env : Env) (esp : Nat) (page : Nat → Option Bool) (memory : Bytes) (given : List Bool)
      (junk : Bytes)
  | killed (given : List Bool) (junk : Bytes)
  | others (e : Filesys.Event)

structure Desk where
  caller : Caller
  exited : Bool := false

namespace Desk

/-- The process as it enters the kernel. -/
def enter (k : Desk) (given : List Bool) (junk : Bytes) : Caller :=
  { k.caller with fs := { k.caller.fs with memory := given, junk } }

def owns (k : Desk) (f : FilePtr) : Bool :=
  (List.range 128).any (fun i => k.caller.fdTable i == some f) || k.caller.execFile == some f

/-- `thread_exit`. -/
def exit (c : Caller) : Option Desk :=
  match Attempt.outcome processExit c with
  | (.ok _, c) => some { caller := c, exited := true }
  | (.error _, _) => none

def step (k : Desk) : DeskEvent → Option Desk
  | .call env esp page memory given junk =>
    if k.exited then none
    else
      match Attempt.outcome (syscallHandler env esp) { k.enter given junk with page, memory } with
      | (.ok _, c) => some { caller := c }
      | (.error .exit, c) => exit c
      | (.error _, _) => none
  | .killed given junk => if k.exited then none else exit (k.enter given junk)
  | .others e =>
    if e.call.file.any k.owns then none
    else
      (Session.step ⟨k.caller.fs, k.caller.opened⟩ e).map fun s =>
        { k with caller := { k.caller with fs := s.fs, opened := s.opened } }

/-- A new process, that runs this executable. -/
def start (s : Session) (execFile : Option FilePtr) : Desk where
  caller := { page := fun _ => none, memory := fun _ => 0, execFile, fs := s.fs, opened :=
    s.opened }

structure Kept (m : FilePtr) (k : Desk) : Prop where
  served : Served False k.caller.fs m k.caller.opened
  bound : k.caller.nextFd ≤ 128
  once : (k.caller.stored.map Prod.fst).Nodup
  tidy : k.exited = false → Tidy m k.caller
  released : k.exited = true → Released k.caller

end Desk

namespace Desk

variable {k k' : Desk} {mapFile : FilePtr} {e : DeskEvent}

theorem exit_kept (ht : Tidy mapFile c) (exits : exit c = some k') : Kept mapFile k' := by
  unfold exit at exits
  split at exits
  · rename_i c' ran
    cases exits
    obtain ⟨released, hs, stored, nextFd⟩ := (ends_processExit ht).result ran
    exact ⟨hs, nextFd ▸ ht.bound.2, stored ▸ ht.once, nofun, fun _ => released⟩
  · cases exits

theorem enter_tidy (ht : Tidy mapFile k.caller) (given : List Bool) (junk : Bytes)
    (page : Nat → Option Bool) (memory : Bytes) :
    Tidy mapFile { k.enter given junk with page, memory } :=
  ⟨ht.served.provide nofun, ht.slots, ht.bound, ht.distinct, ht.returned, ht.once, ht.exec,
    ht.open_, ht.shut⟩

theorem owns_iff (ht : Tidy mapFile k.caller) {f : FilePtr} :
    k.owns f = true ↔ (∃ i, k.caller.fdTable i = some f) ∨ k.caller.execFile = some f := by
  simp only [owns, Bool.or_eq_true, List.any_eq_true, beq_iff_eq, List.mem_range]
  constructor
  · rintro (⟨i, _, held⟩ | runs)
    · exact .inl ⟨i, held⟩
    · exact .inr runs
  · grind

theorem step_kept (hk : Kept mapFile k) (stepped : k.step e = some k') : Kept mapFile k' := by
  cases e with
  | call env esp page memory given junk =>
    simp only [step] at stepped
    split_ifs at stepped with gone
    have ht := enter_tidy (hk.tidy (eq_false_of_ne_true gone)) given junk page memory
    have ends := tidies_handler env esp _ ht
    split at stepped
    · rename_i c ran
      cases stepped
      have after : Tidy mapFile c := ends.result ran
      exact ⟨after.served, after.bound.2, after.once, fun _ => after, nofun⟩
    · rename_i c ran
      exact exit_kept (ends.stopped ran) stepped
    · cases stepped
  | killed given junk =>
    simp only [step] at stepped
    split_ifs at stepped with gone
    exact exit_kept (enter_tidy (hk.tidy (eq_false_of_ne_true gone)) given junk _ _) stepped
  | others e =>
    simp only [step] at stepped
    split_ifs at stepped with ours
    obtain ⟨s, hm, rfl⟩ := map_eq_some_iff.mp stepped
    have hs := Session.step_served hk.served nofun hm
    have stays : ∀ p, k.owns p = true → p ∈ k.caller.opened → p ∈ s.opened := by
      intro p own mem
      apply Session.step_stays hk.served nofun hm mem
      intro is
      rw [is] at ours
      exact ours own
    refine ⟨hs, hk.bound, hk.once, fun runs => ?_, fun gone => ?_⟩
    · have ht := hk.tidy runs
      refine ⟨hs, fun i f held => ?_, ht.bound, ht.distinct, ht.returned, ht.once, fun p is => ?_,
        ht.open_, ht.shut⟩
      · obtain ⟨hi, mem⟩ := ht.slots i f held
        exact ⟨hi, stays f ((owns_iff ht).mpr (.inl ⟨i, held⟩)) mem⟩
      · obtain ⟨mem, rest⟩ := ht.exec p is
        exact ⟨stays p ((owns_iff ht).mpr (.inr is)) mem, rest⟩
    · exact ⟨(hk.released gone).empty, (hk.released gone).closed⟩

section
variable {size : UInt32} {disk : Nat → Bytes} {memory : List Bool} {junk : Bytes} {s0 s : Session}
  {before : List Filesys.Event} {execFile : Option FilePtr} {history : List DeskEvent}

theorem run_kept (hf : Session.format (Session.boot size disk memory junk) = some s0)
    (earlier : Run Session.step Free s0 before s) (own : ∀ e, execFile = some e → e ∈ s.opened)
    (run : Run step Free (start s execFile) history k) : ∃ m, Kept m k := by
  obtain ⟨m, hs⟩ := Session.run_served False hf earlier nofun nofun
  have first : Tidy m (start s execFile).caller :=
    ⟨hs, nofun, ⟨Nat.le_refl 2, show 2 ≤ 128 by decide⟩, nofun, nofun, .nil,
      fun e is => ⟨own e is, nofun, rfl⟩, nofun, fun _ _ => rfl⟩
  exact ⟨m, run.invariant (I := Kept m) ⟨hs, first.bound.2, first.once, fun _ => first, nofun⟩
    fun _ _ _ hk _ ran => step_kept hk ran⟩

/-- What holds of the table and of the calls that use it. -/
structure Disciplined (k : Desk) : Prop where
  slots : ∀ i f, k.caller.fdTable i = some f → 2 ≤ i ∧ i < k.caller.nextFd
  bound : k.caller.nextFd ≤ 128
  distinct : ∀ i j f, k.caller.fdTable i = some f → k.caller.fdTable j = some f → i = j
  returned : (k.caller.stored.map Prod.fst).Nodup
  opens : k.exited = false → ∀ esp page memory given junk c',
    Attempt.outcome (sysOpen esp) { k.enter given junk with page, memory } = (.ok (), c') →
      Opened k.caller.stored c'
  untouched : ∀ number env esp c, SyscallNr.takesFd number = true → c.fdTable = k.caller.fdTable →
    c.file (toInt32 (c.word (offset esp 4))) = none →
      (Attempt.outcome (number.code env esp) c).2.used = c.used
  closes : k.exited = false → ∀ esp page memory given junk c f,
    c = { k.enter given junk with page, memory } →
    c.file (toInt32 (c.word (offset esp 4))) = some f → Ends (sysClose esp)
      (fun _ c' => c'.file (toInt32 (c.word (offset esp 4))) = none ∧
        c'.used = f :: c.used ∧ c'.closed = f :: c.closed)
      (fun stop _ => stop = .exit ∨ stop = .fault) c
  finished : k.exited = true → (∀ i, k.caller.fdTable i = none) ∧
    ∀ f ∈ k.caller.stored.map Prod.snd, k.caller.closed.count f = k.caller.storings f

theorem descriptors_disciplined
    (formatted : Session.format (Session.boot size disk memory junk) = some s0)
    (earlier : Run Session.step Free s0 before s) (own : ∀ e, execFile = some e → e ∈ s.opened)
    (run : Run step Free (start s execFile) history k) : Disciplined k := by
  obtain ⟨m, kept⟩ := run_kept formatted earlier own run
  constructor
  case slots =>
    intro i f held
    cases gone : k.exited with
    | false => exact ((kept.tidy gone).slots i f held).1
    | true =>
      rw [(kept.released gone).empty i] at held
      cases held
  case bound => exact kept.bound
  case distinct =>
    intro i j f first second
    cases gone : k.exited with
    | false => exact (kept.tidy gone).distinct i j f first second
    | true =>
      rw [(kept.released gone).empty i] at first
      cases first
  case returned => exact kept.once
  case opens =>
    intro runs esp page memory given junk c' ran
    exact ((ends_sysOpen esp (enter_tidy (kept.tidy runs) given junk page memory)).result ran).2
  case untouched =>
    intro number env esp c takes _ free
    have spares := code_spares env esp takes free
    unfold Spares Ends at spares
    split at spares
    · rename_i ran
      rw [ran]
      exact spares
    · rename_i ran
      rw [ran]
      exact spares
  case closes =>
    rintro runs esp page memory given junk c f rfl held
    apply (ends_sysClose esp (enter_tidy (kept.tidy runs) given junk page memory) held).mono
    · rintro _ c' ⟨table, rest⟩
      refine ⟨?_, rest⟩
      unfold Caller.file
      rw [table]
      split_ifs
      · exact Function.update_self ..
      · rfl
    · exact fun _ _ => id
  case finished => exact fun gone => ⟨(kept.released gone).empty, (kept.released gone).closed⟩

end

/-- The only page of the process is its stack. -/
def stackPage : Nat → Option Bool := fun n => if n = pgNo (physBase - 1) then some true else none

/-- The memory of a process with a system call on its stack, and after it the name `a`. -/
def stacked (number : Nat) (args : List Nat) : Bytes := fun a =>
  let i := a - (physBase - 32)
  if i < 16 then put32 ((number :: args).getD (i / 4) 0) (i % 4) else if i = 16 then 97 else 0

def makes (number : Nat) (args : List Nat) : DeskEvent :=
  .call {} (physBase - 32) stackPage (stacked number args) [] fun _ => 0

/-- Opens three files, closes the first of them twice and leaves the others open at its exit. -/
def usesFiles : List DeskEvent :=
  [makes 6 [physBase - 16], makes 6 [physBase - 16], makes 12 [2], makes 6 [physBase - 16],
    makes 12 [2], makes 8 [3, physBase - 16, 8], makes 1 [0]]

/-- The file `a` has been created. -/
def withFile : List Filesys.Event := [⟨.create Session.first 600, [], fun _ => 0⟩]

theorem descriptors_disciplined_usesFiles : ∃ s0 s k,
    Session.format Session.tenSectors = some s0 ∧
      Run Session.step Free s0 withFile.reverse s ∧ Run step Free (start s none)
        usesFiles.reverse k ∧
      k.exited = true ∧ k.caller.stored = [(4, 4), (3, 3), (2, 2)] ∧ k.caller.closed = [4, 3, 2] ∧
      Disciplined k := by
  have seen : ((Session.format Session.tenSectors).bind fun s0 =>
      (runs Session.step Free s0 withFile).bind fun s =>
        (runs step Free (start s none) usesFiles).map fun k =>
          (k.exited, k.caller.stored, k.caller.closed)) =
      some (true, [(4, 4), (3, 3), (2, 2)], [4, 3, 2]) := by decide +kernel
  obtain ⟨s0, hf, seen⟩ := bind_eq_some_iff.mp seen
  obtain ⟨s, earlier, seen⟩ := bind_eq_some_iff.mp seen
  obtain ⟨k, ran, seen⟩ := map_eq_some_iff.mp seen
  simp only [Prod.mk.injEq] at seen
  have was := runs_run earlier
  have run := runs_run ran
  have disciplined : Disciplined k := by
    apply descriptors_disciplined hf was (fun _ is => ?_) run
    cases is
  exact ⟨s0, s, k, hf, was, run, seen.1, seen.2.1, seen.2.2, disciplined⟩

end Desk

end Pintos.Userprog
