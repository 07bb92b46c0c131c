import Pintos.Filesys.Session

/-!
# Executables of running processes

`load` opens the executable, reads it, and on success denies writes to it and leaves it in
`exec_file`, which `process_exit` closes. The other files are their owners' to use in any order.
-/

namespace Pintos.Userprog

open Pintos.Filesys Pintos.LittleEndian Prog Machine List

/-- What processes do with files, `file` being that of a process in `load` in the lines for it,
and an `exec_file` in `exit`. -/
inductive Action where
  | call (call : Call)
  | writeAt (file : FilePtr) (buffer : Bytes) (size : Int32) (offset : Nat)
  | load (name : CString)
  | loadRead (file : FilePtr) (buffer : Bytes) (size : Int32)
  | loadSeek (file : FilePtr) (newPos : Int32)
  | loaded (file : FilePtr)
  | loadFailed (file : FilePtr)
  | exit (file : FilePtr)

structure Programs where
  fs : FS
  /-- All files that are open, but for that of the free map. -/
  opened : List FilePtr
  /-- The files of processes that are in `load`. -/
  loading : List FilePtr
  /-- The `exec_file`s. -/
  running : List FilePtr

namespace Programs

/-- A file that no process loads or runs. -/
def ordinary (k : Programs) (f : FilePtr) : Bool :=
  k.opened.contains f && !k.loading.contains f && !k.running.contains f

def valid (k : Programs) : Action → Bool
  | .call call => call.file.all k.ordinary
  | .writeAt f .. => k.ordinary f
  | .load _ => true
  | .loadRead f .. | .loadSeek f _ | .loaded f | .loadFailed f => k.loading.contains f
  | .exit f => k.running.contains f

/-- Runs the action. The result is the three lists of files after it. -/
def code (k : Programs) : Action → Fs (List FilePtr × List FilePtr × List FilePtr)
  | .call call => do
    let opened ← call.code k.opened
    pure (opened, k.loading, k.running)
  | .writeAt f buffer size offset => do
    let _ ← fileWriteAt f buffer size.toInt offset
    pure (k.opened, k.loading, k.running)
  | .load name => do
    let file ← filesysOpen name
    pure (file.toList ++ k.opened, file.toList ++ k.loading, k.running)
  | .loadRead f buffer size => do
    let _ ← fileRead f buffer size.toInt
    pure (k.opened, k.loading, k.running)
  | .loadSeek f newPos => do
    fileSeek f newPos.toInt
    pure (k.opened, k.loading, k.running)
  | .loaded f => do
    fileDenyWrite f
    pure (k.opened, k.loading.erase f, f :: k.running)
  | .loadFailed f => do
    fileClose (some f)
    pure (k.opened.erase f, k.loading.erase f, k.running)
  | .exit f => do
    fileClose (some f)
    pure (k.opened.erase f, k.loading, k.running.erase f)

/-- The action does not pass a negative size or position. -/
def Positive : Action → Prop
  | .call call => call.Positive
  | .loadSeek _ newPos => 0 ≤ newPos.toInt
  | _ => True

structure Event where
  action : Action
  memory : List Bool := []
  junk : Bytes := fun _ => 0

def step (k : Programs) (e : Event) : Option Programs :=
  if k.valid e.action then
    match k.code e.action { k.fs with memory := e.memory, junk := e.junk } with
    | .ok ((opened, loading, running), fs) => some { fs, opened, loading, running }
    | .error _ => none
  else none

def boot (s : Session) : Programs :=
  { fs := s.fs, opened := s.opened, loading := [], running := [] }

end Programs

/-- Every `exec_file` is open and denies writes. -/
@[grind cases] structure Guards (fs : FS) (m : FilePtr) (opened loading running : List FilePtr) :
    Prop where
  served : Served False fs m opened
  inside : ∀ f ∈ loading ++ running, f ∈ opened
  once : (loading ++ running).Nodup
  denies : ∀ f ∈ running, (fs.file f).denyWrite = true

variable {fs fs' : FS} {m f : FilePtr} {opened loading running opened' : List FilePtr}
  {k k' : Programs} {e : Programs.Event}

namespace Guards

section
variable (guards : Guards fs m opened loading running)
include guards

theorem loading_only (mem : f ∈ loading) : f ∉ running := by
  grind

/-- The files that are loaded and run stay, and those that run keep their flags. -/
theorem keep (served : Served False fs' m opened') (stays : ∀ p ∈ loading ++ running, p ∈ opened')
    (flags : ∀ p ∈ running, (fs'.file p).denyWrite = (fs.file p).denyWrite) :
    Guards fs' m opened' loading running where
  served := served
  inside := stays
  once := guards.once
  denies p hp := (flags p hp).trans (guards.denies p hp)

/-- A call on files that no process loads or runs. -/
theorem runs_call (call : Call)
    (hv : ∀ p, call.file = some p → p ∈ opened ∧ p ∉ loading ++ running) :
    Runs call.Positive (call.code opened)
      (fun opened' fs' => Guards fs' m opened' loading running) fs := by
  have spared : ∀ p ∈ loading ++ running, call.Spares p :=
    fun p hp => Call.spares_of_ne fun is => (hv p is).2 hp
  refine (guards.served.runs call fun p is => (hv p is).1).mono fun opened' fs' ⟨served', hk⟩ => ?_
  have stays := fun p hp => hk p (guards.inside p hp) (spared p hp)
  exact guards.keep served' (fun p hp => (stays p hp).1) fun p hp =>
    (stays p (mem_append_right _ hp)).2

theorem wp_load (name : CString) :
    Wp (filesysOpen name) (fun file fs' =>
      Guards fs' m (file.toList ++ opened) (file.toList ++ loading) running) fs := by
  obtain ⟨vol, map⟩ := guards.served
  refine (wp_filesysOpen vol name).mono fun r fs' ⟨reads, others, res⟩ => ?_
  have flags : ∀ p ∈ running, (fs'.file p).denyWrite = (fs.file p).denyWrite := by grind
  cases r with
  | none => exact guards.keep ⟨res.1, reads.freeMapFile.trans map⟩ guards.inside flags
  | some f =>
    obtain ⟨vol', slot, found⟩ := res
    have hf : f ∉ loading ++ running :=
      fun old => found.fresh (mem_append_left _ (guards.inside f old))
    refine ⟨⟨vol', reads.freeMapFile.trans map⟩, fun p hp => ?_, nodup_cons.mpr ⟨hf, guards.once⟩,
      fun p hp => (flags p hp).trans (guards.denies p hp)⟩
    obtain rfl | old := mem_cons.mp hp
    · exact (.head _)
    · exact .tail _ (guards.inside p old)

theorem wp_loaded (mem : f ∈ loading) :
    Wp (fileDenyWrite f)
      (fun _ fs' => Guards fs' m opened (loading.erase f) (f :: running)) fs := by
  have hm : (loading.erase f ++ f :: running).Perm (loading ++ running) :=
    perm_middle.trans ((perm_cons_erase mem).symm.append_right running)
  have hi := guards.inside f (mem_append_left _ mem)
  obtain ⟨client, ne⟩ := guards.served.other hi
  obtain ⟨vol, map⟩ := guards.served
  refine (wp_volumeDenyWrite vol client ne).mono fun _ fs' ⟨vol', same, file⟩ => ?_
  refine ⟨⟨vol', same.trans map⟩, fun p hp => guards.inside p (hm.mem_iff.mp hp),
    hm.nodup_iff.mpr guards.once, fun p hp => ?_⟩
  rw [file p]
  split_ifs with eq
  · rfl
  · exact guards.denies p ((mem_cons.mp hp).resolve_left eq)

/-- The file of one process is closed, and the lists lose it. -/
theorem wp_close {loading' running' : List FilePtr}
    (mem : f ∈ loading ++ running) (sub : (loading' ++ running').Sublist (loading ++ running))
    (fewer : ∀ p ∈ running', p ∈ running) (out : f ∉ loading' ++ running') :
    Wp (fileClose (some f)) (fun _ fs' => Guards fs' m (opened.erase f) loading' running') fs := by
  have hi := guards.inside f mem
  obtain ⟨client, ne⟩ := guards.served.other hi
  obtain ⟨vol, map⟩ := guards.served
  refine (wp_volumeFileClose vol client ne).mono fun _ fs' ⟨vol', eq, others⟩ => ?_
  rw [erase_append_left _ hi] at vol'
  have stays : ∀ p ∈ loading' ++ running', p ≠ f := by
    rintro p hp rfl
    exact out hp
  refine ⟨⟨vol', eq.trans map⟩, fun p hp => ?_, guards.once.sublist sub, fun p hp => ?_⟩
  · exact (mem_erase_of_ne (stays p hp)).mpr (guards.inside p (sub.subset hp))
  · rw [others p (stays p (mem_append_right _ hp))]
    exact guards.denies p (fewer p hp)

end

end Guards

namespace Programs

theorem ordinary_iff : k.ordinary f = true ↔ f ∈ k.opened ∧ f ∉ k.loading ++ k.running := by
  simp [ordinary, and_assoc]

theorem runs_code (guards : Guards k.fs m k.opened k.loading k.running) (action : Action)
    (hv : k.valid action = true) :
    Runs (Positive action) (k.code action) (fun r fs' => Guards fs' m r.1 r.2.1 r.2.2) k.fs := by
  have once := guards.once
  rw [nodup_append] at once
  cases action with
  | call call =>
    refine .bind ((guards.runs_call call fun p is => ?_).mono fun _ _ after => .pure after)
    simp only [Programs.valid, is, Option.all_some] at hv
    exact ordinary_iff.mp hv
  | writeAt f buffer size offset =>
    obtain ⟨hi, _⟩ := ordinary_iff.mp hv
    obtain ⟨client, ne⟩ := guards.served.other hi
    obtain ⟨vol, map⟩ := guards.served
    refine .bind ((wp_volumeWriteAt vol client ne buffer offset).mono
      fun _ fs' ⟨vol', eq, file, _⟩ => .pure ?_).runs
    exact guards.keep ⟨vol', eq.trans map⟩ guards.inside fun p _ => by rw [file]
  | load name => exact .bind ((guards.wp_load name).mono fun _ _ after => .pure after).runs
  | loadRead f buffer size =>
    have mem := mem_append_left k.running (contains_iff_mem.mp hv)
    obtain ⟨client, _⟩ := guards.served.other (guards.inside f mem)
    obtain ⟨vol, map⟩ := guards.served
    exact .bind ((wp_volumeRead vol client buffer).mono fun _ fs' ⟨vol', eq, flags, _⟩ =>
      .pure (guards.keep ⟨vol', eq.trans map⟩ guards.inside fun p _ => flags p)).runs
  | loadSeek f newPos =>
    obtain ⟨vol, map⟩ := guards.served
    exact .bind ((runs_volumeSeek vol newPos.toInt).mono fun _ fs' ⟨vol', eq, flags⟩ =>
      .pure (guards.keep ⟨vol', eq.trans map⟩ guards.inside fun p _ => flags p))
  | loaded f =>
    exact .bind ((guards.wp_loaded (contains_iff_mem.mp hv)).mono fun _ _ after => .pure after).runs
  | loadFailed f =>
    have mem : f ∈ k.loading := contains_iff_mem.mp hv
    refine .bind ((guards.wp_close (mem_append_left _ mem)
      ((erase_sublist ..).append_right _) (fun _ => id) ?_).mono fun _ _ after => .pure after).runs
    rw [mem_append, once.1.mem_erase_iff]
    exact fun h => h.elim (fun h => h.1 rfl) (guards.loading_only mem)
  | exit f =>
    have mem : f ∈ k.running := contains_iff_mem.mp hv
    refine .bind ((guards.wp_close (mem_append_right _ mem)
      ((erase_sublist ..).append_left _) (fun _ => mem_of_mem_erase) ?_).mono
      fun _ _ after => .pure after).runs
    rw [mem_append, once.2.1.mem_erase_iff]
    exact fun h => h.elim (fun h => guards.loading_only h mem) fun h => h.1 rfl

/-- The counts are right, the assertions about them hold, and writes to an `exec_file`'s inode
do nothing. -/
structure Protected (k : Programs) : Prop where
  deny : ∀ i ∈ k.fs.openInodes,
    (k.fs.inode i).denyWriteCnt = k.fs.denials (k.opened ++ k.fs.freeMapFile.toList) i
  bound : ∀ i ∈ k.fs.openInodes,
    0 ≤ (k.fs.inode i).denyWriteCnt ∧ (k.fs.inode i).denyWriteCnt ≤ (k.fs.inode i).openCnt
  asserts : ∀ f ∈ k.opened, Wp (fileDenyWrite f) (fun _ _ => True) k.fs ∧
    Wp (fileAllowWrite f) (fun _ _ => True) k.fs
  refuses : ∀ f ∈ k.running, ∀ g ∈ k.opened, (k.fs.file g).inode = (k.fs.file f).inode →
    ∀ (buffer : Bytes) (size : Int) (offset : Nat),
      Wp (fileWrite g buffer size) (fun n fs' => n = 0 ∧ fs'.disk = k.fs.disk) k.fs ∧
      Wp (fileWriteAt g buffer size offset) (fun n fs' => n = 0 ∧ fs'.disk = k.fs.disk) k.fs

theorem protected_of_guards (guards : Guards k.fs m k.opened k.loading k.running) :
    Protected k := by
  have hs := guards.served
  obtain ⟨vol, map⟩ := guards.served
  have hc := vol.sound.counted
  constructor
  case deny => rw [map]; exact hc.deny
  case bound => exact fun i => hc.deny_le_open
  case asserts =>
    intro f mem
    obtain ⟨client, ne⟩ := hs.other mem
    exact ⟨(wp_volumeDenyWrite vol client ne).mono fun _ _ _ => trivial,
      (wp_volumeAllowWrite vol client).mono fun _ _ _ => trivial⟩
  case refuses =>
    intro f runs g mem eq buffer size offset
    obtain ⟨client, ne⟩ := hs.other mem
    have denied : (k.fs.inode (k.fs.file g).inode).denyWriteCnt ≠ 0 := by
      rw [hc.deny _ (hc.file_opened client), eq]
      have flagged : 0 < k.fs.denials (k.opened ++ [m]) (k.fs.file f).inode := by
        apply countP_pos_iff.mpr
        refine ⟨f, (hs.other (guards.inside f (mem_append_right _ runs))).1, ?_⟩
        simp [guards.denies f runs]
      omega
    exact ⟨(wp_volumeWrite vol client ne buffer).mono fun _ _ ⟨_, _, _, refused, _⟩ =>
      refused denied,
      (wp_volumeWriteAt vol client ne buffer offset).mono fun _ _ ⟨_, _, _, refused⟩ =>
        refused denied⟩

def provide (k : Programs) (e : Event) : Programs :=
  { k with fs := { k.fs with memory := e.memory, junk := e.junk } }

section
variable (guards : Guards k.fs m k.opened k.loading k.running)
include guards

theorem runs_event (hv : k.valid e.action = true) :
    Runs (Positive e.action) (k.code e.action) (fun r fs' => Guards fs' m r.1 r.2.1 r.2.2)
      (k.provide e).fs := by
  obtain ⟨hs, hi, once, denies⟩ := guards
  have code : (k.provide e).code e.action = k.code e.action := by cases e.action <;> rfl
  have valid' : (k.provide e).valid e.action = true := by
    rw [← hv]
    cases e.action <;> rfl
  have guards' : Guards (k.provide e).fs m (k.provide e).opened (k.provide e).loading
      (k.provide e).running := ⟨hs.provide nofun, hi, once, denies⟩
  rw [← code]
  exact runs_code guards' e.action valid'

theorem step_guards (ran : k.step e = some k') :
    Guards k'.fs m k'.opened k'.loading k'.running := by
  unfold step at ran
  split_ifs at ran with hv
  split at ran
  · rename_i opened loading running fs run
    cases ran
    exact (runs_event guards hv).result run
  · cases ran

theorem step_some
    (hv : k.valid e.action = true) (pos : Positive e.action) : ∃ k', k.step e = some k' := by
  obtain ⟨⟨opened, loading, running⟩, fs', run, _⟩ := (runs_event guards hv).wp pos
  have run' : k.code e.action { k.fs with memory := e.memory, junk := e.junk } =
    .ok ((opened, loading, running), fs') := run
  refine ⟨⟨fs', opened, loading, running⟩, ?_⟩
  rw [step, if_pos hv, run']

end

theorem executables_protected {size : UInt32} {disk : Nat → Bytes} {memory : List Bool}
    {junk : Bytes}
    {s : Session} {history : List Event}
    (formatted : Session.format (Session.boot size disk memory junk) = some s)
    (run : Run step Free (boot s) history k) :
    Protected k ∧
    ∀ e : Event, k.valid e.action = true → Positive e.action → ∃ k', k.step e = some k' := by
  have hi : Run Session.step Free s [] s := .start
  obtain ⟨m, hs⟩ := Session.run_served False formatted hi nofun nofun
  have start : Guards (boot s).fs m (boot s).opened [] [] := ⟨hs, nofun, .nil, nofun⟩
  have guards : Guards k.fs m k.opened k.loading k.running :=
    run.invariant (I := fun k => Guards k.fs m k.opened k.loading k.running) start
      fun _ _ _ guards _ ran => step_guards guards ran
  exact ⟨protected_of_guards guards, fun e => step_some guards⟩

def guarding : List Event :=
  [.call (.create Session.first 600), .call (.openFile Session.first), .load Session.first,
    .loadRead 3 (fun _ => 0) 52, .loaded 3].map fun action => { action }

theorem executables_protected_guarding : ∃ s k,
    Session.format Session.tenSectors = some s ∧
    Run step Free (boot s) guarding.reverse k ∧ k.running = [3] ∧
    Wp (fileWrite 2 (fun _ => 7) 10) (fun n fs' => n = 0 ∧ fs'.disk = k.fs.disk) k.fs := by
  have state : ((Session.format Session.tenSectors).bind fun s =>
      (runs step Free (boot s) guarding).map fun k => (k.opened, k.running, (k.fs.file 2).inode,
        (k.fs.file 3).inode)) = some ([3, 2], [3], 4, 4) := by
    decide +kernel
  obtain ⟨s, hf, after⟩ := Option.bind_eq_some_iff.mp state
  obtain ⟨k, hr, seen⟩ := Option.map_eq_some_iff.mp after
  simp only [Prod.mk.injEq] at seen
  obtain ⟨ho, running, first, second⟩ := seen
  have run := runs_run hr
  have safe := (executables_protected hf run).1
  refine ⟨s, k, hf, run, running, (safe.refuses 3 ?_ 2 ?_ ?_ _ _ 0).1⟩
  · rw [running]; exact (.head _)
  · rw [ho]; decide
  · rw [first, second]

end Programs

end Pintos.Userprog
