import Pintos.Filesys.Session

/-!
# Mounting again

What a client reads from the file system is on the device, so that a kernel that starts anew
on the same device shows the same names and files.
-/

namespace Pintos.Filesys

open LittleEndian Prog Machine

/-! ### What the file system shows -/

def fsutilLs : Fs (List (List UInt8)) := do
  match ← dirOpenRoot with
  | none => throw "root dir open failed"
  | some dir => do
    let fs ← get
    let names ← lsLoop (fs.turns dir) dir
    dirClose (some dir)
    pure names

/-- A file is opened by its name and read: its length, and its bytes. -/
def readAll (name : CString) : Fs (Option (Int × List UInt8)) := do
  match ← filesysOpen name with
  | none => pure none
  | some file => do
    let length ← fileLength file
    let (n, buffer) ← fileRead file (fun _ => 0) length
    fileClose (some file)
    pure (some (length, (List.range n).map buffer))

variable {tight : Prop} {fs fs' : FS} {files : List FilePtr} {held : List InodePtr} {dir : Dir}
  {slot : Nat}

/-- The names in the slots from `slot` on. -/
def FS.names (fs : FS) (slot : Nat) : List (List UInt8) :=
  fs.namesFrom (fs.data rootDirSector) rootSlots slot

theorem FS.names_congr {fs fs' : FS} (eq : fs'.entry = fs.entry) : fs'.names = fs.names := by
  funext slot
  have same : ∀ k, fs'.slot (fs'.data rootDirSector) k = fs.slot (fs.data rootDirSector) k :=
    fun k => congrFun eq k
  unfold FS.names FS.namesFrom
  simp only [same]

theorem wp_lsLoop (turns : Nat) (slot : Nat) (dir : Dir) (fs : FS) (root : Root fs dir)
    (room : Plenty fs) (place : dir.pos = entrySize * slot) (hb : slot ≤ rootSlots)
    (left : rootSlots < slot + turns) :
    Wp (lsLoop turns dir) (fun r fs' => Quiet fs fs' ∧ r = fs.names slot) fs :=
  wp_lsSlots turns slot dir fs root.slots room place hb left

theorem wp_fsutilLs (vol : Volume tight fs files held) (room : Plenty fs) :
    Wp fsutilLs (fun r _ => r = fs.names 0) fs := by
  refine .bind ((wp_dirOpenRoot vol).mono fun r fs1 ⟨⟨reads, _, _⟩, res⟩ => ?_)
  cases r with
  | none => exact absurd room res.2
  | some dir =>
    obtain ⟨vol1, sector, start⟩ := res
    have root := vol1.root (vol1.sound.counted.held_opened (.head _)) sector
    refine .bind (.get (.bind ?_))
    rw [root.turns]
    refine (wp_lsLoop _ 0 dir fs1 root (reads.plenty room) start (Nat.zero_le _) (by omega)).mono ?_
    rintro names fs2 ⟨hq, rfl⟩
    have sector2 : (fs2.inode dir.inode).sector = rootDirSector := by rw [hq.kept]; exact sector
    refine .bind ((wp_dirClose (vol1.quiet hq) (.head _) sector2).mono fun _ _ _ => .pure ?_)
    rw [FS.names_congr reads.entry]

/-- A name stands for the first slot that has it, and shows what is on the device. -/
def FS.Shows (fs : FS) (name : CString) : Option (Int × List UInt8) → Prop
  | none => ∀ k, ¬ fs.Matches k name
  | some (length, bytes) => ∃ k, fs.Matches k name ∧ (∀ j < k, ¬ fs.Matches j name) ∧
      length = (fs.data (Entry.inodeSector (fs.entry k))).length ∧
      bytes = (List.range length.toNat).map
        (fs.byteAt (fs.data (Entry.inodeSector (fs.entry k))).start)

theorem FS.Shows.unique {name : CString} {r r' : Option (Int × List UInt8)}
    (shows : fs.Shows name r)
    (shows' : fs.Shows name r') : r = r' := by
  match r, r', shows, shows' with
  | none, none, _, _ => rfl
  | none, some _, missing, ⟨k, hit, _⟩ => exact absurd hit (missing k)
  | some _, none, ⟨k, hit, _⟩, missing => exact absurd hit (missing k)
  | some (_, _), some (_, _), ⟨k, hit, first, length, bytes⟩, ⟨k', hit', first', length', bytes'⟩ =>
    grind

theorem FS.Shows.congr {name : CString} {r : Option (Int × List UInt8)} (shows : fs.Shows name r)
    (disk : fs'.disk = fs.disk) : fs'.Shows name r := by
  have matched : ∀ k, fs'.Matches k name ↔ fs.Matches k name := fun k => by
    rw [FS.Matches, FS.Matches, FS.used_congr disk, FS.entry_congr disk]
  have byteAt : fs'.byteAt = fs.byteAt := by
    funext start pos
    rw [FS.byteAt, FS.byteAt, disk]
  cases r with
  | none => exact fun k hit => shows k ((matched k).mp hit)
  | some found =>
    obtain ⟨length, bytes⟩ := found
    simp only [FS.Shows, matched, FS.entry_congr disk, FS.data_congr disk, byteAt]
    exact shows

theorem wp_readAll (vol : Volume tight fs files held) (room : Plenty fs) (name : CString) :
    Wp (readAll name) (fun r _ => fs.Shows name r) fs := by
  refine .bind ((wp_filesysOpen vol name).mono fun r fs1 ⟨reads, _, result⟩ => ?_)
  cases r with
  | none => exact .pure (result.2 room)
  | some f =>
    obtain ⟨vol1, slot, found⟩ := result
    have opened := vol1.sound.counted.file_opened (.head _)
    have data : (fs1.inode (fs1.file f).inode).data =
        fs.data (Entry.inodeSector (fs.entry slot)) := by
      rw [(vol1.sound.faithful _ opened).2, found.sector, FS.data_congr reads.disk]
    have start : (fs1.file f).pos = 0 := by rw [found.file]
    have ne : fs1.freeMapFile ≠ some f := by grind
    refine .bind (.bind (.get (.pure (.bind ((wp_volumeRead vol1 (.head _) _).mono ?_)))))
    rintro ⟨n, content⟩ fs2 ⟨vol2, freeMapFile, _, moved, eq⟩
    refine .bind ((wp_volumeFileClose vol2 (.head _) (freeMapFile ▸ ne)).mono
      fun _ _ _ => .pure ?_)
    rw [data, start] at moved eq
    dsimp only at moved eq
    rw [data]
    refine ⟨slot, found.matched, found.first, rfl, ?_⟩
    have all : n = (fs.data (Entry.inodeSector (fs.entry slot))).length.toNat := by
      rw [moved.full (reads.plenty room), available]
      simp
    rw [eq, ← all]
    refine List.map_congr_left fun j hb => ?_
    rw [List.mem_range] at hb
    simp [filled, hb, FS.byteAt, reads.disk]

/-! ### The same device again -/

namespace Session

/-- A kernel that has just started, on the device of `fs`. -/
def reboot (fs : FS) (memory : List Bool) (junk : Bytes) : FS :=
  { boot 0 fs.disk memory junk with size := fs.size }

/-- All memory that is asked for is there. -/
def Supplied (_ : Session) (e : Event) : Prop := ∀ ok ∈ e.memory, ok = true

/-- The program ends with this value in `fs`, whatever it is given, if memory suffices. -/
def Yields {α : Type} (program : Fs α) (fs : FS) (value : α) : Prop :=
  ∀ memory junk, (∀ ok ∈ memory, ok = true) →
    ∃ fs', program { fs with memory, junk } = .ok (value, fs')

section
variable {m : FilePtr} {opened : List FilePtr}

theorem yields_names (hs : Served True fs m opened) : Yields fsutilLs fs (fs.names 0) := by
  intro memory junk room
  obtain ⟨vol, _⟩ : Served True { fs with memory, junk } m opened := hs.provide fun _ => room
  obtain ⟨names, fs', run, rfl⟩ := wp_fsutilLs vol room
  exact ⟨fs', run⟩

theorem yields_file (hs : Served True fs m opened) (name : CString) :
    ∃ r, fs.Shows name r ∧ Yields (readAll name) fs r := by
  have shown : ∀ memory junk, (∀ ok ∈ memory, ok = true) →
      ∃ r fs', readAll name { fs with memory, junk } = .ok (r, fs') ∧ fs.Shows name r := by
    intro memory junk room
    obtain ⟨vol, _⟩ : Served True { fs with memory, junk } m opened := hs.provide fun _ => room
    obtain ⟨r, fs', run, shows⟩ := wp_readAll vol room name
    exact ⟨r, fs', run, shows.congr rfl⟩
  obtain ⟨r, _, _, shows⟩ := shown [] fs.junk nofun
  refine ⟨r, shows, fun memory junk room => ?_⟩
  obtain ⟨r', fs', run, shows'⟩ := shown memory junk room
  exact ⟨fs', by rw [shows.unique shows', run]⟩

end

/-- A kernel that starts on the device that another has left finds the same free map, the same
names and the same files. -/
theorem remount_equal {size : UInt32} {disk : Nat → Bytes} {memory : List Bool} {junk : Bytes}
    {s t : Session} {history : List Event}
    (formatted : format (boot size disk memory junk) = some s)
    (start : ∀ ok ∈ memory, ok = true) (run : Run step Supplied s history t)
    (memory' : List Bool) (junk' : Bytes) (again : ∀ ok ∈ memory', ok = true) :
    ∃ fs, filesysInit false (reboot t.fs memory' junk') = .ok ((), fs) ∧ fs.bits = t.fs.bits ∧
      (∃ names, Yields fsutilLs t.fs names ∧ Yields fsutilLs fs names) ∧
      ∀ name, ∃ r, Yields (readAll name) t.fs r ∧ Yields (readAll name) fs r := by
  obtain ⟨m, hs⟩ := run_served True formatted run (fun _ => start) fun _ _ _ supplied => supplied
  have mount : Mountable (reboot t.fs memory' junk') t.fs.bits :=
    (hs.1.mountable trivial).congr rfl rfl
  have mounts := (runs_filesysMount mount fun _ : True => again).wp again
  obtain ⟨_, fs, init, m', mounted⟩ := mounts
  have served' : Served True fs m' [] := ⟨mounted.volume, mounted.freeMapFile⟩
  have disk : fs.disk = t.fs.disk := mounted.disk
  refine ⟨fs, init, mounted.bits, ⟨t.fs.names 0, yields_names hs, ?_⟩, fun name => ?_⟩
  · rw [← FS.names_congr (FS.entry_congr disk)]
    exact yields_names served'
  · obtain ⟨r, shows, yields⟩ := yields_file hs name
    obtain ⟨r', shows', yields'⟩ := yields_file served' name
    rw [shows'.unique (shows.congr disk)] at yields'
    exact ⟨r, yields, yields'⟩

instance (s : Session) : DecidablePred (Supplied s) := fun e =>
  inferInstanceAs (Decidable (∀ ok ∈ e.memory, ok = true))

/-- Two files, of which one is written and the other removed. -/
def writing : List Event :=
  [⟨.create first 600, [], fun _ => 0⟩, ⟨.openFile first, [], fun _ => 0⟩,
    ⟨.create second 10, [], fun _ => 0⟩, ⟨.write 2 (fun i => UInt8.ofNat i) 520, [], fun _ => 0⟩,
    ⟨.close 2, [], fun _ => 0⟩, ⟨.remove second, [], fun _ => 0⟩]

theorem remount_equal_writing : ∃ s t fs,
    format (boot 10 (fun _ _ => 0) [] fun _ => 255) = some s ∧
      Run step Supplied s writing.reverse t ∧
    t.opened = [] ∧ filesysInit false (reboot t.fs [] fun _ => 7) = .ok ((), fs) ∧
    fs.bits = t.fs.bits ∧ ∃ r, Yields (readAll first) t.fs r ∧ Yields (readAll first) fs r := by
  have state : ((format (boot 10 (fun _ _ => 0) [] fun _ => 255)).bind fun s =>
      (runs step Supplied s writing).map fun t => t.opened) = some [] := by
    decide +kernel
  obtain ⟨s, hf, after⟩ := Option.bind_eq_some_iff.mp state
  obtain ⟨t, hr, closed⟩ := Option.map_eq_some_iff.mp after
  obtain ⟨fs, init, bits, _, files⟩ :=
    remount_equal hf nofun (runs_run hr) [] (fun _ => 7) nofun
  exact ⟨s, t, fs, hf, runs_run hr, closed, init, bits, files first⟩

end Session

end Pintos.Filesys
