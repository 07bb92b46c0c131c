import Pintos.Filesys.Mount

/-!
# Histories of a file system

A formatted file system is used by any sequence of calls, with any answers to the allocations
of memory in each of them. Files that are in use never share a sector.
-/

namespace Pintos.Filesys

open LittleEndian Prog Machine List

/-- A call of `filesys.c` or `file.c`, with a file that is open where one is needed. -/
inductive Call where
  | create (name : CString) (initialSize : Int32)
  | openFile (name : CString)
  | remove (name : CString)
  | reopen (file : FilePtr)
  | close (file : FilePtr)
  | read (file : FilePtr) (buffer : Bytes) (size : Int32)
  | write (file : FilePtr) (buffer : Bytes) (size : Int32)
  | seek (file : FilePtr) (newPos : Int32)
  | denyWrite (file : FilePtr)
  | allowWrite (file : FilePtr)

namespace Call

def file : Call → Option FilePtr
  | create .. | openFile .. | remove .. => none
  | reopen f | close f | read f .. | write f .. | seek f _ | denyWrite f | allowWrite f => some f

/-- Runs the call. The result is the list of files that are open after it. -/
def code (opened : List FilePtr) : Call → Fs (List FilePtr)
  | create name initialSize => do
    let _ ← filesysCreate name initialSize.toInt
    pure opened
  | openFile name => do
    let file ← filesysOpen name
    pure (file.toList ++ opened)
  | remove name => do
    let _ ← filesysRemove name
    pure opened
  | reopen f => do
    let file ← fileReopen f
    pure (file.toList ++ opened)
  | close f => do
    fileClose (some f)
    pure (opened.erase f)
  | read f buffer size => do
    let _ ← fileRead f buffer size.toInt
    pure opened
  | write f buffer size => do
    let _ ← fileWrite f buffer size.toInt
    pure opened
  | seek f newPos => do
    fileSeek f newPos.toInt
    pure opened
  | denyWrite f => do
    fileDenyWrite f
    pure opened
  | allowWrite f => do
    fileAllowWrite f
    pure opened

/-- The calls that stop the kernel, if at all, are those with a negative size or position. -/
def Positive : Call → Prop
  | create _ initialSize => 0 ≤ initialSize.toInt
  | seek _ newPos => 0 ≤ newPos.toInt
  | _ => True

/-- The call neither closes this file nor sets or drops its flag. -/
def Spares (p : FilePtr) : Call → Prop
  | close f | denyWrite f | allowWrite f => p ≠ f
  | _ => True

theorem spares_of_ne {call : Call} {f : FilePtr} (ne : call.file ≠ some f) : call.Spares f := by
  cases call with
  | close g | denyWrite g | allowWrite g =>
    rintro rfl
    exact ne rfl
  | create | openFile | remove | reopen | read | write | seek => trivial

end Call

/-- A call, with the allocations that succeed in it and what is in memory that is not written
before it is read. -/
structure Event where
  call : Call
  memory : List Bool := []
  junk : Bytes := fun _ => 0

structure Session where
  fs : FS
  opened : List FilePtr

namespace Session

def step (s : Session) (e : Event) : Option Session :=
  if e.call.file.all (· ∈ s.opened) then
    match e.call.code s.opened { s.fs with memory := e.memory, junk := e.junk } with
    | .ok (opened, fs) => some { fs, opened }
    | .error _ => none
  else none

/-- The state of the kernel before `filesys_init`, with any device. -/
def boot (size : UInt32) (disk : Nat → Bytes) (memory : List Bool) (junk : Bytes) : FS where
  size := size.toNat
  disk
  bits := fun _ => false
  inode := fun _ => { sector := 0, data := decodeInode fun _ => 0 }
  inodes := 0
  openInodes := []
  file := fun _ => { inode := 0 }
  files := 0
  freeMapFile := none
  memory
  junk

/-- A blank device of ten sectors, and memory for everything. -/
abbrev tenSectors : FS := boot 10 (fun _ _ => 0) [] fun _ => 0

/-- `filesys_init (true)`. -/
def format (blank : FS) : Option Session :=
  match filesysInit true blank with
  | .ok (_, fs) => some { fs, opened := [] }
  | .error _ => none

end Session

variable {tight : Prop} {fs fs' : FS} {opened : List FilePtr} {m : FilePtr} {memory : List Bool}
  {junk : Bytes} {s t : Session} {e : Event} {history : List Event}

/-- The volume that the callers see: the file of the free map is nobody's. -/
def Served (tight : Prop) (fs : FS) (m : FilePtr) (opened : List FilePtr) : Prop :=
  Volume tight fs (opened ++ [m]) [] ∧ fs.freeMapFile = some m

theorem Served.other (hs : Served tight fs m opened) {f : FilePtr} (mem : f ∈ opened) :
    f ∈ opened ++ [m] ∧ fs.freeMapFile ≠ some f := by
  refine ⟨mem_append_left _ mem, ?_⟩
  rw [hs.2]
  rintro ⟨⟩
  have once := hs.1.sound.counted.once
  rw [nodup_append] at once
  exact once.2.2 m mem m (mem_singleton_self m) rfl

/-- Memory and the contents of variables are for the environment to give. -/
theorem Sound.provide {live : Set Nat} {files : List FilePtr} {held : List InodePtr}
    (hs : Sound tight fs live files held) (room : tight → ∀ ok ∈ memory, ok = true) :
    Sound tight { fs with memory, junk } live files held := by
  obtain ⟨hc, laid, faithful, map, mapLength, _, hw, synced⟩ := hs
  exact ⟨hc.of_tables rfl, laid.congr rfl rfl fun _ _ => rfl, faithful, map, mapLength, room,
    hw, synced⟩

theorem Served.provide (hs : Served tight fs m opened) (room : tight → ∀ ok ∈ memory, ok = true) :
    Served tight { fs with memory, junk } m opened := by
  obtain ⟨vol, freeMapFile⟩ := hs
  obtain ⟨hs, length, ends, ordinary, once, removed, clients⟩ := vol
  exact ⟨⟨hs.provide room, length, ends, ordinary, once, removed, clients⟩, freeMapFile⟩

theorem Served.runs (hs : Served tight fs m opened) (call : Call)
    (hv : ∀ f, call.file = some f → f ∈ opened) :
    Runs call.Positive (call.code opened) (fun opened' fs' => Served tight fs' m opened' ∧
      ∀ p ∈ opened, call.Spares p →
        p ∈ opened' ∧ (fs'.file p).denyWrite = (fs.file p).denyWrite) fs := by
  obtain ⟨vol, map⟩ := hs
  have client : ∀ f, call.file = some f → f ∈ opened ++ [m] ∧ fs.freeMapFile ≠ some f :=
    fun f is => Served.other ⟨vol, map⟩ (hv f is)
  cases call with
  | create name initialSize =>
    refine .bind ((runs_filesysCreate vol name (Int32.toInt_lt initialSize)).mono ?_)
    exact fun _ fs' ⟨vol', eq, file⟩ => .pure
      ⟨⟨vol', eq.trans map⟩, fun p hp _ => ⟨hp, by rw [file]⟩⟩
  | openFile name =>
    refine .bind ((wp_filesysOpen vol name).mono fun r fs' ⟨reads, others, res⟩ => .pure ?_).runs
    refine ⟨?_, fun p hp _ => ⟨mem_append_right _ hp, ?_⟩⟩
    swap
    · rw [others p (mem_append_left _ hp)]
    cases r with
    | none => exact ⟨res.1, reads.freeMapFile.trans map⟩
    | some f => exact ⟨res.1, reads.freeMapFile.trans map⟩
  | remove name =>
    exact .bind ((wp_filesysRemove vol name).mono fun _ fs' ⟨vol', eq, file⟩ =>
      .pure ⟨⟨vol', eq.trans map⟩, fun p hp _ => ⟨hp, by rw [file]⟩⟩).runs
  | reopen f =>
    obtain ⟨mem, other⟩ := client f rfl
    refine .bind ((wp_volumeReopen vol mem other).mono fun r fs' ⟨eq, others, res⟩ => .pure ?_).runs
    refine ⟨?_, fun p hp _ => ⟨mem_append_right _ hp, ?_⟩⟩
    swap
    · rw [others p (mem_append_left _ hp)]
    cases r with
    | none => exact ⟨res, eq.trans map⟩
    | some g => exact ⟨res, eq.trans map⟩
  | close f =>
    obtain ⟨mem, other⟩ := client f rfl
    refine .bind ((wp_volumeFileClose vol mem other).mono fun _ fs' ⟨vol', eq, others⟩ =>
      .pure ⟨⟨?_, eq.trans map⟩, fun p hp ne =>
        ⟨(mem_erase_of_ne ne).mpr hp, by rw [others p ne]⟩⟩).runs
    rwa [erase_append_left _ (hv f rfl)] at vol'
  | read f buffer size =>
    obtain ⟨mem, _⟩ := client f rfl
    exact .bind ((wp_volumeRead vol mem buffer).mono fun _ fs' ⟨vol', eq, flags, _⟩ =>
      .pure ⟨⟨vol', eq.trans map⟩, fun p hp _ => ⟨hp, flags p⟩⟩).runs
  | write f buffer size =>
    obtain ⟨mem, other⟩ := client f rfl
    exact .bind ((wp_volumeWrite vol mem other buffer).mono fun _ fs' ⟨vol', eq, flags, _⟩ =>
      .pure ⟨⟨vol', eq.trans map⟩, fun p hp _ => ⟨hp, flags p⟩⟩).runs
  | seek f newPos =>
    exact .bind ((runs_volumeSeek vol newPos.toInt).mono fun _ fs' ⟨vol', eq, flags⟩ =>
      .pure ⟨⟨vol', eq.trans map⟩, fun p hp _ => ⟨hp, flags p⟩⟩)
  | denyWrite f =>
    obtain ⟨mem, other⟩ := client f rfl
    exact .bind ((wp_volumeDenyWrite vol mem other).mono fun _ fs' ⟨vol', eq, file⟩ =>
      .pure ⟨⟨vol', eq.trans map⟩, fun p hp ne => ⟨hp, by rw [file p, if_neg ne]⟩⟩).runs
  | allowWrite f =>
    obtain ⟨mem, _⟩ := client f rfl
    exact .bind ((wp_volumeAllowWrite vol mem).mono fun _ fs' ⟨vol', eq, file⟩ =>
      .pure ⟨⟨vol', eq.trans map⟩, fun p hp ne => ⟨hp, by rw [file p, if_neg ne]⟩⟩).runs

section
variable {f : FilePtr} {name : CString} {size : Int}

section
variable (hs : Served tight fs m opened)
include hs

theorem Served.opens (name : CString) :
    Wp (filesysOpen name) (fun r fs' => Served tight fs' m (r.toList ++ opened) ∧
      ∀ f, r = some f → f ∉ opened) fs := by
  apply (wp_filesysOpen hs.1 name).mono
  rintro r fs' ⟨reads, _, res⟩
  have map := reads.freeMapFile.trans hs.2
  cases r with
  | none => exact ⟨⟨res.1, map⟩, nofun⟩
  | some f =>
    obtain ⟨vol, slot, found⟩ := res
    refine ⟨⟨vol, map⟩, ?_⟩
    rintro _ ⟨⟩ old
    exact found.fresh (mem_append_left _ old)

theorem Served.openFails (name : CString) :
    Wp (filesysOpen name) (fun r fs' => match r with
      | none => SameInodes fs fs' ∧ (Plenty fs → ∀ slot, ¬ fs.Matches slot name)
      | some _ => ∃ slot, fs.Matches slot name) fs := by
  apply (wp_filesysOpen hs.1 name).mono
  rintro r fs' ⟨reads, file, res⟩
  cases r with
  | none => exact ⟨reads.sameInodes hs.1.sound.counted res.1.sound.counted file, res.2⟩
  | some f =>
    obtain ⟨_, slot, found⟩ := res
    exact ⟨slot, found.matched⟩

theorem Served.closes (mem : f ∈ opened) :
    Wp (fileClose (some f)) (fun _ fs' => Served tight fs' m (opened.erase f)) fs := by
  obtain ⟨client, ne⟩ := hs.other mem
  apply (wp_volumeFileClose hs.1 client ne).mono
  rintro _ fs' ⟨vol, eq, _⟩
  rw [erase_append_left _ mem] at vol
  exact ⟨vol, eq.trans hs.2⟩

theorem Served.reads (mem : f ∈ opened) (buffer : Bytes) :
    Wp (fileRead f buffer size)
      (fun r fs' => Served tight fs' m opened ∧ r.1 ≤ size.toNat) fs := by
  obtain ⟨client, _⟩ := hs.other mem
  apply (wp_volumeRead hs.1 client buffer).mono
  exact fun _ fs' ⟨vol, eq, _, hm, _⟩ => ⟨⟨vol, eq.trans hs.2⟩, hm.le_size⟩

theorem Served.writes (mem : f ∈ opened) (buffer : Bytes) :
    Wp (fileWrite f buffer size)
      (fun n fs' => Served tight fs' m opened ∧ n ≤ size.toNat) fs := by
  obtain ⟨client, ne⟩ := hs.other mem
  apply (wp_volumeWrite hs.1 client ne buffer).mono
  exact fun _ fs' ⟨vol, eq, _, _, most⟩ => ⟨⟨vol, eq.trans hs.2⟩, most⟩

theorem Served.seeks (position : Int) :
    Runs (0 ≤ position) (fileSeek f position) (fun _ fs' => Served tight fs' m opened) fs := by
  apply (runs_volumeSeek hs.1 position).mono
  exact fun _ fs' ⟨vol, eq, _⟩ => ⟨vol, eq.trans hs.2⟩

theorem Served.creates (name : CString) (high : size < 2 ^ 31) :
    Runs (0 ≤ size) (filesysCreate name size) (fun _ fs' => Served tight fs' m opened) fs := by
  apply (runs_filesysCreate hs.1 name high).mono
  exact fun _ fs' ⟨vol, eq, _⟩ => ⟨vol, eq.trans hs.2⟩

theorem Served.removes (name : CString) :
    Wp (filesysRemove name) (fun _ fs' => Served tight fs' m opened) fs := by
  apply (wp_filesysRemove hs.1 name).mono
  exact fun _ fs' ⟨vol, eq, _⟩ => ⟨vol, eq.trans hs.2⟩

end

end

/-! ### What is in a file -/

section
variable {f : FilePtr} {size : Int}

def FS.fileData (fs : FS) (f : FilePtr) : InodeDisk := (fs.inode (fs.file f).inode).data

/-- The byte at a position of a file. -/
def FS.fileByte (fs : FS) (f : FilePtr) (i : Nat) : Option UInt8 :=
  if (i : Int) < (fs.fileData f).length then some (fs.byteAt (fs.fileData f).start i) else none

/-- The file is as it was, its position apart. -/
@[grind cases] structure SameFile (f : FilePtr) (fs fs' : FS) : Prop where
  data : fs'.fileData f = fs.fileData f
  disk : fs'.disk = fs.disk

theorem SameFile.refl (f : FilePtr) (fs : FS) : SameFile f fs fs := ⟨rfl, rfl⟩

theorem SameFile.trans {fs'' : FS} (first : SameFile f fs fs') (second : SameFile f fs' fs'') :
    SameFile f fs fs'' :=
  ⟨second.data.trans first.data, second.disk.trans first.disk⟩

theorem SameFile.byte (eq : SameFile f fs fs') (i : Nat) : fs'.fileByte f i = fs.fileByte f i := by
  unfold FS.fileByte FS.byteAt
  rw [eq.data, eq.disk]

theorem FS.withFile_sameFile {g : File → File} (inode : ∀ p, (g p).inode = p.inode) :
    SameFile f fs (fs.withFile f g) := by
  refine ⟨?_, rfl⟩
  show (fs.inode ((fs.withFile f g).file f).inode).data = _
  rw [FS.withFile_keep inode]
  rfl

theorem Served.length_bounds (hs : Served tight fs m opened) (mem : f ∈ opened) :
    0 ≤ (fs.fileData f).length ∧ (fs.fileData f).length < 2 ^ 31 := by
  have ho := hs.1.sound.counted.file_opened (hs.other mem).1
  obtain ⟨live, data⟩ := hs.1.sound.faithful _ ho
  refine ⟨?_, (hs.1.sound.placed ho).short⟩
  show 0 ≤ (fs.inode (fs.file f).inode).data.length
  rw [data]
  exact hs.1.sound.laid.nonneg _ live

theorem Served.seek (hs : Served tight fs m opened) {newPos : Int} (hv : 0 ≤ newPos) :
    Wp (fileSeek f newPos) (fun _ fs' => Served tight fs' m opened ∧ SameFile f fs fs' ∧
      (fs'.file f).pos = newPos.toNat) fs := by
  apply (wp_fileSeek hs.1.sound hv).mono
  rintro _ fs' ⟨_, rfl⟩
  refine ⟨⟨hs.1.withPos fun _ => newPos.toNat, hs.2⟩, FS.withFile_sameFile fun _ => rfl, ?_⟩
  rw [FS.withFile_file, Function.update_self]

/-- What `file_read` puts in the buffer are bytes of the file, from its position on. -/
theorem Served.read (served : Served tight fs m opened) (mem : f ∈ opened) (buffer : Bytes) :
    Wp (fileRead f buffer size) (fun r fs' => Served tight fs' m opened ∧ SameFile f fs fs' ∧
      (fs'.file f).pos = (fs.file f).pos + r.1 ∧ r.1 ≤ size.toNat ∧
      (∀ i < r.1, fs.fileByte f ((fs.file f).pos + i) = some (r.2 i)) ∧
      ∀ i, r.1 ≤ i → r.2 i = buffer i) fs := by
  obtain ⟨client, _⟩ := served.other mem
  apply (wp_fileRead served.1.sound client buffer size).mono
  rintro ⟨n, content⟩ fs' ⟨_, fs1, quiet, rfl, moved, eq⟩
  have hk := quiet.kept
  have vol := (served.1.quiet quiet).withPos (f := f) (· + n)
  have quietly : SameFile f fs fs1 := ⟨by unfold FS.fileData; rw [hk], quiet.disk⟩
  refine ⟨⟨vol, quiet.readsOnly.freeMapFile.trans served.2⟩,
    quietly.trans (FS.withFile_sameFile fun _ => rfl), ?_, moved.le_size, ?_, ?_⟩
  · rw [FS.withFile_file, Function.update_self, hk]
  · intro i hi
    have most := moved.most
    have within : (((fs.file f).pos + i : Nat) : Int) < (fs.fileData f).length := by
      unfold available at most
      unfold FS.fileData
      dsimp only at hi
      omega
    unfold FS.fileByte
    dsimp only at eq hi ⊢
    rw [if_pos within, eq, filled, if_pos (by omega), Nat.sub_zero]
    rfl
  · intro i outside
    dsimp only at eq outside ⊢
    rw [eq, filled, if_neg (by omega)]

end

namespace Session

theorem step_served (hs : Served tight s.fs m s.opened) (room : tight → ∀ ok ∈ e.memory, ok = true)
    (ran : s.step e = some t) : Served tight t.fs m t.opened := by
  unfold step at ran
  split_ifs at ran with hv
  split at ran
  · rename_i opened fs run
    cases ran
    refine (((hs.provide room).runs e.call fun f is => ?_).result run).1
    rw [is] at hv
    simpa using hv
  · cases ran

/-- A file that the call is not made with stays open. -/
theorem step_stays (hs : Served tight s.fs m s.opened)
    (room : tight → ∀ ok ∈ e.memory, ok = true) (ran : s.step e = some t) {p : FilePtr}
    (mem : p ∈ s.opened) (ne : e.call.file ≠ some p) : p ∈ t.opened := by
  unfold step at ran
  split_ifs at ran with hv
  split at ran
  · rename_i opened fs run
    cases ran
    refine ((((hs.provide room).runs e.call fun f is => ?_).result run).2 p mem
      (Call.spares_of_ne ne)).1
    rw [is] at hv
    simpa using hv
  · cases ran

/-- Every state of a run, from what `filesys_init` has formatted. -/
theorem run_served (tight : Prop) {size : UInt32} {disk : Nat → Bytes} {ok : Session → Event → Prop}
    (hf : format (boot size disk memory junk) = some s)
    (run : Run step ok s history t) (start : tight → ∀ ok ∈ memory, ok = true)
    (room : tight → ∀ s e, ok s e → ∀ ok ∈ e.memory, ok = true) :
    ∃ m, Served tight t.fs m t.opened := by
  have small : (boot size disk memory junk).size < 2 ^ 32 := size.toNat_lt
  obtain ⟨m, hs⟩ : ∃ m, Served tight s.fs m s.opened := by
    unfold format at hf
    split at hf
    · rename_i fs init
      cases hf
      exact (runs_filesysFormat rfl small start).result init
    · cases hf
  refine ⟨m, run.invariant (I := fun s => Served tight s.fs m s.opened) hs ?_⟩
  exact fun s e t hs allowed => step_served hs fun he => room he s e allowed

end Session

/-! ### Who owns which sectors -/

inductive Owner where
  | freeMap
  | rootDir
  | listed (slot : Nat)
  | removed (inode : InodePtr)
  deriving DecidableEq

inductive Part where
  | inode
  | data
  deriving DecidableEq

/-- The two fixed inodes, the files the directory lists, and those that are removed but open. -/
def FS.Owns (fs : FS) : Owner → Prop
  | .freeMap | .rootDir => True
  | .listed slot => fs.Used slot
  | .removed i => i ∈ fs.openInodes ∧ (fs.inode i).removed = true

def FS.home (fs : FS) : Owner → Nat
  | .freeMap => freeMapSector
  | .rootDir => rootDirSector
  | .listed slot => Entry.inodeSector (fs.entry slot)
  | .removed i => (fs.inode i).sector

def FS.region (fs : FS) (o : Owner) : Part → Set Nat
  | .inode => {fs.home o}
  | .data => (fs.data (fs.home o)).extent

section
variable {files : List FilePtr} {held : List InodePtr} {o o' : Owner}

theorem FS.home_live (owns : fs.Owns o) : fs.home o ∈ fs.live := by
  cases o with
  | freeMap => exact fs.map_live
  | rootDir => exact fs.root_live
  | listed slot => exact .inr (.inl ⟨slot, owns, rfl⟩)
  | removed i => exact .inr (.inr ⟨i, owns.1, rfl⟩)

theorem Volume.home_inj (vol : Volume tight fs files held) (owns : fs.Owns o) (owns' : fs.Owns o')
    (eq : fs.home o = fs.home o') : o = o' := by
  have special : ∀ {slot}, fs.Used slot → ¬ Special (Entry.inodeSector (fs.entry slot)) :=
    fun used => vol.ordinary _ ⟨_, used, rfl⟩
  have gone : ∀ {i}, i ∈ fs.openInodes ∧ (fs.inode i).removed = true →
      ¬ Special (fs.inode i).sector ∧ ¬ fs.Listed (fs.inode i).sector :=
    fun is => vol.removed _ is.1 is.2
  cases o <;> cases o' <;> simp only [FS.Owns, FS.home] at owns owns' eq
  case freeMap.freeMap | rootDir.rootDir => rfl
  case freeMap.rootDir | rootDir.freeMap => cases eq
  case freeMap.listed slot => exact absurd (.inl eq.symm) (special owns')
  case rootDir.listed slot => exact absurd (.inr eq.symm) (special owns')
  case listed.freeMap slot => exact absurd (.inl eq) (special owns)
  case listed.rootDir slot => exact absurd (.inr eq) (special owns)
  case freeMap.removed i => exact absurd (.inl eq.symm) (gone owns').1
  case rootDir.removed i => exact absurd (.inr eq.symm) (gone owns').1
  case removed.freeMap i => exact absurd (.inl eq) (gone owns).1
  case removed.rootDir i => exact absurd (.inr eq) (gone owns).1
  case listed.listed slot slot' => rw [vol.once slot slot' owns owns' eq]
  case listed.removed slot i => exact absurd ⟨slot, owns, eq⟩ (gone owns').2
  case removed.listed i slot => exact absurd ⟨slot, owns', eq.symm⟩ (gone owns).2
  case removed.removed i j => rw [vol.sound.counted.apart i owns.1 j owns'.1 eq]

theorem Volume.disjoint (vol : Volume tight fs files held) (owns : fs.Owns o) (owns' : fs.Owns o')
    {p p' : Part} (ne : (o, p) ≠ (o', p')) : Disjoint (fs.region o p) (fs.region o' p') := by
  have laid := vol.sound.laid
  have live := FS.home_live owns
  have live' := FS.home_live owns'
  cases p <;> cases p' <;> simp only [FS.region, Set.disjoint_singleton_left,
    Set.disjoint_singleton_right, Set.mem_singleton_iff]
  case inode.inode => exact fun eq => ne (by rw [vol.home_inj owns owns' eq.symm])
  case inode.data => exact laid.apart _ live _ live'
  case data.inode => exact laid.apart _ live' _ live
  case data.data =>
    exact laid.disjoint _ live _ live' fun eq => ne (by rw [vol.home_inj owns owns' eq])

theorem Volume.inside (vol : Volume tight fs files held) (owns : fs.Owns o) (p : Part) :
    ∀ x ∈ fs.region o p, x < fs.size ∧ fs.bits x = true := by
  have live := FS.home_live owns
  cases p with
  | inode => rintro x rfl; exact vol.sound.laid.inode _ live
  | data => exact vol.sound.laid.extent _ live

end

namespace Session

/-- The sectors of the free map, of the directory, of the files it lists and of those that are
removed but still open are apart from each other, on the device, and not free. -/
theorem regions_disjoint {size : UInt32} {disk : Nat → Bytes}
    (formatted : format (boot size disk memory junk) = some s)
    (run : Run step Free s history t) :
    (∀ o o' p p', t.fs.Owns o → t.fs.Owns o' → (o, p) ≠ (o', p') →
      Disjoint (t.fs.region o p) (t.fs.region o' p')) ∧
    ∀ o p, t.fs.Owns o → ∀ x ∈ t.fs.region o p, x < t.fs.size ∧ t.fs.bits x = true := by
  obtain ⟨m, vol, _⟩ := run_served False formatted run nofun nofun
  exact ⟨fun o o' p p' owns owns' => vol.disjoint owns owns', fun o p owns => vol.inside owns p⟩

def first : CString := ⟨[97], nonzero_a⟩
def second : CString := ⟨[98], by decide⟩

/-- A file is removed while it is open, another is created, and a third does not fit. -/
def removing : List Event :=
  [⟨.create first 600, [], fun _ => 0⟩, ⟨.openFile first, [], fun _ => 0⟩,
    ⟨.remove first, [], fun _ => 0⟩, ⟨.create second 10, [], fun _ => 0⟩,
    ⟨.create first 600, [true, true, false], fun _ => 0⟩]

theorem regions_disjoint_removing : ∃ s t,
    format tenSectors = some s ∧ Run step Free s removing.reverse t ∧
    t.fs.Owns (.listed 0) ∧ t.fs.Owns (.removed 4) ∧
    Disjoint (t.fs.region (.listed 0) .data) (t.fs.region (.removed 4) .data) := by
  have state : ((format tenSectors).bind fun s =>
      (runs step Free s removing).map fun t => (Entry.inUse (t.fs.entry 0), (t.fs.inode 4).removed,
        decide (4 ∈ t.fs.openInodes))) = some (true, true, true) := by
    decide +kernel
  obtain ⟨s, hf, after⟩ := Option.bind_eq_some_iff.mp state
  obtain ⟨t, hr, seen⟩ := Option.map_eq_some_iff.mp after
  simp only [Prod.mk.injEq, decide_eq_true_eq] at seen
  have run := runs_run hr
  have hl : t.fs.Owns (.listed 0) := ⟨by decide, seen.1⟩
  have removed : t.fs.Owns (.removed 4) := ⟨seen.2.2, seen.2.1⟩
  exact ⟨s, t, hf, run, hl, removed,
    (regions_disjoint hf run).1 _ _ _ _ hl removed (by decide)⟩

end Session

end Pintos.Filesys
