import Pintos.Filesys.Session

/-!
# Handles of inodes

Pointers to inodes, and open files on them, are taken and given up in any order. An inode lives
as long as there is a handle on it. One that has been removed takes its sectors with it when the
last handle goes.
-/

namespace Pintos.Filesys

open LittleEndian Prog Machine List

/-- A call of `inode.c` or `file.c`; `create` is `free_map_allocate` and `inode_create` as
`filesys_create` calls them. -/
inductive HandleCall where
  | create (length : Int32)
  | openInode (sector : Nat)
  | reopen (inode : InodePtr)
  | remove (inode : InodePtr)
  | close (inode : InodePtr)
  | fileOpen (inode : InodePtr)
  | fileReopen (file : FilePtr)
  | fileClose (file : FilePtr)
  | read (file : FilePtr) (buffer : Bytes) (size : Int32)
  | write (file : FilePtr) (buffer : Bytes) (size : Int32)
  | readAt (inode : InodePtr) (buffer : Bytes) (size : Int32) (offset : Nat)
  | writeAt (inode : InodePtr) (buffer : Bytes) (size : Int32) (offset : Nat)

structure Handles where
  fs : FS
  /-- The sectors that hold inodes. -/
  live : List Nat
  /-- The pointers to inodes that the callers have. -/
  held : List InodePtr
  opened : List FilePtr

namespace Handles

/-- Some caller can reach the inode. -/
def knows (k : Handles) (i : InodePtr) : Bool :=
  k.held.contains i || k.opened.any fun f => (k.fs.file f).inode == i

/-- The call is made with handles that are open, and on a sector that holds an inode. -/
def valid (k : Handles) : HandleCall → Bool
  | .create _ => true
  | .openInode sector => k.live.contains sector
  | .reopen i | .remove i | .readAt i .. | .writeAt i .. => k.knows i
  | .close i | .fileOpen i => k.held.contains i
  | .fileReopen f | .fileClose f | .read f .. | .write f .. => k.opened.contains f

/-- `inode_create` asserts that the length is not negative. -/
def Sane : HandleCall → Prop
  | .create length => 0 ≤ length.toInt
  | _ => True

/-- Runs the call. The result is the lists of sectors, pointers and files after it. -/
def code (k : Handles) : HandleCall → Fs (List Nat × List InodePtr × List FilePtr)
  | .create length => do
    match ← freeMapAllocate 1 with
    | none => pure (k.live, k.held, k.opened)
    | some sector => do
      if ← inodeCreate sector length.toInt then pure (sector :: k.live, k.held, k.opened)
      else do
        freeMapRelease sector 1
        pure (k.live, k.held, k.opened)
  | .openInode sector => do
    let i ← inodeOpen sector
    pure (k.live, i.toList ++ k.held, k.opened)
  | .reopen i => do
    inodeReopen i
    pure (k.live, i :: k.held, k.opened)
  | .remove i => do
    inodeRemove i
    pure (k.live, k.held, k.opened)
  | .close i => do
    inodeClose i
    pure (k.live, k.held.erase i, k.opened)
  | .fileOpen i => do
    let f ← Filesys.fileOpen (some i)
    pure (k.live, k.held.erase i, f.toList ++ k.opened)
  | .fileReopen f => do
    let g ← Filesys.fileReopen f
    pure (k.live, k.held, g.toList ++ k.opened)
  | .fileClose f => do
    Filesys.fileClose (some f)
    pure (k.live, k.held, k.opened.erase f)
  | .read f buffer size => do
    let _ ← fileRead f buffer size.toInt
    pure (k.live, k.held, k.opened)
  | .write f buffer size => do
    let _ ← fileWrite f buffer size.toInt
    pure (k.live, k.held, k.opened)
  | .readAt i buffer size offset => do
    let _ ← inodeReadAt i buffer size.toInt offset
    pure (k.live, k.held, k.opened)
  | .writeAt i buffer size offset => do
    let _ ← inodeWriteAt i buffer size.toInt offset
    pure (k.live, k.held, k.opened)

/-- The inode in this sector was removed, and is not open any more. -/
def gone (fs fs' : FS) (sector : Nat) : Bool :=
  fs.openInodes.any fun i =>
    (fs.inode i).sector == sector && (fs.inode i).removed && !fs'.openInodes.contains i

structure Event where
  call : HandleCall
  memory : List Bool := []
  junk : Bytes := fun _ => 0

def step (k : Handles) (e : Event) : Option Handles :=
  if k.valid e.call then
    match k.code e.call { k.fs with memory := e.memory, junk := e.junk } with
    | .ok ((live, held, opened), fs) =>
      some { fs, live := live.filter fun sector => !gone k.fs fs sector, held, opened }
    | .error _ => none
  else none

/-- `filesys_init (true)`. -/
def format (blank : FS) : Option Handles :=
  match filesysInit true blank with
  | .ok (_, fs) => some { fs, live := [freeMapSector, rootDirSector], held := [], opened := [] }
  | .error _ => none

/-- How many handles there are on an inode, with that of the free map. -/
def handles (k : Handles) (i : InodePtr) : Nat :=
  k.fs.refs (k.opened ++ k.fs.freeMapFile.toList) k.held i

/-- The inode that a call writes to. -/
def target (k : Handles) : HandleCall → Option InodePtr
  | .write f .. => some (k.fs.file f).inode
  | .writeAt i .. => some i
  | _ => none

/-- The inode that a call removes. -/
def removes : HandleCall → Option InodePtr
  | .remove i => some i
  | _ => none

end Handles

variable {tight : Prop} {fs fs1 fs' : FS} {live : Set Nat} {files : List FilePtr}
  {held : List InodePtr} {i : InodePtr} {f m : FilePtr} {s : Nat}
    {written removing : Option InodePtr}

/-! ### What a call does with the inodes that are open -/

/-- What holds across every call: an inode that stays open stays what it was and is marked as
removed by `inode_remove` only, one that is new is not removed, and the free map loses the sectors
of removed inodes that leave, and nothing else. -/
@[grind cases] structure Turned (fs fs' : FS) (written removing : Option InodePtr) : Prop where
  marked : ∀ i ∈ fs.openInodes, i ∈ fs'.openInodes →
    (fs'.inode i).removed = ((fs.inode i).removed || removing == some i)
  fresh : ∀ i ∉ fs.openInodes, i ∈ fs'.openInodes → (fs'.inode i).removed = false
  stays : ∀ i ∈ fs.openInodes, i ∈ fs'.openInodes →
    (fs'.inode i).sector = (fs.inode i).sector ∧ (fs'.inode i).data = (fs.inode i).data
  content : ∀ i ∈ fs.openInodes, i ∈ fs'.openInodes → (fs.inode i).sector ≠ freeMapSector →
    written ≠ some i → ∀ x ∈ (fs.inode i).data.extent, fs'.disk x = fs.disk x
  freed : ∀ i ∈ fs.openInodes, i ∉ fs'.openInodes → (fs.inode i).removed = true →
    Freed fs fs' (fs.inode i).sector
  kept : (∀ i ∈ fs.openInodes, i ∉ fs'.openInodes → (fs.inode i).removed = false) →
    ∀ x, fs.bits x = true → fs'.bits x = true

/-- The device is as it was, and so are the inodes that were open. -/
@[grind cases] structure Still (fs fs' : FS) : Prop where
  size : fs'.size = fs.size
  disk : fs'.disk = fs.disk
  bits : fs'.bits = fs.bits
  freeMapFile : fs'.freeMapFile = fs.freeMapFile
  opened : ∀ i ∈ fs.openInodes, i ∈ fs'.openInodes
  same : ∀ i ∈ fs.openInodes, fs'.view i = fs.view i
  fresh : ∀ i ∉ fs.openInodes, i ∈ fs'.openInodes → (fs'.inode i).removed = false

/-- The table and the inodes in it are the same. -/
theorem Still.of_table (disk : fs'.disk = fs.disk) (size : fs'.size = fs.size)
    (bits : fs'.bits = fs.bits) (freeMapFile : fs'.freeMapFile = fs.freeMapFile)
    (openInodes : fs'.openInodes = fs.openInodes) (same : ∀ i, fs'.view i = fs.view i) :
    Still fs fs' where
  size := size
  disk := disk
  bits := bits
  freeMapFile := freeMapFile
  opened _ member := openInodes ▸ member
  same i _ := same i
  fresh _ out member := absurd (openInodes ▸ member) out

theorem Still.refl (fs : FS) : Still fs fs := .of_table rfl rfl rfl rfl rfl fun _ => rfl

theorem Still.trans (first : Still fs fs1) (second : Still fs1 fs') : Still fs fs' where
  size := second.size.trans first.size
  disk := second.disk.trans first.disk
  bits := second.bits.trans first.bits
  freeMapFile := second.freeMapFile.trans first.freeMapFile
  opened i member := second.opened i (first.opened i member)
  same i member := (second.same i (first.opened i member)).trans (first.same i member)
  fresh i out member := by
    by_cases here : i ∈ fs1.openInodes
    · rw [FS.view_removed (second.same i here), first.fresh i out here]
    · exact second.fresh i here member

theorem Quiet.still (hq : Quiet fs fs') : Still fs fs' := by
  obtain ⟨memory, rfl⟩ := hq.eq
  exact .of_table rfl rfl rfl rfl rfl fun _ => rfl

theorem Opens.still (ho : Opens fs fs' i s) : Still fs fs' where
  size := ho.readsOnly.size
  disk := ho.readsOnly.disk
  bits := ho.readsOnly.bits
  freeMapFile := ho.readsOnly.freeMapFile
  opened j member := (ho.members j).mpr (.inr member)
  same := ho.same
  fresh j out member := by
    obtain rfl | old := (ho.members j).mp member
    · exact ho.fresh out
    · exact absurd old out

theorem Refiles.still (refiles : Refiles fs fs') : Still fs fs' :=
  .of_table refiles.readsOnly.disk refiles.readsOnly.size refiles.readsOnly.bits
    refiles.readsOnly.freeMapFile (by rw [refiles.kept]) refiles.same

theorem Still.turned (still : Still fs fs') : Turned fs fs' written none where
  marked i mem _ := by simp [FS.view_removed (still.same i mem)]
  fresh := still.fresh
  stays i mem _ := ⟨FS.view_sector (still.same i mem), FS.view_data (still.same i mem)⟩
  content _ _ _ _ _ _ _ := by rw [still.disk]
  freed i mem left := absurd (still.opened i mem) left
  kept _ _ used := by rw [still.bits]; exact used

/-- A handle is given up, after nothing or after steps that changed nothing. -/
theorem Still.closes (still : Still fs fs1) (hs : Sound tight fs1 live files held)
    (was : i ∈ fs.openInodes) (closes : Closes fs1 fs' files held i) :
    Turned fs fs' written none := by
  have eq : ∀ j ∈ fs.openInodes, fs'.view j = fs.view j :=
    fun j hj => (closes.same j).trans (still.same j hj)
  have left : ∀ j ∈ fs.openInodes, j ∉ fs'.openInodes → j = i ∧ fs1.Last files held i := by
    intro j hj out
    by_contra ne
    exact out ((closes.members j).mpr ⟨still.opened j hj, ne⟩)
  have data : fs1.data = fs.data := FS.data_congr still.disk
  constructor
  case marked => exact fun j hj _ => by simp [FS.view_removed (eq j hj)]
  case fresh =>
    intro j out hj
    rw [FS.view_removed (closes.same j)]
    exact still.fresh j out ((closes.members j).mp hj).1
  case stays => exact fun j hj _ => ⟨FS.view_sector (eq j hj), FS.view_data (eq j hj)⟩
  case content =>
    intro j hj _ ne _ x hx
    have opened1 := still.opened j hj
    obtain ⟨hi, onDisk⟩ := hs.faithful j opened1
    have sector1 := FS.view_sector (still.same j hj)
    rw [closes.disk x, still.disk]
    apply Set.disjoint_left.mp (hs.laid.disjoint _ hi _ hs.mapLive (by rw [sector1]; exact ne))
    rw [← onDisk, FS.view_data (still.same j hj)]
    exact hx
  case freed =>
    intro j hj out removed
    obtain ⟨rfl, last⟩ := left j hj out
    have freed := closes.freed last (by rw [FS.view_removed (still.same j hj)]; exact removed)
    rw [FS.view_sector (still.same j hj)] at freed
    intro x
    rw [freed x, still.bits, data]
  case kept =>
    intro none x used
    have stays : ¬ (fs1.Last files held i ∧ (fs1.inode i).removed = true) := by
      rintro ⟨last, removed⟩
      have out : i ∉ fs'.openInodes := fun hi => ((closes.members i).mp hi).2 ⟨rfl, last⟩
      rw [FS.view_removed (still.same i was), none i was out] at removed
      cases removed
    rw [(closes.otherwise stays).2, still.bits]
    exact used

namespace Handles

def Gone (fs fs' : FS) (s : Nat) : Prop :=
  ∃ i ∈ fs.openInodes, (fs.inode i).sector = s ∧ (fs.inode i).removed = true ∧ i ∉ fs'.openInodes

theorem gone_iff (fs fs' : FS) (s : Nat) : gone fs fs' s = true ↔ Gone fs fs' s := by
  simp [gone, Gone, and_assoc]

/-- The sectors of inodes that are still there. -/
def survivors (fs fs' : FS) (live : Set Nat) : Set Nat := {s | s ∈ live ∧ ¬ Gone fs fs' s}

theorem stays_live (stays : ∀ i ∈ fs.openInodes, i ∈ fs'.openInodes) :
    survivors fs fs' live = live := by
  ext s
  constructor
  · exact fun mem => mem.1
  · exact fun mem => ⟨mem, fun ⟨i, ho, _, _, left⟩ => left (stays i ho)⟩

theorem shuts_live (still : Still fs fs1) (was : i ∈ fs.openInodes)
    (shuts : Shuts tight fs1 fs' live files held i) :
    Sound tight fs' (survivors fs fs' live) files (held.erase i) := by
  obtain ⟨hc, goes, stays⟩ := shuts
  have removed := FS.view_removed (still.same i was)
  have sector := FS.view_sector (still.same i was)
  by_cases leaves : fs1.Last files held i ∧ (fs1.inode i).removed = true
  · have out : i ∉ fs'.openInodes := fun hi => ((hc.members i).mp hi).2 ⟨rfl, leaves.1⟩
    have same : survivors fs fs' live = live \ {(fs1.inode i).sector} := by
      ext s
      constructor
      · rintro ⟨hi, alive⟩
        refine ⟨hi, fun eq => alive ⟨i, was, ?_, ?_, out⟩⟩
        · rw [← sector]; exact eq.symm
        · rw [← removed]; exact leaves.2
      · rintro ⟨hi, ne⟩
        refine ⟨hi, ?_⟩
        rintro ⟨j, hj, eq, _, left⟩
        have is : j = i := by
          by_contra differs
          exact left ((hc.members j).mpr ⟨still.opened j hj, fun h => differs h.1⟩)
        subst is
        exact ne (by rw [sector]; exact eq.symm)
    rw [same]
    exact goes leaves.1 leaves.2
  · have same : survivors fs fs' live = live := by
      ext s
      constructor
      · exact fun mem => mem.1
      · intro hi
        refine ⟨hi, ?_⟩
        rintro ⟨j, hj, _, was', left⟩
        have last : j = i ∧ fs1.Last files held i := by
          by_contra ne
          exact left ((hc.members j).mpr ⟨still.opened j hj, ne⟩)
        obtain ⟨rfl, last⟩ := last
        exact leaves ⟨last, by rw [removed]; exact was'⟩
    rw [same]
    exact stays leaves

end Handles

/-- The device changes where no open inode has its data, and nothing is released. -/
theorem Writes.turned {X : Set Nat} (hw : Writes X fs fs') (hs : Sound tight fs live files held)
    (ne : ∀ t ∈ live, t ≠ freeMapSector → ∀ x ∈ (fs.data t).extent, x ∉ X)
    (bits : ∀ x, fs.bits x = true → fs'.bits x = true) : Turned fs fs' written none := by
  constructor <;> grind [Function.update_apply]

theorem Wrote.turned {ok : Prop} {size offset n : Nat} {b : Bytes}
    (hw : Wrote fs fs' (fs.inode i).data.start offset n b)
    (hm : Moved ok (fs.inode i).data.length size offset n) (hs : Sound tight fs live files held)
    (ho : i ∈ fs.openInodes) : Turned fs fs' (some i) none := by
  have inode : fs'.inode = fs.inode := by rw [hw.kept]
  have openInodes : fs'.openInodes = fs.openInodes := by rw [hw.kept]
  have bits : fs'.bits = fs.bits := by rw [hw.kept]
  constructor
  case marked => intro j _ _; simp [inode]
  case fresh => intro j out hj; exact absurd (openInodes ▸ hj) out
  case stays => intro j _ _; rw [inode]; exact ⟨rfl, rfl⟩
  case content =>
    intro j hj _ _ ne x hx
    obtain ⟨hi, data⟩ := hs.faithful i ho
    obtain ⟨inside', data'⟩ := hs.faithful j hj
    apply hw.outside_extent (hs.placed ho) hm
    rw [data]
    rw [data'] at hx
    refine Set.disjoint_left.mp (hs.laid.disjoint _ inside' _ hi fun eq => ne ?_) hx
    rw [hs.counted.apart j hj i ho eq]
  case freed => intro j hj left; rw [openInodes] at left; exact absurd hj left
  case kept => intro _ x used; rw [bits]; exact used

theorem Turned.then (turned : Turned fs fs1 written removing) (still : Still fs1 fs')
    (members : ∀ i, i ∈ fs'.openInodes → i ∈ fs1.openInodes) : Turned fs fs' written removing := by
  constructor
  case marked =>
    intro i ho opened'
    have here := members i opened'
    rw [FS.view_removed (still.same i here), turned.marked i ho here]
  case fresh =>
    intro i out opened'
    have here := members i opened'
    rw [FS.view_removed (still.same i here), turned.fresh i out here]
  case stays =>
    intro i ho opened'
    have here := members i opened'
    rw [FS.view_sector (still.same i here), FS.view_data (still.same i here)]
    exact turned.stays i ho here
  case content => grind
  case freed =>
    intro i ho left removed x
    rw [still.bits]
    exact turned.freed i ho (fun here => left (still.opened i here)) removed x
  case kept => grind

namespace Handles

structure After (fs fs' : FS) (m : FilePtr) (written removing : Option InodePtr)
    (r : List Nat × List InodePtr × List FilePtr) : Prop where
  sound : Sound False fs' (survivors fs fs' {s | s ∈ r.1}) (r.2.2 ++ [m]) r.2.1
  map : fs'.freeMapFile = some m
  turned : Turned fs fs' written removing

variable {k : Handles} {lists : List Nat × List InodePtr × List FilePtr}

theorem After.of_stays (stays : ∀ i ∈ fs.openInodes, i ∈ fs'.openInodes)
    (hs : Sound False fs' {s | s ∈ lists.1} (lists.2.2 ++ [m]) lists.2.1)
    (map : fs'.freeMapFile = some m) (turned : Turned fs fs' written removing) :
    After fs fs' m written removing lists := by
  refine ⟨?_, map, turned⟩
  rw [stays_live stays]
  exact hs

theorem After.of_still (still : Still fs fs') (map : fs.freeMapFile = some m)
    (hs : Sound False fs' {s | s ∈ lists.1} (lists.2.2 ++ [m]) lists.2.1) :
    After fs fs' m written none lists :=
  .of_stays still.opened hs (still.freeMapFile.trans map) still.turned

theorem runs_create (hs : Sound False fs {s | s ∈ k.live} (k.opened ++ [m]) k.held)
    (map : fs.freeMapFile = some m) (length : Int32) :
    Runs (Sane (.create length)) (k.code (.create length)) (fun r fs' => After fs fs' m none none r)
      fs := by
  have laid := hs.laid
  have outside : ∀ t ∈ {s | s ∈ k.live}, t ≠ freeMapSector → ∀ x ∈ (fs.data t).extent,
      x ∉ (fs.data freeMapSector).extent := by
    intro t ht ne x hx
    exact Set.disjoint_left.mp (laid.disjoint t ht _ hs.mapLive ne) hx
  refine .bind ((wp_allocate hs 1).mono fun r fs1 ⟨sound1, writes1, res⟩ => ?_).runs
  have map1 : fs1.freeMapFile = some m := by rw [writes1.kept]; exact map
  have opened1 : fs1.openInodes = fs.openInodes := by rw [writes1.kept]
  cases r with
  | none =>
    have bits : fs1.bits = fs.bits := res
    refine .pure (.of_stays (fun i => by rw [opened1]; exact id) sound1 map1 ?_)
    exact writes1.turned hs outside fun x used => by rw [bits]; exact used
  | some s =>
    obtain ⟨hi, free, bits⟩ := res
    have spare := hs.spare writes1 hi free bits
    have unused : fs.bits s = false := free s ⟨Nat.le_refl s, Nat.lt_succ_self s⟩
    have grows : ∀ x, fs.bits x = true → fs1.bits x = true := by
      intro x used
      rw [bits]
      simp only [FS.mark_bits, used, ite_self]
    by_cases low : 0 ≤ length.toInt
    swap
    · refine .bind (.bind ?_)
      rw [Prog.assert, if_neg low]
      exact .throw low
    refine .bind
      ((wp_create sound1 spare low (Int32.toInt_lt length)).mono fun r fs2 res => ?_).runs
    cases r with
    | true =>
      obtain ⟨sound2, start, created⟩ := res
      have writes2 := created.writes
      have map2 : fs2.freeMapFile = some m := by rw [writes2.kept]; exact map1
      have opened2 : fs2.openInodes = fs.openInodes := by rw [writes2.kept, opened1]
      have both : Writes ((fs.data freeMapSector).extent ∪ ({s} ∪
          Set.Ico start (start + bytesToSectors length.toInt))) fs fs2 := by
        refine (writes1.mono Set.subset_union_left).trans (writes2.mono ?_)
        rw [sound1.mapExtent, FS.data, writes1.disk _ (laid.apart _ hs.mapLive _ hs.mapLive)]
        exact subset_rfl
      refine .pure (.of_stays (fun i => by rw [opened2]; exact id) ?_ map2 ?_)
      · convert sound2 using 1
        ext t
        simp
      · refine both.turned hs (fun t ht ne x hx => ?_) fun x used => ?_
        · grind
        · rw [created.bits]
          simp only [FS.mark_bits, grows x used, ite_self]
    | false =>
      obtain ⟨sound2, writes2, bits2⟩ := res
      have spare2 : Spare fs2 {s | s ∈ k.live} s := by
        refine spare.keep writes2.size (by rw [bits2]) fun t ht => ?_
        exact writes2.disk t (sound1.laid.apart t ht _ sound1.mapLive)
      refine .bind ((wp_releaseSpare sound2 spare2).mono ?_).runs
      rintro _ fs3 ⟨sound3, writes3, bits3⟩
      have extent1 : (fs1.data freeMapSector).extent = (fs.data freeMapSector).extent := by
        rw [FS.data, writes1.disk _ (laid.apart _ hs.mapLive _ hs.mapLive)]
        rfl
      have extent2 : (fs2.data freeMapSector).extent = (fs.data freeMapSector).extent := by
        rw [← extent1, FS.data, writes2.disk _
          (sound1.laid.apart _ sound1.mapLive _ sound1.mapLive)]
        rfl
      rw [extent1] at writes2
      rw [extent2] at writes3
      have hw := (writes1.trans writes2).trans writes3
      refine .pure (.of_stays (fun i => by rw [hw.kept]; exact id) sound3 ?_ ?_)
      · rw [hw.kept]; exact map
      · refine hw.turned hs outside fun x used => ?_
        have ne : x ≠ s := by
          rintro rfl
          rw [unused] at used
          cases used
        rw [bits3]
        simp only [FS.mark_bits, bits2]
        rw [if_neg (by omega), grows x used]

theorem After.of_shuts (still : Still fs fs1) (was : i ∈ fs.openInodes)
    (map : fs.freeMapFile = some m)
    (sound : Sound False fs1 {s | s ∈ lists.1} (lists.2.2 ++ [m]) held)
    (eq : held.erase i = lists.2.1)
    (shuts : Shuts False fs1 fs' {s | s ∈ lists.1} (lists.2.2 ++ [m]) held i) :
    After fs fs' m none none lists where
  sound := by rw [← eq]; exact shuts_live still was shuts
  map := by rw [shuts.closes.kept]; exact still.freeMapFile.trans map
  turned := still.closes sound was shuts.closes

/-- A file is made of a pointer that its maker holds. -/
theorem runs_fileOpen {rest : List InodePtr} (still : Still fs fs1) (was : i ∈ fs.openInodes)
    (map : fs.freeMapFile = some m) (mem : i ∈ held) (eq : held.erase i = rest)
    (hs : Sound False fs1 {s | s ∈ k.live} (k.opened ++ [m]) held) :
    Wp (Filesys.fileOpen (some i)) (fun r fs' =>
      After fs fs' m none none (k.live, rest, r.toList ++ k.opened)) fs1 := by
  refine (wp_fileOpen hs mem).mono fun r fs' res => ?_
  cases r with
  | none => exact .of_shuts still was map hs eq res.2
  | some f =>
    obtain ⟨sound', new⟩ := res
    rw [eq] at sound'
    exact .of_still (still.trans new.refiles.still) map sound'

theorem turned_remove :
    Turned fs (fs.withInode i fun n => { n with removed := true }) written (some i) where
  marked j _ _ := by
    by_cases eq : j = i
    · simp [FS.withInode, eq]
    · simp [FS.withInode, eq, Ne.symm eq]
  fresh j out hj := absurd hj out
  stays j _ _ := by
    have sector : ∀ j, ((fs.withInode i fun n => { n with removed := true }).inode j).sector =
        (fs.inode j).sector := FS.withInode_keep fun _ => rfl
    have data : ∀ j, ((fs.withInode i fun n => { n with removed := true }).inode j).data =
        (fs.inode j).data := FS.withInode_keep fun _ => rfl
    exact ⟨sector j, data j⟩
  content _ _ _ _ _ _ _ := rfl
  freed j ho left := absurd ho left
  kept _ _ := id

theorem opened_of_knows (hs : Sound tight k.fs live (k.opened ++ [m]) k.held)
    (known : k.knows i = true) :
    i ∈ k.fs.openInodes := by
  simp only [knows, Bool.or_eq_true, contains_iff_mem, any_eq_true, beq_iff_eq] at known
  obtain hi | ⟨f, mem, rfl⟩ := known
  · exact hs.counted.held_opened hi
  · exact hs.counted.file_opened (mem_append_left _ mem)

theorem runs_code (hs : Sound False k.fs {s | s ∈ k.live} (k.opened ++ [m]) k.held)
    (map : k.fs.freeMapFile = some m) (call : HandleCall) (hv : k.valid call = true) :
    Runs (Sane call) (k.code call) (fun r fs' => After k.fs fs' m (k.target call) (removes call) r)
      k.fs := by
  have client : ∀ f, k.opened.contains f = true → f ∈ k.opened ∧ f ∈ k.opened ++ [m] := by grind
  cases call with
  | create length => exact runs_create hs map length
  | openInode sector =>
    have mem : sector ∈ {s | s ∈ k.live} := contains_iff_mem.mp hv
    refine .bind ((wp_inodeOpen hs mem).mono fun r fs' res => .pure ?_).runs
    cases r with
    | none => exact .of_still res.1.still map (hs.quiet res.1)
    | some i => exact .of_still res.2.still map res.1
  | reopen i =>
    have ho := opened_of_knows hs hv
    exact .bind ((wp_inodeReopen hs ho).mono fun _ fs' ⟨sound', opens⟩ =>
      .pure (.of_still opens.still map sound')).runs
  | remove i =>
    have ho := opened_of_knows hs hv
    refine .bind ((wp_inodeRemove hs ho).mono ?_).runs
    rintro _ fs' ⟨sound', rfl⟩
    exact .pure (.of_stays (fun _ => id) sound' map turned_remove)
  | close i =>
    have mem : i ∈ k.held := contains_iff_mem.mp hv
    refine .bind ((wp_inodeClose hs mem).mono fun _ fs' shuts => .pure ?_).runs
    exact .of_shuts (.refl _) (hs.counted.held_opened mem) map hs rfl shuts
  | fileOpen i =>
    have mem : i ∈ k.held := contains_iff_mem.mp hv
    have ho := hs.counted.held_opened mem
    refine .bind ((runs_fileOpen (.refl _) ho map mem rfl hs).mono fun _ fs' after => ?_).runs
    exact .pure after
  | fileReopen f =>
    have ho := hs.counted.file_opened (client f hv).2
    refine .bind (Wp.runs ?_)
    refine .bind (.get (.bind ((wp_inodeReopen hs ho).mono fun _ fs1 ⟨sound1, opens⟩ => ?_)))
    exact (runs_fileOpen opens.still ho map (.head _) (erase_cons_head ..)
      sound1).mono fun _ fs' after => .pure after
  | fileClose f =>
    obtain ⟨hi, mem⟩ := client f hv
    have ne : k.fs.freeMapFile ≠ some f := by grind
    have ho := hs.counted.file_opened mem
    refine .bind ((wp_fileClose hs mem ne).mono fun _ fs' closed => .pure ?_).runs
    obtain ⟨fs1, eq, _, sound1, shuts⟩ := closed
    rw [erase_append_left _ hi] at sound1 shuts
    exact .of_shuts eq.refiles.still ho map sound1 (erase_cons_head ..) shuts
  | read f buffer size =>
    refine .bind ((wp_fileRead hs (client f hv).2 buffer size.toInt).mono ?_).runs
    rintro r fs' ⟨sound', fs1, hq, rfl, _⟩
    refine .pure (.of_still (hq.still.trans ?_) map sound')
    exact .of_table rfl rfl rfl rfl rfl fun _ => rfl
  | write f buffer size =>
    have mem := (client f hv).2
    refine .bind ((wp_fileWrite hs mem buffer size.toInt nofun).mono ?_).runs
    rintro n fs' ⟨sound', fs1, rfl, hm, _, hw⟩
    have openInodes : fs1.openInodes = k.fs.openInodes := by rw [hw.kept]
    have turned := hw.turned hm hs (hs.counted.file_opened mem)
    refine .pure (.of_stays (fun i => ?_) sound' ?_ (turned.then ?_ fun _ => id))
    · rw [FS.withFile_openInodes, openInodes]; exact id
    · rw [FS.withFile_freeMapFile, hw.kept]; exact map
    · exact .of_table rfl rfl rfl rfl rfl fun _ => rfl
  | readAt i buffer size offset =>
    have placed := hs.placed (opened_of_knows hs hv)
    exact .bind ((wp_inodeReadAt i buffer size.toInt offset placed.reads).mono fun r fs' ⟨hq, _⟩ =>
      .pure (.of_still hq.still map (hs.quiet hq))).runs
  | writeAt i buffer size offset =>
    have ho := opened_of_knows hs hv
    refine .bind ((wp_inodeWriteAt i buffer size.toInt offset (hs.placed ho).reads).mono ?_).runs
    rintro n fs' ⟨hm, _, hw⟩
    have openInodes : fs'.openInodes = k.fs.openInodes := by rw [hw.kept]
    refine .pure (.of_stays (fun j => ?_) (hs.wrote ho nofun hw hm) ?_
      (hw.turned hm hs ho))
    · rw [openInodes]; exact id
    · rw [hw.kept]; exact map

/-! ### Runs -/

def Kept (m : FilePtr) (k : Handles) : Prop :=
  Sound False k.fs {s | s ∈ k.live} (k.opened ++ [m]) k.held ∧ k.fs.freeMapFile = some m

def provide (k : Handles) (e : Event) : Handles :=
  { k with fs := { k.fs with memory := e.memory, junk := e.junk } }

theorem Kept.runs {e : Event} (hk : Kept m k) (hv : k.valid e.call = true) :
    Runs (Sane e.call) (k.code e.call)
      (fun r fs' => After k.fs fs' m (k.target e.call) (removes e.call) r) (k.provide e).fs := by
  obtain ⟨hs, map⟩ := hk
  have code : (k.provide e).code e.call = k.code e.call := by cases e.call <;> rfl
  have target : (k.provide e).target e.call = k.target e.call := by cases e.call <;> rfl
  have valid' : (k.provide e).valid e.call = true := by
    rw [← hv]
    cases e.call <;> rfl
  have runs := runs_code (k := k.provide e) (m := m) (hs.provide nofun) map e.call valid'
  rw [code, target] at runs
  exact runs.mono fun r fs' ⟨sound', map', marked, fresh, stays, content, freed, used⟩ =>
    ⟨sound', map', marked, fresh, stays, content, freed, used⟩

theorem step_kept {k' : Handles} {e : Event} (hk : Kept m k) (ran : k.step e = some k') :
    Kept m k' ∧ Turned k.fs k'.fs (k.target e.call) (removes e.call) := by
  unfold step at ran
  split_ifs at ran with hv
  split at ran
  · rename_i live held ho fs run
    cases ran
    obtain ⟨hs, map, turned⟩ := (hk.runs hv).result run
    refine ⟨⟨?_, map⟩, turned⟩
    have eq : {s | s ∈ live.filter fun sector => !gone k.fs fs sector} =
        survivors k.fs fs {s | s ∈ live} := by
      ext s
      simp [survivors, ← gone_iff]
    rw [eq]
    exact hs
  · cases ran

theorem step_some {e : Event} (hk : Kept m k) (hv : k.valid e.call = true) (sane : Sane e.call) :
    ∃ k', k.step e = some k' := by
  obtain ⟨⟨live, held, ho⟩, fs', run, _⟩ := (hk.runs hv).wp sane
  have run' : k.code e.call { k.fs with memory := e.memory, junk := e.junk } =
    .ok ((live, held, ho), fs') := run
  refine ⟨⟨fs', live.filter fun sector => !gone k.fs fs' sector, held, ho⟩, ?_⟩
  rw [step, if_pos hv, run']

theorem format_kept {size : UInt32} {disk : Nat → Bytes} {memory : List Bool} {junk : Bytes}
    (hf : format (Session.boot size disk memory junk) = some k) : ∃ m, Kept m k := by
  have hs : (Session.boot size disk memory junk).size < 2 ^ 32 := size.toNat_lt
  unfold format at hf
  split at hf
  · rename_i fs init
    cases hf
    have runs : Runs False (filesysInit true) (fun _ fs' => ∃ f, Volume False fs' [f] [] ∧
        fs'.freeMapFile = some f) (Session.boot size disk memory junk) :=
      runs_filesysFormat rfl hs nofun
    obtain ⟨m, vol, map⟩ := runs.result init
    refine ⟨m, vol.sound.mono ?_ fun i ho => ?_, map⟩
    · intro s special
      exact .inl (by simpa [Special] using special)
    · have handle := (vol.sound.counted.opened i).mp ho
      obtain ⟨m', mem, _, sector⟩ := vol.sound.map
      obtain rfl := mem_singleton.mp mem
      have only : (fs.file m').inode = i := by
        by_contra ne
        simp [FS.refs, ne] at handle
      rw [← only, sector]
      exact (.head _)
  · cases hf

/-- Reads and writes of the inode move the bytes of its data, whether it is removed or not. -/
def Usable (fs : FS) (i : InodePtr) : Prop :=
  ∀ (buffer : Bytes) (size : Int) (offset : Nat),
    Wp (inodeReadAt i buffer size offset) (fun r fs' => Quiet fs fs' ∧
      Moved (Plenty fs) (fs.inode i).data.length size.toNat offset r.1 ∧
      r.2 = filled fs (fs.inode i).data.start offset 0 r.1 buffer) fs ∧
    Wp (inodeWriteAt i buffer size offset) (fun n fs' =>
      Moved (Plenty fs ∧ (fs.inode i).denyWriteCnt = 0)
        (fs.inode i).data.length size.toNat offset n ∧
      ((fs.inode i).denyWriteCnt ≠ 0 → n = 0 ∧ fs' = fs) ∧
      Wrote fs fs' (fs.inode i).data.start offset n buffer) fs

/-- Reads and writes through the file do so from its position on, which they advance. -/
def FileUsable (fs : FS) (f : FilePtr) : Prop :=
  ∀ (buffer : Bytes) (size : Int), let inode := fs.inode (fs.file f).inode
    Wp (fileRead f buffer size) (fun r fs' => ∃ fs1, Quiet fs fs1 ∧
      fs' = fs1.withFile f (fun p => { p with pos := p.pos + r.1 }) ∧
      Moved (Plenty fs) inode.data.length size.toNat (fs.file f).pos r.1 ∧
      r.2 = filled fs inode.data.start (fs.file f).pos 0 r.1 buffer) fs ∧
    Wp (fileWrite f buffer size) (fun n fs' => ∃ fs1,
      fs' = fs1.withFile f (fun p => { p with pos := p.pos + n }) ∧
      Moved (Plenty fs ∧ inode.denyWriteCnt = 0) inode.data.length size.toNat (fs.file f).pos n ∧
      (inode.denyWriteCnt ≠ 0 → n = 0 ∧ fs1 = fs) ∧
      Wrote fs fs1 inode.data.start (fs.file f).pos n buffer) fs

/-- The inodes that are open are those with a handle, one for a sector, and their counts are right.
None of their sectors is free. Every call keeps them, but that the last handle of a removed one
takes its sectors with it. -/
structure Consistent (k : Handles) : Prop where
  nodup : k.fs.openInodes.Nodup
  apart : ∀ i ∈ k.fs.openInodes, ∀ j ∈ k.fs.openInodes,
    (k.fs.inode i).sector = (k.fs.inode j).sector → i = j
  opened : ∀ i, i ∈ k.fs.openInodes ↔ 0 < k.handles i
  count : ∀ i ∈ k.fs.openInodes, (k.fs.inode i).openCnt = k.handles i
  reserved : ∀ i ∈ k.fs.openInodes, k.fs.bits (k.fs.inode i).sector = true ∧
    ∀ x ∈ (k.fs.inode i).data.extent, k.fs.bits x = true
  usable : ∀ i ∈ k.fs.openInodes, Usable k.fs i
  files : ∀ f ∈ k.opened, FileUsable k.fs f

theorem Kept.consistent (hk : Kept m k) : Consistent k := by
  obtain ⟨hs, map⟩ := hk
  have handles : ∀ i, k.handles i = k.fs.refs (k.opened ++ [m]) k.held i := by
    intro i
    rw [Handles.handles, map]
    rfl
  have hc := hs.counted
  constructor
  case nodup => exact hc.nodup
  case apart => exact hc.apart
  case opened => intro i; rw [handles]; exact hc.opened i
  case count => intro i opened; rw [handles]; exact hc.count i opened
  case reserved => grind
  case usable =>
    intro i opened buffer size offset
    have placed := (hs.placed opened).reads
    exact ⟨wp_inodeReadAt i buffer size offset placed, wp_inodeWriteAt i buffer size offset placed⟩
  case files =>
    intro f opened buffer size
    have mem : f ∈ k.opened ++ [m] := mem_append_left _ opened
    exact ⟨(wp_fileRead hs mem buffer size).mono fun _ _ done => done.2,
      (wp_fileWrite hs mem buffer size nofun).mono fun _ _ done => done.2⟩

theorem inodes_counted {size : UInt32} {disk : Nat → Bytes} {memory : List Bool} {junk : Bytes}
    {k0 : Handles} {history : List Event}
    (formatted : format (Session.boot size disk memory junk) = some k0)
    (run : Run step Free k0 history k) :
    Consistent k ∧
    (∀ e k', k.step e = some k' →
      Consistent k' ∧ Turned k.fs k'.fs (k.target e.call) (removes e.call)) ∧
    ∀ e : Event, k.valid e.call = true → Sane e.call → ∃ k', k.step e = some k' := by
  obtain ⟨m, start⟩ := format_kept formatted
  have hk : Kept m k := run.invariant start fun _ _ _ hk _ ran => (step_kept hk ran).1
  refine ⟨hk.consistent, fun e k' ran => ?_, fun e hv sane => step_some hk hv sane⟩
  obtain ⟨kept', turned⟩ := step_kept hk ran
  exact ⟨kept'.consistent, turned⟩

/-- A removed inode is written to, also through a file that becomes the last handle on it. -/
def deferred : List Event :=
  [.create 600, .openInode 4, .reopen 2, .remove 2, .writeAt 2 (fun _ => 7) 10 500, .fileOpen 2,
    .write 2 (fun _ => 9) 5, .close 2].map fun call => { call }

theorem inodes_counted_deferred : ∃ k0 k k',
    format Session.tenSectors = some k0 ∧
    Run step Free k0 deferred.reverse k ∧ (k.fs.inode 2).openCnt = 1 ∧
    (k.fs.inode 2).removed = true ∧ FileUsable k.fs 2 ∧ k.step { call := .fileClose 2 } = some k' ∧
    Freed k.fs k'.fs (k.fs.inode 2).sector := by
  have state : ((format Session.tenSectors).bind fun k0 =>
      (runs step Free k0 deferred).bind fun k => (k.step { call := .fileClose 2 }).map fun k' =>
        ((k.fs.inode 2).openCnt, (k.fs.inode 2).removed, decide (2 ∈ k.fs.openInodes),
          decide (2 ∈ k.opened), decide (2 ∈ k'.fs.openInodes))) =
            some (1, true, true, true, false) := by
    decide +kernel
  obtain ⟨k0, hf, after⟩ := Option.bind_eq_some_iff.mp state
  obtain ⟨k, hr, last⟩ := Option.bind_eq_some_iff.mp after
  obtain ⟨k', ran, seen⟩ := Option.map_eq_some_iff.mp last
  simp only [Prod.mk.injEq, decide_eq_true_eq, decide_eq_false_iff_not] at seen
  obtain ⟨count, removed, hi, file, out⟩ := seen
  have run := runs_run hr
  obtain ⟨consistent, turns, _⟩ := inodes_counted hf run
  exact ⟨k0, k, k', hf, run, count, removed, consistent.files 2 file, ran,
    (turns _ _ ran).2.freed 2 hi out removed⟩

end Handles

end Pintos.Filesys
