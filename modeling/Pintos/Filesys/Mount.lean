import Pintos.Filesys.Update

/-!
# Formatting and mounting

`filesys_init` reads the free map from the device. A device that has just been formatted can
be mounted, and so can one that a sound file system has left.
-/

namespace Pintos.Filesys

open LittleEndian Prog

variable {tight ok : Prop} {fs fs' fs1 : FS} {f : FilePtr} {s start : Nat} {bits : Nat → Bool}
  {length : Int} {d : InodeDisk}

/-- What is on the device is a file system with these bits in its free map. -/
@[grind cases] structure Mountable (fs : FS) (bits : Nat → Bool) : Prop where
  laid : Laid { fs with bits } {s | Special s ∨ fs.Listed s}
  mapLength : (fs.data freeMapSector).length = byteCnt fs.size
  stored : FS.Synced { fs with bits } (fs.data freeMapSector).start
  length : (fs.data rootDirSector).length = entrySize * rootSlots
  ends : fs.Terminated
  ordinary : ∀ s, fs.Listed s → ¬ Special s
  once : ∀ slot slot', fs.Used slot → fs.Used slot' →
    Entry.inodeSector (fs.entry slot) = Entry.inodeSector (fs.entry slot') → slot = slot'

/-- What is read from the device depends on nothing else. -/
theorem FS.data_congr (disk : fs'.disk = fs.disk) : fs'.data = fs.data := by
  funext s
  rw [FS.data, FS.data, disk]

theorem FS.entry_congr (disk : fs'.disk = fs.disk) : fs'.entry = fs.entry := by
  funext slot j
  simp only [FS.entry, FS.slot, FS.data_congr disk, FS.byteAt, disk]

theorem FS.used_congr (disk : fs'.disk = fs.disk) : fs'.Used = fs.Used := by
  funext slot
  rw [FS.Used, FS.Used, FS.entry_congr disk]

theorem FS.listed_congr (disk : fs'.disk = fs.disk) : fs'.Listed = fs.Listed := by
  funext s
  simp only [FS.Listed, FS.used_congr disk, FS.entry_congr disk]

theorem Mountable.congr (mount : Mountable fs bits) (size : fs'.size = fs.size)
    (disk : fs'.disk = fs.disk) : Mountable fs' bits := by
  constructor
  case laid =>
    rw [FS.listed_congr disk]
    exact mount.laid.congr size rfl fun _ _ => by rw [disk]
  case mapLength => rw [FS.data_congr disk, size]; exact mount.mapLength
  case stored =>
    rw [FS.data_congr disk]
    unfold FS.Synced FS.byteAt
    rw [size, disk]
    exact mount.stored
  case length => rw [FS.data_congr disk]; exact mount.length
  case ends =>
    unfold FS.Terminated
    rw [FS.used_congr disk, FS.entry_congr disk]
    exact mount.ends
  case ordinary => rw [FS.listed_congr disk]; exact mount.ordinary
  case once => rw [FS.used_congr disk, FS.entry_congr disk]; exact mount.once

/-- What a volume leaves on the device, if its free map is there. -/
theorem Volume.mountable {files : List FilePtr} {held : List InodePtr}
    (vol : Volume tight fs files held) (he : tight) : Mountable fs fs.bits where
  laid := vol.sound.laid.mono fun s known => fs.mem_live s known
  mapLength := vol.sound.mapLength
  stored := vol.sound.synced he
  length := vol.length
  ends := vol.ends
  ordinary := vol.ordinary
  once := vol.once

/-! ### The file of the free map -/

/-- The file of the free map is open, and nothing else is. -/
@[grind cases] structure MapOpened (fs fs' : FS) (f : FilePtr) : Prop where
  kept : fs' = { fs with
    inode := fs'.inode, inodes := fs'.inodes, openInodes := [(fs'.file f).inode], file := fs'.file
    files := fs'.files, freeMapFile := some f, memory := fs'.memory }
  plenty : Plenty fs → Plenty fs'
  counted : Counted fs' [f] []
  file : fs'.file f = { inode := (fs'.file f).inode }
  inode : fs'.inode (fs'.file f).inode = { sector := freeMapSector, data := fs.data freeMapSector }

theorem Counted.empty (closed : fs.openInodes = []) : Counted fs [] [] := by
  constructor
  case once => exact List.nodup_nil
  case made => exact nofun
  case opened => intro i; simp [closed, FS.refs]
  all_goals simp [closed]

/-- The inode of sector `s` is read into memory, where there is no other. -/
@[simps] def FS.openFirst (fs : FS) (s : Nat) : FS :=
  { fs with
    inode := Function.update fs.inode fs.inodes { sector := s, data := fs.data s }
    inodes := fs.inodes + 1
    openInodes := [fs.inodes] }

theorem wp_openFirst (closed : fs.openInodes = []) (hi : s < fs.size) :
    Wp (inodeOpen s) (fun r fs' => match r with
      | none => ¬ Plenty fs
      | some i => i = fs.inodes ∧ Quiet (fs.openFirst s) fs') fs := by
  refine .bind (.get ?_)
  rw [closed]
  refine .bind (wp_malloc.mono fun allocated fs1 ⟨hq, he⟩ => ?_)
  obtain ⟨memory, rfl⟩ := hq.eq
  cases allocated with
  | false => exact .pure fun room => nomatch he room
  | true =>
    have inside1 : s < FS.size { fs with memory } := hi
    refine .bind ((wp_blockRead inside1).mono ?_)
    rintro content _ ⟨rfl, rfl⟩
    refine .bind (.get (.bind (.set (.pure ⟨rfl, ?_, hq.plenty⟩))))
    dsimp only
    rw [closed]
    rfl

theorem runs_openFreeMapFile (closed : fs.openInodes = []) (hi : 0 < fs.size) :
    Runs (Plenty fs) openFreeMapFile (fun f fs' => MapOpened fs fs' f) fs := by
  refine .bind ((wp_openFirst closed hi).mono fun r fs1 res => ?_).runs
  cases r with
  | none =>
    have short : ¬ Plenty fs := res
    refine .bind (wp_fileOpen_none.mono ?_).runs
    rintro file fs2 ⟨rfl, _⟩
    exact .bind (.get (.bind (.set (.throw short))))
  | some i =>
    obtain ⟨rfl, quiet1⟩ := res
    refine .bind (.bind (wp_malloc.mono fun allocated fs2 ⟨quiet2, he⟩ => ?_).runs)
    cases allocated with
    | false =>
      have short : ¬ Plenty fs := fun room => nomatch he (quiet1.plenty room)
      refine .bind (.any short fun _ fs3 => .pure ?_)
      exact .bind (.get (.bind (.set (.throw short))))
    | true =>
      have hq := quiet1.trans quiet2
      have room : Plenty fs → Plenty fs2 := hq.plenty
      obtain ⟨memory, rfl⟩ : ∃ memory, fs2 = { fs.openFirst freeMapSector with memory } :=
        ⟨_, hq.kept⟩
      refine .bind (.get (.bind (.set (.pure (.bind (.get (.bind (.set (.pure ?_)))))))))
      have one := (Counted.empty closed).create
        (n := { sector := freeMapSector, data := fs.data freeMapSector })
        rfl rfl (by simp [closed])
      rw [closed] at one
      have hc := one.newFile (.head _)
      rw [List.erase_cons_head] at hc
      refine ⟨?_, room, hc.of_tables rfl, ?_, ?_⟩ <;> simp [FS.openFirst]

/-! ### Mounting -/

theorem wp_bitmapRead (data : (fs.inode (fs.file f).inode).data = d) (placed : Placed fs.size d)
    (length : d.length = byteCnt fs.size) :
    Wp (bitmapRead f) (fun r fs' => fs' = { fs with bits := fs'.bits, memory := fs'.memory } ∧
      (Plenty fs → Plenty fs') ∧ (Plenty fs → r = true) ∧
      (r = true → ∀ x, fs'.bits x =
        (decide (x < fs.size) && (fs.byteAt d.start (x / 8)).toNat.testBit (x % 8)))) fs := by
  refine .bind (.get (.bind (.bind (.get ?_))))
  refine (wp_inodeReadAt _ _ _ 0 (data ▸ placed.reads)).mono ?_
  rintro ⟨n, content⟩ fs1 ⟨quiet, moved, eq⟩
  rw [data] at moved eq
  dsimp only at moved eq
  have room := quiet.plenty
  obtain ⟨memory, rfl⟩ := quiet.eq
  refine .bind (.get (.bind (.set (.pure ⟨rfl, room, fun enough => ?_, fun all x => ?_⟩))))
  · rw [moved.full enough, available, length]
    simp
  · obtain rfl : n = byteCnt fs.size := of_decide_eq_true all
    by_cases below : x < fs.size
    · have byte : content (x / 8) = fs.byteAt d.start (x / 8) := by
        have := bit_byte below
        simp [eq, filled, this]
      simp [below, byte]
    · simp [below]

/-- A volume with no open files but that of the free map, on the same device. -/
structure Mounted (tight : Prop) (fs fs' : FS) (bits : Nat → Bool) (f : FilePtr) : Prop where
  volume : Volume tight fs' [f] []
  freeMapFile : fs'.freeMapFile = some f
  size : fs'.size = fs.size
  disk : fs'.disk = fs.disk
  bits : fs'.bits = bits

theorem Mountable.mounted (mount : Mountable fs bits) (opened : MapOpened fs fs1 f)
    (kept : fs' = { fs1 with bits := fs'.bits, memory := fs'.memory }) (same : fs'.bits = bits)
    (plenty : tight → Plenty fs') : Mounted tight fs fs' bits f := by
  have tables : fs'.inode = fs1.inode ∧ fs'.file = fs1.file ∧
      fs'.openInodes = [(fs1.file f).inode] := by
    rw [kept, opened.kept]
    exact ⟨rfl, rfl, rfl⟩
  obtain ⟨inode, file, openInodes⟩ := tables
  have size : fs'.size = fs.size := by rw [kept, opened.kept]
  have disk : fs'.disk = fs.disk := by rw [kept, opened.kept]
  have freeMapFile : fs'.freeMapFile = some f := by rw [kept, opened.kept]
  have special : Special freeMapSector := .inl rfl
  have moved := mount.congr size disk
  refine ⟨?_, freeMapFile, size, disk, same⟩
  constructor
  case sound =>
    constructor
    case counted => exact opened.counted.of_tables (kept ▸ rfl)
    case laid =>
      refine (moved.laid.mono ?_).congr rfl same fun _ _ => rfl
      rintro s (is | listed | ⟨i, hi, rfl⟩)
      · exact .inl is
      · exact .inr listed
      · grind
    case faithful =>
      intro i hi
      rw [openInodes, List.mem_singleton] at hi
      rw [hi, inode, opened.inode, FS.data_congr disk]
      exact ⟨.inl special, rfl⟩
    case map => exact ⟨f, List.mem_singleton_self f, freeMapFile, by rw [inode, file, opened.inode]⟩
    case mapLength => exact moved.mapLength
    case plenty => exact plenty
    case writable =>
      intro _ p hp _
      rw [List.mem_singleton.mp hp, file, opened.file]
    case synced =>
      intro _ x below
      rw [same]
      exact moved.stored x below
  case length => exact moved.length
  case ends => exact moved.ends
  case ordinary => exact moved.ordinary
  case once => exact moved.once
  case removed => grind
  case clients =>
    intro p hp ne
    exact absurd (List.mem_singleton.mp hp ▸ freeMapFile) ne

theorem runs_freeMapOpen (mount : Mountable fs bits) (closed : fs.openInodes = [])
    (room : tight → Plenty fs) :
    Runs (Plenty fs) freeMapOpen (fun _ fs' => ∃ f, Mounted tight fs fs' bits f) fs := by
  have hi := (mount.laid.inode freeMapSector (.inl (.inl rfl))).1
  have placed := mount.laid.placed (s := freeMapSector) (.inl (.inl rfl))
  refine .bind ((runs_openFreeMapFile closed hi).mono fun f fs1 ho => ?_)
  have size1 : fs1.size = fs.size := by rw [ho.kept]
  have disk1 : fs1.disk = fs.disk := by rw [ho.kept]
  have data1 : (fs1.inode (fs1.file f).inode).data = fs.data freeMapSector := by rw [ho.inode]
  refine .bind ((wp_bitmapRead data1 (size1 ▸ placed) (size1 ▸ mount.mapLength)).mono
    fun read fs2 ⟨kept, he, full, bits2⟩ => ?_).runs
  cases read with
  | false => exact .throw fun he => nomatch full (ho.plenty he)
  | true =>
    refine .pure ⟨f, mount.mounted ho kept (funext fun x => ?_) fun tight => ?_⟩
    · rw [bits2 rfl, size1]
      by_cases below : x < fs.size
      · have stored := mount.stored x below
        simp only [FS.byteAt] at stored ⊢
        rw [disk1, stored]
        simp [below]
      · grind
    · exact he (ho.plenty (room tight))

theorem runs_freeMapInit :
    Runs (Plenty fs) freeMapInit
      (fun _ fs' => Quiet { fs with bits := freshBits fs.size fs.junk } fs')
      fs := by
  refine .bind (wp_malloc.mono fun header fs1 ⟨quiet1, enough1⟩ => ?_).runs
  cases header with
  | false => exact .throw fun room => nomatch enough1 room
  | true =>
    refine .bind (wp_malloc.mono fun words fs2 ⟨quiet2, enough2⟩ => .bind (.get ?_)).runs
    have hq := quiet1.trans quiet2
    obtain ⟨memory, rfl⟩ := hq.eq
    split_ifs with there
    · exact .set ⟨rfl, hq.plenty⟩
    · exact .throw fun room => there (.inl (enough2 (quiet1.plenty room)))

/-- `filesys_init (false)` on a device with a file system. -/
theorem runs_filesysMount (mount : Mountable fs bits) (room : tight → Plenty fs) :
    Runs (Plenty fs) (filesysInit false) (fun _ fs' => ∃ f, Mounted tight fs fs' bits f) fs := by
  refine .bind (.get (.bind (.set (.bind ?_))))
  have init : Runs (Plenty fs) freeMapInit (fun _ fs' =>
      Quiet { fs with openInodes := [], bits := freshBits fs.size fs.junk } fs')
        { fs with openInodes := [] } :=
    runs_freeMapInit
  refine init.mono fun _ fs1 hq => ?_
  have size1 : fs1.size = fs.size := by rw [hq.kept]
  have disk1 : fs1.disk = fs.disk := by rw [hq.kept]
  have closed1 : fs1.openInodes = [] := by rw [hq.kept]
  refine ((runs_freeMapOpen (mount.congr size1 disk1) closed1
    fun he => hq.plenty (room he)).weaken hq.plenty).mono ?_
  rintro _ fs' ⟨f, mounted⟩
  exact ⟨f, mounted.volume, mounted.freeMapFile, mounted.size.trans size1, mounted.disk.trans disk1,
    mounted.bits⟩

/-! ### Formatting -/

/-- The free map without the bits that stand for no sector. -/
@[simps] def FS.masked (fs : FS) : FS :=
  { fs with bits := fun x => decide (x < fs.size) && fs.bits x }

theorem Created.masked (created : Created fs fs' s length start) :
    Created fs.masked fs'.masked s length start where
  nonneg := created.nonneg
  inside := created.inside
  free x new := by
    rw [FS.masked_bits, created.free x new, Bool.and_false]
  bits := by
    funext x
    simp only [FS.masked_bits, created.bits, FS.mark_bits, created.writes.size]
    have := created.inside
    split_ifs with new
    · have below : x < fs.size := by omega
      simp [below]
    · rfl
  writes := by
    obtain ⟨kept, room, disk⟩ := created.writes
    refine ⟨?_, room, disk⟩
    rw [FS.masked, kept]
    rfl
  data := created.data
  zeros := created.zeros

/-- Where there is no such sector, there is no inode to be made. -/
theorem runs_inodeCreate_outside (map : MapPlaced fs) (outside : fs.size ≤ s) :
    Runs False (inodeCreate s length) (fun r _ => r = false) fs := by
  by_cases low : 0 ≤ length
  · refine .bind (Wp.assert low ?_).runs
    refine .bind (wp_malloc.mono fun allocated fs1 ⟨hq, _⟩ => ?_).runs
    obtain ⟨memory, rfl⟩ := hq.eq
    cases allocated with
    | false => exact .pure rfl
    | true =>
      have map1 : MapPlaced { fs with memory } := map
      refine .bind ((wp_freeMapAllocate _ map1).mono fun r fs2 ⟨writes, _⟩ => ?_).runs
      cases r with
      | none => exact .pure rfl
      | some start =>
        refine .bind (.bind (.get ?_))
        rw [if_neg (by rw [writes.size]; exact not_lt.mpr outside)]
        exact .throw id
  · refine .bind ?_
    rw [Prog.assert, if_neg low]
    exact .throw id

theorem Laid.nothing (small : fs.size < 2 ^ 32) : Laid fs.masked ∅ := by
  constructor
  case small => exact small
  case padding =>
    intro x beyond
    have outside : ¬ x < fs.size := not_lt.mpr beyond
    simp [outside]
  all_goals rintro _ ⟨⟩

/-- The free map has its inode, and its file is open. -/
structure MapMade (fs fs' : FS) (f : FilePtr) : Prop where
  size : fs'.size = fs.size
  plenty : Plenty fs → Plenty fs'
  freeMapFile : fs'.freeMapFile = some f
  openInodes : fs'.openInodes = [(fs'.file f).inode]
  file : fs'.file f = { inode := (fs'.file f).inode }
  inode : fs'.inode (fs'.file f).inode = { sector := freeMapSector, data := fs'.data freeMapSector }
  length : (fs'.data freeMapSector).length = byteCnt fs.size
  laid : Laid fs'.masked {freeMapSector}
  root : fs'.bits rootDirSector = true ∧ rootDirSector ∉ (fs'.data freeMapSector).extent

theorem runs_freeMapCreate (closed : fs.openInodes = []) (unmapped : fs.freeMapFile = none)
    (small : fs.size < 2 ^ 32) (used : ∀ s, Special s → fs.bits s = true) :
    Runs False freeMapCreate (fun _ fs' => ∃ f, MapMade fs fs' f) fs := by
  have noInode : fs.mapInode = none := by simp [FS.mapInode, unmapped]
  have map : MapPlaced fs := fun i is => by simp [noInode] at is
  have noExtent : ∀ t, t ∉ fs.mapExtent := by simp [FS.mapExtent, noInode]
  have marked := used freeMapSector (.inl rfl)
  refine .bind (.get ?_)
  by_cases hi : freeMapSector < fs.size
  swap
  · refine .bind ((runs_inodeCreate_outside map (not_lt.mp hi)).mono ?_)
    rintro r fs1 rfl
    exact .throw id
  have short : (byteCnt fs.size : Int) < 2 ^ 31 := by
    unfold byteCnt elemCnt
    omega
  refine .bind ((wp_inodeCreate map small hi marked (noExtent _) (Int.natCast_nonneg _)
    short).mono ?_).runs
  rintro r fs1 ⟨res, _⟩
  cases r with
  | false => exact .throw id
  | true =>
    obtain ⟨start, created⟩ := res
    have spare : Spare fs.masked ∅ freeMapSector := by
      refine ⟨hi, ?_, id, by simp⟩
      simp [hi, marked]
    have laid1 : Laid fs1.masked {freeMapSector} := by
      have := (Laid.nothing small).create (by simp) spare created.masked
      rwa [insert_empty_eq] at this
    have extent1 : (fs1.data freeMapSector).extent = newExtent start (byteCnt fs.size) := by
      rw [created.data]; rfl
    have root1 : fs1.bits rootDirSector = true ∧ rootDirSector ∉
      (fs1.data freeMapSector).extent := by
      have was := used rootDirSector (.inr rfl)
      have ne : rootDirSector ∉ newExtent start (byteCnt fs.size) := fun new => by
        simp [created.free _ new] at was
      refine ⟨?_, extent1 ▸ ne⟩
      rw [created.bits]
      simp only [FS.mark_bits, was, ite_self]
    have closed1 : fs1.openInodes = [] := by rw [created.writes.kept, closed]
    have size1 := created.writes.size
    refine .bind (((runs_openFreeMapFile closed1 (size1 ▸ hi)).weaken False.elim).mono
      fun f fs2 ho => ?_)
    have size2 : fs2.size = fs1.size := by rw [ho.kept]
    have disk2 : fs2.disk = fs1.disk := by rw [ho.kept]
    have bits2 : fs2.bits = fs1.bits := by rw [ho.kept]
    have placed : Placed fs1.size (fs1.data freeMapSector) := laid1.placed rfl
    refine .bind ((wp_bitmapWrite fs2 f (by rw [ho.inode]) (size2 ▸ placed)).mono ?_).runs
    rintro written fs3 ⟨writes, bits3, _⟩
    have apart : freeMapSector ∉ (fs1.data freeMapSector).extent := laid1.apart _ rfl _ rfl
    have disk3 : fs3.disk freeMapSector = fs1.disk freeMapSector := by
      rw [writes.disk _ apart, disk2]
    have data3 : fs3.data freeMapSector = fs1.data freeMapSector := by rw [FS.data, FS.data, disk3]
    have tables : fs3.openInodes = fs2.openInodes ∧ fs3.inode = fs2.inode ∧ fs3.file = fs2.file ∧
        fs3.freeMapFile = fs2.freeMapFile := by
      rw [writes.kept]
      exact ⟨rfl, rfl, rfl, rfl⟩
    obtain ⟨openInodes3, inode3, file3, freeMapFile3⟩ := tables
    have size3 : fs3.size = fs1.size := writes.size.trans size2
    split_ifs
    · refine .pure ⟨f, size3.trans size1, fun room => ?_, ?_, ?_, ?_, ?_, ?_, ?_, ?_⟩
      · exact writes.plenty (ho.plenty (created.writes.plenty room))
      · rw [freeMapFile3, ho.kept]
      · rw [openInodes3, file3, ho.kept]
      · rw [file3, ho.file]
      · rw [inode3, file3, ho.inode, data3]
      · rw [data3, created.data]
      · refine laid1.congr size3 ?_ ?_
        · funext x
          simp only [FS.masked_bits, size3, bits3, bits2]
        · rintro t rfl
          exact disk3
      · rw [data3, bits3, bits2]
        exact root1
    · exact .throw id

theorem wp_closeMap (freeMapFile : fs.freeMapFile = some f)
    (openInodes : fs.openInodes = [(fs.file f).inode])
    (file : fs.file f = { inode := (fs.file f).inode })
    (inode : fs.inode (fs.file f).inode = { sector := freeMapSector, data := d }) :
    Wp freeMapClose (fun _ fs' => fs' = { fs with inode := fs'.inode, openInodes := [] }) fs := by
  refine .bind (.get ?_)
  rw [freeMapFile]
  refine .bind (.bind (.get ?_))
  rw [if_neg (by rw [file]; exact Bool.false_ne_true)]
  refine .pure (.bind (.get (.bind (wp_modifyInode.mono ?_))))
  rintro _ fs1 rfl
  refine .bind (.get ?_)
  have last : ((fs.withInode (fs.file f).inode fun n => { n with openCnt := n.openCnt - 1 }).inode
      (fs.file f).inode).openCnt = 0 := by
    simp [inode]
  have stays : ((fs.withInode (fs.file f).inode fun n => { n with openCnt := n.openCnt - 1 }).inode
      (fs.file f).inode).removed = false := by
    simp [inode]
  rw [if_pos last]
  refine .bind (.set ?_)
  rw [if_neg (by rw [stays]; exact Bool.false_ne_true)]
  refine .pure ?_
  simp [FS.withInode, openInodes, freeMapFile]

namespace MapMade

variable (made : MapMade fs fs1 f)
include made

theorem mapInode : fs1.mapInode = some (fs1.file f).inode := by simp [FS.mapInode, made.freeMapFile]

theorem data : (fs1.inode (fs1.file f).inode).data = fs1.data freeMapSector := by rw [made.inode]

theorem mapExtent : fs1.mapExtent = (fs1.data freeMapSector).extent := by
  ext x
  simp [FS.mapExtent, made.mapInode, made.data]

theorem mapPlaced : MapPlaced fs1 := by
  intro i is
  rw [made.mapInode] at is
  cases is
  rw [made.data]
  refine ⟨made.laid.placed rfl, fun x hx => ?_⟩
  have used := made.laid.used _ rfl x hx
  simp only [FS.masked_bits, Bool.and_eq_true] at used
  exact used.2

/-- With an empty directory, this is a file system. -/
theorem mountable (hi : rootDirSector < fs1.size)
    (created : Created fs1 fs' rootDirSector (rootSlots * entrySize) start)
    (synced : MapSynced fs') :
    Mountable fs' fs'.masked.bits := by
  have spare : Spare fs1.masked {freeMapSector} rootDirSector := by
    refine ⟨hi, ?_, fun is => ?_, fun t is => ?_⟩
    · simp [hi, made.root.1]
    · cases is
    · rw [is]; exact made.root.2
  have map : ∀ t ∈ ({freeMapSector} : Set Nat), t ∉ fs1.masked.mapExtent := by
    intro t ht
    have eq : fs1.masked.mapExtent = fs1.mapExtent := rfl
    rw [eq, made.mapExtent]
    exact made.laid.apart t ht _ rfl
  have laid := made.laid.create map spare created.masked
  have data : fs'.data freeMapSector = fs1.data freeMapSector := by
    have disk : fs'.disk freeMapSector = fs1.disk freeMapSector :=
      made.laid.create_disk map spare created.masked _ rfl
    rw [FS.data, FS.data, disk]
  have unused : ∀ slot, ¬ fs'.Used slot := by
    rintro slot ⟨low, inUse⟩
    have zero : fs'.entry slot 19 = 0 := by
      unfold FS.entry FS.slot FS.byteAt
      have first : (entrySize * slot + 19) / 512 = 0 := by
        unfold entrySize
        unfold rootSlots at low
        omega
      rw [created.data, first, Nat.add_zero, created.zeros start
        ⟨Nat.le_refl _, Nat.lt_succ_self _⟩]
    simp [Entry.inUse, zero] at inUse
  have unlisted : ∀ s, ¬ fs'.Listed s := by
    rintro s ⟨slot, used, _⟩
    exact unused slot used
  constructor
  case laid =>
    refine laid.mono ?_
    rintro s ((rfl | rfl) | hl)
    · exact .inr rfl
    · exact .inl rfl
    · exact absurd hl (unlisted s)
  case mapLength => rw [data, made.length, created.writes.size, made.size]
  case stored =>
    intro x below
    have eq : fs'.mapInode = fs1.mapInode ∧ fs'.inode = fs1.inode := by
      rw [created.writes.kept]
      exact ⟨rfl, rfl⟩
    have stored := synced _ (eq.1.trans made.mapInode) x below
    rw [eq.2, made.data, ← data] at stored
    have below' : x < fs'.size := below
    simp only [FS.masked_bits, below', decide_true, Bool.true_and]
    exact stored
  case length => rw [created.data]; rfl
  case ends => exact fun slot used => absurd used (unused slot)
  case ordinary => exact fun s hl => absurd hl (unlisted s)
  case once => exact fun slot _ used => absurd used (unused slot)

end MapMade

theorem runs_doFormat (closed : fs.openInodes = []) (unmapped : fs.freeMapFile = none)
    (small : fs.size < 2 ^ 32) (used : ∀ s, Special s → fs.bits s = true) :
    Runs False doFormat (fun _ fs' => fs'.openInodes = [] ∧ fs'.size = fs.size ∧
      (Plenty fs → Plenty fs') ∧ Mountable fs' fs'.masked.bits) fs := by
  refine .bind ((runs_freeMapCreate closed unmapped small used).mono ?_)
  rintro _ fs1 ⟨f, made⟩
  by_cases hi : rootDirSector < fs1.size
  swap
  · refine .bind ((runs_inodeCreate_outside made.mapPlaced (not_lt.mp hi)).mono ?_)
    rintro r fs2 rfl
    exact .throw id
  refine .bind ((wp_inodeCreate made.mapPlaced (by rw [made.size]; exact small) hi made.root.1
    (made.mapExtent ▸ made.root.2) (by decide) (by decide)).mono
    fun r fs2 ⟨res, synced, _⟩ => ?_).runs
  cases r with
  | false => exact .throw id
  | true =>
    obtain ⟨start, created⟩ := res
    have synced2 : MapSynced fs2 := by
      refine synced rfl fun i is => ?_
      rw [made.mapInode] at is
      cases is
      rw [made.data, made.length, made.size]
    have mount := made.mountable hi created synced2
    have writes := created.writes
    have tables : fs2.openInodes = fs1.openInodes ∧ fs2.inode = fs1.inode ∧ fs2.file = fs1.file ∧
        fs2.freeMapFile = fs1.freeMapFile := by
      rw [writes.kept]
      exact ⟨rfl, rfl, rfl, rfl⟩
    obtain ⟨openInodes2, inode2, file2, freeMapFile2⟩ := tables
    refine ((wp_closeMap (freeMapFile2.trans made.freeMapFile)
      (by rw [openInodes2, file2, made.openInodes]) (by rw [file2, made.file])
      (by rw [inode2, file2, made.inode])).mono fun _ fs3 kept => ?_).runs
    have size3 : fs3.size = fs2.size := by rw [kept]
    have masked3 : fs3.masked.bits = fs2.masked.bits := by rw [kept]; rfl
    refine ⟨by rw [kept], ?_, fun room => ?_, ?_⟩
    · rw [size3, writes.size, made.size]
    · rw [kept]; exact writes.plenty (made.plenty room)
    · rw [masked3]
      exact mount.congr size3 (by rw [kept])

/-- `filesys_init (true)`: what is on the device before does not matter. -/
theorem runs_filesysFormat (unmapped : fs.freeMapFile = none) (small : fs.size < 2 ^ 32)
    (room : tight → Plenty fs) :
    Runs False (filesysInit true)
      (fun _ fs' => ∃ f, Volume tight fs' [f] [] ∧ fs'.freeMapFile = some f) fs := by
  refine .bind (.get (.bind (.set (.bind ?_))))
  have init : Runs False freeMapInit (fun _ fs' =>
      Quiet { fs with openInodes := [], bits := freshBits fs.size fs.junk } fs')
      { fs with openInodes := [] } :=
    runs_freeMapInit.weaken nofun
  refine init.mono fun _ fs1 hq => ?_
  have used : ∀ s, Special s → fs1.bits s = true := by
    rw [hq.kept]
    intro s special
    simp only [freshBits, Bool.or_eq_true, decide_eq_true_eq]
    exact .inl special
  have closed1 : fs1.openInodes = [] := by rw [hq.kept]
  have unmapped1 : fs1.freeMapFile = none := by rw [hq.kept]; exact unmapped
  have small1 : fs1.size < 2 ^ 32 := by rw [hq.kept]; exact small
  refine .bind ((runs_doFormat closed1 unmapped1 small1 used).mono
    fun _ fs2 ⟨closed2, _, plenty2, mount⟩ => ?_)
  have he : tight → Plenty fs2 := fun he => plenty2 (hq.plenty (room he))
  refine ((runs_freeMapOpen mount closed2 he).weaken nofun).mono ?_
  rintro _ fs' ⟨f, mounted⟩
  exact ⟨f, mounted.volume, mounted.freeMapFile⟩

end Pintos.Filesys
