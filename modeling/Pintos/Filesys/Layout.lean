import Pintos.Filesys.Regions

/-!
# A sound file system

The inodes in the sectors `live` and their data lie apart from each other on the device, in
sectors that the free map has as used. What is in memory of an open inode is what is on the
device. The functions on inodes and files keep this, and never stop the kernel.

`tight` stands for the assumption that memory has always been there when it was asked for. Only
then is the free map on the device that in memory.
-/

namespace Pintos.Filesys

open LittleEndian Prog List

@[grind cases] structure Laid (fs : FS) (live : Set Nat) : Prop where
  small : fs.size < 2 ^ 32
  inode : ∀ s ∈ live, s < fs.size ∧ fs.bits s = true
  nonneg : ∀ s ∈ live, 0 ≤ (fs.data s).length
  fits : ∀ s ∈ live, (fs.data s).start + bytesToSectors (fs.data s).length ≤ fs.size
  used : ∀ s ∈ live, ∀ x ∈ (fs.data s).extent, fs.bits x = true
  apart : ∀ s ∈ live, ∀ t ∈ live, s ∉ (fs.data t).extent
  disjoint : ∀ s ∈ live, ∀ t ∈ live, s ≠ t → Disjoint (fs.data s).extent (fs.data t).extent
  padding : ∀ x, fs.size ≤ x → fs.bits x = false

/-- The free map without the inode in sector `s` and its data. -/
def Freed (fs fs' : FS) (s : Nat) : Prop :=
  ∀ x, fs'.bits x = true ↔ fs.bits x = true ∧ x ≠ s ∧ x ∉ (fs.data s).extent

@[grind cases] structure Sound (tight : Prop) (fs : FS) (live : Set Nat) (files : List FilePtr)
    (held : List InodePtr) : Prop where
  counted : Counted fs files held
  laid : Laid fs live
  faithful : ∀ i ∈ fs.openInodes, (fs.inode i).sector ∈ live ∧
    (fs.inode i).data = fs.data (fs.inode i).sector
  map : ∃ m ∈ files, fs.freeMapFile = some m ∧
    (fs.inode (fs.file m).inode).sector = freeMapSector
  mapLength : (fs.data freeMapSector).length = byteCnt fs.size
  plenty : tight → Plenty fs
  writable : tight → ∀ f ∈ files, (fs.inode (fs.file f).inode).sector = freeMapSector →
    (fs.file f).denyWrite = false
  synced : tight → fs.Synced (fs.data freeMapSector).start

variable {tight : Prop} {fs fs' : FS} {live live' : Set Nat} {files : List FilePtr}
  {held : List InodePtr} {i : InodePtr} {f : FilePtr} {s : Nat}

namespace Laid

theorem extent (laid : Laid fs live) (s : Nat) (mem : s ∈ live) (x : Nat)
    (hi : x ∈ (fs.data s).extent) : x < fs.size ∧ fs.bits x = true :=
  ⟨Nat.lt_of_lt_of_le hi.2 (laid.fits s mem), laid.used s mem x hi⟩

theorem placed (laid : Laid fs live) (mem : s ∈ live) : Placed fs.size (fs.data s) :=
  ⟨decodeInode_length _, fun x hi => (laid.extent s mem x hi).1⟩

theorem mono (laid : Laid fs live) (fewer : live' ⊆ live) : Laid fs live' where
  small := laid.small
  inode s mem := laid.inode s (fewer mem)
  nonneg s mem := laid.nonneg s (fewer mem)
  fits s mem := laid.fits s (fewer mem)
  used s mem := laid.used s (fewer mem)
  apart s hs t ht := laid.apart s (fewer hs) t (fewer ht)
  disjoint s hs t ht := laid.disjoint s (fewer hs) t (fewer ht)
  padding := laid.padding

theorem congr (laid : Laid fs live) (size : fs'.size = fs.size) (bits : fs'.bits = fs.bits)
    (disk : ∀ s ∈ live, fs'.disk s = fs.disk s) : Laid fs' live := by
  have data : ∀ s ∈ live, fs'.data s = fs.data s := fun s mem => by
    rw [FS.data, FS.data, disk s mem]
  constructor
  case small => rw [size]; exact laid.small
  case inode => rw [size, bits]; exact laid.inode
  case nonneg =>
    intro s mem
    rw [data s mem]
    exact laid.nonneg s mem
  case fits =>
    intro s mem
    rw [size, data s mem]
    exact laid.fits s mem
  case used =>
    intro s mem
    rw [bits, data s mem]
    exact laid.used s mem
  case apart =>
    intro s hs t ht
    rw [data t ht]
    exact laid.apart s hs t ht
  case disjoint =>
    intro s hs t ht
    rw [data s hs, data t ht]
    exact laid.disjoint s hs t ht
  case padding => rw [size, bits]; exact laid.padding

theorem release (laid : Laid fs live) (mem : s ∈ live) (size : fs'.size = fs.size)
    (disk : ∀ s ∈ live, fs'.disk s = fs.disk s) (freed : Freed fs fs' s) :
    Laid fs' (live \ {s}) := by
  have data : ∀ s ∈ live, fs'.data s = fs.data s := fun s mem => by
    rw [FS.data, FS.data, disk s mem]
  constructor
  case small => rw [size]; exact laid.small
  case inode =>
    rintro t ⟨ht, ne⟩
    obtain ⟨hi, used⟩ := laid.inode t ht
    rw [size]
    exact ⟨hi, (freed t).mpr ⟨used, ne, laid.apart t ht s mem⟩⟩
  case nonneg =>
    rintro t ⟨ht, _⟩
    rw [data t ht]
    exact laid.nonneg t ht
  case fits =>
    rintro t ⟨ht, _⟩
    rw [size, data t ht]
    exact laid.fits t ht
  case used =>
    rintro t ⟨ht, ne⟩ x hx
    rw [data t ht] at hx
    have away : x ≠ s := by rintro rfl; exact laid.apart x mem t ht hx
    have out := Set.disjoint_left.mp (laid.disjoint t ht s mem ne) hx
    exact (freed x).mpr ⟨laid.used t ht x hx, away, out⟩
  case apart =>
    rintro t ⟨ht, _⟩ u ⟨hu, _⟩
    rw [data u hu]
    exact laid.apart t ht u hu
  case disjoint => grind
  case padding =>
    intro x beyond
    have clear := laid.padding x (size ▸ beyond)
    exact Bool.eq_false_iff.mpr fun used => by simp [((freed x).mp used).1] at clear

end Laid

/-! ### What a sound file system has -/

namespace Sound

section
variable (sound : Sound tight fs live files held)
include sound

theorem mapInode :
    ∃ i ∈ fs.openInodes, fs.mapInode = some i ∧ (fs.inode i).sector = freeMapSector ∧
      (fs.inode i).data = fs.data freeMapSector := by
  obtain ⟨m, mem, file, sector⟩ := sound.map
  have ho := sound.counted.file_opened mem
  refine ⟨_, ho, by simp [FS.mapInode, file], sector, ?_⟩
  rw [(sound.faithful _ ho).2, sector]

theorem mapLive : freeMapSector ∈ live := by
  obtain ⟨i, ho, _, sector, _⟩ := sound.mapInode
  exact sector ▸ (sound.faithful i ho).1

theorem mapExtent : fs.mapExtent = (fs.data freeMapSector).extent := by
  obtain ⟨i, _, is, _, data⟩ := sound.mapInode
  ext x
  simp [FS.mapExtent, is, data]

theorem map_apart : ∀ t ∈ live, t ∉ fs.mapExtent := by
  intro t ht
  rw [sound.mapExtent]
  exact sound.laid.apart t ht _ sound.mapLive

theorem mapPlaced : MapPlaced fs := by
  obtain ⟨i, _, is, _, data⟩ := sound.mapInode
  intro j js
  rw [is] at js
  cases js
  rw [data]
  exact ⟨sound.laid.placed sound.mapLive, fun x hi => (sound.laid.extent _ sound.mapLive x hi).2⟩

theorem mapSaves (he : tight) : MapSaves fs := by
  obtain ⟨i, ho, is, sector, data⟩ := sound.mapInode
  intro j js
  rw [is] at js
  cases js
  refine ⟨?_, by rw [data, sound.mapLength]⟩
  rw [sound.counted.deny i ho, FS.denials, Int.natCast_eq_zero, countP_eq_zero]
  intro f mem both
  obtain ⟨refers, denies⟩ := Bool.and_eq_true_iff.mp both
  have allows := sound.writable he f mem (by rw [eq_of_beq refers, sector])
  simp [allows] at denies

theorem mapSynced_iff : MapSynced fs ↔ fs.Synced (fs.data freeMapSector).start := by
  obtain ⟨i, _, is, _, data⟩ := sound.mapInode
  simp [MapSynced, is, data]

theorem placed (ho : i ∈ fs.openInodes) : Placed fs.size (fs.inode i).data := by
  obtain ⟨mem, data⟩ := sound.faithful i ho
  rw [data]
  exact sound.laid.placed mem

theorem mono (fewer : live' ⊆ live) (ho : ∀ i ∈ fs.openInodes, (fs.inode i).sector ∈ live') :
    Sound tight fs live' files held :=
  { sound with
    laid := sound.laid.mono fewer
    faithful := fun i mem => ⟨ho i mem, (sound.faithful i mem).2⟩ }

/-- The device and the free map change, but no inode that is in use. -/
theorem onDisk
    (hk : fs' = { fs with disk := fs'.disk, bits := fs'.bits, memory := fs'.memory })
    (plenty : Plenty fs → Plenty fs') (disk : ∀ s ∈ live, fs'.disk s = fs.disk s)
    (laid : Laid fs' live') (opened : ∀ i ∈ fs.openInodes, (fs.inode i).sector ∈ live')
    (synced : tight → fs'.Synced (fs.data freeMapSector).start) :
    Sound tight fs' live' files held := by
  obtain ⟨disk', bits', memory', rfl⟩ : ∃ disk bits memory, fs' = { fs with disk, bits, memory } :=
    ⟨_, _, _, hk⟩
  have data : ∀ s ∈ live,
      FS.data { fs with disk := disk', bits := bits', memory := memory' } s = fs.data s :=
    fun s member => by rw [FS.data, FS.data, disk s member]
  constructor
  case counted => exact sound.counted.of_tables rfl
  case laid => exact laid
  case faithful => grind
  case map => exact sound.map
  case mapLength => rw [data _ sound.mapLive]; exact sound.mapLength
  case plenty => exact fun enough => plenty (sound.plenty enough)
  case writable => exact sound.writable
  case synced => rw [data _ sound.mapLive]; exact synced

theorem synced_of_map {X : Set Nat} (hw : Writes X fs fs') (synced : MapSynced fs') :
    fs'.Synced (fs.data freeMapSector).start := by
  obtain ⟨i, _, is, _, data⟩ := sound.mapInode
  rw [← data]
  obtain ⟨disk', bits', memory', rfl⟩ : ∃ disk bits memory, fs' = { fs with disk, bits, memory } :=
    ⟨_, _, _, hw.kept⟩
  exact synced i is

/-- The device may change where no inode is. -/
theorem write
    (hk : fs' = { fs with disk := fs'.disk, memory := fs'.memory })
    (room : Plenty fs → Plenty fs') (disk : ∀ s ∈ live, fs'.disk s = fs.disk s)
    (map : tight → ∀ x ∈ (fs.data freeMapSector).extent, fs'.disk x = fs.disk x) :
    Sound tight fs' live files held := by
  have size : fs'.size = fs.size := by rw [hk]
  have bits : fs'.bits = fs.bits := by rw [hk]
  refine sound.onDisk (by rw [hk]) room disk (sound.laid.congr size bits disk)
    (fun i member => (sound.faithful i member).1) fun he j hb => ?_
  rw [size] at hb
  rw [bits, ← sound.synced he j hb]
  unfold FS.byteAt
  rw [map he]
  refine (sound.laid.placed sound.mapLive).mem ?_
  rw [sound.mapLength]
  exact_mod_cast bit_byte hb

/-- Only the tables of inodes and files change. -/
theorem retable {files' : List FilePtr} {held' : List InodePtr}
    (hk : fs' = { fs with
      inode := fs'.inode, inodes := fs'.inodes, openInodes := fs'.openInodes
      file := fs'.file, files := fs'.files, memory := fs'.memory })
    (plenty : Plenty fs → Plenty fs') (counted : Counted fs' files' held')
    (faithful : ∀ i ∈ fs'.openInodes, (fs'.inode i).sector ∈ live ∧
      (fs'.inode i).data = fs.data (fs'.inode i).sector)
    (map : ∃ m ∈ files', fs.freeMapFile = some m ∧
      (fs'.inode (fs'.file m).inode).sector = freeMapSector)
    (writable : tight → ∀ f ∈ files', (fs'.inode (fs'.file f).inode).sector = freeMapSector →
      (fs'.file f).denyWrite = false) : Sound tight fs' live files' held' := by
  have size : fs'.size = fs.size := by rw [hk]
  have disk : fs'.disk = fs.disk := by rw [hk]
  have bits : fs'.bits = fs.bits := by rw [hk]
  have freeMapFile : fs'.freeMapFile = fs.freeMapFile := by rw [hk]
  have data : fs'.data = fs.data := by funext s; rw [FS.data, FS.data, disk]
  constructor
  case counted => exact counted
  case laid => exact sound.laid.congr size bits fun _ _ => by rw [disk]
  case faithful => rw [data]; exact faithful
  case map => rw [freeMapFile]; exact map
  case mapLength => rw [data, size]; exact sound.mapLength
  case plenty => exact fun he => plenty (sound.plenty he)
  case writable => exact writable
  case synced =>
    unfold FS.Synced FS.byteAt
    rw [data, size, disk, bits]
    exact sound.synced

theorem quiet (hq : Quiet fs fs') : Sound tight fs' live files held := by
  refine sound.write (by rw [hq.kept]) hq.plenty (fun _ _ => ?_) fun _ _ _ => ?_
  all_goals rw [hq.disk]

end

end Sound

/-! ### Inodes -/

/-- What the life of an open inode does not change, but for the mark of its removal. -/
def FS.view (fs : FS) (i : InodePtr) : Nat × Bool × InodeDisk :=
  ((fs.inode i).sector, (fs.inode i).removed, (fs.inode i).data)

theorem FS.withInode_view {g : Inode → Inode}
    (keeps : ∀ n, ((g n).sector, (g n).removed, (g n).data) = (n.sector, n.removed, n.data))
    (j : InodePtr) : (fs.withInode i g).view j = fs.view j := by
  by_cases eq : j = i
  · subst eq
    simpa [FS.view] using keeps (fs.inode j)
  · simp [FS.view, eq]

theorem FS.view_sector (eq : fs'.view i = fs.view i) : (fs'.inode i).sector = (fs.inode i).sector :=
  congrArg Prod.fst eq

theorem FS.view_removed (eq : fs'.view i = fs.view i) :
    (fs'.inode i).removed = (fs.inode i).removed :=
  congrArg (fun v => v.2.1) eq

theorem FS.view_data (eq : fs'.view i = fs.view i) : (fs'.inode i).data = (fs.inode i).data :=
  congrArg (fun v => v.2.2) eq

/-- The inodes of `older` that are still open stand in the list in that order, and one made from
now on is not among them. -/
@[grind cases] structure FS.Ordered (fs : FS) (older : List InodePtr) : Prop where
  sublist : (fs.openInodes.filter (· ∈ older)).Sublist older
  known : ∀ i ∈ older, i < fs.inodes

/-- Inode `i` of sector `s` has been opened once more. -/
@[grind cases] structure Opens (fs fs' : FS) (i : InodePtr) (s : Nat) : Prop where
  kept : fs' = { fs with
    inode := fs'.inode, inodes := fs'.inodes, openInodes := fs'.openInodes, memory := fs'.memory }
  plenty : Plenty fs → Plenty fs'
  sector : (fs'.inode i).sector = s
  members : ∀ j, j ∈ fs'.openInodes ↔ j = i ∨ j ∈ fs.openInodes
  same : ∀ j ∈ fs.openInodes, fs'.view j = fs.view j
  fresh : i ∉ fs.openInodes → (fs'.inode i).removed = false
  order : ∀ older, fs.Ordered older → fs'.Ordered older

theorem Sound.opens (sound : Sound tight fs live files held) (ho : Opens fs fs' i s)
    (mem : s ∈ live) (data : (fs'.inode i).data = fs.data s)
    (hc : Counted fs' files (i :: held)) : Sound tight fs' live files (i :: held) := by
  have file : fs'.file = fs.file := by rw [ho.kept]
  have sector : ∀ j ∈ fs.openInodes, (fs'.inode j).sector = (fs.inode j).sector :=
    fun j hj => FS.view_sector (ho.same j hj)
  refine sound.retable (by rw [ho.kept]) ho.plenty hc (fun j hj => ?_) ?_ fun he f hf => ?_
  · rcases (ho.members j).mp hj with rfl | hj
    · rw [ho.sector]
      exact ⟨mem, data⟩
    · rw [sector j hj, FS.view_data (ho.same j hj)]
      exact sound.faithful j hj
  · obtain ⟨m, hm, freeMapFile, is⟩ := sound.map
    exact ⟨m, hm, freeMapFile, by rw [file, sector _ (sound.counted.file_opened hm), is]⟩
  · rw [file, sector _ (sound.counted.file_opened hf)]
    exact sound.writable he f hf

theorem Opens.reopen (ho : i ∈ fs.openInodes) :
    Opens fs (fs.withInode i fun n => { n with openCnt := n.openCnt + 1 }) i
      (fs.inode i).sector where
  kept := rfl
  plenty := id
  sector := by simp
  members j := by simp +contextual [ho]
  same j _ := FS.withInode_view (fun _ => by rfl) j
  fresh new := absurd ho new
  order _ ordered := ⟨ordered.sublist, ordered.known⟩

section
variable (sound : Sound tight fs live files held)
include sound

theorem Sound.reopen (ho : i ∈ fs.openInodes) :
    Sound tight (fs.withInode i fun n => { n with openCnt := n.openCnt + 1 }) live files
      (i :: held) := by
  obtain ⟨mem, data⟩ := sound.faithful i ho
  refine sound.opens (Opens.reopen ho) mem ?_ (sound.counted.reopen ho)
  simp [data]

theorem wp_inodeReopen (ho : i ∈ fs.openInodes) :
    Wp (inodeReopen i) (fun _ fs' => Sound tight fs' live files (i :: held) ∧
      Opens fs fs' i (fs.inode i).sector) fs := by
  refine wp_modifyInode.mono ?_
  rintro _ fs' rfl
  exact ⟨sound.reopen ho, Opens.reopen ho⟩

theorem wp_inodeOpen (mem : s ∈ live) :
    Wp (inodeOpen s) (fun r fs' => match r with
      | none => Quiet fs fs' ∧ ¬ Plenty fs
      | some i => Sound tight fs' live files (i :: held) ∧ Opens fs fs' i s) fs := by
  refine .bind (.get ?_)
  cases found : fs.openInodes.find? fun i => (fs.inode i).sector == s with
  | some i =>
    have ho := mem_of_find?_eq_some found
    obtain rfl : (fs.inode i).sector = s := by simpa using find?_some found
    exact .bind ((wp_inodeReopen sound ho).mono fun _ fs' h => .pure h)
  | none =>
    have ne : ∀ j ∈ fs.openInodes, (fs.inode j).sector ≠ s := by
      simpa using find?_eq_none.mp found
    refine .bind (wp_malloc.mono fun ok fs1 ⟨hq, he⟩ => ?_)
    split_ifs with allocated
    · obtain ⟨memory, rfl⟩ := hq.eq
      have hi : s < FS.size { fs with memory } := (sound.laid.inode s mem).1
      refine .bind ((wp_blockRead hi).mono ?_)
      rintro content fs2 ⟨rfl, rfl⟩
      refine .bind (.get (.bind (.set (.pure ?_))))
      have new : fs.inodes ∉ fs.openInodes :=
        fun mem => Nat.lt_irrefl _ (sound.counted.known _ mem)
      have opens : Opens fs { fs with
          memory
          inode := Function.update fs.inode fs.inodes { sector := s, data := fs.data s }
          inodes := fs.inodes + 1
          openInodes := fs.inodes :: fs.openInodes } fs.inodes s := by
        refine ⟨rfl, hq.plenty, ?_, fun j => mem_cons, fun j hj => ?_, fun _ => ?_,
          fun older ordered => ⟨?_, fun j hj => Nat.lt_succ_of_lt (ordered.known j hj)⟩⟩
        · simp
        · have older : j ≠ fs.inodes := fun eq => new (eq ▸ hj)
          simp [FS.view, older]
        · simp
        · grind
      refine ⟨sound.opens opens mem (by simp [FS.data]) ?_, opens⟩
      exact (sound.quiet hq).counted.create rfl rfl ne
    · exact .pure ⟨hq, fun room => allocated (he room)⟩

/-- Only counters of inodes change, and some inodes may be closed. -/
theorem Sound.recount {held' : List InodePtr}
    (hk : fs' = { fs with inode := fs'.inode, openInodes := fs'.openInodes })
    (eq : ∀ j, fs'.view j = fs.view j) (fewer : ∀ j ∈ fs'.openInodes, j ∈ fs.openInodes)
    (hc : Counted fs' files held') : Sound tight fs' live files held' := by
  have file : fs'.file = fs.file := by rw [hk]
  refine sound.retable (by rw [hk]) (fun room => by rw [hk]; exact room) hc
    (fun j hj => ?_) ?_ fun he f hf => ?_
  · rw [FS.view_sector (eq j), FS.view_data (eq j)]
    exact sound.faithful j (fewer j hj)
  · obtain ⟨m, hm, freeMapFile, is⟩ := sound.map
    exact ⟨m, hm, freeMapFile, by rw [file, FS.view_sector (eq _), is]⟩
  · rw [file, FS.view_sector (eq _)]
    exact sound.writable he f hf

/-- An inode that nobody has open is given back to the free map. -/
theorem Sound.free (mem : s ∈ live) (unused : ∀ j ∈ fs.openInodes, (fs.inode j).sector ≠ s)
    (hw : Writes (fs.data freeMapSector).extent fs fs') (freed : Freed fs fs' s)
    (synced : tight → MapSynced fs') : Sound tight fs' (live \ {s}) files held := by
  have disk : ∀ t ∈ live, fs'.disk t = fs.disk t :=
    fun t ht => hw.disk t (sound.laid.apart t ht _ sound.mapLive)
  exact sound.onDisk hw.kept hw.plenty disk (sound.laid.release mem hw.size disk freed)
    (fun j hj => ⟨(sound.faithful j hj).1, unused j hj⟩)
    fun he => sound.synced_of_map hw (synced he)

theorem wp_releaseInode {d : InodeDisk} (mem : s ∈ live)
    (unused : ∀ j ∈ fs.openInodes, (fs.inode j).sector ≠ s) (data : fs.data s = d) :
    Wp (do freeMapRelease s 1; freeMapRelease d.start (bytesToSectors d.length))
      (fun _ fs' => Sound tight fs' (live \ {s}) files held ∧ Freed fs fs' s ∧
        Writes (fs.data freeMapSector).extent fs fs') fs := by
  obtain ⟨i0, opened0, is0, sector0, data0⟩ := sound.mapInode
  have ne : s ≠ freeMapSector := fun eq => unused i0 opened0 (sector0.trans eq.symm)
  have laid := sound.laid
  obtain ⟨hi, used⟩ := laid.inode s mem
  refine .bind ((wp_freeMapRelease sound.mapPlaced is0 (by omega) ?_).mono
    fun _ fs1 ⟨writes1, bits1, _⟩ => ?_)
  · rintro x ⟨low, high⟩
    obtain rfl : x = s := by omega
    exact used
  rw [sound.mapExtent] at writes1
  have size1 := writes1.size
  have clear1 : ∀ x, fs1.bits x = if x = s then false else fs.bits x := by
    intro x
    rw [bits1]
    simp only [FS.mark_bits]
    refine if_congr ?_ rfl rfl
    omega
  have same1 : fs1.mapInode = fs.mapInode ∧ fs1.inode = fs.inode := by
    rw [writes1.kept]
    exact ⟨rfl, rfl⟩
  have extent1 : fs1.mapExtent = (fs.data freeMapSector).extent := by
    rw [← sound.mapExtent]
    unfold FS.mapExtent
    rw [same1.1, same1.2]
  have map1 : MapPlaced fs1 := by
    intro j js
    rw [same1.1] at js
    obtain ⟨placed, inUse⟩ := sound.mapPlaced j js
    rw [same1.2, size1]
    refine ⟨placed, fun x hx => ?_⟩
    rw [is0] at js
    cases js
    have away : x ≠ s := by
      rintro rfl
      exact laid.apart x mem _ sound.mapLive (data0 ▸ hx)
    rw [clear1, if_neg away, inUse x hx]
  refine (wp_freeMapRelease map1 (same1.1.trans is0) ?_ ?_).mono fun _ fs2
    ⟨writes2, bits2, synced⟩ => ?_
  · rw [size1, ← data]
    exact laid.fits s mem
  · intro x hx
    have away : x ≠ s := by
      rintro rfl
      exact laid.apart x mem x mem (data ▸ hx)
    rw [clear1, if_neg away]
    exact (laid.extent s mem x (data ▸ hx)).2
  · rw [extent1] at writes2
    have hw := writes1.trans writes2
    have freed : Freed fs fs2 s := by
      intro x
      rw [bits2]
      simp only [FS.mark_bits, clear1, data, InodeDisk.extent, Set.mem_Ico]
      by_cases self : x = s <;> by_cases hi : d.start ≤ x ∧
        x < d.start + bytesToSectors d.length <;>
        simp [self, hi]
    have saves1 : tight → MapSaves fs1 := by
      intro he
      unfold MapSaves
      rw [same1.1, same1.2, size1]
      exact sound.mapSaves he
    refine ⟨sound.free mem unused hw freed fun he => ?_, freed, hw⟩
    exact synced (writes1.plenty (sound.plenty he)) (saves1 he)

end

/-- Nobody but the holder of this pointer refers to the inode. -/
def FS.Last (fs : FS) (files : List FilePtr) (held : List InodePtr) (i : InodePtr) : Prop :=
  fs.refs files (held.erase i) i = 0

/-- One pointer to inode `i` of those in `held` has been given up. -/
structure Closes (fs fs' : FS) (files : List FilePtr) (held : List InodePtr) (i : InodePtr) :
    Prop where
  kept : fs' = { fs with
    disk := fs'.disk, bits := fs'.bits, inode := fs'.inode, openInodes := fs'.openInodes
    memory := fs'.memory }
  plenty : Plenty fs → Plenty fs'
  same : ∀ j, fs'.view j = fs.view j
  members : ∀ j, j ∈ fs'.openInodes ↔ j ∈ fs.openInodes ∧ ¬ (j = i ∧ fs.Last files held i)
  sublist : fs'.openInodes.Sublist fs.openInodes
  disk : ∀ x ∉ (fs.data freeMapSector).extent, fs'.disk x = fs.disk x
  freed : fs.Last files held i → (fs.inode i).removed = true → Freed fs fs' (fs.inode i).sector
  otherwise : ¬ (fs.Last files held i ∧ (fs.inode i).removed = true) →
    fs'.disk = fs.disk ∧ fs'.bits = fs.bits

/-- The file system is sound after it, with one inode less if a removed one had no other user. -/
structure Shuts (tight : Prop) (fs fs' : FS) (live : Set Nat) (files : List FilePtr)
    (held : List InodePtr) (i : InodePtr) : Prop where
  closes : Closes fs fs' files held i
  gone : fs.Last files held i → (fs.inode i).removed = true →
    Sound tight fs' (live \ {(fs.inode i).sector}) files (held.erase i)
  stays : ¬ (fs.Last files held i ∧ (fs.inode i).removed = true) →
    Sound tight fs' live files (held.erase i)

theorem wp_inodeClose (sound : Sound tight fs live files held) (mem : i ∈ held) :
    Wp (inodeClose i) (fun _ fs' => Shuts tight fs fs' live files held i) fs := by
  have ho := sound.counted.held_opened mem
  refine .bind (wp_modifyInode.mono ?_)
  rintro _ fs1 rfl
  have count : ((fs.withInode i fun n => { n with openCnt := n.openCnt - 1 }).inode i).openCnt =
      fs.refs files (held.erase i) i := by
    have := sound.counted.count i ho
    rw [← FS.refs_erase mem i, if_pos rfl] at this
    simp [this]
  have view : ∀ j, (fs.withInode i fun n => { n with openCnt := n.openCnt - 1 }).view j =
    fs.view j :=
    FS.withInode_view fun _ => rfl
  refine .bind (.get ?_)
  by_cases last : fs.Last files held i
  · rw [if_pos (count.trans (by exact_mod_cast last))]
    refine .bind (.set ?_)
    have members : ∀ j, j ∈ fs.openInodes.erase i ↔ j ∈ fs.openInodes ∧
        ¬ (j = i ∧ fs.Last files held i) := by
      intro j
      rw [sound.counted.nodup.mem_erase_iff]
      simp only [last, and_true]
      exact and_comm
    have closed : Sound tight { fs.withInode i (fun n => { n with openCnt := n.openCnt - 1 }) with
        openInodes := fs.openInodes.erase i } live files (held.erase i) :=
      sound.recount rfl view (fun j hj => ((members j).mp hj).1)
        (sound.counted.dropLast mem last)
    by_cases removed : (fs.inode i).removed = true
    · rw [if_pos (by simpa using removed)]
      obtain ⟨hi, data⟩ := sound.faithful i ho
      have sector : ((fs.withInode i fun n => { n with openCnt := n.openCnt - 1 }).inode i).sector =
          (fs.inode i).sector := FS.view_sector (view i)
      have same : ((fs.withInode i fun n => { n with openCnt := n.openCnt - 1 }).inode i).data =
          (fs.inode i).data := FS.view_data (view i)
      rw [sector, same]
      refine (wp_releaseInode closed hi (fun j hj eq => ?_) data.symm).mono
        fun _ fs' ⟨after, freed, hw⟩ => ?_
      · obtain ⟨hj, ne⟩ := (members j).mp hj
        have eq' : (fs.inode j).sector = (fs.inode i).sector :=
          (FS.view_sector (view j)).symm.trans eq
        exact ne ⟨sound.counted.apart j hj i ho eq', last⟩
      · have inode : fs'.inode =
          (fs.withInode i fun n => { n with openCnt := n.openCnt - 1 }).inode := by
          rw [hw.kept]
        have openInodes : fs'.openInodes = fs.openInodes.erase i := by rw [hw.kept]
        refine ⟨⟨?_, hw.plenty, fun j => ?_, fun j => openInodes ▸ members j,
          openInodes ▸ erase_sublist, hw.disk, fun _ _ => freed, fun ne => absurd ⟨last, removed⟩
            ne⟩, fun _ _ => after,
          fun ne => absurd ⟨last, removed⟩ ne⟩
        · rw [hw.kept]; rfl
        · rw [← view j, FS.view, inode]; rfl
    · rw [if_neg (by simpa using removed)]
      refine .pure
        ⟨⟨rfl, id, view, members, erase_sublist, fun _ _ => rfl, fun _ is => absurd is removed,
        fun _ => ⟨rfl, rfl⟩⟩, fun _ is => absurd is removed, fun _ => closed⟩
  · have more : 0 < fs.refs files (held.erase i) i := Nat.pos_of_ne_zero last
    rw [if_neg (by rw [count]; exact_mod_cast last)]
    refine .pure
      ⟨⟨rfl, id, view, fun j => by simp [last], .refl _, fun _ _ => rfl, fun is => absurd is last,
      fun _ => ⟨rfl, rfl⟩⟩, fun is => absurd is last, fun _ => ?_⟩
    exact sound.recount rfl view (fun _ => id) (sound.counted.drop mem more)

theorem Quiet.shuts {fs1 : FS} (hq : Quiet fs fs1) (shuts : Shuts tight fs1 fs' live files held i) :
    Shuts tight fs fs' live files held i := by
  have room := hq.plenty
  obtain ⟨memory, rfl⟩ := hq.eq
  obtain ⟨hc, gone, stays⟩ := shuts
  exact ⟨⟨by rw [hc.kept], hc.plenty ∘ room, hc.same, hc.members, hc.sublist,
    hc.disk, hc.freed, hc.otherwise⟩, gone, stays⟩

theorem wp_inodeRemove (sound : Sound tight fs live files held) (ho : i ∈ fs.openInodes) :
    Wp (inodeRemove i) (fun _ fs' => Sound tight fs' live files held ∧
      fs' = fs.withInode i fun n => { n with removed := true }) fs := by
  refine wp_modifyInode.mono ?_
  rintro _ fs' rfl
  have sector : ∀ j, ((fs.withInode i fun n => { n with removed := true }).inode j).sector =
      (fs.inode j).sector := FS.withInode_keep fun _ => rfl
  have data : ∀ j, ((fs.withInode i fun n => { n with removed := true }).inode j).data =
      (fs.inode j).data := FS.withInode_keep fun _ => rfl
  refine ⟨sound.retable rfl id (sound.counted.remove ho) (fun j hj => ?_) ?_
    fun he f hf => ?_, rfl⟩
  · rw [sector, data]
    exact sound.faithful j hj
  · simpa only [sector, FS.withInode_file] using sound.map
  · rw [sector]
    exact sound.writable he f hf

theorem Sound.wrote {ok : Prop} {size offset n : Nat} {b : Bytes}
    (sound : Sound tight fs live files held) (ho : i ∈ fs.openInodes)
    (ne : tight → (fs.inode i).sector ≠ freeMapSector)
    (hw : Wrote fs fs' (fs.inode i).data.start offset n b)
    (hm : Moved ok (fs.inode i).data.length size offset n) : Sound tight fs' live files held := by
  obtain ⟨mem, data⟩ := sound.faithful i ho
  have disk : ∀ x ∉ (fs.inode i).data.extent, fs'.disk x = fs.disk x :=
    fun x out => hw.outside_extent (sound.placed ho) hm out
  refine sound.write hw.kept hw.plenty (fun t ht => disk t ?_) fun he x hx => disk x ?_
  · rw [data]
    exact sound.laid.apart t ht _ mem
  · rw [data]
    exact Set.disjoint_left.mp
      (sound.laid.disjoint _ sound.mapLive _ mem (Ne.symm (ne he))) hx

/-! ### Files -/

/-- The tables of files and counters change, the inodes do not. -/
@[grind cases] structure Refiles (fs fs' : FS) : Prop where
  kept : fs' =
    { fs with inode := fs'.inode, file := fs'.file, files := fs'.files, memory := fs'.memory }
  plenty : Plenty fs → Plenty fs'
  same : ∀ j, fs'.view j = fs.view j

/-- File `f` denies or allows writes, but for the file of the free map. -/
theorem Sound.setDeny (sound : Sound tight fs live files held) (mem : f ∈ files) (value : Bool)
    {d : Int} (changes : d = (fs.inode (fs.file f).inode).denyWriteCnt +
      ((if value then 1 else 0) - if (fs.file f).denyWrite then 1 else 0))
    (ne : tight → value = true → (fs.inode (fs.file f).inode).sector ≠ freeMapSector) :
    Sound tight ((fs.withFile f fun p => { p with denyWrite := value }).withInode (fs.file f).inode
      fun n => { n with denyWriteCnt := d }) live files held := by
  have hc := sound.counted.setDeny mem value changes
  have inode : ∀ p, ((fs.withFile f fun p => { p with denyWrite := value }).file p).inode =
      (fs.file p).inode := FS.withFile_keep fun _ => rfl
  have view : ∀ j, ((fs.withFile f fun p => { p with denyWrite := value }).withInode
      (fs.file f).inode fun n => { n with denyWriteCnt := d }).view j = fs.view j :=
    FS.withInode_view fun _ => rfl
  have sector : ∀ j, (((fs.withFile f fun p => { p with denyWrite := value }).withInode
      (fs.file f).inode fun n => { n with denyWriteCnt := d }).inode j).sector =
        (fs.inode j).sector := fun j => FS.view_sector (view j)
  refine sound.retable rfl id hc (fun j hj => ?_) ?_ fun he p hp h => ?_
  · rw [sector, FS.view_data (view j)]
    exact sound.faithful j hj
  · simpa only [sector, FS.withInode_file, inode] using sound.map
  · rw [sector, FS.withInode_file, inode] at h
    by_cases eq : p = f
    · subst eq
      simp only [FS.withInode_file, FS.withFile_file, Function.update_self]
      exact Bool.eq_false_iff.mpr fun on => ne he on h
    · simpa [eq] using sound.writable he p hp h

theorem wp_fileDenyWrite (sound : Sound tight fs live files held) (mem : f ∈ files)
    (ne : tight → (fs.inode (fs.file f).inode).sector ≠ freeMapSector) :
    Wp (fileDenyWrite f) (fun _ fs' => Sound tight fs' live files held ∧ Refiles fs fs' ∧
      ∀ p, fs'.file p = if p = f then { fs.file f with denyWrite := true } else fs.file p) fs := by
  refine .bind (.get ?_)
  split_ifs with denied
  · refine .pure ⟨sound, ⟨rfl, id, fun _ => rfl⟩, fun p => ?_⟩
    split_ifs with eq
    · rw [eq, ← denied]
    · rfl
  · refine .bind (wp_modifyFile.mono ?_)
    rintro _ fs1 rfl
    refine .bind (wp_modifyInode.mono ?_)
    rintro _ fs2 rfl
    have after := sound.setDeny mem true (d := (fs.inode (fs.file f).inode).denyWriteCnt + 1)
      (by simp [denied]) fun he _ => ne he
    refine .bind (.get (.assert ?_ ?_))
    · exact (after.counted.deny_le_open (sound.counted.file_opened mem)).2
    · refine ⟨after, ⟨rfl, id, FS.withInode_view fun _ => rfl⟩, fun p => ?_⟩
      simp [Function.update_apply]

theorem wp_fileAllowWrite (sound : Sound tight fs live files held) (mem : f ∈ files) :
    Wp (fileAllowWrite f) (fun _ fs' => Sound tight fs' live files held ∧ Refiles fs fs' ∧
      ∀ p, fs'.file p = if p = f then { fs.file f with denyWrite := false } else fs.file p) fs := by
  have ho := sound.counted.file_opened mem
  refine .bind (.get ?_)
  split_ifs with denied
  · refine .bind (wp_modifyFile.mono ?_)
    rintro _ fs1 rfl
    have pos : 0 < (fs.inode (fs.file f).inode).denyWriteCnt := by
      rw [sound.counted.deny _ ho, Int.natCast_pos]
      exact countP_pos_iff.mpr ⟨f, mem, by simp [denied]⟩
    have after := sound.setDeny mem false (d := (fs.inode (fs.file f).inode).denyWriteCnt - 1)
      (by simp [denied]; omega) (by simp)
    refine .bind (.get (.bind (.assert pos (.bind (.assert ?_ (wp_modifyInode.mono ?_))))))
    · exact (sound.counted.deny_le_open ho).2
    · rintro _ fs2 rfl
      refine ⟨after, ⟨rfl, id, FS.withInode_view fun _ => rfl⟩, fun p => ?_⟩
      simp [Function.update_apply]
  · refine .pure ⟨sound, ⟨rfl, id, fun _ => rfl⟩, fun p => ?_⟩
    split_ifs with eq
    · rw [eq, ← Bool.eq_false_iff.mpr denied]
    · rfl

/-- File `f` on inode `i` is new. -/
@[grind cases] structure NewFile (fs fs' : FS) (files : List FilePtr) (f : FilePtr) (i : InodePtr) :
    Prop where
  refiles : Refiles fs fs'
  file : fs'.file f = { inode := i }
  fresh : f ∉ files
  others : ∀ p ∈ files, fs'.file p = fs.file p

theorem wp_fileOpen (sound : Sound tight fs live files held) (mem : i ∈ held) :
    Wp (fileOpen (some i)) (fun r fs' => match r with
      | none => ¬ Plenty fs ∧ Shuts tight fs fs' live files held i
      | some f => Sound tight fs' live (f :: files) (held.erase i) ∧ NewFile fs fs' files f i)
          fs := by
  refine .bind (wp_malloc.mono fun ok fs1 ⟨hq, he⟩ => ?_)
  cases ok with
  | false =>
    refine .bind ((wp_inodeClose (sound.quiet hq) mem).mono fun _ fs' shuts => .pure ?_)
    exact ⟨fun room => (nomatch he room), hq.shuts shuts⟩
  | true =>
    have sound1 := sound.quiet hq
    obtain ⟨memory, rfl⟩ := hq.eq
    refine .bind (.get (.bind (.set (.pure ?_))))
    have new : fs.files ∉ files := fun mem => Nat.lt_irrefl _ (sound.counted.made _ mem)
    have others : ∀ p ∈ files, Function.update fs.file fs.files { inode := i } p = fs.file p :=
      fun p hp => Function.update_of_ne (fun eq : p = fs.files => new (eq ▸ hp)) ..
    have ho := sound.counted.held_opened mem
    refine ⟨sound1.retable rfl id (sound1.counted.newFile mem) sound.faithful ?_ ?_, ?_⟩
    · grind
    · grind
    · exact ⟨⟨rfl, hq.plenty, fun _ => rfl⟩, Function.update_self .., new, others⟩

theorem Sound.freeFile (sound : Sound tight fs live files held) (mem : f ∈ files)
    (allows : (fs.file f).denyWrite = false) (ne : fs.freeMapFile ≠ some f) :
    Sound tight fs live (files.erase f) ((fs.file f).inode :: held) := by
  refine sound.retable rfl id (sound.counted.freeFile mem allows) sound.faithful ?_ ?_
  · grind
  · exact fun he p hp => sound.writable he p (mem_of_mem_erase hp)

/-- Every file refers to the inode it referred to. -/
structure SameFiles (fs fs' : FS) : Prop where
  refiles : Refiles fs fs'
  inode : ∀ p, (fs'.file p).inode = (fs.file p).inode

section
variable (sound : Sound tight fs live files held)
include sound

theorem wp_fileClose (mem : f ∈ files)
    (other : fs.freeMapFile ≠ some f) :
    Wp (fileClose (some f)) (fun _ fs' => ∃ fs1, SameFiles fs fs1 ∧
      (∀ p, p ≠ f → fs1.file p = fs.file p) ∧
      Sound tight fs1 live (files.erase f) ((fs.file f).inode :: held) ∧
      Shuts tight fs1 fs' live (files.erase f) ((fs.file f).inode :: held) (fs.file f).inode)
        fs := by
  refine .bind ((wp_fileAllowWrite sound mem).mono fun _ fs1 ⟨sound1, refiles, file⟩ => ?_)
  have inode : ∀ p, (fs1.file p).inode = (fs.file p).inode := by
    intro p
    rw [file p]
    split_ifs with eq
    · rw [eq]
    · rfl
  have freeMapFile : fs1.freeMapFile = fs.freeMapFile := by rw [refiles.kept]
  have sound2 := sound1.freeFile mem (by rw [file f, if_pos rfl]) (freeMapFile ▸ other)
  rw [inode f] at sound2
  refine .bind (.get ?_)
  rw [inode f]
  exact (wp_inodeClose sound2 (.head _)).mono
    fun _ fs' shuts => ⟨fs1, ⟨refiles, inode⟩, fun p ne => by rw [file p, if_neg ne], sound2, shuts⟩

theorem Sound.withFile {g : File → File}
    (inode : ∀ n, (g n).inode = n.inode) (deny : ∀ n, (g n).denyWrite = n.denyWrite) :
    Sound tight (fs.withFile f g) live files held := by
  have inode' : ∀ p, ((fs.withFile f g).file p).inode = (fs.file p).inode := FS.withFile_keep inode
  have deny' : ∀ p, ((fs.withFile f g).file p).denyWrite = (fs.file p).denyWrite :=
    FS.withFile_keep deny
  refine sound.retable rfl id (sound.counted.withFile inode deny) sound.faithful ?_ ?_
  · simpa only [FS.withFile_inode, inode'] using sound.map
  · simpa only [FS.withFile_inode, inode', deny'] using sound.writable

theorem wp_fileSeek {newPos : Int} (hv : 0 ≤ newPos) :
    Wp (fileSeek f newPos) (fun _ fs' => Sound tight fs' live files held ∧
      fs' = fs.withFile f fun p => { p with pos := newPos.toNat }) fs := by
  refine .bind (.assert hv (wp_modifyFile.mono ?_))
  rintro _ fs' rfl
  exact ⟨sound.withFile (fun _ => rfl) fun _ => rfl, rfl⟩

theorem wp_fileRead (mem : f ∈ files) (buffer : Bytes) (size : Int) :
    Wp (fileRead f buffer size) (fun r fs' => Sound tight fs' live files held ∧
      ∃ fs1, Quiet fs fs1 ∧ fs' = fs1.withFile f (fun p => { p with pos := p.pos + r.1 }) ∧
        Moved (Plenty fs) (fs.inode (fs.file f).inode).data.length size.toNat (fs.file f).pos r.1 ∧
        r.2 = filled fs (fs.inode (fs.file f).inode).data.start (fs.file f).pos 0 r.1 buffer)
          fs := by
  have placed := sound.placed (sound.counted.file_opened mem)
  refine .bind (.get (.bind ((wp_inodeReadAt _ buffer size _ placed.reads).mono ?_)))
  rintro ⟨n, content⟩ fs1 ⟨hq, hm, eq⟩
  refine .bind (wp_modifyFile.mono ?_)
  rintro _ fs' rfl
  exact .pure ⟨(sound.quiet hq).withFile (fun _ => rfl) fun _ => rfl, fs1, hq, rfl, hm, eq⟩

theorem wp_fileWrite (mem : f ∈ files) (buffer : Bytes)
    (size : Int) (ne : tight → (fs.inode (fs.file f).inode).sector ≠ freeMapSector) :
    Wp (fileWrite f buffer size) (fun n fs' => Sound tight fs' live files held ∧
      ∃ fs1, fs' = fs1.withFile f (fun p => { p with pos := p.pos + n }) ∧
        Moved (Plenty fs ∧ (fs.inode (fs.file f).inode).denyWriteCnt = 0)
          (fs.inode (fs.file f).inode).data.length size.toNat (fs.file f).pos n ∧
        ((fs.inode (fs.file f).inode).denyWriteCnt ≠ 0 → n = 0 ∧ fs1 = fs) ∧
        Wrote fs fs1 (fs.inode (fs.file f).inode).data.start (fs.file f).pos n buffer) fs := by
  have ho := sound.counted.file_opened mem
  have placed := sound.placed ho
  refine .bind (.get (.bind ((wp_inodeWriteAt _ buffer size _ placed.reads).mono ?_)))
  rintro n fs1 ⟨hm, denied, hw⟩
  refine .bind (wp_modifyFile.mono ?_)
  rintro _ fs' rfl
  exact .pure ⟨(sound.wrote ho ne hw hm).withFile (fun _ => rfl) fun _ => rfl, fs1, rfl,
    hm, denied, hw⟩

end

end Pintos.Filesys
