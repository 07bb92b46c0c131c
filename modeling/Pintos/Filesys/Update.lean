import Pintos.Filesys.Volume

/-!
# Changes of the volume

A slot of the directory is written, a file is created or removed, and open files are used.
Whatever fails on the way, the volume stays as it should be.
-/

namespace Pintos.Filesys

open LittleEndian Prog List

variable {tight : Prop} {fs fs' fs'' : FS} {files files' : List FilePtr}
  {held held' : List InodePtr}
  {i : InodePtr} {f : FilePtr} {dir : Dir} {s slot : Nat} {live' : Set Nat} {e : Bytes}
  {name : CString} {size : Int}

/-! ### A slot of the directory -/

theorem Volume.relists_data (vol : Volume tight fs files held) (relists : Relists fs fs' slot e) :
    fs'.data rootDirSector = fs.data rootDirSector := by
  rw [FS.data, FS.data, relists.disk _ (vol.sound.laid.apart _ fs.root_live _ fs.root_live)]

namespace Relists

variable (relists : Relists fs fs' slot e) (data : fs'.data rootDirSector = fs.data rootDirSector)
include relists data

theorem entry_self (j : Nat) (hb : j < entrySize) : fs'.entry slot j = e j := by
  rw [FS.entry, data]
  exact relists.here j hb

theorem entry_other {m : Nat} (ne : m ≠ slot) (j : Nat) (hb : j < entrySize) :
    fs'.entry m j = fs.entry m j := by
  rw [FS.entry, data]
  exact relists.others m ne j hb

theorem used_self : fs'.Used slot ↔ Entry.inUse e = true := by
  rw [FS.Used, Entry.inUse_congr (relists.entry_self data)]
  exact and_iff_right relists.inside

theorem used_other {m : Nat} (ne : m ≠ slot) : fs'.Used m ↔ fs.Used m := by
  rw [FS.Used, FS.Used, Entry.inUse_congr (relists.entry_other data ne)]

theorem sector_self : Entry.inodeSector (fs'.entry slot) = Entry.inodeSector e :=
  Entry.inodeSector_congr (relists.entry_self data)

theorem sector_other {m : Nat} (ne : m ≠ slot) :
    Entry.inodeSector (fs'.entry m) = Entry.inodeSector (fs.entry m) :=
  Entry.inodeSector_congr (relists.entry_other data ne)

theorem listed (is : fs'.Listed s) :
    fs.Listed s ∨ Entry.inUse e = true ∧ Entry.inodeSector e = s := by
  obtain ⟨m, used, rfl⟩ := is
  by_cases eq : m = slot
  · subst eq
    exact .inr ⟨(relists.used_self data).mp used, (relists.sector_self data).symm⟩
  · exact .inl ⟨m, (relists.used_other data eq).mp used, (relists.sector_other data eq).symm⟩

end Relists

/-- What may be written into a slot: nothing that is in use, or an inode that is listed nowhere
yet and not open. -/
structure Lists (fs : FS) (live : Set Nat) (e : Bytes) : Prop where
  member : Entry.inodeSector e ∈ live
  ordinary : ¬ Special (Entry.inodeSector e)
  unlisted : ¬ fs.Listed (Entry.inodeSector e)
  closed : ∀ i ∈ fs.openInodes, (fs.inode i).sector ≠ Entry.inodeSector e
  ends : ∃ k < nameMax + 1, e (4 + k) = 0

theorem Volume.relists (vol : Volume tight fs files held) (sound : Sound tight fs live' files held)
    (larger : fs.live ⊆ live') (relists : Relists fs fs' slot e)
    (lists : Entry.inUse e = true → Lists fs live' e) : Volume tight fs' files held := by
  have root := larger fs.root_live
  have data := vol.relists_data relists
  have disk : ∀ t ∈ live', fs'.disk t = fs.disk t :=
    fun t ht => relists.disk t (sound.laid.apart t ht _ root)
  have sound' : Sound tight fs' live' files held := by
    refine sound.write relists.kept relists.plenty disk fun _ x hx => relists.disk x ?_
    exact Set.disjoint_left.mp (sound.laid.disjoint _ (larger fs.map_live) _ root (by decide)) hx
  have tables : fs'.openInodes = fs.openInodes ∧ fs'.inode = fs.inode ∧ fs'.file = fs.file ∧
      fs'.freeMapFile = fs.freeMapFile := by
    rw [relists.kept]
    exact ⟨rfl, rfl, rfl, rfl⟩
  obtain ⟨openInodes, inode, file, freeMapFile⟩ := tables
  constructor
  case sound =>
    refine sound'.mono ?_ fun i opened => .inr (.inr ⟨i, opened, rfl⟩)
    rintro s (special | is | ⟨i, opened, rfl⟩)
    · exact larger (.inl special)
    · rcases relists.listed data is with old | ⟨inUse, rfl⟩
      · exact larger (.inr (.inl old))
      · exact (lists inUse).member
    · exact (sound'.faithful i opened).1
  case length => rw [data]; exact vol.length
  case ends =>
    have hi : ∀ k < nameMax + 1, 4 + k < entrySize := by
      intro k hs
      unfold entrySize
      unfold nameMax at hs
      omega
    intro m used
    by_cases eq : m = slot
    · subst eq
      obtain ⟨k, hs, zero⟩ := (lists ((relists.used_self data).mp used)).ends
      exact ⟨k, hs, (relists.entry_self data _ (hi k hs)).trans zero⟩
    · obtain ⟨k, hs, zero⟩ := vol.ends m ((relists.used_other data eq).mp used)
      exact ⟨k, hs, (relists.entry_other data eq _ (hi k hs)).trans zero⟩
  case ordinary =>
    intro s is
    rcases relists.listed data is with old | ⟨inUse, rfl⟩
    · exact vol.ordinary s old
    · exact (lists inUse).ordinary
  case once =>
    -- two slots of which one is the new one
    have new : ∀ m, m ≠ slot → fs'.Used m → fs'.Used slot →
        Entry.inodeSector (fs'.entry m) ≠ Entry.inodeSector (fs'.entry slot) := by
      intro m ne used self same
      rw [relists.sector_self data, relists.sector_other data ne] at same
      exact (lists ((relists.used_self data).mp self)).unlisted
        ⟨m, (relists.used_other data ne).mp used, same⟩
    intro m m' used used' same
    by_cases eq : m = slot <;> by_cases eq' : m' = slot
    · rw [eq, eq']
    · subst eq
      exact absurd same.symm (new m' eq' used' used)
    · subst eq'
      exact absurd same (new m eq used used')
    · rw [relists.sector_other data eq, relists.sector_other data eq'] at same
      rw [relists.used_other data eq] at used
      rw [relists.used_other data eq'] at used'
      exact vol.once m m' used used' same
  case removed =>
    rw [openInodes, inode]
    intro i opened is
    obtain ⟨special, hu⟩ := vol.removed i opened is
    refine ⟨special, fun now => ?_⟩
    rcases relists.listed data now with old | ⟨inUse, eq⟩
    · exact hu old
    · exact (lists inUse).closed i opened eq.symm
  case clients => rw [freeMapFile, inode, file]; exact vol.clients

/-! ### Removing a file -/

section
variable (vol : Volume tight fs files held)
include vol

/-- No other slot lists the inode of a slot that is cleared. -/
theorem Volume.unlists (relists : Relists fs fs' slot e) (clear : Entry.inUse e = false)
    (used : fs.Used slot) : ¬ fs'.Listed (Entry.inodeSector (fs.entry slot)) := by
  have data := vol.relists_data relists
  rintro ⟨m, usedM, same⟩
  by_cases eq : m = slot
  · subst eq
    simp [(relists.used_self data).mp usedM] at clear
  · rw [relists.sector_other data eq] at same
    exact eq (vol.once m slot ((relists.used_other data eq).mp usedM) used same)

theorem wp_volumeRemove (ho : i ∈ fs.openInodes)
    (ordinary : ¬ Special (fs.inode i).sector) (hu : ¬ fs.Listed (fs.inode i).sector) :
    Wp (inodeRemove i) (fun _ fs' => Volume tight fs' files held ∧
      (fs'.freeMapFile = fs.freeMapFile ∧ fs'.file = fs.file) ∧
      ∀ j, (fs'.inode j).sector = (fs.inode j).sector) fs := by
  refine (wp_inodeRemove vol.sound ho).mono ?_
  rintro _ fs' ⟨hs, rfl⟩
  have sector : ∀ j, ((fs.withInode i fun n => { n with removed := true }).inode j).sector =
      (fs.inode j).sector := FS.withInode_keep fun _ => rfl
  refine ⟨vol.move hs rfl (fun _ _ => rfl) fs.mem_live (fun j hj is => ?_) fun f hf ne => ?_,
    ⟨rfl, rfl⟩, sector⟩
  · rw [sector]
    by_cases eq : j = i
    · exact eq ▸ ⟨ordinary, hu⟩
    · rw [FS.withInode_inode, Function.update_of_ne eq] at is
      exact vol.removed j hj is
  · rw [sector]
    exact vol.clients f hf ne

theorem wp_dirRemove (mem : dir.inode ∈ held)
    (sector : (fs.inode dir.inode).sector = rootDirSector) (name : CString) :
    Wp (dirRemove dir name) (fun _ fs' => Volume tight fs' files held ∧
      (fs'.freeMapFile = fs.freeMapFile ∧ fs'.file = fs.file) ∧
      (fs'.inode dir.inode).sector = rootDirSector) fs := by
  have ho := vol.sound.counted.held_opened mem
  refine .bind ((wp_lookup (vol.root ho sector) vol.ends name).mono ?_)
  rintro r fs1 ⟨hq, res⟩
  have vol1 := vol.quiet hq
  have sector1 : (fs1.inode dir.inode).sector = rootDirSector := by rw [hq.kept]; exact sector
  cases r with
  | none => exact .pure ⟨vol1, ⟨by rw [hq.kept], by rw [hq.kept]⟩, sector1⟩
  | some found =>
    obtain ⟨e, ofs⟩ := found
    obtain ⟨slot, rfl, hit, copy, _⟩ := res
    have used1 : fs1.Used slot := ((hq.readsOnly.matched slot name).mpr hit).1
    have eq : Entry.inodeSector e = Entry.inodeSector (fs1.entry slot) := by
      rw [hq.entry, copy.inodeSector]
    have opened1 := vol1.sound.counted.held_opened mem
    refine .bind ((wp_volumeOpen vol1 (.inr ⟨slot, used1, eq.symm⟩)).mono ?_)
    rintro r fs2 ⟨reads, res⟩
    have reads2 := hq.readsOnly.trans reads
    cases r with
    | none =>
      refine .pure ⟨res.1, ⟨reads2.freeMapFile, by rw [res.2.1.kept, hq.kept]⟩, ?_⟩
      rw [show fs2.inode = fs1.inode by rw [res.2.1.kept], sector1]
    | some i =>
      obtain ⟨vol2, opens, _⟩ := res
      have sector2 : (fs2.inode dir.inode).sector = rootDirSector :=
        (FS.view_sector (opens.same _ opened1)).trans sector1
      have opened2 := vol2.sound.counted.held_opened (mem_cons_of_mem i mem)
      have used2 : fs2.Used slot := by
        rw [FS.Used, reads.entry]
        exact used1
      have sectorI : (fs2.inode i).sector = Entry.inodeSector (fs2.entry slot) := by
        rw [opens.sector, reads.entry, eq]
      -- what follows the write, from any volume with this pointer
      have file2 : fs2.file = fs.file := by rw [opens.kept, hq.kept]
      have closing : ∀ fs3, Volume tight fs3 files (i :: held) →
          fs3.freeMapFile = fs2.freeMapFile ∧ fs3.file = fs2.file →
          (fs3.inode dir.inode).sector = rootDirSector →
          Wp (inodeClose i) (fun _ fs' => Volume tight fs' files held ∧
            (fs'.freeMapFile = fs.freeMapFile ∧ fs'.file = fs.file) ∧
            (fs'.inode dir.inode).sector = rootDirSector) fs3 := by
        rintro fs3 vol3 ⟨freeMapFile3, file3⟩ sector3
        refine (wp_inodeClose vol3.sound (.head _)).mono fun _ fs' shuts => ?_
        have vol' := vol3.shuts (.head _) shuts
        rw [erase_cons_head] at vol'
        refine ⟨vol', ⟨?_, ?_⟩, (FS.view_sector (shuts.closes.same _)).trans sector3⟩
        · rw [shuts.closes.kept, freeMapFile3, reads2.freeMapFile]
        · rw [shuts.closes.kept, file3, file2]
      refine .bind ((wp_writeEntry (vol2.root opened2 sector2) (Entry.clear e)
        (Nat.le_of_lt used2.1)).mono ?_)
      rintro n fs3 ⟨hw, stopped⟩
      split_ifs with all
      · have relists := hw all
        have vol3 := vol2.relists vol2.sound subset_rfl relists
          fun inUse => by simp [Entry.inUse_clear] at inUse
        have inode3 : fs3.inode = fs2.inode := by rw [relists.kept]
        have hu := vol2.unlists relists Entry.inUse_clear used2
        have ordinary := vol2.ordinary _ ⟨slot, used2, rfl⟩
        rw [← sectorI, ← inode3] at hu ordinary
        have openedI := vol3.sound.counted.held_opened (.head _)
        refine .bind ((wp_volumeRemove vol3 openedI ordinary hu).mono ?_)
        rintro _ fs4 ⟨vol4, ⟨freeMapFile4, file4⟩, sector4⟩
        refine .bind ((closing fs4 vol4 ⟨?_, ?_⟩ ?_).mono fun _ _ done => .pure done)
        · rw [freeMapFile4, relists.kept]
        · rw [file4, relists.kept]
        · rw [sector4, inode3, sector2]
      · have quiet3 := stopped all
        have tables : fs3.freeMapFile = fs2.freeMapFile ∧ fs3.file = fs2.file := by
          rw [quiet3.kept]
          exact ⟨rfl, rfl⟩
        refine .bind ((closing fs3 (vol2.quiet quiet3) tables ?_).mono fun _ _ done => .pure done)
        rw [show fs3.inode = fs2.inode by rw [quiet3.kept], sector2]

theorem wp_filesysRemove (name : CString) :
    Wp (filesysRemove name) (fun _ fs' => Volume tight fs' files held ∧
      fs'.freeMapFile = fs.freeMapFile ∧ fs'.file = fs.file) fs := by
  refine .bind ((wp_dirOpenRoot vol).mono fun r fs1 ⟨⟨reads1, file1, _⟩, res⟩ => ?_)
  cases r with
  | none => exact .bind (.pure (.bind (.pure (.pure ⟨res.1, reads1.freeMapFile, file1⟩))))
  | some dir =>
    obtain ⟨vol1, sector1, _⟩ := res
    refine .bind ((wp_dirRemove vol1 (.head _) sector1 name).mono
      fun _ fs2 ⟨vol2, ⟨freeMapFile2, file2⟩, sector2⟩ => ?_)
    refine .bind ((wp_dirClose vol2 (.head _) sector2).mono
      fun _ fs3 ⟨reads3, vol3, hc⟩ => .pure ?_)
    rw [erase_cons_head] at vol3
    refine ⟨vol3, ?_, ?_⟩
    · rw [reads3.freeMapFile, freeMapFile2, reads1.freeMapFile]
    · rw [hc.kept, file2, file1]

end

/-! ### Creating a file -/

theorem FS.live_congr (eq : SameRoot fs fs') (openInodes : fs'.openInodes = fs.openInodes)
    (inode : fs'.inode = fs.inode) : fs'.live = fs.live := by
  unfold FS.live
  simp only [eq.listed, openInodes, inode]

/-- The free map changes, and its file with it. -/
theorem Volume.remap (vol : Volume tight fs files held) (hs : Sound tight fs' fs.live files held)
    (hw : Writes (fs.data freeMapSector).extent fs fs') :
    Volume tight fs' files held ∧ fs'.live = fs.live ∧ SameRoot fs fs' := by
  obtain ⟨ne, disjoint⟩ := vol.map_apart
  have inode := hw.disk _ ne
  have extent := fun x hx => hw.disk x (Set.disjoint_left.mp disjoint hx)
  have eq := vol.sameRoot inode extent
  refine ⟨vol.move hs inode extent fs.mem_live ?_ ?_, ?_, eq⟩
  · rw [hw.kept]; exact vol.removed
  · rw [hw.kept]; exact vol.clients
  · exact FS.live_congr eq (by rw [hw.kept]) (by rw [hw.kept])

theorem Volume.created {start : Nat} (vol : Volume tight fs files held) (spare : Spare fs fs.live s)
    (hs : Sound tight fs' (insert s fs.live) files held) (created : Created fs fs' s size start) :
    Volume tight fs' files held ∧ fs'.live = fs.live ∧ SameRoot fs fs' := by
  have laid := vol.sound.laid
  have inode := laid.create_disk vol.sound.map_apart spare created _ fs.root_live
  have extent : ∀ x ∈ (fs.data rootDirSector).extent, fs'.disk x = fs.disk x := by
    intro x hx
    refine created.writes.disk x ?_
    rintro (mapped | rfl | new)
    · rw [vol.sound.mapExtent] at mapped
      exact Set.disjoint_left.mp vol.map_apart.2 hx mapped
    · exact spare.outside _ fs.root_live hx
    · exact (laid.free_apart (created.free x new)).2 _ fs.root_live hx
  have eq := vol.sameRoot inode extent
  refine ⟨vol.move hs inode extent (fun t known => .inr (fs.mem_live t known)) ?_ ?_, ?_, eq⟩
  · rw [created.writes.kept]; exact vol.removed
  · rw [created.writes.kept]; exact vol.clients
  · exact FS.live_congr eq (by rw [created.writes.kept]) (by rw [created.writes.kept])

theorem Volume.lists (vol : Volume tight fs files held) (spare : Spare fs fs.live s)
    (short : name.length ≤ nameMax) : Lists fs (insert s fs.live) (Entry.fill e name s) := by
  have small : s < 2 ^ 32 := spare.inside.trans vol.sound.laid.small
  have unused := spare.unused
  constructor
  all_goals try rw [Entry.inodeSector_fill small]
  case member => exact .inl rfl
  case ordinary => exact fun special => unused (.inl special)
  case unlisted => exact fun hl => unused (.inr (.inl hl))
  case closed => exact fun i ho eq => unused (.inr (.inr ⟨i, ho, eq⟩))
  case ends => exact ⟨name.length, Nat.lt_succ_of_le short, Entry.fill_end⟩

/-- The state after the chain of `filesys_create`; a sector that is not 0 has to be given back. -/
structure Tried (tight : Prop) (fs fs' : FS) (files : List FilePtr) (held : List InodePtr)
    (success : Bool) (inodeSector : Nat) : Prop where
  volume : Volume tight fs' files held
  kept : fs' = { fs with disk := fs'.disk, bits := fs'.bits, memory := fs'.memory }
  spare : success = false → inodeSector ≠ 0 → Spare fs' fs'.live inodeSector

theorem wp_addCreated (vol : Volume tight fs files held) (mem : dir.inode ∈ held)
    (sector : (fs.inode dir.inode).sector = rootDirSector) (spare : Spare fs fs.live s)
    (hs : Sound tight fs (insert s fs.live) files held) (name : CString) :
    Wp (dirAdd dir name s) (fun added fs' => Tried tight fs fs' files held added s) fs := by
  have ho := vol.sound.counted.held_opened mem
  refine (wp_dirAdd (vol.root ho sector) vol.ends name s).mono fun added fs' ⟨hw, stopped⟩ => ?_
  cases added with
  | true =>
    obtain ⟨short, slot, e, relists⟩ := hw rfl
    exact ⟨vol.relists hs (Set.subset_insert s _) relists fun _ => vol.lists spare short,
      by rw [relists.kept], nofun⟩
  | false =>
    have hq := stopped rfl
    have vol' := vol.quiet hq
    obtain ⟨memory, rfl⟩ := hq.eq
    exact ⟨vol', rfl, fun _ _ => spare.keep rfl rfl fun _ _ => rfl⟩

theorem wp_createAt (vol : Volume tight fs files held) (mem : dir.inode ∈ held)
    (sector : (fs.inode dir.inode).sector = rootDirSector) (spare : Spare fs fs.live s)
    (name : CString) (low : 0 ≤ size) (high : size < 2 ^ 31) :
    Wp (do
      if ← inodeCreate s size then
        let added ← dirAdd dir name s
        pure (added, s)
      else pure (false, s)) (fun r fs' => r.2 = s ∧
        Tried tight fs fs' files held r.1 r.2) fs := by
  have laid := vol.sound.laid
  refine .bind ((wp_create vol.sound spare low high).mono fun r fs1 res => ?_)
  cases r with
  | false =>
    obtain ⟨sound1, hw, bits⟩ := res
    obtain ⟨vol1, live1, _⟩ := vol.remap sound1 hw
    refine .pure ⟨rfl, vol1, hw.kept, fun _ _ => live1 ▸ ?_⟩
    exact spare.keep hw.size (by rw [bits]) fun t ht => hw.disk t (laid.apart t ht _ fs.map_live)
  | true =>
    obtain ⟨sound1, start, created⟩ := res
    obtain ⟨vol1, live1, _⟩ := vol.created spare sound1 created
    have inode1 : fs1.inode = fs.inode := by rw [created.writes.kept]
    have spare1 : Spare fs1 fs1.live s := by
      rw [live1]
      refine spare.keep created.writes.size ?_
        (laid.create_disk vol.sound.map_apart spare created)
      rw [created.bits, spare.used]
      simp [spare.used]
    rw [← live1] at sound1
    have sector1 : (fs1.inode dir.inode).sector = rootDirSector := by rw [inode1, sector]
    refine .bind ((wp_addCreated vol1 mem sector1 spare1 sound1 name).mono fun added fs' tried =>
      .pure ⟨rfl, tried.volume, ?_, tried.spare⟩)
    rw [tried.kept, created.writes.kept]

/-- `inode_create` stops the kernel at a negative length, and nothing else does. -/
theorem runs_createIn (vol : Volume tight fs files held) (mem : dir.inode ∈ held)
    (sector : (fs.inode dir.inode).sector = rootDirSector) (name : CString) (high : size < 2 ^ 31) :
    Runs (0 ≤ size) (createIn name size (some dir)) (fun r fs' =>
      Tried tight fs fs' files held r.1 r.2) fs := by
  refine .bind ((wp_allocate vol.sound 1).mono fun r fs1 ⟨sound1, hw, res⟩ => ?_).runs
  obtain ⟨vol1, live1, _⟩ := vol.remap sound1 hw
  have inode1 : fs1.inode = fs.inode := by rw [hw.kept]
  cases r with
  | none =>
    refine Wp.runs ?_
    exact .pure ⟨vol1, hw.kept, fun _ nonzero => absurd rfl nonzero⟩
  | some s =>
    obtain ⟨hi, free, bits⟩ := res
    by_cases low : 0 ≤ size
    · have spare : Spare fs1 fs1.live s := live1 ▸ vol.sound.spare hw hi free bits
      have sector1 : (fs1.inode dir.inode).sector = rootDirSector := by rw [inode1, sector]
      refine (wp_createAt vol1 mem sector1 spare name low high).runs.mono ?_
      rintro ⟨success, taken'⟩ fs' ⟨is, tried⟩
      obtain rfl : s = taken' := is.symm
      refine ⟨tried.volume, ?_, tried.spare⟩
      rw [tried.kept, hw.kept]
    · refine .bind (.bind ?_)
      rw [Prog.assert, if_neg low]
      exact .throw low

theorem wp_endCreate {success : Bool}
    (tried : Tried tight fs fs' files (dir.inode :: held) success s)
    (sector : (fs.inode dir.inode).sector = rootDirSector) :
    Wp (do
      if !success ∧ s ≠ 0 then freeMapRelease s 1
      dirClose (some dir)
      pure success) (fun _ fs'' => Volume tight fs'' files held ∧
        fs''.freeMapFile = fs.freeMapFile ∧ fs''.file = fs.file) fs' := by
  have closing : ∀ fs1, Volume tight fs1 files (dir.inode :: held) →
      fs1 = { fs with disk := fs1.disk, bits := fs1.bits, memory := fs1.memory } →
      Wp (do dirClose (some dir); pure success) (fun _ fs'' => Volume tight fs'' files held ∧
        fs''.freeMapFile = fs.freeMapFile ∧ fs''.file = fs.file) fs1 := by
    intro fs1 vol1 kept1
    have inode1 : fs1.inode = fs.inode := by rw [kept1]
    refine .bind ((wp_dirClose vol1 (.head _) (by rw [inode1, sector])).mono
      fun _ fs2 ⟨reads, vol2, hc⟩ => .pure ?_)
    rw [erase_cons_head] at vol2
    exact ⟨vol2, by rw [reads.freeMapFile, kept1], by rw [hc.kept, kept1]⟩
  split_ifs with back
  · have failed : success = false := by simpa using back.1
    have spare := tried.spare failed back.2
    refine .bind ((wp_releaseSpare tried.volume.sound spare).mono ?_)
    rintro _ fs1 ⟨hs, hw, _⟩
    exact closing fs1 (tried.volume.remap hs hw).1 (by rw [hw.kept, tried.kept])
  · exact closing fs' tried.volume tried.kept

theorem runs_filesysCreate (vol : Volume tight fs files held) (name : CString)
    (high : size < 2 ^ 31) :
    Runs (0 ≤ size) (filesysCreate name size) (fun _ fs' => Volume tight fs' files held ∧
      fs'.freeMapFile = fs.freeMapFile ∧ fs'.file = fs.file) fs := by
  refine .bind ((wp_dirOpenRoot vol).mono fun r fs1 ⟨⟨reads, file, _⟩, res⟩ => ?_).runs
  cases r with
  | none =>
    refine Wp.runs ?_
    exact .bind (.pure (.bind (.pure (.pure ⟨res.1, reads.freeMapFile, file⟩))))
  | some dir =>
    obtain ⟨vol1, sector1, _⟩ := res
    refine .bind ((runs_createIn vol1 (.head _) sector1 name high).mono fun r fs2 tried => ?_)
    refine ((wp_endCreate tried sector1).mono fun _ fs' ⟨vol', freeMapFile, file'⟩ => ?_).runs
    exact ⟨vol', freeMapFile.trans reads.freeMapFile, file'.trans file⟩

/-! ### Open files -/

theorem Refiles.live (refiles : Refiles fs fs') : fs'.live = fs.live := by
  have openInodes : fs'.openInodes = fs.openInodes := by rw [refiles.kept]
  have hl : fs'.Listed = fs.Listed := by
    funext s
    simp only [FS.Listed, FS.Used, refiles.readsOnly.entry]
  have sector := fun j => FS.view_sector (refiles.same j)
  unfold FS.live
  simp only [hl, openInodes, sector]

section
variable (vol : Volume tight fs files held)
include vol

theorem Volume.sameFiles (eq : SameFiles fs fs') (hs : Sound tight fs' fs.live files' held')
    (fewer : ∀ f ∈ files', f ∈ files) : Volume tight fs' files' held' := by
  refine vol.refiles hs eq.refiles fun f hf ne => ?_
  rw [eq.inode]
  exact vol.clients f (fewer f hf) ne

theorem wp_volumeFileClose (mem : f ∈ files) (other : fs.freeMapFile ≠ some f) :
    Wp (fileClose (some f)) (fun _ fs' => Volume tight fs' (files.erase f) held ∧
      fs'.freeMapFile = fs.freeMapFile ∧ ∀ p, p ≠ f → fs'.file p = fs.file p) fs := by
  refine (wp_fileClose vol.sound mem other).mono fun _ fs' ⟨fs1, eq, others, hs, shuts⟩ => ?_
  have vol1 := vol.sameFiles eq hs fun p hp => mem_of_mem_erase hp
  rw [← eq.refiles.live] at shuts
  have vol' := vol1.shuts (.head _) shuts
  rw [erase_cons_head] at vol'
  refine ⟨vol', by rw [shuts.closes.kept, eq.refiles.readsOnly.freeMapFile], fun p ne => ?_⟩
  rw [shuts.closes.kept, others p ne]

theorem wp_volumeDenyWrite (mem : f ∈ files) (ne : fs.freeMapFile ≠ some f) :
    Wp (fileDenyWrite f) (fun _ fs' => Volume tight fs' files held ∧
      fs'.freeMapFile = fs.freeMapFile ∧
      ∀ p, fs'.file p = if p = f then { fs.file f with denyWrite := true } else fs.file p) fs := by
  have ordinary := vol.clients f mem ne
  refine (wp_fileDenyWrite vol.sound mem fun _ map => ordinary (.inl map)).mono
    fun _ fs' ⟨hs, refiles, file⟩ => ⟨vol.sameFiles ⟨refiles, fun p => ?_⟩ hs fun _ => id,
      refiles.readsOnly.freeMapFile, file⟩
  rw [file p]
  split_ifs with eq
  · rw [eq]
  · rfl

theorem wp_volumeAllowWrite (mem : f ∈ files) :
    Wp (fileAllowWrite f) (fun _ fs' => Volume tight fs' files held ∧
      fs'.freeMapFile = fs.freeMapFile ∧
      ∀ p, fs'.file p = if p = f then { fs.file f with denyWrite := false } else fs.file p) fs := by
  refine (wp_fileAllowWrite vol.sound mem).mono
    fun _ fs' ⟨hs, refiles, file⟩ => ⟨vol.sameFiles ⟨refiles, fun p => ?_⟩ hs fun _ => id,
      refiles.readsOnly.freeMapFile, file⟩
  rw [file p]
  split_ifs with eq
  · rw [eq]
  · rfl

theorem Volume.withPos (g : Nat → Nat) :
    Volume tight (fs.withFile f fun p => { p with pos := g p.pos }) files held :=
  vol.sameFiles ⟨⟨rfl, id, fun _ => rfl⟩, FS.withFile_keep fun _ => rfl⟩
    (vol.sound.withFile (fun _ => rfl) fun _ => rfl) fun _ => id

theorem runs_volumeSeek (newPos : Int) :
    Runs (0 ≤ newPos) (fileSeek f newPos) (fun _ fs' => Volume tight fs' files held ∧
      fs'.freeMapFile = fs.freeMapFile ∧
      ∀ p, (fs'.file p).denyWrite = (fs.file p).denyWrite) fs := by
  by_cases hv : 0 ≤ newPos
  · refine ((wp_fileSeek vol.sound hv).mono ?_).runs
    rintro _ fs' ⟨_, rfl⟩
    exact ⟨vol.withPos fun _ => newPos.toNat, rfl, FS.withFile_keep fun _ => rfl⟩
  · refine .bind ?_
    rw [Prog.assert, if_neg hv]
    exact .throw hv

section
variable (member : f ∈ files)
include member

theorem wp_volumeRead (buffer : Bytes) :
    Wp (fileRead f buffer size) (fun r fs' => Volume tight fs' files held ∧
      fs'.freeMapFile = fs.freeMapFile ∧ (∀ p, (fs'.file p).denyWrite = (fs.file p).denyWrite) ∧
      Moved (Plenty fs) (fs.inode (fs.file f).inode).data.length size.toNat (fs.file f).pos r.1 ∧
      r.2 = filled fs (fs.inode (fs.file f).inode).data.start (fs.file f).pos 0 r.1 buffer) fs := by
  refine (wp_fileRead vol.sound member buffer size).mono ?_
  rintro r fs' ⟨_, fs1, hq, rfl, hm⟩
  have file : fs1.file = fs.file := by rw [hq.kept]
  refine ⟨(vol.quiet hq).withPos (· + r.1), hq.readsOnly.freeMapFile, ?_, hm⟩
  rw [← file]
  exact FS.withFile_keep fun _ => rfl

/-- A client's file is not the directory. -/
theorem Volume.client_apart (ne : fs.freeMapFile ≠ some f) :
    rootDirSector ∉ (fs.inode (fs.file f).inode).data.extent ∧
      Disjoint (fs.data rootDirSector).extent (fs.inode (fs.file f).inode).data.extent := by
  obtain ⟨live, data⟩ := vol.sound.faithful _ (vol.sound.counted.file_opened member)
  rw [data]
  refine ⟨vol.sound.laid.apart _ fs.root_live _ live,
    vol.sound.laid.disjoint _ fs.root_live _ live ?_⟩
  exact fun eq => vol.clients f member ne (.inr eq.symm)

theorem Volume.wrote {ok : Prop} {length offset n : Nat} {buffer : Bytes}
    (ne : fs.freeMapFile ≠ some f)
    (hm : Moved ok (fs.inode (fs.file f).inode).data.length length offset n)
    (hw : Wrote fs fs' (fs.inode (fs.file f).inode).data.start offset n buffer) :
    Volume tight fs' files held := by
  have ho := vol.sound.counted.file_opened member
  have placed := vol.sound.placed ho
  have hs := vol.sound.wrote ho (fun _ map => vol.clients f member ne (.inl map)) hw hm
  obtain ⟨ha, disjoint⟩ := vol.client_apart member ne
  have inode : fs'.disk rootDirSector = fs.disk rootDirSector := hw.outside_extent placed hm ha
  have extent : ∀ x ∈ (fs.data rootDirSector).extent, fs'.disk x = fs.disk x :=
    fun x hx => hw.outside_extent placed hm (Set.disjoint_left.mp disjoint hx)
  obtain ⟨disk, memory, rfl⟩ : ∃ disk memory, fs' = { fs with disk, memory } := ⟨_, _, hw.kept⟩
  exact vol.move hs inode extent fs.mem_live vol.removed vol.clients

theorem wp_volumeWrite (ne : fs.freeMapFile ≠ some f) (buffer : Bytes) :
    Wp (fileWrite f buffer size) (fun n fs' => Volume tight fs' files held ∧
      fs'.freeMapFile = fs.freeMapFile ∧ (∀ p, (fs'.file p).denyWrite = (fs.file p).denyWrite) ∧
      ((fs.inode (fs.file f).inode).denyWriteCnt ≠ 0 → n = 0 ∧ fs'.disk = fs.disk) ∧
      n ≤ size.toNat) fs := by
  have ordinary := vol.clients f member ne
  refine (wp_fileWrite vol.sound member buffer size fun _ map => ordinary (.inl map)).mono ?_
  rintro n fs' ⟨_, fs1, rfl, hm, denied, hw⟩
  have file : fs1.file = fs.file := by rw [hw.kept]
  refine ⟨(vol.wrote member ne hm hw).withPos (· + n), ?_, ?_, fun closed => ?_, hm.le_size⟩
  · rw [FS.withFile_freeMapFile, hw.kept]
  · rw [← file]
    exact FS.withFile_keep fun _ => rfl
  · obtain ⟨none, rfl⟩ := denied closed
    exact ⟨none, rfl⟩

theorem wp_volumeWriteAt (ne : fs.freeMapFile ≠ some f) (buffer : Bytes) (offset : Nat) :
    Wp (fileWriteAt f buffer size offset) (fun n fs' => Volume tight fs' files held ∧
      fs'.freeMapFile = fs.freeMapFile ∧ fs'.file = fs.file ∧
      ((fs.inode (fs.file f).inode).denyWriteCnt ≠ 0 → n = 0 ∧ fs'.disk = fs.disk)) fs := by
  have placed := vol.sound.placed (vol.sound.counted.file_opened member)
  refine .bind (.get ((wp_inodeWriteAt _ buffer size offset placed.reads).mono ?_))
  rintro n fs' ⟨hm, denied, hw⟩
  refine ⟨vol.wrote member ne hm hw, by rw [hw.kept], by rw [hw.kept], fun closed => ?_⟩
  obtain ⟨none, rfl⟩ := denied closed
  exact ⟨none, rfl⟩

theorem wp_volumeReopen (ne : fs.freeMapFile ≠ some f) :
    Wp (fileReopen f) (fun r fs' => fs'.freeMapFile = fs.freeMapFile ∧
      (∀ p ∈ files, fs'.file p = fs.file p) ∧ match r with
      | none => Volume tight fs' files held
      | some g => Volume tight fs' (g :: files) held) fs := by
  have ho := vol.sound.counted.file_opened member
  refine .bind (.get (.bind ((wp_inodeReopen vol.sound ho).mono fun _ fs1 ⟨sound1, opens⟩ => ?_)))
  have vol1 := vol.opens sound1 opens
  have freeMapFile1 := opens.readsOnly.freeMapFile
  have file1 : fs1.file = fs.file := by rw [opens.kept]
  refine (wp_fileOpen vol1.sound (.head _)).mono fun r fs' res => ?_
  cases r with
  | none =>
    have vol' := vol1.shuts (.head _) res.2
    rw [erase_cons_head] at vol'
    refine ⟨by rw [res.2.closes.kept, freeMapFile1], fun p _ => ?_, vol'⟩
    rw [res.2.closes.kept, file1]
  | some g =>
    obtain ⟨hs, new⟩ := res
    rw [erase_cons_head] at hs
    refine ⟨new.refiles.readsOnly.freeMapFile.trans freeMapFile1,
      fun p hp => by rw [new.others p hp, file1], vol1.refiles hs new.refiles fun p hp unmapped =>
        ?_⟩
    rcases mem_cons.mp hp with rfl | hp
    · rw [new.file, opens.sector]
      exact vol.clients f member ne
    · rw [new.others p hp]
      exact vol1.clients p hp unmapped

end

end

end Pintos.Filesys
