import Pintos.Filesys.Layout

/-!
# Allocation in a sound file system

A sector that has just been allocated is apart from everything in use, and so is a new
inode with its data. A sector that is not used after all can be given back.
-/

namespace Pintos.Filesys

open LittleEndian Prog

variable {tight : Prop} {fs fs' : FS} {live : Set Nat} {files : List FilePtr}
  {held : List InodePtr} {s start cnt : Nat} {X : Set Nat}

/-- An allocated sector in which there is nothing. -/
@[grind cases] structure Spare (fs : FS) (live : Set Nat) (s : Nat) : Prop where
  inside : s < fs.size
  used : fs.bits s = true
  unused : s ∉ live
  outside : ∀ t ∈ live, s ∉ (fs.data t).extent

/-- The free map changes outside of what is in use, and the device in the file of the free map. -/
theorem Sound.remap (hs : Sound tight fs live files held)
    (writes : Writes (fs.data freeMapSector).extent fs fs')
    (bits : ∀ t ∈ live, fs'.bits t = fs.bits t ∧ ∀ x ∈ (fs.data t).extent, fs'.bits x = fs.bits x)
    (padding : ∀ x, fs.size ≤ x → fs'.bits x = false) (synced : tight → MapSynced fs') :
    Sound tight fs' live files held := by
  have laid := hs.laid
  have disk : ∀ t ∈ live, fs'.disk t = fs.disk t :=
    fun t ht => writes.disk t (laid.apart t ht _ hs.mapLive)
  have data : ∀ t ∈ live, fs'.data t = fs.data t := fun t ht => by
    rw [FS.data, FS.data, disk t ht]
  have size := writes.size
  refine hs.onDisk writes.kept writes.plenty disk ?_ (fun j hj => (hs.faithful j hj).1)
    fun he => hs.synced_of_map writes (synced he)
  constructor
  case small => rw [size]; exact laid.small
  case inode =>
    intro t ht
    rw [size, (bits t ht).1]
    exact laid.inode t ht
  case nonneg => intro t ht; rw [data t ht]; exact laid.nonneg t ht
  case fits => intro t ht; rw [data t ht, size]; exact laid.fits t ht
  case used => grind
  case apart => intro t ht u hu; rw [data u hu]; exact laid.apart t ht u hu
  case disjoint => intro t ht u hu; rw [data t ht, data u hu]; exact laid.disjoint t ht u hu
  case padding => rw [size]; exact padding

/-- What was free is outside of what is in use. -/
theorem Laid.free_apart (laid : Laid fs live) {x : Nat} (free : fs.bits x = false) :
    x ∉ live ∧ ∀ t ∈ live, x ∉ (fs.data t).extent := by
  grind

theorem wp_allocate (hs : Sound tight fs live files held) (cnt : Nat) :
    Wp (freeMapAllocate cnt) (fun r fs' => Sound tight fs' live files held ∧
      Writes (fs.data freeMapSector).extent fs fs' ∧
      match r with
      | none => fs'.bits = fs.bits
      | some idx => idx + cnt ≤ fs.size ∧ (∀ x ∈ Set.Ico idx (idx + cnt), fs.bits x = false) ∧
          fs'.bits = (fs.mark idx cnt true).bits) fs := by
  refine (wp_freeMapAllocate cnt hs.mapPlaced).mono fun r fs' ⟨hw, res, _, synced⟩ => ?_
  rw [hs.mapExtent] at hw
  have synced' : tight → MapSynced fs' := fun he =>
    synced (hs.plenty he) (hs.mapSaves he) (hs.mapSynced_iff.mpr (hs.synced he))
  refine ⟨?_, hw, res⟩
  cases r with
  | none =>
    have bits : fs'.bits = fs.bits := res
    refine hs.remap hw (fun t _ => ?_) (fun x beyond => ?_) synced'
    · rw [bits]; exact ⟨rfl, fun _ _ => rfl⟩
    · rw [bits]; exact hs.laid.padding x beyond
  | some idx =>
    obtain ⟨hi, free, bits⟩ := res
    have ne : ∀ x, fs.bits x = true → fs'.bits x = fs.bits x := by
      intro x used
      rw [bits]
      simp only [FS.mark_bits]
      refine if_neg fun within => ?_
      simp [free x within] at used
    refine hs.remap hw (fun t ht => ⟨ne t (hs.laid.inode t ht).2, fun x hx => ?_⟩)
      (fun x beyond => ?_) synced'
    · exact ne x (hs.laid.used t ht x hx)
    · rw [bits]
      simp only [FS.mark_bits]
      rw [if_neg (by omega), hs.laid.padding x beyond]

/-- The first sector of an allocation of one. -/
theorem Sound.spare (hs : Sound tight fs live files held)
    (hw : Writes (fs.data freeMapSector).extent fs fs') (hi : s + 1 ≤ fs.size)
    (free : ∀ x ∈ Set.Ico s (s + 1), fs.bits x = false)
    (bits : fs'.bits = (fs.mark s 1 true).bits) : Spare fs' live s := by
  obtain ⟨unused, outside⟩ := hs.laid.free_apart (free s ⟨Nat.le_refl s, Nat.lt_succ_self s⟩)
  refine ⟨by rw [hw.size]; omega, by rw [bits]; simp, unused, fun t ht => ?_⟩
  rw [FS.data, hw.disk t (hs.laid.apart t ht _ hs.mapLive)]
  exact outside t ht

theorem Spare.keep (spare : Spare fs live s) (size : fs'.size = fs.size)
    (bits : fs'.bits s = fs.bits s)
    (disk : ∀ t ∈ live, fs'.disk t = fs.disk t) : Spare fs' live s := by
  refine ⟨size ▸ spare.inside, bits ▸ spare.used, spare.unused, fun t ht => ?_⟩
  rw [FS.data, disk t ht]
  exact spare.outside t ht

theorem wp_releaseSpare (hs : Sound tight fs live files held) (spare : Spare fs live s) :
    Wp (freeMapRelease s 1) (fun _ fs' => Sound tight fs' live files held ∧
      Writes (fs.data freeMapSector).extent fs fs' ∧ fs'.bits = (fs.mark s 1 false).bits) fs := by
  obtain ⟨i0, _, is0, _⟩ := hs.mapInode
  refine (wp_freeMapRelease hs.mapPlaced is0 (Nat.succ_le_of_lt spare.inside) ?_).mono
    fun _ fs' ⟨hw, bits, synced⟩ => ?_
  · rintro x ⟨low, high⟩
    obtain rfl : x = s := by omega
    exact spare.used
  · rw [hs.mapExtent] at hw
    have ne : ∀ x, x ≠ s → fs'.bits x = fs.bits x := by
      intro x away
      rw [bits]
      simp only [FS.mark_bits]
      exact if_neg (by omega)
    refine ⟨hs.remap hw (fun t ht => ⟨ne t ?_, fun x hx => ne x ?_⟩) (fun x beyond => ?_)
      fun he => synced (hs.plenty he) (hs.mapSaves he), hw, bits⟩
    · rintro rfl; exact spare.unused ht
    · rintro rfl; exact spare.outside t ht hx
    · rw [ne x (by have := spare.inside; omega), hs.laid.padding x beyond]

/-! ### New inodes -/

/-- The sectors a new inode takes besides its own. -/
def newExtent (start : Nat) (length : Int) : Set Nat :=
  Set.Ico start (start + bytesToSectors length)

/-- The new inode is written where nothing is in use. -/
theorem Laid.create_disk {length : Int} (laid : Laid fs live) (map : ∀ t ∈ live, t ∉ fs.mapExtent)
    (spare : Spare fs live s) (created : Created fs fs' s length start) :
    ∀ t ∈ live, fs'.disk t = fs.disk t := by
  grind

theorem Laid.create {length : Int} (laid : Laid fs live) (map : ∀ t ∈ live, t ∉ fs.mapExtent)
    (spare : Spare fs live s) (created : Created fs fs' s length start) :
    Laid fs' (insert s live) := by
  have free := created.free
  have bits : ∀ x, fs.bits x = true → fs'.bits x = true := by
    intro x used
    rw [created.bits]
    simp only [FS.mark_bits]
    split_ifs
    · rfl
    · exact used
  have disk := laid.create_disk map spare created
  have data : ∀ t ∈ live, fs'.data t = fs.data t := fun t ht => by
    rw [FS.data, FS.data, disk t ht]
  have own : (fs'.data s).extent = newExtent start length := by
    rw [created.data]
    rfl
  have size := created.writes.size
  have self : s ∉ newExtent start length := fun new => by
    have := spare.used
    simp [free s new] at this
  have away : ∀ t ∈ live, Disjoint (newExtent start length) (fs.data t).extent := fun t ht =>
    Set.disjoint_left.mpr fun x new => (laid.free_apart (free x new)).2 t ht
  constructor
  case small => rw [size]; exact laid.small
  case inode => grind
  case nonneg => grind
  case fits => grind
  case used =>
    rintro t (rfl | ht) x hx
    · rw [own] at hx
      rw [created.bits]
      simp only [FS.mark_bits]
      exact if_pos hx
    · exact bits x (laid.used t ht x (data t ht ▸ hx))
  case apart =>
    rintro t (rfl | ht) u (rfl | hu)
    · rw [own]; exact self
    · rw [data u hu]; exact spare.outside u hu
    · rw [own]; exact fun new => (laid.free_apart (free t new)).1 ht
    · rw [data u hu]; exact laid.apart t ht u hu
  case disjoint => grind
  case padding =>
    intro x beyond
    rw [size] at beyond
    have := created.inside
    rw [created.bits]
    simp only [FS.mark_bits]
    rw [if_neg (by omega), laid.padding x beyond]

theorem wp_create {length : Int} (hs : Sound tight fs live files held) (spare : Spare fs live s)
    (low : 0 ≤ length) (high : length < 2 ^ 31) :
    Wp (inodeCreate s length) (fun r fs' => (if r then
        Sound tight fs' (insert s live) files held ∧ ∃ start, Created fs fs' s length start
      else Sound tight fs' live files held ∧ Writes (fs.data freeMapSector).extent fs fs' ∧
        fs'.bits = fs.bits)) fs := by
  have mapLive := hs.mapLive
  have ne : s ∉ fs.mapExtent := hs.mapExtent ▸ spare.outside _ mapLive
  refine (wp_inodeCreate hs.mapPlaced hs.laid.small spare.inside spare.used ne low high).mono
    fun r fs' ⟨res, _, synced⟩ => ?_
  have synced' : tight → MapSynced fs' := fun he =>
    synced (hs.plenty he) (hs.mapSaves he) (hs.mapSynced_iff.mpr (hs.synced he))
  cases r with
  | false =>
    obtain ⟨hw, bits⟩ := res
    rw [hs.mapExtent] at hw
    refine ⟨hs.remap hw (fun t _ => ?_) (fun x beyond => ?_) synced', hw, bits⟩
    · rw [bits]; exact ⟨rfl, fun _ _ => rfl⟩
    · rw [bits]; exact hs.laid.padding x beyond
  | true =>
    obtain ⟨start, created⟩ := res
    refine ⟨?_, start, created⟩
    exact hs.onDisk created.writes.kept created.writes.plenty
      (hs.laid.create_disk hs.map_apart spare created)
      (hs.laid.create hs.map_apart spare created)
      (fun j hj => .inr (hs.faithful j hj).1)
      fun he => hs.synced_of_map created.writes (synced' he)

end Pintos.Filesys
