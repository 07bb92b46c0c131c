import Pintos.Filesys.Layout
import Pintos.Filesys.Slots

/-!
# The root directory

The directory is 16 slots of 20 bytes each. Its functions look the slots up one after
the other, and write one slot or nothing.
-/

namespace Pintos.Filesys

open LittleEndian Prog

def rootSlots : Nat := 16

/-- A slot of the root directory. -/
def FS.entry (fs : FS) (slot : Nat) : Bytes := fs.slot (fs.data rootDirSector) slot

/-- The slot lists an inode. -/
def FS.Used (fs : FS) (slot : Nat) : Prop := slot < rootSlots ∧ Entry.inUse (fs.entry slot) = true

def FS.Listed (fs : FS) (s : Nat) : Prop :=
  ∃ slot, fs.Used slot ∧ Entry.inodeSector (fs.entry slot) = s

/-- The first 20 bytes of `e` are those of the slot. -/
def FS.Copy (fs : FS) (slot : Nat) (e : Bytes) : Prop := SameEntry e (fs.entry slot)

/-- The directory's inode is open, and it is as long as it was made. -/
structure Root (fs : FS) (dir : Dir) : Prop where
  data : (fs.inode dir.inode).data = fs.data rootDirSector
  length : (fs.data rootDirSector).length = entrySize * rootSlots
  placed : Placed fs.size (fs.data rootDirSector)

variable {fs fs' : FS} {dir : Dir} {name : CString} {slot : Nat} {e : Bytes}

theorem Root.slots (root : Root fs dir) : Slots fs dir (fs.data rootDirSector) rootSlots :=
  ⟨root.data, root.length, root.placed.reads⟩

theorem Root.turns (root : Root fs dir) : fs.turns dir = rootSlots + 1 := root.slots.turns

theorem Quiet.entry (hq : Quiet fs fs') : fs'.entry = fs.entry := by
  obtain ⟨memory, rfl⟩ := hq.eq
  rfl

/-! ### Looking up -/

/-- The slot lists an inode under this name. -/
def FS.Matches (fs : FS) (slot : Nat) (name : CString) : Prop :=
  fs.Used slot ∧ Entry.named (fs.entry slot) name = true

/-- The name in every slot that is used ends within it. -/
def FS.Terminated (fs : FS) : Prop :=
  ∀ slot, fs.Used slot → ∃ k < nameMax + 1, fs.entry slot (4 + k) = 0

theorem FS.Copy.inUse (copy : fs.Copy slot e) : Entry.inUse e = Entry.inUse (fs.entry slot) :=
  Entry.inUse_congr copy

theorem FS.Copy.inodeSector (copy : fs.Copy slot e) :
    Entry.inodeSector e = Entry.inodeSector (fs.entry slot) :=
  Entry.inodeSector_congr copy

theorem FS.Terminated.ended (ends : fs.Terminated) : fs.Ended (fs.data rootDirSector) rootSlots :=
  fun slot hi inUse => ends slot ⟨hi, inUse⟩

/-- The first slot with this name, if memory permits. -/
theorem wp_lookup (root : Root fs dir) (ends : fs.Terminated) (name : CString) :
    Wp (lookup dir name) (fun r fs' => Quiet fs fs' ∧ match r with
      | some (e, ofs) => ∃ k, ofs = entrySize * k ∧ fs.Matches k name ∧ fs.Copy k e ∧
          ∀ m < k, ¬ fs.Matches m name
      | none => Plenty fs → ∀ m, ¬ fs.Matches m name) fs := by
  apply (wp_lookup_slots root.slots ends.ended name).mono
  rintro r fs' ⟨hq, res⟩
  refine ⟨hq, ?_⟩
  cases r with
  | none =>
    intro room m found
    exact res room m found.1.1 ⟨found.1.2, found.2⟩
  | some found =>
    obtain ⟨k, hi, ofs, hit, copy, was⟩ := res
    exact ⟨k, ofs, ⟨⟨hi, hit.1⟩, hit.2⟩, copy, fun m lt ne => was m lt ⟨ne.1.2, ne.2⟩⟩

/-! ### Writing a slot -/

/-- The slot now has these 20 bytes, and nothing else has changed. -/
structure Relists (fs fs' : FS) (slot : Nat) (e : Bytes) : Prop where
  inside : slot < rootSlots
  kept : fs' = { fs with disk := fs'.disk, memory := fs'.memory }
  plenty : Plenty fs → Plenty fs'
  disk : ∀ x ∉ (fs.data rootDirSector).extent, fs'.disk x = fs.disk x
  here : ∀ j < entrySize, fs'.byteAt (fs.data rootDirSector).start (entrySize * slot + j) = e j
  others : ∀ m, m ≠ slot → ∀ j < entrySize,
    fs'.byteAt (fs.data rootDirSector).start (entrySize * m + j) = fs.entry m j

theorem Root.relists (root : Root fs dir)
    (refills : Refills fs fs' (fs.data rootDirSector) rootSlots slot e) :
    Relists fs fs' slot e := by
  refine ⟨refills.inside, refills.kept, refills.plenty, fun x out => ?_, refills.here,
    refills.others⟩
  apply refills.disk
  rintro ⟨pos, hi, rfl⟩
  exact out (root.placed.mem hi)

theorem wp_writeEntry (root : Root fs dir) (e : Bytes) (hb : slot ≤ rootSlots) :
    Wp (inodeWriteAt dir.inode e entrySize (entrySize * slot)) (fun n fs' =>
      (n = entrySize → Relists fs fs' slot e) ∧ (n ≠ entrySize → Quiet fs fs')) fs :=
  (wp_writeSlot root.slots e hb).mono fun _ _ ⟨hw, stopped, _⟩ =>
    ⟨fun all => root.relists (hw all), stopped⟩

theorem wp_dirAdd (root : Root fs dir) (ends : fs.Terminated) (name : CString) (s : Nat) :
    Wp (dirAdd dir name s) (fun added fs' =>
      (added = true → name.length ≤ nameMax ∧ ∃ slot e, Relists fs fs' slot (Entry.fill e name s)) ∧
      (added = false → Quiet fs fs')) fs := by
  apply (wp_dirAdd_slots root.slots ends.ended name s).mono
  rintro added fs' ⟨adds, fails⟩
  refine ⟨fun all => ?_, fun short => (fails short).1⟩
  obtain ⟨short, ⟨slot, e, refills, _⟩, _⟩ := adds all
  exact ⟨short.2, slot, e, root.relists refills⟩

end Pintos.Filesys
