import Mathlib.Data.List.Nodup
import Mathlib.Data.List.Perm.Basic
import Mathlib.Data.List.TakeWhile
import Pintos.Filesys.Session

/-!
# A directory as a finite map

As long as memory can be allocated, a directory is a finite map from names to the sectors of inodes,
with room for as many names as it has slots.
-/

namespace Pintos.Filesys

open LittleEndian Prog Machine Function List Option

/-! ### Calls -/

/-- `dir_create` in a sector that is allocated for it, and `dir_open`. -/
def newDir (entryCnt : Nat) : Fs (Option Dir) := do
  match ← freeMapAllocate 1 with
  | none => pure none
  | some sector => do
    if ← dirCreate sector entryCnt then dirOpen (← inodeOpen sector) else pure none

/-- An inode in a sector of its own, as `filesys_create` makes one. -/
def makeInode (length : Int) : Fs (Option Nat) := do
  match ← freeMapAllocate 1 with
  | none => pure none
  | some sector => do
    if ← inodeCreate sector length then pure (some sector)
    else do
      freeMapRelease sector 1
      pure none

inductive DirCall where
  | create (length : Int)
  | add (name : CString) (sector : Nat)
  | remove (name : CString)
  | lookup (name : CString)
  /-- `inode_close` of what a lookup has opened. -/
  | close (inode : InodePtr)

/-- The file system, the inodes that lookups have opened, those that are listed nowhere, and the map
that the directory stands for. -/
structure DirUse where
  fs : FS
  held : List InodePtr
  spare : List Nat
  table : List (CString × Nat)

namespace DirUse

def Valid (m : DirUse) : DirCall → Prop
  | .create length => 0 ≤ length ∧ length < 2 ^ 31
  | .add _ sector => sector ∈ m.spare
  | .close inode => inode ∈ m.held
  | _ => True

instance (m : DirUse) : ∀ call, Decidable (m.Valid call)
  | .create _ => inferInstanceAs (Decidable (_ ∧ _))
  | .add _ _ => inferInstanceAs (Decidable (_ ∈ _))
  | .remove _ => inferInstanceAs (Decidable True)
  | .lookup _ => inferInstanceAs (Decidable True)
  | .close _ => inferInstanceAs (Decidable (_ ∈ _))

/-- Runs the call. What it returns tells what becomes of the map. -/
def code (dir : Dir) (m : DirUse) : DirCall → Fs (FS → DirUse)
  | .create length => do
    let made ← makeInode length
    pure fun fs => { m with fs, spare := made.toList ++ m.spare }
  | .add name sector => do
    if ← dirAdd dir name sector then
      pure fun fs =>
        { m with fs, spare := m.spare.erase sector, table := (name, sector) :: m.table }
    else pure fun fs => { m with fs }
  | .remove name => do
    if ← dirRemove dir name then
      pure fun fs => { m with fs, table := m.table.filter (·.1 ≠ name) }
    else pure fun fs => { m with fs }
  | .lookup name => do
    let found ← dirLookup dir name
    pure fun fs => { m with fs, held := found.toList ++ m.held }
  | .close inode => do
    inodeClose inode
    pure fun fs => { m with fs, held := m.held.erase inode }

def step (dir : Dir) (m : DirUse) (call : DirCall) : Option DirUse :=
  if m.Valid call then
    match m.code dir call m.fs with
    | .ok (next, fs) => some (next fs)
    | .error _ => none
  else none

end DirUse

/-! ### Names in slots -/

/-- What a slot holds. -/
def Shows (e : Bytes) : Option (CString × Nat) → Prop
  | none => Entry.inUse e = false
  | some (name, s) => Entry.inUse e = true ∧ Entry.named e name = true ∧
      (name.length ≠ 0 ∧ name.length ≤ nameMax) ∧ Entry.inodeSector e = s

variable {e : Bytes} {name' : CString}

theorem Entry.named_iff {name : CString} : Entry.named e name = true ↔
    (∀ i < name.length, e (4 + i) = name.char i) ∧ e (4 + name.length) = 0 := by
  simp [Entry.named]

theorem CString.ext_char {name : CString} (length : name.length = name'.length)
    (eq : ∀ i < name.length, name.char i = name'.char i) : name = name' := by
  have chars : name.chars = name'.chars := by
    apply ext_getElem length
    intro i low high
    simpa [CString.char, getElem?_eq_getElem low, getElem?_eq_getElem high] using eq i low
  cases name
  cases name'
  cases chars
  rfl

/-- A slot has one name. -/
theorem Entry.named_inj {name : CString} (first : Entry.named e name = true)
    (second : Entry.named e name' = true) : name = name' := by
  obtain ⟨chars, ends⟩ := Entry.named_iff.mp first
  obtain ⟨chars', ends'⟩ := Entry.named_iff.mp second
  have length : name.length = name'.length := by
    rcases Nat.lt_trichotomy name.length name'.length with lt | eq | lt
    · exact absurd ((chars' _ lt).symm.trans ends) (name'.char_ne_zero lt)
    · exact eq
    · exact absurd ((chars _ lt).symm.trans ends') (name.char_ne_zero lt)
  apply CString.ext_char length
  intro i lt
  exact (chars i lt).symm.trans (chars' i (length ▸ lt))

/-- The name that `dir_readdir` returns. -/
theorem Entry.name_eq {name : CString} (named : Entry.named e name = true)
    (short : name.length ≤ nameMax) : Entry.name e = name.chars := by
  obtain ⟨chars, ends⟩ := Entry.named_iff.mp named
  have front : (range name.length).map (fun i => e (4 + i)) = name.chars := by
    apply ext_getElem (by simp [CString.length])
    intro i low high
    rw [getElem_map, getElem_range, chars i high]
    simp [CString.char, getElem?_eq_getElem high]
  have nonzero : ∀ c ∈ name.chars, (c != 0) = true := by
    intro c mem
    have : c ≠ 0 := by
      rintro rfl
      exact name.nonzero mem
    simpa using this
  unfold Entry.name
  obtain lt | eq := Nat.lt_or_eq_of_le short
  · have split : range nameMax = range name.length ++
        name.length :: range' (name.length + 1) (nameMax - name.length - 1) := by
      rw [range_eq_range', range_eq_range', ← range'_succ,
        show nameMax = name.length + (nameMax - name.length - 1 + 1) by omega, ← range'_append_1]
      simp
    rw [split, map_append, map_cons, front, ends, takeWhile_append_of_pos nonzero]
    simp
  · rw [← eq, front, takeWhile_eq_self_iff.mpr nonzero]

theorem Shows.congr {e' : Bytes} {held : Option (CString × Nat)} (shows : Shows e held)
    (eq : SameEntry e' e) : Shows e' held := by
  cases held with
  | none => exact (Entry.inUse_congr eq).trans shows
  | some entry =>
    obtain ⟨name, s⟩ := entry
    obtain ⟨inUse, named, short, sector⟩ := shows
    have ends : ∃ i < nameMax + 1, e (4 + i) = 0 :=
      ⟨name.length, by omega, (Entry.named_iff.mp named).2⟩
    exact ⟨(Entry.inUse_congr eq).trans inUse, (Entry.named_congr eq ends name).trans named, short,
      (Entry.inodeSector_congr eq).trans sector⟩

theorem shows_fill {name : CString} {s : Nat} (short : name.length ≠ 0 ∧ name.length ≤ nameMax)
    (hs : s < 2 ^ 32) : Shows (Entry.fill e name s) (some (name, s)) := by
  refine ⟨Entry.inUse_fill short.2, Entry.named_iff.mpr ⟨fun i lt => ?_, Entry.fill_end⟩, short,
    Entry.inodeSector_fill hs⟩
  simp [Entry.fill, lt]

/-! ### The entries in the slots -/

section
variable {k j : Nat} {slots : Nat → Option (CString × Nat)} {entry : CString × Nat}

/-- The entries in the first `k` slots. -/
def entries (k : Nat) (slots : Nat → Option (CString × Nat)) : List (CString × Nat) :=
  (range k).filterMap slots

theorem mem_entries : entry ∈ entries k slots ↔ ∃ j < k, slots j = some entry := by
  simp [entries]

theorem entries_fill (hi : j < k) (free : slots j = none) :
    (entries k (update slots j (some entry))).Perm (entry :: entries k slots) := by
  have h : (range k).Perm (j :: (range k).erase j) :=
    perm_cons_erase (mem_range.mpr hi)
  have rest : ((range k).erase j).filterMap (update slots j (some entry)) =
      ((range k).erase j).filterMap slots := by
    apply filterMap_congr
    intro i mem
    have ne : i ≠ j := (nodup_range.mem_erase_iff.mp mem).1
    exact update_of_ne ne ..
  apply (h.filterMap _).trans
  rw [filterMap_cons, update_self, rest]
  apply Perm.cons
  apply Perm.trans _ (h.filterMap slots).symm
  rw [filterMap_cons, free]

theorem entries_free (hi : j < k) (used : slots j = some entry) :
    (entries k slots).Perm (entry :: entries k (update slots j none)) := by
  have eq : update (update slots j none) j (some entry) = slots := by
    rw [update_idem, ← used, update_eq_self]
  have filled : (entries k (update (update slots j none) j (some entry))).Perm
      (entry :: entries k (update slots j none)) :=
    entries_fill hi (update_self j none slots)
  rwa [eq] at filled

theorem entries_full : (entries k slots).length = k ↔ ∀ j < k, slots j ≠ none := by
  unfold entries
  rw [length_filterMap_eq_countP]
  constructor
  · intro full
    have := countP_eq_length.mp (full.trans length_range.symm)
    intro j lt none
    simpa [none] using this j (mem_range.mpr lt)
  · intro all
    rw [countP_eq_length.mpr, length_range]
    intro j lt
    exact isSome_iff_ne_none.mpr (all j (mem_range.mp lt))

theorem entries_le : (entries k slots).length ≤ k := by
  unfold entries
  exact (length_filterMap_le _ _).trans_eq length_range

end

/-! ### The directory and its inodes -/

/-- The sectors of the inodes that are listed or may be added. -/
def DirUse.sectors (m : DirUse) : List Nat := m.table.map Prod.snd ++ m.spare

/-- The directory in sector `ds` is in order, with `slots` as its entries. -/
@[grind cases] structure Chart (dir : Dir) (ds k : Nat) (files : List FilePtr)
    (others : List InodePtr) (m : DirUse)
    (live : Set Nat) (slots : Nat → Option (CString × Nat)) : Prop where
  sound : Sound True m.fs live files (m.held ++ dir.inode :: others)
  sector : (m.fs.inode dir.inode).sector = ds
  special : ds ≠ freeMapSector
  length : (m.fs.data ds).length = entrySize * k
  shows : ∀ j < k, Shows (m.fs.slot (m.fs.data ds) j) (slots j)
  table : (entries k slots).Perm m.table
  unique : ∀ j < k, ∀ j' < k, ∀ name s s', slots j = some (name, s) → slots j' = some (name, s') →
    j = j'
  once : m.sectors.Nodup
  known : ∀ s ∈ m.sectors, s ∈ live ∧ s ≠ ds ∧ s ≠ freeMapSector
  removed : ∀ i ∈ m.fs.openInodes, (m.fs.inode i).removed = true →
    (m.fs.inode i).sector ∉ m.sectors ∧ (m.fs.inode i).sector ≠ ds
  clients : ∀ f ∈ files, (m.fs.inode (m.fs.file f).inode).sector ≠ ds

namespace Chart

variable {dir : Dir} {ds k : Nat} {files : List FilePtr} {others : List InodePtr} {m : DirUse}
  {live live' : Set Nat} {slots : Nat → Option (CString × Nat)} {name : CString} {s j : Nat}
  {fs' : FS}

theorem held (_ : Chart dir ds k files others m live slots) :
    dir.inode ∈ m.held ++ dir.inode :: others := by simp

section
variable (hc : Chart dir ds k files others m live slots) {i : InodePtr}
include hc

theorem opened : dir.inode ∈ m.fs.openInodes :=
  hc.sound.counted.held_opened hc.held

theorem stored : (m.fs.inode dir.inode).data = m.fs.data ds := by
  rw [(hc.sound.faithful _ hc.opened).2, hc.sector]

theorem member : ds ∈ live := by
  have := (hc.sound.faithful _ hc.opened).1
  rwa [hc.sector] at this

theorem placed : Placed m.fs.size (m.fs.data ds) :=
  hc.sound.laid.placed hc.member

theorem rows : Slots m.fs dir (m.fs.data ds) k :=
  ⟨hc.stored, hc.length, hc.placed.reads⟩

theorem plenty : Plenty m.fs :=
  hc.sound.plenty trivial

/-- Nobody has denied writes to the directory. -/
theorem writable : (m.fs.inode dir.inode).denyWriteCnt = 0 := by
  rw [hc.sound.counted.deny _ hc.opened, FS.denials, Int.natCast_eq_zero, countP_eq_zero]
  intro f mem both
  obtain ⟨refers, _⟩ := Bool.and_eq_true_iff.mp both
  apply hc.clients f mem
  rw [eq_of_beq refers, hc.sector]

theorem ended : m.fs.Ended (m.fs.data ds) k := by
  intro j hi inUse
  have shows := hc.shows j hi
  cases held : slots j with
  | none =>
    rw [held] at shows
    have free : Entry.inUse (m.fs.slot (m.fs.data ds) j) = false := shows
    rw [free] at inUse
    cases inUse
  | some entry =>
    obtain ⟨name, s⟩ := entry
    rw [held] at shows
    obtain ⟨_, named, short, _⟩ := shows
    exact ⟨name.length, by omega, (Entry.named_iff.mp named).2⟩

theorem names_iff (hi : j < k) :
    m.fs.Names (m.fs.data ds) j name ↔ ∃ s, slots j = some (name, s) := by
  have shows := hc.shows j hi
  constructor
  · rintro ⟨inUse, named⟩
    cases held : slots j with
    | none =>
      rw [held] at shows
      have free : Entry.inUse (m.fs.slot (m.fs.data ds) j) = false := shows
      rw [free] at inUse
      cases inUse
    | some entry =>
      obtain ⟨name', s⟩ := entry
      rw [held] at shows
      rw [Entry.named_inj named shows.2.1]
      exact ⟨s, rfl⟩
  · rintro ⟨s, held⟩
    rw [held] at shows
    exact ⟨shows.1, shows.2.1⟩

theorem inUse_iff (hi : j < k) :
    Entry.inUse (m.fs.slot (m.fs.data ds) j) = true ↔ slots j ≠ none := by
  have shows := hc.shows j hi
  cases held : slots j with
  | none =>
    rw [held] at shows
    simpa [Shows] using shows
  | some entry =>
    rw [held] at shows
    simpa using shows.1

theorem mem_table : (name, s) ∈ m.table ↔ ∃ j < k, slots j = some (name, s) := by
  rw [← hc.table.mem_iff, mem_entries]

theorem valid (mem : (name, s) ∈ m.table) : name.length ≠ 0 ∧ name.length ≤ nameMax := by
  obtain ⟨j, hi, held⟩ := hc.mem_table.mp mem
  have shows := hc.shows j hi
  rw [held] at shows
  exact shows.2.2.1

/-- The name tells the sector. -/
theorem functional {s' : Nat}
    (first : (name, s) ∈ m.table) (second : (name, s') ∈ m.table) : s = s' := by
  obtain ⟨j, hi, held⟩ := hc.mem_table.mp first
  obtain ⟨j', inside', held'⟩ := hc.mem_table.mp second
  obtain rfl := hc.unique j hi j' inside' name s s' held held'
  rw [held] at held'
  cases held'
  rfl

theorem names : (m.table.map Prod.fst).Nodup := by
  have once : m.table.Nodup := (nodup_append.mp hc.once).1.of_map
  apply Nodup.map_on _ once
  rintro ⟨name, s⟩ first ⟨name', s'⟩ second rfl
  rw [hc.functional first second]

/-- What leaves the directory as it is keeps the chart. -/
theorem move {held' : List InodePtr}
    {spare' : List Nat}
    (sound : Sound True fs' live' files (held' ++ dir.inode :: others))
    (inode : fs'.disk ds = m.fs.disk ds)
    (extent : ∀ x ∈ (m.fs.data ds).extent, fs'.disk x = m.fs.disk x)
    (file : fs'.file = m.fs.file)
    (sector : ∀ i ∈ m.fs.openInodes, (fs'.inode i).sector = (m.fs.inode i).sector)
    (once : (m.table.map Prod.snd ++ spare').Nodup)
    (known : ∀ s ∈ m.table.map Prod.snd ++ spare', s ∈ live' ∧ s ≠ ds ∧ s ≠ freeMapSector)
    (removed : ∀ i ∈ fs'.openInodes, (fs'.inode i).removed = true →
      (fs'.inode i).sector ∉ m.table.map Prod.snd ++ spare' ∧ (fs'.inode i).sector ≠ ds) :
    Chart dir ds k files others ⟨fs', held', spare', m.table⟩ live' slots := by
  have data : fs'.data ds = m.fs.data ds := by rw [FS.data, FS.data, inode]
  constructor
  case sound => exact sound
  case sector => exact (sector _ hc.opened).trans hc.sector
  case special => exact hc.special
  case length => rw [data]; exact hc.length
  case shows =>
    intro j hi
    apply (hc.shows j hi).congr
    intro i below
    dsimp only
    rw [data]
    unfold FS.slot FS.byteAt
    rw [extent]
    apply hc.placed.mem
    rw [hc.length]
    unfold entrySize at *
    omega
  case table => exact hc.table
  case unique => exact hc.unique
  case once => exact once
  case known => exact known
  case removed => exact removed
  case clients =>
    intro f member
    dsimp only
    rw [file, sector _ (hc.sound.counted.file_opened member)]
    exact hc.clients f member

/-- The file of the free map lies apart from the directory. -/
theorem map_apart :
    ds ∉ (m.fs.data freeMapSector).extent ∧
      Disjoint (m.fs.data ds).extent (m.fs.data freeMapSector).extent :=
  ⟨hc.sound.laid.apart _ hc.member _ hc.sound.mapLive,
    hc.sound.laid.disjoint _ hc.member _ hc.sound.mapLive hc.special⟩

theorem quiet (hq : Quiet m.fs fs') :
    Chart dir ds k files others { m with fs := fs' } live slots := by
  have hs := hc.sound.quiet hq
  obtain ⟨memory, rfl⟩ := hq.eq
  exact hc.move hs rfl (fun _ _ => rfl) rfl (fun _ _ => rfl) hc.once hc.known hc.removed

theorem opens
    (hs : Sound True fs' live files (i :: (m.held ++ dir.inode :: others)))
    (ho : Opens m.fs fs' i s) :
    Chart dir ds k files others { m with fs := fs', held := i :: m.held } live slots := by
  have disk : fs'.disk = m.fs.disk := by rw [ho.kept]
  refine hc.move hs (by rw [disk]) (fun _ _ => by rw [disk]) (by rw [ho.kept])
    (fun j hj => FS.view_sector (ho.same j hj)) hc.once hc.known ?_
  intro j hj is
  by_cases old : j ∈ m.fs.openInodes
  · rw [FS.view_removed (ho.same j old)] at is
    rw [FS.view_sector (ho.same j old)]
    exact hc.removed j old is
  · obtain rfl := ((ho.members j).mp hj).resolve_right old
    simp [ho.fresh old] at is

theorem shuts (mem : i ∈ m.held)
    (shuts : Shuts True m.fs fs' live files (m.held ++ dir.inode :: others) i) :
    ∃ live', Chart dir ds k files others { m with fs := fs', held := m.held.erase i }
      live' slots := by
  obtain ⟨closes, gone, stays⟩ := shuts
  obtain ⟨ne, disjoint⟩ := hc.map_apart
  rw [erase_append_left _ mem] at gone stays
  have ho := hc.sound.counted.held_opened (mem_append_left _ mem)
  have inode : fs'.disk ds = m.fs.disk ds := closes.disk _ ne
  have extent : ∀ x ∈ (m.fs.data ds).extent, fs'.disk x = m.fs.disk x :=
    fun x hx => closes.disk x (Set.disjoint_left.mp disjoint hx)
  have file : fs'.file = m.fs.file := by rw [closes.kept]
  have sector : ∀ j ∈ m.fs.openInodes, (fs'.inode j).sector = (m.fs.inode j).sector :=
    fun j _ => FS.view_sector (closes.same j)
  have removed : ∀ j ∈ fs'.openInodes, (fs'.inode j).removed = true →
      (fs'.inode j).sector ∉ m.sectors ∧ (fs'.inode j).sector ≠ ds := by
    intro j hj is
    rw [FS.view_removed (closes.same j)] at is
    rw [FS.view_sector (closes.same j)]
    exact hc.removed j ((closes.members j).mp hj).1 is
  by_cases leaves : m.fs.Last files (m.held ++ dir.inode :: others) i ∧ (m.fs.inode i).removed =
    true
  · obtain ⟨hu, _⟩ := hc.removed i ho leaves.2
    refine ⟨_, hc.move (gone leaves.1 leaves.2) inode extent file sector hc.once ?_ removed⟩
    intro s hl
    obtain ⟨hi, ordinary⟩ := hc.known s hl
    refine ⟨⟨hi, ?_⟩, ordinary⟩
    rintro rfl
    exact hu hl
  · exact ⟨live, hc.move (stays leaves) inode extent file sector hc.once hc.known removed⟩

end

/-! ### The functions of the directory -/

section
variable (hc : Chart dir ds k files others m live slots)
include hc

theorem wp_lookup (name : CString) :
    Wp (Filesys.lookup dir name) (fun r fs' => Quiet m.fs fs' ∧ match r with
      | some (e, ofs) => ∃ j < k, ofs = entrySize * j ∧
          slots j = some (name, Entry.inodeSector e) ∧ SameEntry e (m.fs.slot (m.fs.data ds) j)
      | none => ∀ s, (name, s) ∉ m.table) m.fs := by
  apply (wp_lookup_slots hc.rows hc.ended name).mono
  rintro r fs' ⟨hq, res⟩
  refine ⟨hq, ?_⟩
  cases r with
  | none =>
    intro s hl
    obtain ⟨j, hi, held⟩ := hc.mem_table.mp hl
    exact res hc.plenty j hi ((hc.names_iff hi).mpr ⟨s, held⟩)
  | some found =>
    obtain ⟨j, hi, ofs, hit, copy, _⟩ := res
    obtain ⟨s, held⟩ := (hc.names_iff hi).mp hit
    have shows := hc.shows j hi
    rw [held] at shows
    refine ⟨j, hi, ofs, ?_, copy⟩
    rw [held, Entry.inodeSector_congr copy, shows.2.2.2]

theorem known_table (hl : (name, s) ∈ m.table) : s ∈ live ∧ s ≠ ds ∧ s ≠ freeMapSector :=
  hc.known s (mem_append_left _ (mem_map_of_mem (f := Prod.snd) hl))

theorem wp_dirLookup (name : CString) :
    Wp (dirLookup dir name) (fun found fs' => Chart dir ds k files others
        { m with fs := fs', held := found.toList ++ m.held } live slots ∧
      (found = none → ∀ s, (name, s) ∉ m.table) ∧
      ∀ i, found = some i → (name, (fs'.inode i).sector) ∈ m.table) m.fs := by
  refine .bind ((hc.wp_lookup name).mono ?_)
  rintro r fs1 ⟨hq, res⟩
  have chart1 := hc.quiet hq
  cases r with
  | none => exact .pure ⟨chart1, fun _ => res, nofun⟩
  | some found =>
    obtain ⟨e, ofs⟩ := found
    obtain ⟨j, hi, _, held, _⟩ := res
    have hl : (name, Entry.inodeSector e) ∈ m.table := hc.mem_table.mpr ⟨j, hi, held⟩
    apply (wp_inodeOpen chart1.sound (hc.known_table hl).1).mono
    intro found fs' ho
    cases found with
    | none => exact absurd chart1.plenty ho.2
    | some i =>
      refine ⟨chart1.opens ho.1 ho.2, nofun, ?_⟩
      rintro _ ⟨⟩
      rw [ho.2.sector]
      exact hl

/-- A slot gets another entry, or none. -/
theorem refill {value : Option (CString × Nat)} {spare' : List Nat} {table' : List (CString × Nat)}
    (refills : Refills m.fs fs' (m.fs.data ds) k j e) (shows : Shows e value)
    (table : (entries k (update slots j value)).Perm table')
    (unique : ∀ j' < k, ∀ name s s', j' ≠ j → value = some (name, s) → slots j' ≠ some (name, s'))
    (once : (table'.map Prod.snd ++ spare').Nodup)
    (fewer : ∀ s ∈ table'.map Prod.snd ++ spare', s ∈ m.sectors) :
    Chart dir ds k files others ⟨fs', m.held, spare', table'⟩ live (update slots j value) := by
  have outside : ∀ x ∉ (m.fs.data ds).extent, fs'.disk x = m.fs.disk x := by
    intro x out
    apply refills.disk
    rintro ⟨pos, inside, rfl⟩
    exact out (hc.placed.mem inside)
  have disk : ∀ t ∈ live, fs'.disk t = m.fs.disk t :=
    fun t member => outside t (hc.sound.laid.apart t member _ hc.member)
  have sound : Sound True fs' live files (m.held ++ dir.inode :: others) := by
    refine hc.sound.write refills.kept refills.plenty disk fun _ x inside => outside x ?_
    exact Set.disjoint_right.mp hc.map_apart.2 inside
  have data : fs'.data ds = m.fs.data ds := by rw [FS.data, FS.data, disk ds hc.member]
  have tables : fs'.openInodes = m.fs.openInodes ∧ fs'.inode = m.fs.inode ∧ fs'.file =
    m.fs.file := by
    rw [refills.kept]
    exact ⟨rfl, rfl, rfl⟩
  obtain ⟨openInodes, inode, file⟩ := tables
  constructor
  case sound => exact sound
  case sector => dsimp only; rw [inode]; exact hc.sector
  case special => exact hc.special
  case length => rw [data]; exact hc.length
  case shows =>
    intro j' inside
    dsimp only
    rw [data]
    by_cases here : j' = j
    · subst here
      rw [update_self]
      exact shows.congr refills.here
    · rw [update_of_ne here]
      exact (hc.shows j' inside).congr (refills.others j' here)
  case table => exact table
  case unique => grind
  case once => exact once
  case known => exact fun s listed => hc.known s (fewer s listed)
  case removed =>
    dsimp only
    rw [openInodes, inode]
    intro i ho is
    obtain ⟨unlisted, ne⟩ := hc.removed i ho is
    exact ⟨fun listed => unlisted (fewer _ listed), ne⟩
  case clients => dsimp only; rw [inode, file]; exact hc.clients

end

theorem sectors_add (spare : s ∈ m.spare) :
    (((name, s) :: m.table).map Prod.snd ++ m.spare.erase s).Perm m.sectors := by
  unfold DirUse.sectors
  rw [map_cons, cons_append]
  exact perm_middle.symm.trans ((perm_cons_erase spare).symm.append_left _)

theorem wp_dirAdd (hc : Chart dir ds k files others m live slots) (spare : s ∈ m.spare)
    (name : CString) :
    Wp (dirAdd dir name s) (fun added fs' => if added then
        name.length ≠ 0 ∧ name.length ≤ nameMax ∧ (∀ s', (name, s') ∉ m.table) ∧
          m.table.length < k ∧
        ∃ slots', Chart dir ds k files others
          ⟨fs', m.held, m.spare.erase s, (name, s) :: m.table⟩ live slots'
      else Quiet m.fs fs' ∧ (name.length = 0 ∨ nameMax < name.length ∨
        (∃ s', (name, s') ∈ m.table) ∨ m.table.length = k)) m.fs := by
  apply (wp_dirAdd_slots hc.rows hc.ended name s).mono
  rintro added fs' ⟨adds, fails⟩
  cases added with
  | false =>
    obtain ⟨hq, why⟩ := fails rfl
    refine ⟨hq, ?_⟩
    rcases why hc.plenty hc.writable with empty | long | ⟨j, hi, hit⟩ | full
    · exact .inl empty
    · exact .inr (.inl long)
    · obtain ⟨s', held⟩ := (hc.names_iff hi).mp hit
      exact .inr (.inr (.inl ⟨s', hc.mem_table.mpr ⟨j, hi, held⟩⟩))
    · right; right; right
      rw [← hc.table.length_eq, entries_full]
      exact fun j hi => (hc.inUse_iff hi).mp (full j hi)
  | true =>
    obtain ⟨short, ⟨j, e, refills, free⟩, ha⟩ := adds rfl
    have ha := ha hc.plenty
    have empty : slots j = none := by
      by_contra used
      rw [← ne_eq, ← hc.inUse_iff refills.inside, free hc.plenty] at used
      cases used
    have room : m.table.length < k := by
      rw [← hc.table.length_eq]
      apply Nat.lt_of_le_of_ne entries_le
      intro full
      exact entries_full.mp full j refills.inside empty
    have missing : ∀ j' < k, ∀ s', slots j' ≠ some (name, s') :=
      fun j' hi s' held => ha j' hi ((hc.names_iff hi).mpr ⟨s', held⟩)
    refine ⟨short.1, short.2, ?_, room, update slots j (some (name, s)), ?_⟩
    · intro s' hl
      obtain ⟨j', hi, held⟩ := hc.mem_table.mp hl
      exact missing j' hi s' held
    · have hs : s < 2 ^ 32 := by
        have hi := (hc.known s (mem_append_right _ spare)).1
        exact ((hc.sound.laid.inode s hi).1).trans hc.sound.laid.small
      apply hc.refill refills (shows_fill short hs)
      · exact (entries_fill refills.inside empty).trans (hc.table.cons _)
      · rintro j' hi name' s1 s' _ ⟨⟩
        exact missing j' hi s'
      · exact (sectors_add spare).nodup_iff.mpr hc.once
      · exact fun t hl => (sectors_add spare).mem_iff.mp hl

/-- The entries without one name. -/
theorem table_remove (hc : Chart dir ds k files others m live slots) (hi : j < k)
    (held : slots j = some (name, s)) :
    (entries k (update slots j none)).Perm (m.table.filter (·.1 ≠ name)) := by
  have split := (entries_free hi held).symm.trans hc.table
  have others : (entries k (update slots j none)).filter (·.1 ≠ name) =
      entries k (update slots j none) := by
    rw [filter_eq_self]
    rintro ⟨name', s'⟩ mem
    obtain ⟨j', inside', held'⟩ := mem_entries.mp mem
    have elsewhere : j' ≠ j := by
      rintro rfl
      rw [update_self] at held'
      cases held'
    rw [update_of_ne elsewhere] at held'
    rw [decide_eq_true_iff]
    rintro rfl
    exact elsewhere (hc.unique j' inside' j hi name' s' s held' held)
  have := split.filter (·.1 ≠ name)
  rw [filter_cons_of_neg (by simp), others] at this
  exact this

theorem sectors_remove :
    ((m.table.filter (·.1 ≠ name)).map Prod.snd ++ m.spare).Sublist m.sectors :=
  (filter_sublist.map Prod.snd).append (Sublist.refl _)

section
variable (hc : Chart dir ds k files others m live slots) {length : Int}
include hc

/-- An inode is listed once. -/
theorem unlisted (hl : (name, s) ∈ m.table) :
    s ∉ (m.table.filter (·.1 ≠ name)).map Prod.snd ++ m.spare := by
  obtain ⟨once, _, ha⟩ := nodup_append.mp hc.once
  intro again
  rcases mem_append.mp again with again | spare
  · obtain ⟨⟨name', s'⟩, mem, rfl⟩ := mem_map.mp again
    obtain ⟨mem, ne⟩ := mem_filter.mp mem
    have eq := inj_on_of_nodup_map once mem hl rfl
    cases eq
    simp at ne
  · exact ha s (mem_map_of_mem (f := Prod.snd) hl) s spare rfl

theorem wp_dirRemove (name : CString) :
    Wp (dirRemove dir name) (fun removed fs' => if removed then
        (∃ s, (name, s) ∈ m.table) ∧ ∃ live' slots', Chart dir ds k files others
          ⟨fs', m.held, m.spare, m.table.filter (·.1 ≠ name)⟩ live' slots'
      else Quiet m.fs fs' ∧ ∀ s, (name, s) ∉ m.table) m.fs := by
  refine .bind ((hc.wp_lookup name).mono ?_)
  rintro r fs1 ⟨hq, res⟩
  have chart1 := hc.quiet hq
  cases r with
  | none => exact .pure ⟨hq, res⟩
  | some found =>
    obtain ⟨e, ofs⟩ := found
    obtain ⟨j, hi, rfl, held, copy⟩ := res
    have hl : (name, Entry.inodeSector e) ∈ m.table := hc.mem_table.mpr ⟨j, hi, held⟩
    refine .bind ((wp_inodeOpen chart1.sound (hc.known_table hl).1).mono ?_)
    intro found fs2 ho
    cases found with
    | none => exact absurd chart1.plenty ho.2
    | some i =>
      obtain ⟨sound2, opens⟩ := ho
      have chart2 := chart1.opens sound2 opens
      refine .bind ((wp_writeSlot chart2.rows (Entry.clear e) (Nat.le_of_lt hi)).mono ?_)
      rintro n fs3 ⟨hw, _, full⟩
      have all := full chart2.plenty.lucky chart2.writable hi
      simp only [if_pos all]
      have refills := hw all
      have chart3 : Chart dir ds k files others
          ⟨fs3, i :: m.held, m.spare, m.table.filter (·.1 ≠ name)⟩ live (update slots j none) := by
        have cleared : Shows (Entry.clear e) none := Entry.inUse_clear
        apply chart2.refill refills cleared
        · exact hc.table_remove hi held
        · rintro _ _ _ _ _ _ ⟨⟩
        · exact hc.once.sublist sectors_remove
        · exact fun s mem => sectors_remove.subset mem
      have sectorI : (fs3.inode i).sector = Entry.inodeSector e := by
        rw [show fs3.inode = fs2.inode by rw [refills.kept]]
        exact opens.sector
      have openedI : i ∈ fs3.openInodes := chart3.sound.counted.held_opened (by simp)
      refine .bind ((wp_inodeRemove chart3.sound openedI).mono ?_)
      rintro _ fs4 ⟨sound4, rfl⟩
      have sector4 : ∀ j, ((fs3.withInode i fun n => { n with removed := true }).inode j).sector =
          (fs3.inode j).sector := FS.withInode_keep fun _ => rfl
      have chart4 : Chart dir ds k files others
        ⟨fs3.withInode i fun n => { n with removed := true },
          i :: m.held, m.spare, m.table.filter (·.1 ≠ name)⟩ live (update slots j none) := by
        refine chart3.move sound4 rfl (fun _ _ => rfl) rfl (fun j _ => sector4 j) chart3.once
          chart3.known ?_
        intro j' opened' is
        rw [sector4]
        by_cases h : j' = i
        · subst h
          rw [sectorI]
          exact ⟨hc.unlisted hl, (hc.known_table hl).2.1⟩
        · rw [FS.withInode_inode, update_of_ne h] at is
          exact chart3.removed j' opened' is
      refine .bind ((wp_inodeClose chart4.sound (by simp)).mono fun _ fs' closed => .pure ?_)
      obtain ⟨live', chart'⟩ := chart4.shuts (.head _) closed
      rw [erase_cons_head] at chart'
      simp only [all, decide_true, if_true]
      exact ⟨⟨_, hl⟩, live', _, chart'⟩

/-- The free map changes, and its file with it. -/
theorem remap (hs : Sound True fs' live files (m.held ++ dir.inode :: others))
    (hw : Writes (m.fs.data freeMapSector).extent m.fs fs') :
    Chart dir ds k files others { m with fs := fs' } live slots := by
  obtain ⟨ne, disjoint⟩ := hc.map_apart
  have tables : fs'.openInodes = m.fs.openInodes ∧ fs'.inode = m.fs.inode ∧ fs'.file =
    m.fs.file := by
    rw [hw.kept]
    exact ⟨rfl, rfl, rfl⟩
  obtain ⟨openInodes, inode, file⟩ := tables
  refine hc.move hs (hw.disk _ ne)
    (fun x hi => hw.disk x (Set.disjoint_left.mp disjoint hi)) file
    (fun _ _ => by rw [inode]) hc.once hc.known ?_
  rw [openInodes, inode]
  exact hc.removed

theorem created {start : Nat} (spare : Spare m.fs live s)
    (hs : Sound True fs' (insert s live) files (m.held ++ dir.inode :: others))
    (created : Created m.fs fs' s length start) :
    Chart dir ds k files others { m with fs := fs', spare := s :: m.spare } (insert s live)
      slots := by
  have laid := hc.sound.laid
  have hf : s ∉ m.sectors := fun hl => spare.unused (hc.known s hl).1
  have tables : fs'.openInodes = m.fs.openInodes ∧ fs'.inode = m.fs.inode ∧ fs'.file =
    m.fs.file := by
    rw [created.writes.kept]
    exact ⟨rfl, rfl, rfl⟩
  obtain ⟨openInodes, inode, file⟩ := tables
  have more : (m.table.map Prod.snd ++ s :: m.spare).Perm (s :: m.sectors) := perm_middle
  refine hc.move hs ?_ ?_ file (fun _ _ => by rw [inode]) ?_ ?_ ?_
  · exact laid.create_disk hc.sound.map_apart spare created _ hc.member
  · intro x hi
    apply created.writes.disk
    rintro (mapped | rfl | new)
    · rw [hc.sound.mapExtent] at mapped
      exact Set.disjoint_left.mp hc.map_apart.2 hi mapped
    · exact spare.outside _ hc.member hi
    · exact (laid.free_apart (created.free x new)).2 _ hc.member hi
  · exact more.nodup_iff.mpr (nodup_cons.mpr ⟨hf, hc.once⟩)
  · intro t hl
    rcases mem_cons.mp (more.mem_iff.mp hl) with rfl | old
    · refine ⟨.inl rfl, ?_, ?_⟩
      · rintro rfl
        exact spare.unused hc.member
      · rintro rfl
        exact spare.unused hc.sound.mapLive
    · obtain ⟨hi, ordinary⟩ := hc.known t old
      exact ⟨.inr hi, ordinary⟩
  · grind

theorem wp_makeInode (low : 0 ≤ length) (high : length < 2 ^ 31) :
    Wp (makeInode length) (fun hm fs' => ∃ live', Chart dir ds k files others
      { m with fs := fs', spare := hm.toList ++ m.spare } live' slots) m.fs := by
  refine .bind ((wp_allocate hc.sound 1).mono ?_)
  rintro r fs1 ⟨sound1, writes1, res⟩
  have chart1 := hc.remap sound1 writes1
  cases r with
  | none => exact .pure ⟨live, chart1⟩
  | some s =>
    obtain ⟨hi, free, bits⟩ := res
    have spare := hc.sound.spare writes1 hi free bits
    refine .bind ((wp_create sound1 spare low high).mono ?_)
    intro ok fs2 res
    cases ok with
    | true =>
      obtain ⟨sound2, start, hm⟩ := res
      exact .pure ⟨_, chart1.created spare sound2 hm⟩
    | false =>
      obtain ⟨sound2, writes2, bits2⟩ := res
      have chart2 := chart1.remap sound2 writes2
      have spare2 : Spare fs2 live s := spare.keep writes2.size (by rw [bits2])
        fun t mem => writes2.disk t (sound1.laid.apart t mem _ sound1.mapLive)
      refine .bind ((wp_releaseSpare sound2 spare2).mono ?_)
      rintro _ fs3 ⟨sound3, writes3, _⟩
      exact .pure ⟨live, chart2.remap sound3 writes3⟩

end

end Chart

/-! ### Sequences of calls -/

section
variable {dir : Dir} {ds k : Nat} {files : List FilePtr} {others : List InodePtr} {m m' : DirUse}
  {live : Set Nat} {slots : Nat → Option (CString × Nat)} {fs fs' : FS}

/-- A new directory is empty. -/
theorem wp_newDir (sound : Sound True fs live files others) (fits : k * entrySize < 2 ^ 31) :
    Wp (newDir k) (fun found fs' => ∀ dir, found = some dir → dir.pos = 0 ∧
      ∃ ds live', Chart dir ds k files others ⟨fs', [], [], []⟩ live' fun _ => none) fs := by
  have size : toInt32 (k * entrySize % 2 ^ 32) = k * entrySize := by
    rw [Nat.mod_eq_of_lt (by omega), toInt32, if_pos fits, Nat.cast_mul]
  refine .bind ((wp_allocate sound 1).mono ?_)
  rintro r fs1 ⟨sound1, writes1, result⟩
  cases r with
  | none => exact .pure (by simp)
  | some ds =>
    obtain ⟨inside, free, bits⟩ := result
    have spare := sound.spare writes1 inside free bits
    have high : ((k : Int) * entrySize) < 2 ^ 31 := by exact_mod_cast fits
    have low : (0 : Int) ≤ k * entrySize := by positivity
    refine .bind ?_
    rw [dirCreate, size]
    apply (wp_create sound1 spare low high).mono
    intro ok fs2 result
    cases ok with
    | false => exact .pure (by simp)
    | true =>
      obtain ⟨sound2, start, created⟩ := result
      refine .bind ((wp_inodeOpen sound2 (.inl rfl)).mono ?_)
      intro found fs3 ho
      cases found with
      | none => exact absurd (sound2.plenty trivial) ho.2
      | some i =>
        obtain ⟨sound3, opens⟩ := ho
        refine .bind (wp_malloc.mono ?_)
        rintro allocated fs4 ⟨quiet, he⟩
        obtain rfl : allocated = true := he (sound3.plenty trivial)
        refine .pure ?_
        rintro _ ⟨⟩
        refine ⟨rfl, ds, insert ds live, ?_⟩
        have sound4 := sound3.quiet quiet
        have data : fs4.data ds = { start, length := k * entrySize, magic := inodeMagic } := by
          rw [FS.data, quiet.disk, show fs3.disk = fs2.disk by rw [opens.kept]]
          exact created.data
        have ne : ds ≠ freeMapSector := by
          rintro rfl
          exact spare.unused sound1.mapLive
        have older : ∀ j ∈ fs2.openInodes, (fs2.inode j).sector ≠ ds := by grind
        have tables : fs4.openInodes = fs3.openInodes ∧ fs4.inode = fs3.inode ∧ fs4.file =
          fs3.file := by
          rw [quiet.kept]
          exact ⟨rfl, rfl, rfl⟩
        obtain ⟨openInodes, inode, file⟩ := tables
        constructor
        case sound => exact sound4
        case sector => dsimp only; rw [inode]; exact opens.sector
        case special => exact ne
        case length => dsimp only; rw [data, mul_comm]
        case shows =>
          intro j below
          dsimp only
          rw [data]
          show Entry.inUse _ = false
          have zero : fs4.disk (start + (entrySize * j + 19) / 512) = fun _ => 0 := by
            rw [quiet.disk, show fs3.disk = fs2.disk by rw [opens.kept]]
            apply created.zeros
            have within : ((entrySize * j + 19 : Nat) : Int) < k * entrySize := by
              unfold entrySize
              omega
            have := sectors_cover high within
            exact Set.mem_Ico.mpr ⟨Nat.le_add_right .., by omega⟩
          simp [Entry.inUse, FS.slot, FS.byteAt, zero]
        case table => simp [entries]
        case unique => simp
        case once => simp [DirUse.sectors]
        case known => simp [DirUse.sectors]
        case removed =>
          dsimp only
          rw [openInodes, inode]
          intro j ho is
          refine ⟨by simp [DirUse.sectors], ?_⟩
          by_cases old : j ∈ fs2.openInodes
          · rw [FS.view_sector (opens.same j old)]
            exact older j old
          · obtain rfl := ((opens.members j).mp ho).resolve_right old
            simp [opens.fresh old] at is
        case clients =>
          intro f mem
          have old := sound2.counted.file_opened mem
          dsimp only
          rw [file, inode, show fs3.file = fs2.file by rw [opens.kept], FS.view_sector
            (opens.same _ old)]
          exact older _ old

theorem wp_dirCode (hc : Chart dir ds k files others m live slots) {call : DirCall}
    (hv : m.Valid call) :
    Wp (m.code dir call) (fun next fs' => ∃ live' slots',
      Chart dir ds k files others (next fs') live' slots') m.fs := by
  cases call with
  | create length =>
    refine .bind ((hc.wp_makeInode hv.1 hv.2).mono ?_)
    rintro hm fs' ⟨live', chart'⟩
    exact .pure ⟨live', slots, chart'⟩
  | add name s =>
    refine .bind ((hc.wp_dirAdd hv name).mono ?_)
    intro added fs' res
    cases added with
    | true =>
      obtain ⟨_, _, _, _, slots', chart'⟩ := res
      exact .pure ⟨live, slots', chart'⟩
    | false => exact .pure ⟨live, slots, hc.quiet res.1⟩
  | remove name =>
    refine .bind ((hc.wp_dirRemove name).mono ?_)
    intro removed fs' res
    cases removed with
    | true =>
      obtain ⟨_, live', slots', chart'⟩ := res
      exact .pure ⟨live', slots', chart'⟩
    | false => exact .pure ⟨live, slots, hc.quiet res.1⟩
  | lookup name =>
    refine .bind ((hc.wp_dirLookup name).mono ?_)
    rintro found fs' ⟨chart', _⟩
    exact .pure ⟨live, slots, chart'⟩
  | close i =>
    have mem : i ∈ m.held := hv
    refine .bind ((wp_inodeClose hc.sound (mem_append_left _ mem)).mono ?_)
    intro _ fs' closed
    obtain ⟨live', chart'⟩ := hc.shuts mem closed
    exact .pure ⟨live', slots, chart'⟩

/-- The directory is the map `m.table`, which has room for `k` names. -/
structure ActsAsMap (dir : Dir) (k : Nat) (m : DirUse) : Prop where
  names : (m.table.map Prod.fst).Nodup
  valid : ∀ entry ∈ m.table, entry.1.length ≠ 0 ∧ entry.1.length ≤ nameMax
  room : m.table.length ≤ k
  distinct : ∀ j < k, ∀ j' < k, ∀ name, m.fs.Names (m.fs.inode dir.inode).data j name →
    m.fs.Names (m.fs.inode dir.inode).data j' name → j = j'
  lookup : ∀ name, ∃ found fs', dirLookup dir name m.fs = .ok (found, fs') ∧
    (found = none ↔ ∀ s, (name, s) ∉ m.table) ∧
    ∀ i, found = some i → (name, (fs'.inode i).sector) ∈ m.table
  add : ∀ name, ∀ s ∈ m.spare, ∃ added fs', dirAdd dir name s m.fs = .ok (added, fs') ∧
    (added = false ↔ name.length = 0 ∨ nameMax < name.length ∨ (∃ s', (name, s') ∈ m.table) ∨
      m.table.length = k) ∧
    (added = false → fs' = { m.fs with memory := fs'.memory })
  remove : ∀ name, ∃ removed fs', dirRemove dir name m.fs = .ok (removed, fs') ∧
    (removed = false ↔ ∀ s, (name, s) ∉ m.table)
  readdir : ∃ names fs', lsLoop (k + 1) { dir with pos := 0 } m.fs = .ok (names, fs') ∧
    names.Perm (m.table.map fun entry => entry.1.chars)

/-- The names in the slots are those of the map. -/
theorem Chart.names_perm (hc : Chart dir ds k files others m live slots) :
    (m.fs.namesFrom (m.fs.data ds) k 0).Perm (m.table.map fun entry => entry.1.chars) := by
  have eq : m.fs.namesFrom (m.fs.data ds) k 0 =
      (entries k slots).map fun entry => entry.1.chars := by
    unfold FS.namesFrom entries
    rw [map_filterMap, Nat.sub_zero, range_eq_range']
    apply filterMap_congr
    intro j mem
    have hi : j < k := by simpa using mem
    have shows := hc.shows j hi
    cases held : slots j with
    | none =>
      rw [held] at shows
      have free : Entry.inUse (m.fs.slot (m.fs.data ds) j) = false := shows
      simp [free]
    | some entry =>
      rw [held] at shows
      obtain ⟨inUse, named, short, _⟩ := shows
      simp [inUse, Entry.name_eq named short.2]
  rw [eq]
  exact hc.table.map _

theorem Chart.acts (hc : Chart dir ds k files others m live slots) : ActsAsMap dir k m where
  names := hc.names
  valid entry mem := hc.valid mem
  room := by
    rw [← hc.table.length_eq]
    exact entries_le
  distinct j hi j' inside' name first second := by
    rw [hc.stored] at first second
    obtain ⟨s, held⟩ := (hc.names_iff hi).mp first
    obtain ⟨s', held'⟩ := (hc.names_iff inside').mp second
    exact hc.unique j hi j' inside' name s s' held held'
  lookup name := by
    obtain ⟨found, fs', ran, _, ha, present⟩ := hc.wp_dirLookup name
    refine ⟨found, fs', ran, ⟨ha, fun missing => ?_⟩, present⟩
    cases found with
    | none => rfl
    | some i => exact absurd (present i rfl) (missing _)
  add name s spare := by
    obtain ⟨added, fs', ran, result⟩ := hc.wp_dirAdd spare name
    refine ⟨added, fs', ran, ?_⟩
    cases added with
    | false => exact ⟨⟨fun _ => result.2, fun _ => rfl⟩, fun _ => result.1.kept⟩
    | true => grind
  remove name := by
    obtain ⟨removed, fs', ran, result⟩ := hc.wp_dirRemove name
    refine ⟨removed, fs', ran, ?_⟩
    cases removed with
    | false => exact ⟨fun _ => result.2, fun _ => rfl⟩
    | true => grind
  readdir := by
    obtain ⟨names, fs', ran, _, eq⟩ := wp_lsSlots (k + 1) 0 { dir with pos := 0 } m.fs
      (hc.rows.at 0) hc.plenty rfl (Nat.zero_le k) (by omega)
    exact ⟨names, fs', ran, eq ▸ hc.names_perm⟩

theorem directory_refines_map {history : List DirCall} (sound : Sound True fs live files others)
    (fits : k * entrySize < 2 ^ 31) (made : newDir k fs = .ok (some dir, fs'))
    (run : Run (DirUse.step dir) Free ⟨fs', [], [], []⟩ history m) :
    ActsAsMap dir k m ∧ ∀ call, m.Valid call → ∃ m', m.step dir call = some m' := by
  obtain ⟨_, ds, start⟩ := (wp_newDir sound fits).result made dir rfl
  obtain ⟨live', slots, hc⟩ : ∃ live slots, Chart dir ds k files others m live slots := by
    apply run.invariant (I := fun m => ∃ live slots, Chart dir ds k files others m live slots)
    · obtain ⟨live', hc⟩ := start
      exact ⟨live', _, hc⟩
    · rintro m call m' ⟨live', slots, hc⟩ _ stepped
      unfold DirUse.step at stepped
      split_ifs at stepped with hv
      split at stepped
      · rename_i next fs' ran
        cases stepped
        exact (wp_dirCode hc hv).result ran
      · cases stepped
  refine ⟨hc.acts, fun call hv => ?_⟩
  obtain ⟨next, fs', ran, _⟩ := wp_dirCode hc hv
  refine ⟨next fs', ?_⟩
  unfold DirUse.step
  rw [if_pos hv, ran]

end

theorem formatted_sound {size : UInt32} {disk : Nat → Bytes} {memory : List Bool} {junk : Bytes}
    {u : Unit} (he : ∀ ok ∈ memory, ok = true)
    (hf : filesysInit true (Session.boot size disk memory junk) = .ok (u, fs)) :
    ∃ files, Sound True fs fs.live files [] := by
  have hs : (Session.boot size disk memory junk).size < 2 ^ 32 := size.toNat_lt
  have room : True → Plenty (Session.boot size disk memory junk) := fun _ => he
  obtain ⟨f, vol, _⟩ := (runs_filesysFormat rfl hs room).result hf
  exact ⟨[f], vol.sound⟩

/-- A formatted device of 20 sectors, and a directory on it after these calls. -/
def onFresh (k : Nat) (calls : List DirCall) : Option (FS × Dir × FS × DirUse) :=
  (filesysInit true (Session.boot 20 (fun _ _ => 0) [] fun _ => 0)).toOption.bind fun (_, fs) =>
    (newDir k fs).toOption.bind fun (found, fs') => found.bind fun dir =>
      (runs (DirUse.step dir) Free ⟨fs', [], [], []⟩ calls).map fun m => (fs, dir, fs', m)

theorem onFresh_run {k : Nat} {calls : List DirCall} {fs fs' : FS} {dir : Dir} {m : DirUse}
    (ended : onFresh k calls = some (fs, dir, fs', m)) :
    (∃ files, Sound True fs fs.live files []) ∧ newDir k fs = .ok (some dir, fs') ∧
      Run (DirUse.step dir) Free ⟨fs', [], [], []⟩ calls.reverse m := by
  obtain ⟨⟨_, fs⟩, hf, after⟩ := bind_eq_some_iff.mp ended
  obtain ⟨⟨found, fs'⟩, hm, after⟩ := bind_eq_some_iff.mp after
  obtain ⟨dir, rfl, after⟩ := bind_eq_some_iff.mp after
  obtain ⟨m, ran, eq⟩ := map_eq_some_iff.mp after
  cases eq
  exact ⟨formatted_sound (by simp) (ok_of_toOption hf), ok_of_toOption hm, runs_run ran⟩

/-- The directory is full, and a name is given away twice. -/
def fewDirCalls : List DirCall :=
  [.create 0, .create 600, .create 0, .add Session.first 6, .add Session.second 7,
    .lookup Session.first, .remove Session.first, .add Session.first 10]

theorem directory_refines_map_fewCalls : ∃ fs dir fs' m, newDir 2 fs = .ok (some dir, fs') ∧
    Run (DirUse.step dir) Free ⟨fs', [], [], []⟩ fewDirCalls.reverse m ∧
    m.table = [(Session.first, 10), (Session.second, 7)] ∧ ActsAsMap dir 2 m := by
  have state : (onFresh 2 fewDirCalls).map (fun r => r.2.2.2.table) =
      some [(Session.first, 10), (Session.second, 7)] := by decide +kernel
  obtain ⟨⟨fs, dir, fs', m⟩, ended, table⟩ := map_eq_some_iff.mp state
  obtain ⟨⟨files, hs⟩, hm, run⟩ := onFresh_run ended
  exact ⟨fs, dir, fs', m, hm, run, table, (directory_refines_map hs (by decide) hm run).1⟩

/-- The size of a directory is computed in 32 bits: this one has no slot. -/
theorem directory_size_wraps : ∃ fs dir fs' m, newDir 214748365 fs = .ok (some dir, fs') ∧
    Run (DirUse.step dir) Free ⟨fs', [], [], []⟩ [.create 0] m ∧ ¬ ActsAsMap dir 214748365 m := by
  have state : (onFresh 214748365 [.create 0]).map (fun r => (r.2.2.2.spare, r.2.2.2.table,
      (dirAdd r.2.1 Session.first 6 r.2.2.2.fs).toOption.map Prod.fst)) =
      some ([6], [], some false) := by decide +kernel
  obtain ⟨⟨fs, dir, fs', m⟩, ended, seen⟩ := map_eq_some_iff.mp state
  obtain ⟨spare, table, failed⟩ : m.spare = [6] ∧ m.table = [] ∧
      (dirAdd dir Session.first 6 m.fs).toOption.map Prod.fst = some false := by
    simpa only [Prod.mk.injEq] using seen
  obtain ⟨_, hm, run⟩ := onFresh_run ended
  refine ⟨fs, dir, fs', m, hm, run, fun acts => ?_⟩
  obtain ⟨added, fs'', ran, fails, _⟩ := acts.add Session.first 6 (by simp [spare])
  rw [ran] at failed
  obtain rfl : added = false := some.inj failed
  rcases fails.mp rfl with empty | long | ⟨s, hl⟩ | full
  · exact absurd empty (by decide)
  · exact absurd long (by decide)
  · simp [table] at hl
  · simp [table] at full

end Pintos.Filesys
