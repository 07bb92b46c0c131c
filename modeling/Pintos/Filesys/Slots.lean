import Pintos.Filesys.Directory
import Pintos.Filesys.InodeIo

/-!
# The slots of a directory

A directory is a row of slots of 20 bytes each. Its functions look the slots up one after the
other, and write one slot or nothing. Every read and every write of a slot needs memory; a read that
finds none looks like the end of the directory.
-/

namespace Pintos.Filesys

open LittleEndian Prog List

/-- The bytes of a slot of the directory with this data, and those that follow. -/
def FS.slot (fs : FS) (data : InodeDisk) (slot : Nat) : Bytes := fun j =>
  fs.byteAt data.start (entrySize * slot + j)

/-- The inode of the directory is open, and it has room for `k` entries. -/
@[grind cases] structure Slots (fs : FS) (dir : Dir) (data : InodeDisk) (k : Nat) : Prop where
  stored : (fs.inode dir.inode).data = data
  length : data.length = entrySize * k
  inside : Inside fs.size data

/-- The slot lists an inode under this name. -/
def FS.Names (fs : FS) (data : InodeDisk) (slot : Nat) (name : CString) : Prop :=
  Entry.inUse (fs.slot data slot) = true ∧ Entry.named (fs.slot data slot) name = true

/-- The name in every slot that is used ends within it. -/
def FS.Ended (fs : FS) (data : InodeDisk) (k : Nat) : Prop :=
  ∀ slot < k, Entry.inUse (fs.slot data slot) = true → ∃ i < nameMax + 1, fs.slot data slot
    (4 + i) = 0

/-- The first 20 bytes of both are the same. -/
def SameEntry (e e' : Bytes) : Prop := ∀ j < entrySize, e j = e' j

variable {fs fs' fs1 : FS} {dir : Dir} {data : InodeDisk} {name : CString} {slot k m n : Nat}
  {e e' : Bytes}

theorem Slots.quiet (slots : Slots fs dir data k) (hq : Quiet fs fs') : Slots fs' dir data k := by
  constructor <;> grind [Function.update_apply]

theorem Quiet.same_slots (hq : Quiet fs fs') : fs'.slot = fs.slot := by
  obtain ⟨memory, rfl⟩ := hq.eq
  rfl

theorem Slots.turns (slots : Slots fs dir data k) : fs.turns dir = k + 1 := by
  rw [FS.turns, slots.stored, slots.length]
  unfold entrySize
  omega

/-- One read of the loops over the directory. -/
theorem wp_readSlot (slots : Slots fs dir data k) (slot : Nat) (e : Bytes) :
    Wp (inodeReadAt dir.inode e entrySize (entrySize * slot)) (fun r fs' => Quiet fs fs' ∧
      (r.1 = entrySize → slot < k ∧ SameEntry r.2 (fs.slot data slot)) ∧
      (Plenty fs → slot < k → r.1 = entrySize)) fs := by
  have hi := slots.inside
  rw [← slots.stored] at hi
  apply (wp_inodeReadAt _ e _ _ hi).mono
  rintro ⟨n, content⟩ fs' ⟨quiet, moved, eq⟩
  rw [slots.stored, slots.length] at moved
  rw [slots.stored] at eq
  dsimp only at moved eq ⊢
  have within := moved.within
  refine ⟨quiet, fun all => ⟨?_, fun j hb => ?_⟩, fun room h => ?_⟩
  · simp only [all, entrySize] at within ⊢
    omega
  · rw [eq, filled, if_pos (by omega), Nat.sub_zero]
    rfl
  · rw [moved.full room]
    simp only [available, entrySize] at h ⊢
    omega

/-! ### Looking up -/

theorem Entry.inUse_congr {b b' : Bytes} (eq : SameEntry b b') :
    Entry.inUse b = Entry.inUse b' := by
  simp [Entry.inUse, eq 19 (by decide)]

theorem Entry.inodeSector_congr {b b' : Bytes} (eq : SameEntry b b') :
    Entry.inodeSector b = Entry.inodeSector b' :=
  get32_congr fun i four => eq (0 + i) (by unfold entrySize; omega)

theorem CString.char_ne_zero (name : CString) {i : Nat} (hb : i < name.length) :
    name.char i ≠ 0 := by
  obtain ⟨c, found⟩ : ∃ c, name.chars[i]? = some c := ⟨_, getElem?_eq_getElem hb⟩
  intro zero
  have first : c = 0 := by simpa [CString.char, found] using zero
  exact name.nonzero (first ▸ mem_of_getElem? found)

/-- A name that ends within the slot is compared within it. -/
theorem Entry.named_congr {b b' : Bytes} (eq : SameEntry b b')
    (ends : ∃ i < nameMax + 1, b' (4 + i) = 0) (name : CString) :
    Entry.named b name = Entry.named b' name := by
  obtain ⟨k, hs, zero⟩ := ends
  unfold nameMax at hs
  by_cases short : name.length < nameMax + 1
  · unfold nameMax at short
    have h : ∀ i ≤ name.length, b (4 + i) = b' (4 + i) :=
      fun i hb => eq (4 + i) (by unfold entrySize; omega)
    unfold Entry.named
    rw [h name.length (Nat.le_refl _)]
    congr 1
    rw [Bool.eq_iff_iff, all_eq_true, all_eq_true]
    refine forall₂_congr fun i hb => ?_
    rw [h i (Nat.le_of_lt (mem_range.mp hb))]
  · -- a longer name differs at the end of the one in the slot
    unfold nameMax at short
    have differs : ∀ b : Bytes, b (4 + k) = 0 → Entry.named b name = false := by
      intro b zero
      refine Bool.eq_false_iff.mpr fun eq => ?_
      obtain ⟨all, _⟩ := Bool.and_eq_true_iff.mp eq
      have h := eq_of_beq (all_eq_true.mp all k (mem_range.mpr (by omega)))
      exact name.char_ne_zero (i := k) (by omega) (h.symm.trans zero)
    rw [differs _ zero, differs b ((eq (4 + k) (by unfold entrySize; omega)).trans zero)]

/-- A slot with the name is found, or a read before it has failed. -/
theorem wp_lookupSlots (name : CString) (turns : Nat) : ∀ (slot : Nat) (e : Bytes) (fs : FS),
    Slots fs dir data k → fs.Ended data k → slot + turns = k + 1 →
    Wp (lookupLoop dir name turns (entrySize * slot) e) (fun r fs' => Quiet fs fs' ∧
      match r with
      | some (e, ofs) => ∃ j, slot ≤ j ∧ j < k ∧ ofs = entrySize * j ∧ fs.Names data j name ∧
          SameEntry e (fs.slot data j) ∧ ∀ m, slot ≤ m → m < j → ¬ fs.Names data m name
      | none => Plenty fs → ∀ m, slot ≤ m → m < k → ¬ fs.Names data m name) fs := by
  induction turns with
  | zero =>
    intro slot e fs _ _ past
    exact .pure ⟨.refl fs, fun _ m later hb => by omega⟩
  | succ turns ih =>
    intro slot e fs slots ends left
    refine .bind ((wp_readSlot slots slot e).mono ?_)
    rintro ⟨n, content⟩ fs1 ⟨hq, read, full⟩
    dsimp only at read full ⊢
    split_ifs with all found
    · obtain ⟨h, copy⟩ := read all
      obtain ⟨inUse, named⟩ := Bool.and_eq_true_iff.mp found
      rw [Entry.inUse_congr copy] at inUse
      rw [Entry.named_congr copy (ends slot h inUse)] at named
      exact .pure ⟨hq, slot, Nat.le_refl _, h, rfl, ⟨inUse, named⟩, copy,
        fun m low high => by omega⟩
    · obtain ⟨h, copy⟩ := read all
      have missed : ¬ fs.Names data slot name := by
        rintro ⟨inUse, named⟩
        rw [← Entry.named_congr copy (ends slot h inUse)] at named
        rw [← Entry.inUse_congr copy] at inUse
        simp [inUse, named] at found
      have ends1 : fs1.Ended data k := by
        unfold FS.Ended
        rw [hq.same_slots]
        exact ends
      refine (ih (slot + 1) content fs1 (slots.quiet hq) ends1 (by omega)).mono ?_
      rintro r fs' ⟨quiet', res⟩
      refine ⟨hq.trans quiet', ?_⟩
      unfold FS.Names at res ⊢
      rw [hq.same_slots] at res
      cases r with
      | none =>
        intro room m later hb found
        rcases Nat.eq_or_lt_of_le later with rfl | beyond
        · exact missed found
        · exact res (hq.plenty room) m beyond hb found
      | some found =>
        obtain ⟨j, later, hb, ofs, hit, copied, was⟩ := res
        refine ⟨j, by omega, hb, ofs, hit, copied, fun m low high => ?_⟩
        rcases Nat.eq_or_lt_of_le low with rfl | beyond
        · exact missed
        · exact was m beyond high
    · exact .pure ⟨hq, fun room m later hb _ => all (full room (by omega))⟩

theorem wp_lookup_slots (slots : Slots fs dir data k) (ends : fs.Ended data k) (name : CString) :
    Wp (lookup dir name) (fun r fs' => Quiet fs fs' ∧ match r with
      | some (e, ofs) => ∃ j < k, ofs = entrySize * j ∧ fs.Names data j name ∧
          SameEntry e (fs.slot data j) ∧ ∀ m < j, ¬ fs.Names data m name
      | none => Plenty fs → ∀ m < k, ¬ fs.Names data m name) fs := by
  refine .bind (.get ?_)
  rw [slots.turns]
  refine (wp_lookupSlots name _ 0 fs.junk fs slots ends (Nat.zero_add _)).mono ?_
  rintro r fs' ⟨hq, res⟩
  refine ⟨hq, ?_⟩
  cases r with
  | none => exact fun room m => res room m (Nat.zero_le m)
  | some found => grind

/-! ### Writing a slot -/

/-- The scan for a free slot stops at one, or at the end, or at a read that has failed. -/
theorem wp_freeSlots (turns : Nat) : ∀ (slot : Nat) (e : Bytes) (fs : FS),
    Slots fs dir data k → slot ≤ k → slot + turns = k + 1 →
    Wp (freeSlotLoop dir turns (entrySize * slot) e) (fun r fs' => Quiet fs fs' ∧
      ∃ j, slot ≤ j ∧ j ≤ k ∧ r.1 = entrySize * j ∧
        (∀ m, slot ≤ m → m < j → Entry.inUse (fs.slot data m) = true) ∧
        (Plenty fs → j < k → Entry.inUse (fs.slot data j) = false)) fs := by
  induction turns with
  | zero => intro slot e fs _ hb past; omega
  | succ turns ih =>
    intro slot e fs slots hb left
    refine .bind ((wp_readSlot slots slot e).mono ?_)
    rintro ⟨n, content⟩ fs1 ⟨hq, read, full⟩
    dsimp only at read full ⊢
    split_ifs with more
    · obtain ⟨h, copy⟩ := read more.1
      have inUse : Entry.inUse (fs.slot data slot) = true := Entry.inUse_congr copy ▸ more.2
      refine (ih (slot + 1) content fs1 (slots.quiet hq) (by omega) (by omega)).mono ?_
      rintro r fs' ⟨quiet', j, low, high, ofs, was, free⟩
      rw [hq.same_slots] at was free
      refine ⟨hq.trans quiet', j, by omega, high, ofs, fun m first last => ?_,
        fun room => free (hq.plenty room)⟩
      grind
    · refine .pure ⟨hq, slot, Nat.le_refl _, hb, rfl, fun m first last => by omega,
        fun room below => ?_⟩
      have all := full room below
      rw [Bool.eq_false_iff]
      intro inUse
      rw [← Entry.inUse_congr (read all).2] at inUse
      exact more ⟨all, inUse⟩

/-- The slot now has these 20 bytes, and nothing else has changed. -/
@[grind cases] structure Refills (fs fs' : FS) (data : InodeDisk) (k slot : Nat) (e : Bytes) :
    Prop where
  inside : slot < k
  kept : fs' = { fs with disk := fs'.disk, memory := fs'.memory }
  plenty : Plenty fs → Plenty fs'
  disk : ∀ x, ¬ data.Holds x → fs'.disk x = fs.disk x
  here : SameEntry (fs'.slot data slot) e
  others : ∀ m, m ≠ slot → SameEntry (fs'.slot data m) (fs.slot data m)

/-- A slot is written as a whole or not at all. -/
theorem wp_writeSlot (slots : Slots fs dir data k) (e : Bytes) (hb : slot ≤ k) :
    Wp (inodeWriteAt dir.inode e entrySize (entrySize * slot)) (fun n fs' =>
      (n = entrySize → Refills fs fs' data k slot e) ∧ (n ≠ entrySize → Quiet fs fs') ∧
      (Lucky fs → (fs.inode dir.inode).denyWriteCnt = 0 → slot < k → n = entrySize)) fs := by
  have hi := slots.inside
  rw [← slots.stored] at hi
  apply (wp_inodeWriteAt_lucky _ e _ _ hi).mono
  rintro n fs' ⟨moved, unlucky, _, wrote⟩
  rw [slots.stored] at moved wrote
  have length := slots.length
  have full : Lucky fs ∧ (fs.inode dir.inode).denyWriteCnt = 0 → slot < k → n = entrySize := by
    intro ok h
    rw [moved.full ⟨.inl ok.1, ok.2⟩, length]
    simp only [available, entrySize] at h ⊢
    omega
  refine ⟨?_, ?_, fun lucky allowed => full ⟨lucky, allowed⟩⟩
  · rintro rfl
    have within := moved.within
    rw [length] at within
    have h : slot < k := by
      simp only [entrySize] at within
      omega
    refine ⟨h, wrote.kept, wrote.plenty, fun x out => ?_, fun j below => ?_,
      fun m ne j below => ?_⟩
    · apply wrote.outside
      rintro pos low high rfl
      refine out ⟨pos, ?_, rfl⟩
      rw [length]
      simp only [entrySize] at low high ⊢
      omega
    · rw [FS.slot, wrote.bytes, if_pos (by omega)]
      congr 1
      omega
    · rw [FS.slot, wrote.bytes, if_neg ?_]
      · rfl
      · unfold entrySize at *
        omega
  · intro partly
    have none : n = 0 := by
      by_cases ok : Lucky fs ∧ (fs.inode dir.inode).denyWriteCnt = 0
      · by_cases h : slot < k
        · exact absurd (full ok h) partly
        · apply moved.beyond
          rw [length]
          simp only [entrySize]
          omega
      · exact unlucky ok (by decide)
    subst none
    have disk : fs'.disk = fs.disk := funext fun x => wrote.outside x fun pos low high => by omega
    refine ⟨?_, wrote.plenty⟩
    rw [wrote.kept, disk]

theorem Quiet.refills (hq : Quiet fs fs1) (refills : Refills fs1 fs' data k slot e) :
    Refills fs fs' data k slot e := by
  have room := hq.plenty
  obtain ⟨memory, rfl⟩ := hq.eq
  exact ⟨refills.inside, by rw [refills.kept], refills.plenty ∘ room, refills.disk, refills.here,
    refills.others⟩

/-- A slot has got the new entry. With memory it was free, and no slot had the name. -/
@[grind cases] structure Adds (fs fs' : FS) (data : InodeDisk) (k : Nat) (name : CString)
    (s : Nat) :
    Prop where
  short : name.length ≠ 0 ∧ name.length ≤ nameMax
  slot : ∃ slot e, Refills fs fs' data k slot (Entry.fill e name s) ∧
    (Plenty fs → Entry.inUse (fs.slot data slot) = false)
  absent : Plenty fs → ∀ m < k, ¬ fs.Names data m name

theorem wp_dirAdd_slots (slots : Slots fs dir data k) (ends : fs.Ended data k) (name : CString)
    (s : Nat) :
    Wp (dirAdd dir name s) (fun added fs' =>
      (added = true → Adds fs fs' data k name s) ∧
      (added = false → Quiet fs fs' ∧ (Plenty fs → (fs.inode dir.inode).denyWriteCnt = 0 →
        name.length = 0 ∨ nameMax < name.length ∨ (∃ m < k, fs.Names data m name) ∨
          ∀ m < k, Entry.inUse (fs.slot data m) = true))) fs := by
  unfold dirAdd
  split_ifs with invalid
  · refine .pure ⟨nofun, fun _ => ⟨.refl fs, fun _ _ => ?_⟩⟩
    exact invalid.imp_right .inl
  refine .bind ((wp_lookup_slots slots ends name).mono ?_)
  rintro r fs1 ⟨quiet1, res⟩
  cases r with
  | some found =>
    obtain ⟨j, hb, _, hit, _⟩ := res
    exact .pure ⟨nofun, fun _ => ⟨quiet1, fun _ _ => .inr (.inr (.inl ⟨j, hb, hit⟩))⟩⟩
  | none =>
    have slots1 := slots.quiet quiet1
    refine .bind (.get ?_)
    rw [slots1.turns]
    refine .bind ((wp_freeSlots _ 0 fs1.junk fs1 slots1 (Nat.zero_le _) (Nat.zero_add _)).mono ?_)
    rintro ⟨_, e⟩ fs2 ⟨quiet2, j, _, high, rfl, was, free⟩
    rw [quiet1.same_slots] at was free
    have inUse : ∀ m < j, Entry.inUse (fs.slot data m) = true := fun m => was m (Nat.zero_le m)
    refine .bind ((wp_writeSlot (slots1.quiet quiet2) _ high).mono ?_)
    intro n fs' ⟨hw, stopped, full⟩
    have hq := quiet1.trans quiet2
    refine .pure ⟨fun all => ?_, fun short => ⟨?_, fun room allowed => ?_⟩⟩
    · have refills := hq.refills (hw (of_decide_eq_true all))
      exact ⟨by omega, ⟨j, e, refills, fun room => free (quiet1.plenty room) refills.inside⟩, res⟩
    · exact hq.trans (stopped (of_decide_eq_false short))
    · right; right; right
      intro m hb
      apply inUse
      by_contra past
      have denied : (fs2.inode dir.inode).denyWriteCnt = 0 := by
        rw [hq.kept]
        exact allowed
      exact of_decide_eq_false short (full (hq.plenty room).lucky denied (by omega))

/-! ### What is written -/

section
variable {s : Nat}

theorem Entry.inUse_fill (short : name.length ≤ nameMax) :
    Entry.inUse (Entry.fill e name s) = true := by
  unfold nameMax at short
  have past : ¬ (19 < 4 + name.length) ∧ 19 ≠ 4 + name.length := by omega
  simp [Entry.inUse, Entry.fill, past]

theorem Entry.inodeSector_fill (hb : s < 2 ^ 32) : Entry.inodeSector (Entry.fill e name s) = s := by
  have eq : get32 (Entry.fill e name s) 0 = get32 (put32 s) 0 :=
    get32_congr fun i four => by simp [Entry.fill, four]
  rw [Entry.inodeSector, eq, get32_put32 hb]

theorem Entry.fill_end : Entry.fill e name s (4 + name.length) = 0 := by
  simp [Entry.fill]

theorem Entry.inUse_clear : Entry.inUse (Entry.clear e) = false := by
  simp [Entry.inUse, Entry.clear]

end

/-! ### Reading the directory -/

/-- The names in the slots from `slot` on. -/
def FS.namesFrom (fs : FS) (data : InodeDisk) (k slot : Nat) : List (List UInt8) :=
  (range' slot (k - slot)).filterMap fun j =>
    if Entry.inUse (fs.slot data j) then some (Entry.name (fs.slot data j)) else none

theorem FS.namesFrom_cons (hi : slot < k) : fs.namesFrom data k slot =
    if Entry.inUse (fs.slot data slot) then
      Entry.name (fs.slot data slot) :: fs.namesFrom data k (slot + 1)
    else fs.namesFrom data k (slot + 1) := by
  unfold FS.namesFrom
  rw [show k - slot = k - (slot + 1) + 1 by omega, range'_succ, filterMap_cons]
  split_ifs <;> rfl

theorem FS.namesFrom_end (past : k ≤ slot) : fs.namesFrom data k slot = [] := by
  unfold FS.namesFrom
  rw [Nat.sub_eq_zero_of_le past]
  rfl

theorem Quiet.same_names (hq : Quiet fs fs') : fs'.namesFrom = fs.namesFrom := by
  funext data k slot
  simp only [FS.namesFrom, hq.same_slots]

theorem Entry.name_congr (eq : SameEntry e e') : Entry.name e = Entry.name e' := by
  unfold Entry.name
  congr 1
  refine map_congr_left fun i hb => eq _ ?_
  rw [mem_range] at hb
  unfold nameMax at hb
  unfold entrySize
  omega

/-- The directory may be read from any position. -/
theorem Slots.at (slots : Slots fs dir data k) (pos : Nat) : Slots fs { dir with pos } data k :=
  ⟨slots.stored, slots.length, slots.inside⟩

/-- The next name, and the position behind it. -/
theorem wp_readdirSlots (turns : Nat) : ∀ (slot : Nat) (dir : Dir) (e : Bytes) (fs : FS),
    Slots fs dir data k → Plenty fs → dir.pos = entrySize * slot → slot ≤ k → k < slot + turns →
    Wp (readdirLoop turns dir e) (fun r fs' => Quiet fs fs' ∧ match r with
      | (none, _) => fs.namesFrom data k slot = []
      | (some name, dir') => ∃ j, slot ≤ j ∧ j < k ∧ dir' =
          { dir with pos := entrySize * (j + 1) } ∧
          fs.namesFrom data k slot = name :: fs.namesFrom data k (j + 1)) fs := by
  induction turns with
  | zero => intro slot dir e fs _ _ _ hb past; omega
  | succ turns ih =>
    intro slot dir e fs slots room place hb left
    refine .bind ?_
    rw [place]
    refine (wp_readSlot slots slot e).mono ?_
    rintro ⟨n, content⟩ fs1 ⟨hq, read, full⟩
    dsimp only at read full ⊢
    split_ifs with all inUse
    · obtain ⟨h, copy⟩ := read all
      rw [Entry.inUse_congr copy] at inUse
      refine .pure ⟨hq, slot, Nat.le_refl _, h, rfl, ?_⟩
      rw [FS.namesFrom_cons h, if_pos inUse, Entry.name_congr copy]
    · obtain ⟨h, copy⟩ := read all
      rw [Entry.inUse_congr copy] at inUse
      refine (ih (slot + 1) _ content fs1 ((slots.quiet hq).at _) (hq.plenty room) rfl
        (by omega) (by omega)).mono ?_
      rintro r fs' ⟨quiet', res⟩
      refine ⟨hq.trans quiet', ?_⟩
      rw [FS.namesFrom_cons h, if_neg inUse, ← hq.same_names]
      match r, res with
      | (none, _), res => exact res
      | (some name, _), ⟨j, later, hi, position, names⟩ =>
        exact ⟨j, by omega, hi, position, names⟩
    · refine .pure ⟨hq, FS.namesFrom_end (not_lt.mp fun h => all (full room h))⟩

theorem wp_lsSlots (turns : Nat) : ∀ (slot : Nat) (dir : Dir) (fs : FS),
    Slots fs dir data k → Plenty fs → dir.pos = entrySize * slot → slot ≤ k → k < slot + turns →
    Wp (lsLoop turns dir) (fun r fs' => Quiet fs fs' ∧ r = fs.namesFrom data k slot) fs := by
  induction turns with
  | zero => intro slot dir fs _ _ _ hb past; omega
  | succ turns ih =>
    intro slot dir fs slots room place hb left
    have he : k < slot + fs.turns dir := by rw [slots.turns]; omega
    refine .bind (.bind (.get ((wp_readdirSlots _ slot dir _ fs slots room place hb he).mono ?_)))
    rintro r fs1 ⟨hq, res⟩
    match r, res with
    | (none, _), res => exact .pure ⟨hq, res.symm⟩
    | (some name, _), ⟨j, later, hi, rfl, names⟩ =>
      refine .bind ((ih (j + 1) _ fs1 ((slots.quiet hq).at _) (hq.plenty room) rfl (by omega)
        (by omega)).mono ?_)
      rintro rest fs2 ⟨quiet2, rfl⟩
      exact .pure ⟨hq.trans quiet2, by rw [names, hq.same_names]⟩

end Pintos.Filesys
