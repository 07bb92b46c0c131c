import Mathlib.Order.CompletePartialOrder
import Mathlib.Tactic.IntervalCases
import Pintos.Filesys.References

/-!
# Sectors and the free map

The sectors an inode occupies, and what the functions of `free-map.c` and
`inode_create` do to the device and the free map.
-/

namespace Pintos.Filesys

open LittleEndian Prog List

/-- The sectors of the data of an inode. -/
def InodeDisk.extent (d : InodeDisk) : Set Nat :=
  Set.Ico d.start (d.start + bytesToSectors d.length)

/-- The inode on the device in a sector. -/
def FS.data (fs : FS) (sector : Nat) : InodeDisk := decodeInode (fs.disk sector)

variable {fs fs' fs'' : FS} {d : InodeDisk} {X Y : Set Nat} {start cnt sector : Nat}

theorem sectors_cover {length : Int} (short : length < 2 ^ 31) {pos : Nat} (hi : pos < length) :
    pos / 512 < bytesToSectors length := by
  have wrapped : toInt32 (ofInt32 (length + 511)) =
      if length + 511 < 2 ^ 31 then length + 511 else -(2 ^ 32 - length - 511) := by
    unfold toInt32 ofInt32
    split_ifs <;> omega
  unfold bytesToSectors
  rw [wrapped]
  split_ifs
  · rw [Int.tdiv_eq_ediv_of_nonneg (by omega), ofInt32]
    omega
  · rw [Int.neg_tdiv, Int.tdiv_eq_ediv_of_nonneg (by omega), ofInt32]
    omega

/-- An inode whose data is on the device. -/
@[grind cases] structure Placed (size : Nat) (d : InodeDisk) : Prop where
  short : d.length < 2 ^ 31
  inside : ∀ x ∈ d.extent, x < size

theorem Placed.mem {size pos : Nat} (placed : Placed size d) (hi : (pos : Int) < d.length) :
    d.start + pos / 512 ∈ d.extent := by
  have := sectors_cover placed.short hi
  exact Set.mem_Ico.mpr ⟨Nat.le_add_right .., by omega⟩

theorem Placed.reads {size : Nat} (placed : Placed size d) : Inside size d :=
  fun _ hi => placed.inside _ (placed.mem hi)

theorem Wrote.outside_extent {ok : Prop} {size offset n : Nat} {b : Bytes}
    (hw : Wrote fs fs' d.start offset n b) (placed : Placed fs.size d)
    (hm : Moved ok d.length size offset n) {x : Nat} (out : x ∉ d.extent) :
    fs'.disk x = fs.disk x := by
  refine hw.outside x fun pos low high eq => out (eq ▸ placed.mem ?_)
  have := hm.within
  omega

theorem decodeInode_length (b : Bytes) : (decodeInode b).length < 2 ^ 31 := by
  have := get32_lt b 4
  simp only [decodeInode, toInt32]
  split_ifs <;> omega

theorem decode_encodeInode (startBound : d.start < 2 ^ 32) (low : -2 ^ 31 ≤ d.length)
    (high : d.length < 2 ^ 31) (magicBound : d.magic < 2 ^ 32) :
    decodeInode (encodeInode d) = d := by
  have word : ∀ {n : Nat} (place : Nat), n < 2 ^ 32 →
      (∀ i < 4, encodeInode d (place + i) = put32 n i) → get32 (encodeInode d) place = n := by
    intro n place hb eq
    have same' : get32 (fun i => encodeInode d (place + i)) 0 = get32 (put32 n) 0 :=
      get32_congr (by simpa using eq)
    rw [← get32_put32 hb, ← same']
    simp [get32]
  have startWord : get32 (encodeInode d) 0 = d.start := by
    refine word 0 startBound fun i four => ?_
    simp [encodeInode, four]
  have lengthWord : get32 (encodeInode d) 4 = ofInt32 d.length := by
    refine word 4 (ofInt32_lt _) fun i four => ?_
    simp [encodeInode, show 4 + i < 8 by omega]
  have magicWord : get32 (encodeInode d) 8 = d.magic := by
    refine word 8 magicBound fun i four => ?_
    simp [encodeInode, show ¬ 8 + i < 4 by omega, show 8 + i < 12 by omega]
  simp [decodeInode, startWord, lengthWord, magicWord, toInt32_ofInt32 low high]

/-! ### The bits -/

@[simps] def FS.mark (fs : FS) (start cnt : Nat) (value : Bool) : FS :=
  { fs with bits := fun i => if start ≤ i ∧ i < start + cnt then value else fs.bits i }

theorem wp_bitmapSetMultiple {value : Bool} (hi : start + cnt ≤ fs.size) :
    Wp (bitmapSetMultiple start cnt value) (fun _ fs' => fs' = fs.mark start cnt value) fs :=
  .bind (.get (.bind (.assert (by omega) (.bind (.assert hi (.set rfl))))))

theorem wp_bitmapAll (hi : start + cnt ≤ fs.size)
    (used : ∀ x ∈ Set.Ico start (start + cnt), fs.bits x = true) :
    Wp (bitmapAll start cnt) (fun all fs' => all = true ∧ fs' = fs) fs := by
  refine .bind (.bind (.get (.bind (.assert (by omega) (.bind (.assert hi (.pure ?_)))))))
  refine .pure ⟨?_, rfl⟩
  simp only [Bool.not_eq_true', any_eq_false, mem_range]
  intro i hb
  simp [used (start + i) ⟨by omega, by omega⟩]

theorem bitmapScan_spec {bits : Nat → Bool} {size idx : Nat}
    (found : bitmapScan size bits cnt false = some idx) :
    idx + cnt ≤ size ∧ ∀ x ∈ Set.Ico idx (idx + cnt), bits x = false := by
  unfold bitmapScan at found
  split_ifs at found with hf
  obtain ⟨free, hb⟩ := And.intro (find?_some found) (mem_of_find?_eq_some found)
  rw [mem_range] at hb
  refine ⟨by omega, fun x ⟨low, high⟩ => ?_⟩
  have := all_eq_true.mp free (x - idx) (mem_range.mpr (by omega))
  rw [show idx + (x - idx) = x by omega] at this
  simpa using this

theorem wp_bitmapScanAndFlip (cnt : Nat) :
    Wp (bitmapScanAndFlip cnt false) (fun r fs' => match r with
      | none => fs' = fs
      | some idx => idx + cnt ≤ fs.size ∧ (∀ x ∈ Set.Ico idx (idx + cnt), fs.bits x = false) ∧
          fs' = fs.mark idx cnt true) fs := by
  refine .bind (.get ?_)
  split
  · exact .pure rfl
  · rename_i idx found
    obtain ⟨hi, free⟩ := bitmapScan_spec found
    refine .bind ((wp_bitmapSetMultiple hi).mono ?_)
    rintro _ fs' rfl
    exact .pure ⟨hi, free, rfl⟩

/-! ### The file of the free map -/

/-- The device has changed in the sectors `X` only, and with it the bits. -/
@[grind cases] structure Writes (X : Set Nat) (fs fs' : FS) : Prop where
  kept : fs' = { fs with disk := fs'.disk, bits := fs'.bits, memory := fs'.memory }
  plenty : Plenty fs → Plenty fs'
  disk : ∀ x ∉ X, fs'.disk x = fs.disk x

theorem Writes.refl (fs : FS) : Writes X fs fs := ⟨rfl, id, fun _ _ => rfl⟩

theorem Writes.mark (fs : FS) (start cnt : Nat) (value : Bool) :
    Writes X fs (fs.mark start cnt value) :=
  ⟨rfl, id, fun _ _ => rfl⟩

theorem Writes.mono (hw : Writes X fs fs') (larger : X ⊆ Y) : Writes Y fs fs' :=
  ⟨hw.kept, hw.plenty, fun x out => hw.disk x fun mem => out (larger mem)⟩

theorem Writes.trans (first : Writes X fs fs') (second : Writes X fs' fs'') : Writes X fs fs'' :=
  ⟨by rw [second.kept, first.kept], second.plenty ∘ first.plenty,
    fun x out => (second.disk x out).trans (first.disk x out)⟩

theorem Quiet.writes (hq : Quiet fs fs') : Writes X fs fs' :=
  ⟨by rw [hq.kept], hq.plenty, fun _ _ => by rw [hq.kept]⟩

theorem Writes.size (hw : Writes X fs fs') : fs'.size = fs.size := by rw [hw.kept]

theorem testBit_bitmapBytes (bits : Nat → Bool) (j : Nat) {b : Nat} (bit : b < 8) :
    (bitmapBytes bits j).toNat.testBit b = bits (8 * j + b) := by
  simp only [bitmapBytes, range, range.loop, map_cons, map_nil, sum_cons,
    sum_nil]
  -- eight bits, of which `b` is one
  have byte : ∀ b0 b1 b2 b3 b4 b5 b6 b7 : Bool, ∀ b < 8, (UInt8.ofNat ((if b0 then 2 ^ 0 else 0) +
      ((if b1 then 2 ^ 1 else 0) + ((if b2 then 2 ^ 2 else 0) + ((if b3 then 2 ^ 3 else 0) +
      ((if b4 then 2 ^ 4 else 0) + ((if b5 then 2 ^ 5 else 0) + ((if b6 then 2 ^ 6 else 0) +
      ((if b7 then 2 ^ 7 else 0) + 0))))))))).toNat.testBit b =
        [b0, b1, b2, b3, b4, b5, b6, b7].getD b false := by decide +kernel
  rw [byte _ _ _ _ _ _ _ _ b bit]
  interval_cases b <;> rfl

theorem bit_byte {size x : Nat} (hb : x < size) : x / 8 < byteCnt size := by
  unfold byteCnt elemCnt
  omega

/-- The row of bytes at `start` holds the free map. -/
def FS.Synced (fs : FS) (start : Nat) : Prop :=
  ∀ x < fs.size, (fs.byteAt start (x / 8)).toNat.testBit (x % 8) = fs.bits x

theorem wp_bitmapWrite (fs : FS) (file : FilePtr) {d : InodeDisk}
    (data : (fs.inode (fs.file file).inode).data = d) (placed : Placed fs.size d) :
    Wp (bitmapWrite file) (fun r fs' => Writes d.extent fs fs' ∧ fs'.bits = fs.bits ∧
      (r = true → fs'.Synced d.start) ∧
      (Plenty fs → (fs.inode (fs.file file).inode).denyWriteCnt = 0 →
        d.length = byteCnt fs.size → r = true)) fs := by
  refine .bind (.get (.bind (.bind (.get ?_))))
  refine (wp_inodeWriteAt _ _ _ 0 (data ▸ placed.reads)).mono fun n fs' ⟨moved, _, wrote⟩ => ?_
  rw [data] at moved wrote
  have bits : fs'.bits = fs.bits := by rw [wrote.kept]
  refine .pure ⟨⟨by rw [wrote.kept], wrote.plenty, fun x out => ?_⟩, bits, fun all x hb => ?_, ?_⟩
  · exact wrote.outside_extent placed moved out
  · obtain rfl : n = byteCnt fs.size := of_decide_eq_true all
    rw [wrote.size] at hb
    rw [wrote.bytes, if_pos ⟨Nat.zero_le _, by have := bit_byte hb; omega⟩, Nat.sub_zero,
      testBit_bitmapBytes _ _ (Nat.mod_lt x (by decide)), Nat.div_add_mod, bits]
  · intro room writable length
    rw [moved.full ⟨room, writable⟩, available, length]
    simp

/-- The inode of the open file of the free map. -/
def FS.mapInode (fs : FS) : Option InodePtr := fs.freeMapFile.map fun m => (fs.file m).inode

def FS.mapExtent (fs : FS) : Set Nat :=
  {x | ∃ i, fs.mapInode = some i ∧ x ∈ (fs.inode i).data.extent}

/-- A write of the free map reaches the device, memory permitting. -/
def MapSaves (fs : FS) : Prop := ∀ i, fs.mapInode = some i →
  (fs.inode i).denyWriteCnt = 0 ∧ (fs.inode i).data.length = byteCnt fs.size

def MapSynced (fs : FS) : Prop := ∀ i, fs.mapInode = some i → fs.Synced (fs.inode i).data.start

/-- The file of the free map is on the device, in sectors that are in use. -/
def MapPlaced (fs : FS) : Prop := ∀ i, fs.mapInode = some i →
  Placed fs.size (fs.inode i).data ∧ ∀ x ∈ (fs.inode i).data.extent, fs.bits x = true

theorem wp_freeMapAllocate (cnt : Nat) (map : MapPlaced fs) :
    Wp (freeMapAllocate cnt) (fun r fs' => Writes fs.mapExtent fs fs' ∧
      (match r with
      | none => fs'.bits = fs.bits
      | some idx => idx + cnt ≤ fs.size ∧ (∀ x ∈ Set.Ico idx (idx + cnt), fs.bits x = false) ∧
          fs'.bits = (fs.mark idx cnt true).bits) ∧ (r.isSome = true → MapSynced fs') ∧
      (Plenty fs → MapSaves fs → MapSynced fs → MapSynced fs')) fs := by
  refine .bind ((wp_bitmapScanAndFlip cnt).mono fun r fs1 scanned => ?_)
  cases r with
  | none =>
    obtain rfl : fs1 = fs := scanned
    exact .pure ⟨.refl fs1, rfl, nofun, fun _ _ => id⟩
  | some idx =>
    obtain ⟨hi, free, rfl⟩ := scanned
    refine .bind (.get ?_)
    cases file : fs.freeMapFile with
    | none =>
      simp only [FS.mark_freeMapFile, file]
      have unmapped : MapSynced (fs.mark idx cnt true) := fun i h => by
        simp [FS.mapInode, file] at h
      exact .pure ⟨.mark .., ⟨hi, free, rfl⟩, fun _ => unmapped, fun _ _ _ => unmapped⟩
    | some m =>
      have h : fs.mapInode = some (fs.file m).inode := by simp [FS.mapInode, file]
      simp only [FS.mark_freeMapFile, file]
      refine .bind ((wp_bitmapWrite (fs.mark idx cnt true) m rfl (map _ h).1).mono
        fun saved fs2 ⟨hw, bits, synced, saves⟩ => ?_)
      have changed : Writes fs.mapExtent fs fs2 :=
        (Writes.mark fs idx cnt true).trans (hw.mono fun x mem => ⟨_, h, mem⟩)
      have eq : fs2.mapInode = fs.mapInode ∧ fs2.inode = fs.inode := by
        rw [changed.kept]
        exact ⟨rfl, rfl⟩
      split_ifs with ok
      · have after : MapSynced fs2 := by
          intro i is
          rw [eq.1, h] at is
          cases is
          rw [eq.2]
          exact synced ok
        exact .pure ⟨changed, ⟨hi, free, bits⟩, fun _ => after, fun _ _ _ => after⟩
      · refine .bind ((wp_bitmapSetMultiple (by rw [changed.size]; exact hi)).mono ?_)
        rintro _ fs3 rfl
        refine .pure ⟨changed.trans (.mark ..), ?_, nofun, fun room map => ?_⟩
        · funext x
          simp only [FS.mark_bits, bits]
          split_ifs with within
          · exact (free x within).symm
          · rfl
        · exact absurd (saves room (map _ h).1 (map _ h).2) ok

theorem wp_freeMapRelease {i : InodePtr} (map : MapPlaced fs) (file : fs.mapInode = some i)
    (hi : start + cnt ≤ fs.size) (used : ∀ x ∈ Set.Ico start (start + cnt), fs.bits x = true) :
    Wp (freeMapRelease start cnt) (fun _ fs' => Writes fs.mapExtent fs fs' ∧
      fs'.bits = (fs.mark start cnt false).bits ∧
      (Plenty fs → MapSaves fs → MapSynced fs')) fs := by
  obtain ⟨m, ho, rfl⟩ := Option.map_eq_some_iff.mp file
  refine .bind ((wp_bitmapAll hi used).mono ?_)
  rintro all fs1 ⟨rfl, rfl⟩
  refine .bind (.assert rfl (.bind ((wp_bitmapSetMultiple hi).mono ?_)))
  rintro _ fs2 rfl
  refine .bind (.get ?_)
  simp only [FS.mark_freeMapFile, ho]
  refine .bind ((wp_bitmapWrite (fs1.mark start cnt false) m rfl (map _ file).1).mono
    fun saved fs2 ⟨hw, bits, synced, saves⟩ => ?_)
  have changed : Writes fs1.mapExtent fs1 fs2 :=
    (Writes.mark fs1 start cnt false).trans (hw.mono fun x mem => ⟨_, file, mem⟩)
  refine .pure ⟨changed, bits, fun room map i is => ?_⟩
  have eq : fs2.mapInode = fs1.mapInode ∧ fs2.inode = fs1.inode := by
    rw [changed.kept]
    exact ⟨rfl, rfl⟩
  rw [eq.1, file] at is
  cases is
  rw [eq.2]
  exact synced (saves room (map _ file).1 (map _ file).2)

/-! ### New inodes -/

theorem wp_zeroSectors (cnt : Nat) : ∀ (start : Nat) (fs : FS), start + cnt ≤ fs.size →
    Wp (zeroSectors start cnt) (fun _ fs' => fs' = { fs with disk := fs'.disk } ∧
      ∀ x, fs'.disk x = if x ∈ Set.Ico start (start + cnt) then fun _ => 0 else fs.disk x) fs := by
  induction cnt with
  | zero =>
    intro start fs _
    exact .pure ⟨rfl, fun x => by simp⟩
  | succ cnt ih =>
    intro start fs hi
    refine .bind ((wp_blockWrite (by omega)).mono ?_)
    rintro _ fs1 rfl
    refine (ih (start + 1) _ (by dsimp only; omega)).mono fun _ fs' ⟨hk, disk⟩ => ?_
    refine ⟨by rw [hk], fun x => ?_⟩
    rw [disk x]
    by_cases first : x = start
    · subst first
      simp
    · grind

/-- What a successful `inode_create` leaves. -/
@[grind cases] structure Created (fs fs' : FS) (sector : Nat) (length : Int) (start : Nat) :
    Prop where
  nonneg : 0 ≤ length
  inside : start + bytesToSectors length ≤ fs.size
  free : ∀ x ∈ Set.Ico start (start + bytesToSectors length), fs.bits x = false
  bits : fs'.bits = (fs.mark start (bytesToSectors length) true).bits
  writes : Writes (fs.mapExtent ∪ ({sector} ∪ Set.Ico start (start + bytesToSectors length))) fs fs'
  data : fs'.data sector = { start, length, magic := inodeMagic }
  zeros : ∀ x ∈ Set.Ico start (start + bytesToSectors length), fs'.disk x = fun _ => 0

theorem MapSynced.frame (synced : MapSynced fs) (hw : Writes X fs fs') (bits : fs'.bits = fs.bits)
    (ne : ∀ x ∈ fs.mapExtent, x ∉ X)
    (map : ∀ i, fs.mapInode = some i → Placed fs.size (fs.inode i).data)
    (length : ∀ i, fs.mapInode = some i → (fs.inode i).data.length = byteCnt fs.size) :
    MapSynced fs' := by
  intro i is x hb
  have eq : fs'.mapInode = fs.mapInode ∧ fs'.inode = fs.inode := by
    rw [hw.kept]
    exact ⟨rfl, rfl⟩
  rw [eq.1] at is
  rw [hw.size] at hb
  rw [eq.2, bits, ← synced i is x hb]
  unfold FS.byteAt
  rw [hw.disk]
  refine ne _ ⟨i, is, (map i is).mem ?_⟩
  rw [length i is]
  exact_mod_cast bit_byte hb

theorem wp_inodeCreate {length : Int} (map : MapPlaced fs) (hs : fs.size < 2 ^ 32)
    (hi : sector < fs.size) (used : fs.bits sector = true) (ha : sector ∉ fs.mapExtent)
    (low : 0 ≤ length) (high : length < 2 ^ 31) :
    Wp (inodeCreate sector length) (fun r fs' =>
      (if r then ∃ start, Created fs fs' sector length start
        else Writes fs.mapExtent fs fs' ∧ fs'.bits = fs.bits) ∧
      (r = true → (∀ i, fs.mapInode = some i → (fs.inode i).data.length = byteCnt fs.size) →
        MapSynced fs') ∧
      (Plenty fs → MapSaves fs → MapSynced fs → MapSynced fs')) fs := by
  refine .bind (.assert low (.bind (wp_malloc.mono fun ok fs1 ⟨hq, _⟩ => ?_)))
  obtain ⟨memory, rfl⟩ := hq.eq
  have synced1 : MapSynced fs → MapSynced { fs with memory } := id
  split_ifs with allocated
  · have map1 : MapPlaced { fs with memory } := map
    refine .bind ((wp_freeMapAllocate _ map1).mono fun r fs2 ⟨hw, res, always, synced⟩ => ?_)
    have changed : Writes fs.mapExtent fs fs2 := hq.writes.trans hw
    have synced2 : Plenty fs → MapSaves fs → MapSynced fs → MapSynced fs2 :=
      fun room saves was => synced (hq.plenty room) saves was
    cases r with
    | none => exact .pure ⟨⟨changed, res⟩, nofun, synced2⟩
    | some start =>
      obtain ⟨hf, free, bits⟩ : _ ∧ (∀ x ∈ _, fs.bits x = false) ∧
        fs2.bits = (fs.mark start (bytesToSectors length) true).bits := res
      have ne : sector ∉ Set.Ico start (start + bytesToSectors length) :=
        fun mem => by simp [free sector mem] at used
      refine .bind ((wp_blockWrite (by rw [changed.size]; exact hi)).mono ?_)
      rintro _ fs3 rfl
      refine .bind ((wp_zeroSectors _ start _ (by dsimp only; rw [changed.size]; exact hf)).mono
        fun _ fs4 ⟨hk, disk⟩ => .pure ?_)
      have bits4 : fs4.bits = fs2.bits := by rw [hk]
      have last : Writes ({sector} ∪ Set.Ico start (start + bytesToSectors length)) fs2 fs4 := by
        refine ⟨by rw [hk], fun room => by rw [hk]; exact room, fun x out => ?_⟩
        rw [disk x, if_neg fun mem => out (.inr mem)]
        exact Function.update_of_ne (fun eq => out (.inl eq)) ..
      have after : (∀ i, fs.mapInode = some i → (fs.inode i).data.length = byteCnt fs.size) →
          MapSynced fs4 := by
        intro length
        have was := always rfl
        obtain ⟨disk2, bits2, memory2, rfl⟩ : ∃ disk bits memory, fs2 =
          { fs with disk, bits, memory } :=
          ⟨_, _, _, changed.kept⟩
        refine was.frame last bits4 ?_ (fun i is => (map i is).1) length
        rintro x ⟨i, is, mem⟩ (rfl | new)
        · exact ha ⟨i, is, mem⟩
        · have := (map i is).2 x mem
          simp [free x new] at this
      refine ⟨⟨start, low, hf, free, bits4.trans bits,
        (changed.mono Set.subset_union_left).trans (last.mono Set.subset_union_right), ?_, ?_⟩,
        fun _ => after, fun _ saves _ => after fun i is => (saves i is).2⟩
      · have h : fs4.disk sector = encodeInode { start, length, magic := inodeMagic } := by
          rw [disk sector, if_neg ne]
          exact Function.update_self ..
        have hb : start < 2 ^ 32 := by
          have : start + bytesToSectors length ≤ fs.size := hf
          omega
        rw [FS.data, h, decode_encodeInode hb (by dsimp only; omega) high
          (show inodeMagic < 2 ^ 32 by decide)]
      · intro x mem
        rw [disk x, if_pos mem]
  · exact .pure ⟨⟨hq.writes, rfl⟩, fun hm => absurd hm (by simp), fun _ _ => synced1⟩

end Pintos.Filesys
