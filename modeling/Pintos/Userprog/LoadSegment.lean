import Pintos.Filesys.Session
import Pintos.Userprog.Frames
import Pintos.Userprog.PageDirRun

/-!
# Segments of an executable

The loop of `load_segment` maps one new page after the other, each with bytes of the file and zeros
behind them. What `validate_segment` demands keeps the arithmetic of `load` within 32 bits.
-/

namespace Pintos.Userprog

open LittleEndian Prog Paging Filesys Machine List Option

/-- The file that is loaded is open, and the process has what it has obtained so far. -/
@[grind cases] structure Loading (r0 : Ram) (others : List Nat) (m : FilePtr)
    (opened : List FilePtr) (file : FilePtr)
    (pd : Nat) (tables frames : Nat → Option Nat) (s : Loader) : Prop where
  served : Served False s.fs m opened
  member : file ∈ opened
  backed : Backed r0 others s.ram pd tables frames

/-- What loading has left alone: the file, and what was mapped outside of `n` pages from `u` on. -/
@[grind cases] structure Extends (file : FilePtr) (u n : Nat) (s : Loader)
    (tables frames : Nat → Option Nat)
    (s' : Loader) (tables' frames' : Nat → Option Nat) : Prop where
  file : SameFile file s.fs s'.fs
  keeps : Keeps s.ram tables frames s'.ram tables' frames'
  inside : ∀ v, frames' v ≠ frames v → u ≤ v ∧ v < u + n

/-- `n` pages from `u` on hold `readBytes` bytes of the file from `pos` on, and zeros. -/
def Holds (fs : FS) (file : FilePtr) (pos readBytes u n : Nat) (r : Ram)
    (frames : Nat → Option Nat) :
    Prop :=
  ∀ i < n, ∃ k, frames (u + i) = some k ∧ ∀ j < 4096, if 4096 * i + j < readBytes then
    fs.fileByte file (pos + (4096 * i + j)) = some (ramBytes r k j) else ramBytes r k j = 0

section
variable {r0 : Ram} {others : List Nat} {m file : FilePtr} {opened : List FilePtr} {pd : Nat}
  {tables tables' tables'' frames frames' frames'' : Nat → Option Nat} {s s' s'' : Loader}

theorem sub32_of_le {a b : Nat} (le : b ≤ a) (hf : a < 2 ^ 32) : sub32 a b = a - b := by
  unfold sub32
  omega

namespace Loading

section
variable (hl : Loading r0 others m opened file pd tables frames s)
include hl

theorem wp_readPage {kpage : Nat}
    (held : kpage ∈ others) (size : Nat) : Wp (readPage file kpage size) (fun n s' =>
      Loading r0 others m opened file pd tables frames s' ∧ SameFile file s.fs s'.fs ∧
      Keeps s.ram tables frames s'.ram tables frames ∧ n ≤ size ∧
      (s'.fs.file file).pos = (s.fs.file file).pos + n ∧
      ∀ j < 4096, j < n → s.fs.fileByte file ((s.fs.file file).pos + j) = some
        (ramBytes s'.ram kpage j)) s := by
  unfold readPage onFiles onRam
  simp only [wp_bind, wp_get, wp_zoom, wp_pure]
  apply (hl.served.read hl.member _).mono
  rintro ⟨n, bytes⟩ fs' ⟨hs, eq, pos, most, content, _⟩
  simp only [wp_storePage]
  obtain ⟨hb, keeps⟩ := hl.backed.store held bytes
  refine ⟨⟨hs, hl.member, hb⟩, eq, keeps, most, pos, fun j hi lt => ?_⟩
  rw [content j lt, ramBytes_withPage (hl.backed.isPage held).aligned hi]

theorem wp_clearRest {kpage : Nat}
    (held : kpage ∈ others) (from_ : Nat) : Wp (onRam (clearRest kpage from_)) (fun _ s' =>
      Loading r0 others m opened file pd tables frames s' ∧ s'.fs = s.fs ∧
      Keeps s.ram tables frames s'.ram tables frames ∧
      ∀ j < 4096, ramBytes s'.ram kpage j = if from_ ≤ j then 0 else ramBytes s.ram kpage j) s := by
  unfold onRam clearRest
  simp only [wp_zoom, wp_bind, wp_get, wp_storePage]
  obtain ⟨hb, keeps⟩ := hl.backed.store held
    fun i => if from_ ≤ i then 0 else ramBytes s.ram kpage i
  refine ⟨⟨hl.served, hl.member, hb⟩, trivial, keeps, fun j hi => ?_⟩
  exact ramBytes_withPage (hl.backed.isPage held).aligned hi

theorem wp_free {kpage : Nat}
    (held : kpage ∈ others) : Wp (onRam (pallocFreePage kpage)) (fun _ s' =>
      Loading r0 (others.erase kpage) m opened file pd tables frames s' ∧ s'.fs = s.fs ∧
      Keeps s.ram tables frames s'.ram tables frames) s := by
  unfold onRam
  rw [wp_zoom]
  apply (hl.backed.wp_free held).mono
  exact fun _ r' ⟨hb, keeps⟩ => ⟨⟨hl.served, hl.member, hb⟩, rfl, keeps⟩

end

end Loading

theorem Extends.refl (file : FilePtr) (u n : Nat) (s : Loader) (tables frames : Nat → Option Nat) :
    Extends file u n s tables frames s tables frames :=
  ⟨.refl file s.fs, .of_words rfl, fun _ differs => absurd rfl differs⟩

theorem Extends.trans {u n : Nat} (first : Extends file u n s tables frames s' tables' frames')
    (second : Extends file u n s' tables' frames' s'' tables'' frames'') :
    Extends file u n s tables frames s'' tables'' frames'' := by
  refine ⟨first.file.trans second.file, first.keeps.trans second.keeps, fun v differs => ?_⟩
  by_cases eq : frames'' v = frames' v
  · exact first.inside v (eq ▸ differs)
  · exact second.inside v eq

theorem Extends.mono {u n u' n' : Nat}
    (extends_ : Extends file u n s tables frames s' tables' frames')
    (low : u' ≤ u) (high : u + n ≤ u' + n') :
    Extends file u' n' s tables frames s' tables' frames' := by
  constructor <;> grind [Function.update_apply]

/-! ### The loop -/

section
variable {fs : FS} {pos readBytes u n : Nat} {r r' : Ram}

/-- A first page and the pages behind it. -/
theorem Holds.cons (first : Holds fs file pos (min readBytes 4096) u 1 r frames)
    (keeps : Keeps r tables frames r' tables' frames')
    (rest : Holds fs file (pos + min readBytes 4096) (readBytes - min readBytes 4096) (u + 1)
      n r' frames') :
    Holds fs file pos readBytes u (n + 1) r' frames' := by
  intro i hi
  cases i with
  | zero =>
    obtain ⟨k, is, bytes⟩ := first 0 (by omega)
    obtain ⟨is', hk⟩ := keeps.frame _ k is
    refine ⟨k, is', fun j lt => ?_⟩
    have bytes := bytes j lt
    rw [hk j lt]
    split at bytes <;> split
    · exact bytes
    · omega
    · omega
    · exact bytes
  | succ i =>
    obtain ⟨k, is, bytes⟩ := rest i (by omega)
    refine ⟨k, by rwa [Nat.add_assoc, Nat.add_comm 1 i] at is, fun j lt => ?_⟩
    have bytes := bytes j lt
    split at bytes <;> split
    · rwa [show pos + min readBytes 4096 + (4096 * i + j) = pos + (4096 * (i + 1) + j) by omega]
        at bytes
    · omega
    · omega
    · exact bytes

end

namespace Loading

theorem wp_loadPage (hl : Loading r0 others m opened file pd tables frames s) {upage n : Nat}
    (ha : pgOfs upage = 0) (user : isUserVaddr upage) (hw : Bool) :
    Wp (loadPage file pd hw upage n) (fun done s' => ∃ tables' frames',
      Loading r0 others m opened file pd tables' frames' s' ∧
      Extends file (pgNo upage) 1 s tables frames s' tables' frames' ∧
      (done = true → (s'.fs.file file).pos = (s.fs.file file).pos + n ∧
        Holds s.fs file (s.fs.file file).pos n (pgNo upage) 1 s'.ram frames')) s := by
  unfold loadPage
  rw [wp_bind]
  unfold onRam
  rw [wp_zoom]
  apply hl.backed.wp_palloc
  · intro r hb keeps
    rw [wp_pure]
    exact ⟨tables, frames, ⟨hl.served, hl.member, hb⟩,
      ⟨.refl file s.fs, keeps, fun _ differs => absurd rfl differs⟩, nofun⟩
  · intro kpage r hb keeps
    have taken : Loading r0 (kpage :: others) m opened file pd tables frames { s with ram := r } :=
      ⟨hl.served, hl.member, hb⟩
    rw [wp_bind]
    apply (taken.wp_readPage (.head _) n).mono
    rintro bytesRead s1 ⟨read, same1, keeps1, _, pos, content⟩
    split
    · -- the file is too short, or memory was
      rw [wp_bind]
      apply (read.wp_free (.head _)).mono
      rintro _ s2 ⟨freed, same2, keeps2⟩
      rw [erase_cons_head] at freed
      rw [wp_pure]
      refine ⟨tables, frames, freed, ⟨?_, (keeps.trans keeps1).trans keeps2, ?_⟩, nofun⟩
      · rw [same2]
        exact same1
      · exact fun _ differs => absurd rfl differs
    · rename_i whole
      have whole : bytesRead = n := not_not.mp whole
      subst whole
      rw [wp_bind]
      apply (read.wp_clearRest (.head _) bytesRead).mono
      rintro _ s2 ⟨cleared, same2, keeps2, zeros⟩
      rw [wp_bind, wp_zoom]
      apply (cleared.backed.wp_installPage (.head _) ha user hw).mono
      rintro installed r3 ⟨tables', res⟩
      cases installed with
      | false =>
        obtain ⟨backed3, keeps3⟩ := res
        have refused : Loading r0 (kpage :: others) m opened file pd tables' frames
          { s2 with ram := r3 } :=
          ⟨cleared.served, cleared.member, backed3⟩
        simp only [Bool.not_false, if_true]
        rw [wp_bind]
        apply (refused.wp_free (.head _)).mono
        rintro _ s4 ⟨freed, same4, keeps4⟩
        rw [erase_cons_head] at freed
        rw [wp_pure]
        refine ⟨tables', frames, freed, ⟨?_, ?_, fun _ differs => absurd rfl differs⟩, nofun⟩
        · rw [same4, same2]
          exact same1
        · exact (((keeps.trans keeps1).trans keeps2).trans keeps3).trans keeps4
      | true =>
        obtain ⟨free, backed3, keeps3, bytes⟩ := res
        rw [erase_cons_head] at backed3
        simp only [Bool.not_true, Bool.false_eq_true, if_false]
        rw [wp_pure]
        refine ⟨tables', _, ⟨cleared.served, cleared.member, backed3⟩,
          ⟨?_, ?_, fun v differs => ?_⟩, fun _ => ⟨?_, ?_⟩⟩
        · rw [same2]
          exact same1
        · exact ((keeps.trans keeps1).trans keeps2).trans keeps3
        · grind
        · rw [same2]
          exact pos
        · intro i hi
          obtain rfl : i = 0 := by omega
          refine ⟨kpage, Function.update_self .., fun j lt => ?_⟩
          rw [bytes j lt, zeros j lt]
          split
          · rw [if_neg (by omega), Nat.mul_zero, Nat.zero_add]
            exact content j lt (by omega)
          · rw [if_pos (by omega)]

theorem wp_loadPages {n : Nat} (hw : Bool) {left upage readBytes zeroBytes : Nat}
    (hl : Loading r0 others m opened file pd tables frames s) (turns : n < left)
    (whole : readBytes + zeroBytes = 4096 * n) (ha : upage % 4096 = 0)
    (high : upage + 4096 * n ≤ physBase) :
    Wp (loadPages file pd hw left upage readBytes zeroBytes) (fun ended s' => ∃ tables' frames',
      Loading r0 others m opened file pd tables' frames' s' ∧
      Extends file (pgNo upage) n s tables frames s' tables' frames' ∧
      ∀ counters, ended = some counters → counters = (0, 0) ∧
        Holds s.fs file (s.fs.file file).pos readBytes (pgNo upage) n s'.ram frames') s := by
  induction n generalizing left upage readBytes zeroBytes tables frames s with
  | zero =>
    obtain ⟨left, rfl⟩ : ∃ k, left = k + 1 := ⟨left - 1, by omega⟩
    obtain ⟨rfl, rfl⟩ : readBytes = 0 ∧ zeroBytes = 0 := by omega
    rw [loadPages, if_neg (by omega), wp_pure]
    refine ⟨tables, frames, hl, .refl .., ?_⟩
    rintro _ ⟨⟩
    exact ⟨rfl, nofun⟩
  | succ n ih =>
    obtain ⟨left, rfl⟩ : ∃ k, left = k + 1 := ⟨left - 1, by omega⟩
    unfold physBase at high
    have piece : (if readBytes < pgSize then readBytes else pgSize) = min readBytes 4096 := by
      unfold pgSize
      split <;> omega
    have next : (upage + pgSize) % 2 ^ 32 = upage + 4096 := by
      unfold pgSize
      omega
    have fewer : sub32 readBytes (min readBytes 4096) = readBytes - min readBytes 4096 :=
      sub32_of_le (by omega) (by omega)
    have lt : sub32 zeroBytes (pgSize - min readBytes 4096) = zeroBytes -
      (4096 - min readBytes 4096) :=
      sub32_of_le (by unfold pgSize; omega) (by omega)
    have behind : pgNo (upage + 4096) = pgNo upage + 1 := by
      rw [pgNo_eq, pgNo_eq]
      omega
    rw [loadPages, if_pos (by omega), wp_bind]
    simp only [piece, next, fewer, lt]
    have user : isUserVaddr upage := by
      unfold isUserVaddr physBase
      omega
    apply (hl.wp_loadPage (by rw [pgOfs_eq, ha]) user hw).mono
    rintro done s1 ⟨tables1, frames1, loading1, extends1, holds1⟩
    cases done with
    | false =>
      simp only [Bool.false_eq_true, if_false, wp_pure]
      exact ⟨tables1, frames1, loading1, extends1.mono (by omega) (by omega), by simp⟩
    | true =>
      obtain ⟨pos, holds1⟩ := holds1 rfl
      simp only [if_true]
      apply (ih loading1 (by omega) (by omega) (by omega) (by unfold physBase; omega)).mono
      rintro ended s2 ⟨tables2, frames2, loading2, extends2, holds2⟩
      rw [behind] at extends2 holds2
      refine ⟨tables2, frames2, loading2, ?_, fun counters is => ?_⟩
      · exact (extends1.mono (by omega) (by omega)).trans (extends2.mono (by omega) (by omega))
      · obtain ⟨zero, rest⟩ := holds2 counters is
        refine ⟨zero, holds1.cons extends2.keeps ?_⟩
        intro i hi
        obtain ⟨k, is, bytes⟩ := rest i hi
        refine ⟨k, is, fun j hi => ?_⟩
        have bytes := bytes j hi
        rwa [extends1.file.byte, pos] at bytes

end Loading

end

/-! ### Headers -/

/-- What `validate_segment` demands of a header. -/
structure Phdr.Valid (p : Phdr) (length : Int) : Prop where
  congruent : p.offset.toNat % 4096 = p.vaddr.toNat % 4096
  start : p.offset.toNat ≤ ofInt32 length
  sizes : p.filesz.toNat ≤ p.memsz.toNat
  nonempty : 0 < p.memsz.toNat
  low : 4096 ≤ p.vaddr.toNat
  high : p.vaddr.toNat + p.memsz.toNat < physBase

namespace Phdr

def pages (p : Phdr) : Nat := (p.vaddr.toNat % 4096 + p.memsz.toNat + 4095) / 4096

variable {p : Phdr} {length : Int}

theorem and_mask {x : Nat} (hf : x < 2 ^ 32) : x &&& (2 ^ 32 - 1 - pgMask) = x / 4096 * 4096 := by
  have mask : 2 ^ 32 - 1 - pgMask = pteAddr := rfl
  rw [mask, and_pteAddr]
  omega

theorem Valid.readBytes_eq (hv : p.Valid length) : p.readBytes =
    if 0 < p.filesz.toNat then p.vaddr.toNat % 4096 + p.filesz.toNat else 0 := by
  obtain ⟨_, _, sizes, _, _, high⟩ := hv
  unfold physBase at high
  unfold readBytes
  rw [← pgOfs, pgOfs_eq]
  split
  · omega
  · rfl

/-- Nothing wraps around. -/
theorem Valid.bytes (hv : p.Valid length) : p.readBytes + p.zeroBytes = 4096 * p.pages := by
  have read := hv.readBytes_eq
  obtain ⟨_, _, sizes, _, _, high⟩ := hv
  unfold physBase at high
  have end_ : roundUpPage (((p.vaddr.toNat &&& pgMask) + p.memsz.toNat) % 2 ^ 32) =
    4096 * p.pages := by
    unfold roundUpPage pages pgSize
    rw [← pgOfs, pgOfs_eq]
    omega
  unfold zeroBytes
  dsimp only
  rw [end_]
  unfold pages at *
  split at read
  · rename_i some
    rw [if_pos some, sub32_of_le (by omega) (by omega)]
    omega
  · rename_i none
    rw [if_neg none]
    omega

theorem Valid.fits (hv : p.Valid length) :
    p.vaddr.toNat / 4096 * 4096 + 4096 * p.pages ≤ physBase := by
  obtain ⟨_, _, _, _, _, high⟩ := hv
  unfold physBase at *
  unfold pages
  omega

end Phdr

theorem wp_validateSegment {fs : FS} (p : Phdr) (file : FilePtr) :
    Wp (validateSegment p file) (fun hv fs' => fs' = fs ∧
      (hv = true → p.Valid (fs.fileData file).length)) fs := by
  unfold validateSegment fileLength
  simp only [wp_bind, wp_get, wp_pure]
  rw [← pgOfs, ← pgOfs, pgOfs_eq, pgOfs_eq]
  have vaddr := p.vaddr.toNat_lt
  have memsz := p.memsz.toNat_lt
  unfold isUserVaddr pgSize
  split_ifs with offsets start sizes empty user limit wraps low
  all_goals rw [wp_pure]
  all_goals refine ⟨rfl, fun hv => ?_⟩
  -- one branch of nine accepts
  all_goals try contradiction
  refine ⟨not_not.mp offsets, ?_, by omega, by omega, by omega, by omega⟩
  unfold FS.fileData
  omega

section
variable {r0 : Ram} {others : List Nat} {m file : FilePtr} {opened : List FilePtr} {pd : Nat}
  {tables tables' frames frames' : Nat → Option Nat} {s s' : Loader} {p : Phdr}

/-- How the loop of `load_segment` ends, for a segment. -/
def LoopEnds (file : FilePtr) (pd : Nat) (p : Phdr) (s : Loader) (done : Bool) (s' : Loader) :
    Prop :=
  ∃ s1 ended, onFiles (fileSeek file (p.offset.toNat / 4096 * 4096 : Nat)) s = .ok ((), s1) ∧
    loadPages file pd (p.flags.toNat &&& 2 ≠ 0) (2 ^ 20 + 1) (p.vaddr.toNat / 4096 * 4096)
      p.readBytes
      p.zeroBytes s1 = .ok (ended, s') ∧ done = ended.isSome ∧
    ∀ counters, ended = some counters → counters = (0, 0)

namespace Loading

section
variable (hl : Loading r0 others m opened file pd tables frames s)
include hl

theorem wp_loadValid
    (hv : p.Valid (s.fs.fileData file).length) :
    Wp (loadValid file pd p) (fun done s' => ∃ tables' frames',
      Loading r0 others m opened file pd tables' frames' s' ∧
      Extends file (p.vaddr.toNat / 4096) p.pages s tables frames s' tables' frames' ∧
      LoopEnds file pd p s done s' ∧
      (done = true → Holds s.fs file (p.offset.toNat / 4096 * 4096) p.readBytes
        (p.vaddr.toNat / 4096)
        p.pages s'.ram frames')) s := by
  obtain ⟨nonneg, short⟩ := hl.served.length_bounds hl.member
  have start := hv.start
  have small : p.offset.toNat < 2 ^ 31 := by
    unfold ofInt32 at start
    omega
  have bytes := hv.bytes
  have hf := hv.fits
  unfold physBase at hf
  have ofs : toInt32 (p.offset.toNat / 4096 * 4096) = (p.offset.toNat / 4096 * 4096 : Nat) := by
    unfold toInt32
    rw [if_pos (by omega)]
  unfold loadValid loadSegment
  simp only [Phdr.and_mask p.offset.toNat_lt, Phdr.and_mask p.vaddr.toNat_lt, ofs, pgOfs_eq,
    wp_bind,
    wp_assert]
  refine ⟨by unfold pgSize; omega, by omega, by unfold pgSize; omega, ?_⟩
  have seek : Wp (onFiles (fileSeek file (p.offset.toNat / 4096 * 4096 : Nat))) (fun _ s1 =>
      Loading r0 others m opened file pd tables frames s1 ∧ SameFile file s.fs s1.fs ∧
      (s1.fs.file file).pos = p.offset.toNat / 4096 * 4096 ∧ s1.ram = s.ram) s := by
    unfold onFiles
    rw [wp_zoom]
    apply (hl.served.seek (Int.natCast_nonneg _)).mono
    rintro _ fs1 ⟨hs, eq, pos⟩
    exact ⟨⟨hs, hl.member, hl.backed⟩, eq, pos, rfl⟩
  apply seek.traced.mono
  rintro _ s1 ⟨sought, loading1, eq, pos, ram⟩
  have page : pgNo (p.vaddr.toNat / 4096 * 4096) = p.vaddr.toNat / 4096 := by
    rw [pgNo_eq]
    omega
  apply (loading1.wp_loadPages _ (by omega) bytes (by omega)
    (by unfold physBase; omega)).traced.mono
  rintro ended s' ⟨looped, tables', frames', loading', extends_, holds⟩
  rw [wp_pure]
  rw [page] at extends_ holds
  rw [pos] at holds
  refine ⟨tables', frames', loading',
    ⟨eq.trans extends_.file, ram ▸ extends_.keeps, extends_.inside⟩, ?_, ?_⟩
  · exact ⟨s1, ended, sought, looped, rfl, fun counters is => (holds counters is).1⟩
  · intro done
    obtain ⟨counters, is⟩ := isSome_iff_exists.mp done
    intro i hi
    obtain ⟨k, is, content⟩ := (holds counters is).2 i hi
    refine ⟨k, is, fun j lt => ?_⟩
    have content := content j lt
    rwa [eq.byte] at content

/-- A header, whatever is in it. -/
theorem wp_loadHeader (p : Phdr) :
    Wp (loadHeader file pd p) (fun _ s' => ∃ tables' frames',
      Loading r0 others m opened file pd tables' frames' s') s := by
  unfold loadHeader
  split
  · rw [wp_bind]
    unfold onFiles
    rw [wp_zoom]
    apply (wp_validateSegment p file).mono
    rintro hv _ ⟨rfl, accepted⟩
    cases hv with
    | false => exact .pure ⟨tables, frames, hl⟩
    | true =>
      apply (hl.wp_loadValid (accepted rfl)).mono
      exact fun _ s' ⟨tables', frames', loading', _⟩ => ⟨tables', frames', loading'⟩
  · exact .pure ⟨tables, frames, hl⟩

theorem wp_fetchHeader (fileOfs : Int) :
    Wp (onFiles (fetchHeader file fileOfs)) (fun _ s' =>
      Loading r0 others m opened file pd tables frames s') s := by
  unfold onFiles fetchHeader fileLength
  simp only [wp_zoom, wp_bind, wp_get, wp_pure]
  split
  · exact .pure hl
  · rename_i hi
    rw [wp_bind]
    apply (hl.served.seek (by omega)).mono
    rintro _ fs1 ⟨served1, _⟩
    rw [wp_bind]
    apply (served1.read hl.member _).mono
    rintro _ fs2 ⟨served2, _⟩
    exact .pure ⟨served2, hl.member, hl.backed⟩

end

end Loading

/-! ### A run of the loop over the headers -/

/-- The two halves of a turn of the loop: the next header, and what is done with it. -/
inductive LoadEvent where
  | fetch (fileOfs : Int)
  | header (p : Phdr)

def Loader.step (file : FilePtr) (pd : Nat) (s : Loader) : LoadEvent → Option Loader
  | .fetch fileOfs =>
    match onFiles (fetchHeader file fileOfs) s with
    | .ok (some _, s') => some s'
    | _ => none
  | .header p =>
    match loadHeader file pd p s with
    | .ok (true, s') => some s'
    | _ => none

theorem Loading.step {e : LoadEvent} (hl : Loading r0 others m opened file pd tables frames s)
    (ran : s.step file pd e = some s') :
    ∃ tables' frames', Loading r0 others m opened file pd tables' frames' s' := by
  unfold Loader.step at ran
  cases e with
  | fetch fileOfs =>
    dsimp only at ran
    split at ran
    · rename_i run
      cases ran
      exact ⟨tables, frames, (hl.wp_fetchHeader fileOfs).result run⟩
    · cases ran
  | header p =>
    dsimp only at ran
    split at ran
    · rename_i run
      cases ran
      exact (hl.wp_loadHeader p).result run
    · cases ran

theorem Loading.run {ok : Loader → LoadEvent → Prop} {events : List LoadEvent}
    (hl : Loading r0 others m opened file pd tables frames s)
    (run : Machine.Run (Loader.step file pd) ok s events s') :
    ∃ tables' frames', Loading r0 others m opened file pd tables' frames' s' :=
  run.invariant (I := fun s => ∃ tables frames, Loading r0 others m opened file pd tables frames s)
    ⟨tables, frames, hl⟩ fun _ _ _ ⟨_, _, now⟩ _ ran => now.step ran

/-- A new directory is all the process holds. -/
theorem NewDir.backed {start created : Ram} (hm : NewDir start pd tables created)
    (kernel : ∀ i < pdNo physBase, tables i = none) :
    Backed start [] created pd tables (fun _ => none) where
  maps := hm.maps
  own := hm.own
  owned := ⟨nofun, nofun, nofun⟩
  ledger := by
    have nodup := pagesIn_nodup hm.maps ⟨nofun, nofun, nofun⟩
    have only : [pd].Perm (pagesIn pd tables fun _ => none) := by
      apply (perm_ext_iff_of_nodup (nodup_singleton pd) nodup).mpr
      intro p
      rw [mem_pagesIn hm.maps, mem_singleton]
      constructor
      · exact fun is => .inr (.inr is)
      · grind
    have ledger : Ledger start created ([pd] ++ []) := by
      apply (Ledger.refl start).obtain_ hm.initRamPages hm.outstanding hm.obtained hm.released
      · exact nodup_singleton pd
      · exact fun _ mem => mem_singleton.mp mem ▸ hm.isPage
      · exact fun _ mem => mem_singleton.mp mem ▸ hm.free
    rw [nil_append]
    exact ledger.perm only
  apart := nofun

end

/-! ### What a segment leaves in memory -/

section
variable {file : FilePtr} {pd : Nat} {tables tables' frames frames' : Nat → Option Nat} {p : Phdr}

theorem Holds.userByte {fs : FS} {pos readBytes u n x : Nat} {r : Ram}
    (holds : Holds fs file pos readBytes u n r frames) (hm : Maps r pd tables frames)
    (hi : x < 4096 * n) :
    if x < readBytes then ∃ b, fs.fileByte file (pos + x) = some b ∧ userByte r pd (4096 * u + x) =
      some b
    else userByte r pd (4096 * u + x) = some 0 := by
  obtain ⟨k, is, bytes⟩ := holds (x / 4096) (by omega)
  have bytes := bytes (x % 4096) (Nat.mod_lt x (by decide))
  have page : pgNo (4096 * u + x) = u + x / 4096 := by
    rw [pgNo_eq]
    omega
  have place : pgOfs (4096 * u + x) = x % 4096 := by
    rw [pgOfs_eq]
    omega
  have user : isUserVaddr (4096 * u + x) := by
    have := (hm.frame _ k is).1
    unfold userPages at this
    unfold isUserVaddr physBase
    omega
  rw [hm.userByte_eq user, page, place, is, map_some]
  rw [Nat.div_add_mod] at bytes
  split at bytes
  · rename_i read
    rw [if_pos read]
    exact ⟨_, bytes, rfl⟩
  · rename_i rest
    rw [if_neg rest, bytes]

/-- What loading a segment does: the loop ends, only user pages behind the first are mapped, and
with success the bytes of the file are in memory, with zeros up to the end of the last page. -/
structure SegmentLoaded (file : FilePtr) (pd : Nat) (p : Phdr) (s : Loader) (done : Bool)
    (s' : Loader) :
    Prop where
  ends : LoopEnds file pd p s done s'
  inside : ∀ vaddr < 2 ^ 32, translate s'.ram pd vaddr ≠ translate s.ram pd vaddr →
    translate s.ram pd vaddr = none ∧ pgSize ≤ vaddr ∧ vaddr < physBase
  kept : ∀ vaddr < physBase, translate s.ram pd vaddr ≠ none →
    translate s'.ram pd vaddr = translate s.ram pd vaddr ∧
      userByte s'.ram pd vaddr = userByte s.ram pd vaddr
  content : done = true → ∀ i < p.filesz.toNat, ∃ b,
    s.fs.fileByte file (p.offset.toNat + i) = some b ∧ userByte s'.ram pd (p.vaddr.toNat + i) =
      some b
  zeros : done = true → ∀ vaddr, p.vaddr.toNat + p.filesz.toNat ≤ vaddr →
    pgNo vaddr ≤ pgNo (p.vaddr.toNat + p.memsz.toNat - 1) → userByte s'.ram pd vaddr = some 0

theorem Loading.segment {r0 : Ram} {others : List Nat} {m : FilePtr} {opened : List FilePtr}
    {s : Loader}
    (hl : Loading r0 others m opened file pd tables frames s)
    (hv : p.Valid (s.fs.fileData file).length) :
    Wp (loadValid file pd p) (SegmentLoaded file pd p s) s := by
  apply (hl.wp_loadValid hv).mono
  rintro done s' ⟨tables', frames', loading', extends_, ends, holds⟩
  have read := hv.readBytes_eq
  obtain ⟨congruent, _, sizes, nonempty, low, high⟩ := hv
  have maps := hl.backed.maps
  have maps' := loading'.backed.maps
  constructor
  case ends => exact ends
  case inside =>
    intro vaddr fits differs
    by_cases user : isUserVaddr vaddr
    · rw [maps.translate_user user, maps'.translate_user user] at differs
      have changed : frames' (pgNo vaddr) ≠ frames (pgNo vaddr) := fun eq => differs (by rw [eq])
      have here := extends_.inside _ changed
      refine ⟨?_, ?_, user⟩
      · rw [maps.translate_user user]
        cases is : frames (pgNo vaddr) with
        | none => rfl
        | some k => exact absurd ((extends_.keeps.frame _ k is).1.trans is.symm) changed
      · rw [pgNo_eq] at here
        unfold pgSize
        omega
    · exact absurd (extends_.keeps.translate_kernel maps maps' fits user) differs
  case kept => exact fun vaddr user mapped => extends_.keeps.userByte_eq maps maps' user mapped
  case content =>
    intro success i inside
    have byte :=
      (holds success).userByte maps' (x := p.vaddr.toNat % 4096 + i) (by unfold Phdr.pages; omega)
    rw [if_pos (by rw [if_pos (by omega)] at read; omega)] at byte
    rwa [show p.offset.toNat / 4096 * 4096 + (p.vaddr.toNat % 4096 + i) =
      p.offset.toNat + i by omega,
      show 4096 * (p.vaddr.toNat / 4096) + (p.vaddr.toNat % 4096 + i) = p.vaddr.toNat + i by omega]
        at byte
  case zeros =>
    intro success vaddr behind last
    rw [pgNo_eq, pgNo_eq] at last
    obtain ⟨x, rfl⟩ : ∃ x, vaddr = 4096 * (p.vaddr.toNat / 4096) + x :=
      ⟨vaddr - 4096 * (p.vaddr.toNat / 4096), by omega⟩
    have byte := (holds success).userByte maps' (x := x) (by unfold Phdr.pages; omega)
    rwa [if_neg (by split at read <;> omega)] at byte

end

/-- Every header that `validate_segment` accepts, at any point of the loop over the headers of any
file. -/
theorem segment_loading_exact {size : UInt32} {disk : Nat → Bytes} {memory memory' : List Bool}
    {junk junk' : Bytes} {s0 t : Session} {calls : List Event} {text : Nat → Bool}
    {boot kernel start created : Ram} {pd : Nat} {file : FilePtr} {events : List LoadEvent}
    {s : Loader}
    {p : Phdr} (formatted : Session.format (Session.boot size disk memory junk) = some s0)
    (session : Run Session.step Free s0 calls t) (member : file ∈ t.opened) (small : boot.Small)
    (init : pagingInit text boot = .ok ((), kernel)) (elapses : Elapses kernel start)
    (create : pagedirCreate start = .ok (some pd, created))
    (run : Run (Loader.step file pd) Free
      { fs := { t.fs with memory := memory', junk := junk' }, ram := created } events s)
    (accepted : validateSegment p file s.fs = .ok (true, s.fs)) :
    ∃ done s', loadValid file pd p s = .ok (done, s') ∧ SegmentLoaded file pd p s done s' := by
  obtain ⟨m, hs⟩ := Session.run_served False formatted session nofun nofun
  obtain ⟨tables, dir⟩ := (runs_pagingInit small text).result init
  have hm := ((dir.elapse elapses).wp_pagedirCreate.result create).2 pd rfl
  have first : Loading start [] m t.opened file pd tables (fun _ => none)
      { fs := { t.fs with memory := memory', junk := junk' }, ram := created } :=
    ⟨hs.provide nofun, member, hm.backed dir.kernel⟩
  obtain ⟨tables', frames', hl⟩ := first.run run
  exact hl.segment (((wp_validateSegment p file).result accepted).2 rfl)

/-- A file of 600 bytes, with something in the first 300. -/
def withProgram : List Event :=
  [⟨.create Session.first 600, [], fun _ => 0⟩, ⟨.openFile Session.first, [], fun _ => 0⟩,
    ⟨.write 2 (fun i => .ofNat i) 300, [], fun _ => 0⟩]

def twoPages : Phdr :=
  { type := 1, offset := 16, vaddr := 0x08048010, filesz := 100, memsz := 5000, flags := 6 }

/-- RAM for a directory, a page table and two frames. -/
def eightMore : Ram :=
  { eightPages with answers := [some 0xc0001000, some 0xc0002000, some 0xc0003000, some 0xc0004000,
      some 0xc0005000, some 0xc0007000] }

/-- Boots, creates a directory and loads the segment. -/
def loadsOn (t : Session) : Option (Ram × Ram × Nat × Bool × Loader) :=
  (pagingInit (fun _ => false) eightMore).toOption.bind fun (_, kernel) =>
    (pagedirCreate kernel).toOption.bind fun (found, created) => found.bind fun pd =>
      (loadValid 2 pd twoPages { fs := t.fs, ram := created }).toOption.map fun (done, s') =>
        (kernel, created, pd, done, s')

theorem loadsOn_some {t : Session} {kernel created : Ram} {pd : Nat} {done : Bool} {s' : Loader}
    (h : loadsOn t = some (kernel, created, pd, done, s')) :
    pagingInit (fun _ => false) eightMore = .ok ((), kernel) ∧
      pagedirCreate kernel = .ok (some pd, created) ∧
      loadValid 2 pd twoPages { fs := t.fs, ram := created } = .ok (done, s') := by
  obtain ⟨⟨_, kernel⟩, init, h⟩ := bind_eq_some_iff.mp h
  obtain ⟨⟨found, created⟩, create, h⟩ := bind_eq_some_iff.mp h
  obtain ⟨pd, rfl, h⟩ := bind_eq_some_iff.mp h
  obtain ⟨⟨done, s'⟩, loaded, h⟩ := map_eq_some_iff.mp h
  cases h
  exact ⟨ok_of_toOption init, ok_of_toOption create, ok_of_toOption loaded⟩

theorem validateSegment_accepts {fs : FS} {p : Phdr} {file : FilePtr}
    (h : (validateSegment p file fs).toOption.map Prod.fst = some true) :
    validateSegment p file fs = .ok (true, fs) := by
  obtain ⟨⟨hv, fs'⟩, run, rfl⟩ := map_eq_some_iff.mp h
  have ran := ok_of_toOption run
  obtain ⟨rfl, _⟩ := (wp_validateSegment p file).result ran
  exact ran

theorem segment_loading_exact_twoPages : ∃ s0 t kernel created pd s',
    Session.format Session.tenSectors = some s0 ∧
      Run Session.step Free s0 withProgram.reverse t ∧ loadsOn t = some
        (kernel, created, pd, true, s') ∧
      userByte s'.ram pd 0x08048012 = some 18 ∧
      SegmentLoaded 2 pd twoPages { fs := t.fs, ram := created } true s' := by
  have seen : ((Session.format Session.tenSectors).bind fun s0 =>
      (runs Session.step Free s0 withProgram).bind fun t =>
        (loadsOn t).map fun (_, _, pd, done, s') => (decide (2 ∈ t.opened),
          (validateSegment twoPages 2 t.fs).toOption.map Prod.fst, done,
          userByte s'.ram pd 0x08048012)) = some (true, some true, true, some 18) := by
            decide +kernel
  obtain ⟨s0, hf, seen⟩ := bind_eq_some_iff.mp seen
  obtain ⟨t, ran, seen⟩ := bind_eq_some_iff.mp seen
  obtain ⟨⟨kernel, created, pd, done, s'⟩, loads, seen⟩ := map_eq_some_iff.mp seen
  simp only [Prod.mk.injEq, decide_eq_true_eq] at seen
  obtain ⟨mem, hv, rfl, byte⟩ := seen
  obtain ⟨init, create, loaded⟩ := loadsOn_some loads
  obtain ⟨tables, dir⟩ := (runs_pagingInit (by decide) _).result init
  have session := runs_run ran
  have was : Run (Loader.step 2 pd) Free
      { fs := { t.fs with memory := t.fs.memory, junk := t.fs.junk }, ram := created } []
      { fs := t.fs, ram := created } := .start
  obtain ⟨done, s'', run, exact_⟩ := segment_loading_exact hf session mem (by decide) init
    dir.elapses_self create was (validateSegment_accepts hv)
  rw [loaded] at run
  cases run
  exact ⟨s0, t, kernel, created, pd, s', hf, session, loads, byte, exact_⟩

end Pintos.Userprog
