import Pintos.Filesys.Device
import Pintos.Lib.Machine

/-!
# Inode input and output on the bytes of a file

The data of an inode is a row of bytes that starts at its first sector. What
`inode_read_at` returns is a part of that row, and `inode_write_at` changes a part
of it and nothing else, whether or not the bounce buffer can be allocated.
-/

namespace Pintos.Filesys

open LittleEndian Prog Machine Function

variable {fs fs' fs'' : FS} {data : InodeDisk} {start offset n m : Nat} {b : Bytes}

/-- The byte of an extent that begins at sector `start`. -/
def FS.byteAt (fs : FS) (start pos : Nat) : UInt8 := fs.disk (start + pos / 512) (pos % 512)

/-- The data of an inode is on the device. -/
def Inside (size : Nat) (data : InodeDisk) : Prop :=
  ∀ pos : Nat, (pos : Int) < data.length → data.start + pos / 512 < size

/-- The allocations to come succeed. -/
def Plenty (fs : FS) : Prop := ∀ ok ∈ fs.memory, ok = true

/-- Nothing has happened but allocations. -/
@[grind cases] structure Quiet (fs fs' : FS) : Prop where
  kept : fs' = { fs with memory := fs'.memory }
  plenty : Plenty fs → Plenty fs'

theorem Quiet.eq {fs fs' : FS} (hq : Quiet fs fs') : ∃ memory, fs' = { fs with memory } :=
  ⟨_, hq.kept⟩

theorem Quiet.refl (fs : FS) : Quiet fs fs := ⟨rfl, id⟩

theorem Quiet.trans (first : Quiet fs fs') (second : Quiet fs' fs'') : Quiet fs fs'' :=
  ⟨by rw [second.kept, first.kept], second.plenty ∘ first.plenty⟩

theorem Quiet.size (h : Quiet fs fs') : fs'.size = fs.size := by rw [h.kept]
theorem Quiet.disk (h : Quiet fs fs') : fs'.disk = fs.disk := by rw [h.kept]

/-- The next allocation succeeds. -/
def Lucky (fs : FS) : Prop := fs.memory.head? ≠ some false

theorem Plenty.lucky (room : Plenty fs) : Lucky fs := by
  intro fails
  have := room false (List.mem_of_mem_head? fails)
  cases this

theorem wp_malloc_lucky : Wp malloc (fun ok fs' => Quiet fs fs' ∧ (ok = true ↔ Lucky fs)) fs := by
  unfold Lucky
  cases mem : fs.memory with
  | nil => exact ⟨true, fs, by simp only [malloc, mem]; rfl, .refl fs, by simp⟩
  | cons ok rest =>
    refine ⟨ok, { fs with memory := rest }, by simp only [malloc, mem]; rfl, ⟨rfl, ?_⟩, by simp⟩
    exact fun room ok' member => room ok' (mem ▸ .tail _ member)

theorem wp_malloc : Wp malloc (fun ok fs' => Quiet fs fs' ∧ (Plenty fs → ok = true)) fs :=
  wp_malloc_lucky.mono fun _ _ ⟨hq, ok⟩ => ⟨hq, fun room => ok.mpr room.lucky⟩

theorem wp_blockRead {sector : Nat} (hi : sector < fs.size) :
    Wp (blockRead sector) (fun content fs' => content = fs.disk sector ∧ fs' = fs) fs := by
  refine .bind (.get ?_)
  rw [if_pos hi]
  exact .pure ⟨rfl, rfl⟩

theorem wp_blockWrite {sector : Nat} (hi : sector < fs.size) :
    Wp (blockWrite sector b)
      (fun _ fs' => fs' = { fs with disk := update fs.disk sector b }) fs := by
  refine .bind (.get ?_)
  rw [if_pos hi]
  exact .set rfl

theorem wp_bounceBuffer (bounce : Bool) :
    Wp (bounceBuffer bounce) (fun ok fs' => Quiet fs fs' ∧
      (ok = true ↔ bounce = true ∨ Lucky fs)) fs := by
  unfold bounceBuffer
  cases bounce with
  | true => exact .pure ⟨.refl fs, by simp⟩
  | false =>
    apply wp_malloc_lucky.mono
    rintro ok fs' ⟨hq, lucky⟩
    exact ⟨hq, by simpa using lucky⟩

/-- What a read of `n` bytes leaves in the buffer. -/
def filled (fs : FS) (start offset done n : Nat) (buffer : Bytes) : Bytes :=
  fun i => if done ≤ i ∧ i < done + n then fs.byteAt start (offset + (i - done)) else buffer i

theorem filled_zero (done : Nat) : filled fs start offset done 0 b = b := by
  funext i
  unfold filled
  rw [if_neg (by omega)]

theorem filled_step {done chunk : Nat} (h : offset % 512 + chunk ≤ 512) :
    filled fs start (offset + chunk) (done + chunk) n
      (memcpy b done (fs.disk (start + offset / 512)) (offset % 512) chunk) =
    filled fs start offset done (chunk + n) b := by
  funext i
  unfold filled memcpy FS.byteAt
  by_cases was : i < done
  · rw [if_neg (by omega), if_neg (by omega), if_neg (by omega)]
  · grind

theorem chunk_le_size {length : Int} {size : Nat} : chunkSize length size offset ≤ size :=
  Nat.min_le_left ..

theorem chunk_sector {length : Int} {size : Nat} :
    offset % 512 + chunkSize length size offset ≤ 512 := by
  unfold chunkSize
  omega

theorem chunk_length {length : Int} {size : Nat} (nonzero : chunkSize length size offset ≠ 0) :
    (offset + chunkSize length size offset : Int) ≤ length := by
  unfold chunkSize at *
  omega

/-- The bytes from `offset` on that are in the file, of the `size` asked for. -/
def available (length : Int) (size offset : Nat) : Nat := min size (length - offset).toNat

/-- The transfer is one of whole sectors, which need no buffer in between. -/
def Aligned (length : Int) (size offset : Nat) : Prop :=
  offset % 512 = 0 ∧ available length size offset % 512 = 0

/-- `n` bytes of a transfer have been moved: none or the first chunk at least, and all there are
when `ok` holds. -/
structure Moved (ok : Prop) (length : Int) (size offset n : Nat) : Prop where
  most : n ≤ available length size offset
  whole : n = 0 ∨ chunkSize length size offset ≤ n
  full : ok → n = available length size offset

section
variable {ok : Prop} {length : Int} {size : Nat}

theorem Moved.le_size {n : Nat} (hm : Moved ok length size offset n) : n ≤ size :=
  hm.most.trans (min_le_left _ _)

theorem Moved.none (short : ok → available length size offset = 0) :
    Moved ok length size offset 0 :=
  ⟨Nat.zero_le _, .inl rfl, fun holds => (short holds).symm⟩

theorem available_zero (empty : chunkSize length size offset = 0) :
    available length size offset = 0 := by
  unfold chunkSize at empty
  unfold available
  omega

theorem Aligned.next (aligned : Aligned length size offset) :
    Aligned length (size - 512) (offset + 512) := by
  unfold Aligned available at *
  omega

theorem Aligned.chunk (aligned : Aligned length size offset)
    (nonzero : chunkSize length size offset ≠ 0) :
    offset % 512 = 0 ∧ chunkSize length size offset = 512 := by
  obtain ⟨start, most⟩ := aligned
  unfold chunkSize at *
  unfold available at most
  omega

theorem Moved.next {chunk : Nat} (chunked : chunkSize length size offset = chunk)
    (moved : Moved ok length (size - chunk) (offset + chunk) n) :
    Moved ok length size offset (chunk + n) := by
  have split : available length size offset =
      chunk + available length (size - chunk) (offset + chunk) := by
    unfold chunkSize at chunked
    unfold available
    omega
  refine ⟨?_, .inr (by omega), fun holds => ?_⟩
  · have := moved.most
    omega
  · rw [moved.full holds, split]

/-- Beyond the end there is nothing. -/
theorem Moved.beyond (moved : Moved ok length size offset n) (past : length ≤ offset) : n = 0 := by
  have most := moved.most
  unfold available at most
  omega

theorem Moved.within (moved : Moved ok length size offset n) :
    n = 0 ∨ (offset + n : Int) ≤ length := by
  have most := moved.most
  unfold available at most
  omega

end

theorem wp_readLoop (turns : Nat) : ∀ (size offset done : Nat) (buffer : Bytes) (bounce : Bool)
    (fs : FS), Inside fs.size data → size ≤ turns →
    Wp (readLoop data turns size offset done buffer bounce)
      (fun r fs' => Quiet fs fs' ∧ ∃ n, r.1 = done + n ∧
        Moved (bounce = true ∨ Lucky fs ∨ Aligned data.length size offset)
          data.length size offset n ∧
        r.2 = filled fs data.start offset done n buffer) fs := by
  induction turns with
  | zero =>
    intro size offset done buffer bounce fs _ enough
    refine .pure ⟨.refl fs, 0, rfl, .none fun _ => ?_, (filled_zero done).symm⟩
    unfold available
    omega
  | succ turns ih =>
    intro size offset done buffer bounce fs hi enough
    unfold readLoop
    dsimp only
    generalize chunked : chunkSize data.length size offset = chunk
    by_cases empty : chunk = 0
    · rw [if_pos empty]
      exact .pure ⟨.refl fs, 0, rfl, .none fun _ => available_zero (chunked.trans empty),
        (filled_zero done).symm⟩
    rw [if_neg empty]
    have hs : chunk ≤ size := chunked ▸ chunk_le_size
    have sector : offset % 512 + chunk ≤ 512 := chunked ▸ chunk_sector
    have short : (offset + chunk : Int) ≤ data.length := by
      subst chunked
      exact chunk_length empty
    -- the turns that follow, once the sector has been read
    have next : ∀ fs1, Quiet fs fs1 → ∀ (bounce : Bool) (ok : Prop),
        (ok → bounce = true ∨ Lucky fs1 ∨
          Aligned data.length (size - chunk) (offset + chunk)) →
        Wp (readLoop data turns (size - chunk) (offset + chunk) (done + chunk)
          (memcpy buffer done (fs.disk (data.start + offset / 512)) (offset % 512) chunk) bounce)
          (fun r fs' => Quiet fs fs' ∧ ∃ n, r.1 = done + n ∧
            Moved ok data.length size offset n ∧
            r.2 = filled fs data.start offset done n buffer) fs1 := by
      intro fs1 quiet bounce ok enough'
      refine (ih _ _ _ _ bounce fs1 (quiet.size ▸ hi) (by omega)).mono ?_
      rintro ⟨total, content⟩ fs' ⟨quiet', n, rfl, moved, rfl⟩
      have moved' : Moved ok data.length (size - chunk) (offset + chunk) n :=
        ⟨moved.most, moved.whole, fun holds => moved.full (enough' holds)⟩
      refine ⟨quiet.trans quiet', chunk + n, by dsimp only; omega, moved'.next chunked, ?_⟩
      rw [← filled_step sector]
      unfold filled FS.byteAt
      rw [quiet.disk]
    have reads : ∀ fs1, Quiet fs fs1 → data.start + offset / 512 < fs1.size :=
      fun fs1 quiet => quiet.size ▸ hi offset (by omega)
    split_ifs with whole
    · refine .bind ((wp_blockRead (reads fs (.refl fs))).mono ?_)
      rintro content fs1 ⟨rfl, rfl⟩
      have aligned : Aligned data.length size offset →
          Aligned data.length (size - chunk) (offset + chunk) := whole.2 ▸ Aligned.next
      exact next fs1 (.refl fs1) bounce _ (.imp_right (.imp_right aligned))
    · have unaligned : bounce = true ∨ Lucky fs ∨ Aligned data.length size offset →
          bounce = true ∨ Lucky fs :=
        Or.imp_right fun ok => ok.resolve_right fun aligned => whole
          (chunked ▸ aligned.chunk (chunked ▸ empty))
      refine .bind ((wp_bounceBuffer bounce).mono ?_)
      rintro ok fs1 ⟨quiet, lucky⟩
      split_ifs with allocated
      · refine .bind ((wp_blockRead (reads fs1 quiet)).mono ?_)
        rintro content fs2 ⟨rfl, rfl⟩
        rw [quiet.disk]
        -- the bounce buffer is there now, and no further one is asked for
        exact next fs2 quiet true _ fun _ => .inl rfl
      · refine .pure ⟨quiet, 0, rfl, .none fun holds => ?_, (filled_zero done).symm⟩
        exact absurd (lucky.mpr (unaligned holds)) allocated

theorem wp_inodeReadAt_lucky (inode : InodePtr) (buffer : Bytes) (size : Int) (offset : Nat)
    (hi : Inside fs.size (fs.inode inode).data) :
    Wp (inodeReadAt inode buffer size offset)
      (fun r fs' => Quiet fs fs' ∧
        Moved (Lucky fs ∨ Aligned (fs.inode inode).data.length size.toNat offset)
          (fs.inode inode).data.length size.toNat offset r.1 ∧
        r.2 = filled fs (fs.inode inode).data.start offset 0 r.1 buffer) fs := by
  refine .bind (.get ((wp_readLoop _ _ offset 0 buffer false fs hi (Nat.le_refl _)).mono ?_))
  rintro ⟨total, content⟩ fs' ⟨quiet, n, eq, moved, same⟩
  obtain rfl : total = n := by simpa using eq
  exact ⟨quiet, ⟨moved.most, moved.whole, fun ok => moved.full (.inr ok)⟩, same⟩

theorem wp_inodeReadAt (inode : InodePtr) (buffer : Bytes) (size : Int) (offset : Nat)
    (hi : Inside fs.size (fs.inode inode).data) :
    Wp (inodeReadAt inode buffer size offset)
      (fun r fs' => Quiet fs fs' ∧
        Moved (Plenty fs) (fs.inode inode).data.length size.toNat offset r.1 ∧
        r.2 = filled fs (fs.inode inode).data.start offset 0 r.1 buffer) fs :=
  (wp_inodeReadAt_lucky inode buffer size offset hi).mono fun _ _ ⟨quiet, moved, eq⟩ =>
    ⟨quiet, ⟨moved.most, moved.whole, fun room => moved.full (.inl room.lucky)⟩, eq⟩

/-- The row of bytes from sector `start` on has got `n` new bytes at `offset`. -/
@[grind cases] structure Wrote (fs fs' : FS) (start offset n : Nat) (b : Bytes) : Prop where
  kept : fs' = { fs with disk := fs'.disk, memory := fs'.memory }
  plenty : Plenty fs → Plenty fs'
  outside : ∀ x, (∀ pos, offset ≤ pos → pos < offset + n → x ≠ start + pos / 512) →
    fs'.disk x = fs.disk x
  bytes : ∀ pos, fs'.byteAt start pos =
    if offset ≤ pos ∧ pos < offset + n then b (pos - offset) else fs.byteAt start pos

theorem Quiet.wrote (hq : Quiet fs fs') : Wrote fs fs' start offset 0 b where
  kept := by rw [hq.kept]
  plenty := hq.plenty
  outside x _ := by rw [hq.kept]
  bytes pos := by
    rw [if_neg (by omega)]
    unfold FS.byteAt
    rw [hq.kept]

theorem Wrote.trans {chunk : Nat} (first : Wrote fs fs' start offset chunk b)
    (second : Wrote fs' fs'' start (offset + chunk) n fun i => b (chunk + i)) :
    Wrote fs fs'' start offset (chunk + n) b where
  kept := by rw [second.kept, first.kept]
  plenty := second.plenty ∘ first.plenty
  outside x apart := by
    rw [second.outside x fun pos low high => apart pos (by omega) (by omega),
      first.outside x fun pos low high => apart pos low (by omega)]
  bytes pos := by
    rw [second.bytes, first.bytes]
    by_cases inChunk : offset ≤ pos ∧ pos < offset + chunk
    · rw [if_neg (by omega), if_pos inChunk, if_pos (by omega)]
    · grind

theorem Wrote.size (h : Wrote fs fs' start offset n b) : fs'.size = fs.size := by rw [h.kept]

/-- One sector of the row is written, the bytes around the chunk as they were. -/
theorem Wrote.sector {chunk : Nat} {content : Bytes} (here : offset % 512 + chunk ≤ 512)
    (pos : 0 < chunk)
    (inChunk : ∀ o, offset % 512 ≤ o → o < offset % 512 + chunk → content o = b (o - offset % 512))
    (around : ∀ o < 512, o < offset % 512 ∨ offset % 512 + chunk ≤ o →
      content o = fs.disk (start + offset / 512) o) :
    Wrote fs { fs with disk := update fs.disk (start + offset / 512) content }
      start offset chunk b where
  kept := rfl
  plenty := id
  outside x ne := update_of_ne (ne offset (Nat.le_refl _) (by omega)) ..
  bytes pos := by
    unfold FS.byteAt
    dsimp only
    by_cases same : pos / 512 = offset / 512
    · rw [same, update_self]
      by_cases within : offset ≤ pos ∧ pos < offset + chunk
      · rw [if_pos within, inChunk _ (by omega) (by omega)]
        congr 1
        omega
      · rw [if_neg within, around _ (by omega) (by omega)]
    · rw [update_of_ne (by omega), if_neg (by omega)]

theorem wp_writeLoop (buffer : Bytes) (turns : Nat) :
    ∀ (size offset done : Nat) (bounce : Bool) (fs : FS), Inside fs.size data → size ≤ turns →
    Wp (writeLoop data buffer turns size offset done bounce)
      (fun r fs' => ∃ n, r = done + n ∧
        Moved (bounce = true ∨ Lucky fs ∨ Aligned data.length size offset)
          data.length size offset n ∧
        (¬ (bounce = true ∨ Lucky fs) → size < 512 → n = 0) ∧
        Wrote fs fs' data.start offset n fun i => buffer (done + i)) fs := by
  induction turns with
  | zero =>
    intro size offset done bounce fs _ enough
    refine .pure ⟨0, rfl, .none fun _ => ?_, fun _ _ => rfl, (Quiet.refl fs).wrote⟩
    unfold available
    omega
  | succ turns ih =>
    intro size offset done bounce fs hi enough
    unfold writeLoop
    dsimp only
    generalize chunked : chunkSize data.length size offset = chunk
    by_cases empty : chunk = 0
    · rw [if_pos empty]
      exact .pure ⟨0, rfl, .none fun _ => available_zero (chunked.trans empty), fun _ _ => rfl,
        (Quiet.refl fs).wrote⟩
    rw [if_neg empty]
    have hs : chunk ≤ size := chunked ▸ chunk_le_size
    have sector : offset % 512 + chunk ≤ 512 := chunked ▸ chunk_sector
    have short : (offset + chunk : Int) ≤ data.length := by
      subst chunked
      exact chunk_length empty
    have h : data.start + offset / 512 < fs.size := hi offset (by omega)
    -- the turns that follow, once the sector has been written
    have next : ∀ fs1, Wrote fs fs1 data.start offset chunk (fun i => buffer (done + i)) →
        ∀ (bounce : Bool) (ok : Prop), (ok → bounce = true ∨ Lucky fs1 ∨
          Aligned data.length (size - chunk) (offset + chunk)) →
        Wp (writeLoop data buffer turns (size - chunk) (offset + chunk) (done + chunk) bounce)
          (fun r fs' => ∃ n, r = done + n ∧ Moved ok data.length size offset n ∧
            Wrote fs fs' data.start offset n fun i => buffer (done + i)) fs1 := by
      intro fs1 wrote bounce ok enough'
      refine (ih _ _ _ bounce fs1 (wrote.size ▸ hi) (by omega)).mono ?_
      rintro r fs' ⟨n, rfl, moved, _, wrote'⟩
      have moved' : Moved ok data.length (size - chunk) (offset + chunk) n :=
        ⟨moved.most, moved.whole, fun holds => moved.full (enough' holds)⟩
      refine ⟨chunk + n, by omega, moved'.next chunked, wrote.trans ?_⟩
      simpa only [Nat.add_assoc] using wrote'
    split_ifs with whole
    · refine .bind ((wp_blockWrite h).mono ?_)
      rintro _ fs1 rfl
      have aligned : Aligned data.length size offset →
          Aligned data.length (size - chunk) (offset + chunk) := whole.2 ▸ Aligned.next
      refine (next _ (.sector sector (by omega) ?_ (by omega)) bounce _
        (.imp_right (.imp_right aligned))).mono ?_
      · intro o low high
        rw [whole.1, Nat.sub_zero]
      · rintro r fs' ⟨n, eq, moved, wrote⟩
        exact ⟨n, eq, moved, fun _ little => by omega, wrote⟩
    · have unaligned : bounce = true ∨ Lucky fs ∨ Aligned data.length size offset →
          bounce = true ∨ Lucky fs :=
        Or.imp_right fun ok => ok.resolve_right fun aligned => whole
          (chunked ▸ aligned.chunk (chunked ▸ empty))
      refine .bind ((wp_bounceBuffer bounce).mono ?_)
      rintro ok fs1 ⟨quiet, lucky⟩
      split_ifs with allocated
      · have here1 : data.start + offset / 512 < fs1.size := quiet.size ▸ h
        unfold bounceContent
        rw [if_pos (by omega)]
        refine .bind ((wp_blockRead here1).mono ?_)
        rintro content fs2 ⟨rfl, rfl⟩
        refine .bind ((wp_blockWrite here1).mono ?_)
        rintro _ fs3 rfl
        have wrote : Wrote fs fs2 data.start offset 0 fun i => buffer (done + i) := quiet.wrote
        refine (next _ ?_ true (bounce = true ∨ Lucky fs ∨ Aligned data.length size offset)
          fun _ => .inl rfl).mono ?_
        · rw [← Nat.zero_add chunk]
          refine wrote.trans ?_
          simp only [Nat.zero_add, Nat.add_zero]
          refine .sector sector (by omega) ?_ ?_
          · intro o low high
            unfold memcpy
            rw [if_pos ⟨low, high⟩]
            congr 1
            omega
          · intro o hb ne
            unfold memcpy
            rw [if_neg (by omega)]
        · grind
      · exact .pure ⟨0, rfl, .none fun holds => absurd (lucky.mpr (unaligned holds)) allocated,
          fun _ _ => rfl, quiet.wrote⟩

/-- A short transfer that finds no memory moves nothing. -/
theorem wp_inodeWriteAt_lucky (inode : InodePtr) (buffer : Bytes) (size : Int) (offset : Nat)
    (hi : Inside fs.size (fs.inode inode).data) :
    Wp (inodeWriteAt inode buffer size offset)
      (fun n fs' =>
        Moved ((Lucky fs ∨ Aligned (fs.inode inode).data.length size.toNat offset) ∧
          (fs.inode inode).denyWriteCnt = 0) (fs.inode inode).data.length size.toNat offset n ∧
        (¬ (Lucky fs ∧ (fs.inode inode).denyWriteCnt = 0) → size < 512 → n = 0) ∧
        ((fs.inode inode).denyWriteCnt ≠ 0 → n = 0 ∧ fs' = fs) ∧
        Wrote fs fs' (fs.inode inode).data.start offset n buffer) fs := by
  refine .bind (.get ?_)
  split_ifs with denied
  · exact .pure ⟨.none fun ok => absurd ok.2 denied, fun _ _ => rfl, fun _ => ⟨rfl, rfl⟩,
      (Quiet.refl fs).wrote⟩
  · refine (wp_writeLoop buffer _ _ offset 0 false fs hi (Nat.le_refl _)).mono ?_
    rintro r fs' ⟨n, rfl, hm, unlucky, hw⟩
    simp only [Nat.zero_add] at hw ⊢
    refine ⟨⟨hm.most, hm.whole, fun ok => hm.full (.inr ok.1)⟩, fun fails little => ?_,
      fun ne => absurd ne denied, hw⟩
    refine unlucky ?_ (by omega)
    rintro (no | lucky)
    · cases no
    · exact fails ⟨lucky, not_not.mp denied⟩

theorem wp_inodeWriteAt (inode : InodePtr) (buffer : Bytes) (size : Int) (offset : Nat)
    (hi : Inside fs.size (fs.inode inode).data) :
    Wp (inodeWriteAt inode buffer size offset)
      (fun n fs' =>
        Moved (Plenty fs ∧ (fs.inode inode).denyWriteCnt = 0) (fs.inode inode).data.length
          size.toNat offset n ∧
        ((fs.inode inode).denyWriteCnt ≠ 0 → n = 0 ∧ fs' = fs) ∧
        Wrote fs fs' (fs.inode inode).data.start offset n buffer) fs :=
  (wp_inodeWriteAt_lucky inode buffer size offset hi).mono fun _ _ ⟨hm, _, denied, hw⟩ =>
    ⟨⟨hm.most, hm.whole, fun ok => hm.full ⟨.inl ok.1.lucky, ok.2⟩⟩, denied, hw⟩

/-! ### A file as an array of bytes -/

/-- The number of bytes that are moved when memory can be allocated. -/
def transfer (length size : Int) (offset : Nat) : Int := max 0 (min size (length - offset))

theorem available_toNat {length size : Int} :
    (available length size.toNat offset : Int) = transfer length size offset := by
  unfold available transfer
  omega

theorem Moved.transfer {ok : Prop} {length size : Int}
    (moved : Moved ok length size.toNat offset n) :
    (n : Int) ≤ transfer length size offset ∧ (ok → (n : Int) = transfer length size offset) := by
  rw [← available_toNat]
  refine ⟨by exact_mod_cast moved.most, fun holds => ?_⟩
  exact_mod_cast moved.full holds

/-- The array with `n` bytes of the buffer at `offset`. -/
def patch (array : Nat → UInt8) (offset n : Nat) (buffer : Bytes) : Nat → UInt8 :=
  fun pos => if offset ≤ pos ∧ pos < offset + n then buffer (pos - offset) else array pos

inductive Transfer where
  | read (buffer : Bytes) (size : Int) (offset : Nat)
  | write (buffer : Bytes) (size : Int) (offset : Nat)

/-- The device, and an array of bytes that the writes to a file are made to as well. -/
structure ArrayFile where
  fs : FS
  array : Nat → UInt8

def ArrayFile.step (inode : InodePtr) (f : ArrayFile) : Transfer → Option ArrayFile
  | .read buffer size offset =>
    match inodeReadAt inode buffer size offset f.fs with
    | .ok (_, fs) => some { f with fs }
    | .error _ => none
  | .write buffer size offset =>
    match inodeWriteAt inode buffer size offset f.fs with
    | .ok (n, fs) => some { fs, array := patch f.array offset n buffer }
    | .error _ => none

/-- The sector holds a byte of the file. -/
def InodeDisk.Holds (data : InodeDisk) (sector : Nat) : Prop :=
  ∃ pos : Nat, (pos : Int) < data.length ∧ sector = data.start + pos / 512

/-- Reads and writes of the file are reads and writes of the array. -/
structure ActsAsArray (inode : InodePtr) (data : InodeDisk) (f : ArrayFile) : Prop where
  bytes : ∀ pos : Nat, (pos : Int) < data.length → f.fs.byteAt data.start pos = f.array pos
  read : ∀ buffer size offset, ∃ n content fs',
    inodeReadAt inode buffer size offset f.fs = .ok ((n, content), fs') ∧
      (n : Int) ≤ transfer data.length size offset ∧
      (Lucky f.fs ∨ Aligned data.length size.toNat offset → (n : Int) =
        transfer data.length size offset) ∧
      (∀ i < n, content i = f.array (offset + i)) ∧ (∀ i, n ≤ i → content i = buffer i) ∧
      fs'.disk = f.fs.disk
  write : ∀ buffer size offset, ∃ n fs',
    inodeWriteAt inode buffer size offset f.fs = .ok (n, fs') ∧
      (n : Int) ≤ transfer data.length size offset ∧
      ((Lucky f.fs ∨ Aligned data.length size.toNat offset) ∧ (f.fs.inode inode).denyWriteCnt = 0 →
        (n : Int) = transfer data.length size offset) ∧
      (∀ pos : Nat, (pos : Int) < data.length →
        fs'.byteAt data.start pos = patch f.array offset n buffer pos) ∧
      ∀ sector, ¬ data.Holds sector → fs'.disk sector = f.fs.disk sector

/-- What transfers keep. -/
structure Mirrors (inode : InodePtr) (data : InodeDisk) (start : FS) (f : ArrayFile) : Prop where
  stored : (f.fs.inode inode).data = data
  inside : Inside f.fs.size data
  bytes : ∀ pos : Nat, (pos : Int) < data.length → f.fs.byteAt data.start pos = f.array pos
  outside : ∀ sector, ¬ data.Holds sector → f.fs.disk sector = start.disk sector

namespace Mirrors

variable {inode : InodePtr} {f f' : ArrayFile}

section
variable (mirrors : Mirrors inode data fs f)
include mirrors

theorem wp_read (buffer : Bytes) (size : Int) (offset : Nat) :
    Wp (inodeReadAt inode buffer size offset) (fun r fs' =>
      (r.1 : Int) ≤ transfer data.length size offset ∧
      (Lucky f.fs ∨ Aligned data.length size.toNat offset →
        (r.1 : Int) = transfer data.length size offset) ∧
      (∀ i < r.1, r.2 i = f.array (offset + i)) ∧ (∀ i, r.1 ≤ i → r.2 i = buffer i) ∧
      Quiet f.fs fs') f.fs := by
  have hi := mirrors.inside
  rw [← mirrors.stored] at hi
  apply (wp_inodeReadAt_lucky inode buffer size offset hi).mono
  rintro ⟨n, content⟩ fs' ⟨quiet, moved, eq⟩
  dsimp only at moved eq ⊢
  rw [mirrors.stored] at moved eq
  subst eq
  obtain ⟨most, full⟩ := moved.transfer
  refine ⟨most, full, fun i lt => ?_, fun i beyond => if_neg (by omega), quiet⟩
  have within : ((offset + i : Nat) : Int) < data.length := by
    have := moved.within
    omega
  rw [← mirrors.bytes (offset + i) within]
  exact if_pos ⟨by omega, by simpa using lt⟩

theorem wp_write (buffer : Bytes) (size : Int) (offset : Nat) :
    Wp (inodeWriteAt inode buffer size offset) (fun n fs' =>
      (n : Int) ≤ transfer data.length size offset ∧
      ((Lucky f.fs ∨ Aligned data.length size.toNat offset) ∧ (f.fs.inode inode).denyWriteCnt = 0 →
        (n : Int) = transfer data.length size offset) ∧
      (∀ sector, ¬ data.Holds sector → fs'.disk sector = f.fs.disk sector) ∧
      Mirrors inode data fs ⟨fs', patch f.array offset n buffer⟩) f.fs := by
  have inside := mirrors.inside
  rw [← mirrors.stored] at inside
  apply (wp_inodeWriteAt_lucky inode buffer size offset inside).mono
  rintro n fs' ⟨hm, _, _, hw⟩
  rw [mirrors.stored] at hm hw
  obtain ⟨most, full⟩ := hm.transfer
  have apart : ∀ sector, ¬ data.Holds sector → fs'.disk sector = f.fs.disk sector := by
    intro sector out
    apply hw.outside
    rintro pos low high rfl
    refine out ⟨pos, ?_, rfl⟩
    have := hm.within
    omega
  refine ⟨most, full, apart, ?_⟩
  constructor
  case stored => rw [hw.kept]; exact mirrors.stored
  case inside => rw [hw.size]; exact mirrors.inside
  case bytes =>
    intro pos within
    rw [hw.bytes pos, mirrors.bytes pos within]
    rfl
  case outside =>
    intro sector out
    rw [apart sector out, mirrors.outside sector out]

theorem quiet (hq : Quiet f.fs fs') : Mirrors inode data fs { f with fs := fs' } := by
  have eq := hq.kept
  constructor
  case stored => rw [eq]; exact mirrors.stored
  case inside => rw [hq.size]; exact mirrors.inside
  case bytes =>
    intro pos within
    rw [← mirrors.bytes pos within, FS.byteAt, hq.disk]
    rfl
  case outside =>
    intro sector out
    rw [hq.disk]
    exact mirrors.outside sector out

theorem step {t : Transfer} (stepped : f.step inode t = some f') : Mirrors inode data fs f' := by
  cases t with
  | read buffer size offset =>
    simp only [ArrayFile.step] at stepped
    split at stepped
    · rename_i r fs' ran
      cases stepped
      exact mirrors.quiet ((mirrors.wp_read buffer size offset).result ran).2.2.2.2
    · cases stepped
  | write buffer size offset =>
    simp only [ArrayFile.step] at stepped
    split at stepped
    · rename_i n fs' ran
      cases stepped
      exact ((mirrors.wp_write buffer size offset).result ran).2.2.2
    · cases stepped

theorem acts : ActsAsArray inode data f where
  bytes := mirrors.bytes
  read buffer size offset := by
    obtain ⟨⟨n, content⟩, fs', ran, most, full, got, rest, hq⟩ :=
      mirrors.wp_read buffer size offset
    exact ⟨n, content, fs', ran, most, full, got, rest, hq.disk⟩
  write buffer size offset := by
    obtain ⟨n, fs', ran, most, full, ne, after⟩ :=
      mirrors.wp_write buffer size offset
    exact ⟨n, fs', ran, most, full, after.bytes, ne⟩

end

end Mirrors

theorem inode_io_refines_array {inode : InodePtr} {history : List Transfer} {f : ArrayFile}
    (inside : Inside fs.size (fs.inode inode).data)
    (run : Run (ArrayFile.step inode) Free ⟨fs, fs.byteAt (fs.inode inode).data.start⟩ history f) :
    ActsAsArray inode (fs.inode inode).data f ∧
      ∀ sector, ¬ (fs.inode inode).data.Holds sector → f.fs.disk sector = fs.disk sector := by
  have mirrors : Mirrors inode (fs.inode inode).data fs f := by
    apply run.invariant
    · exact ⟨rfl, inside, fun _ _ => rfl, fun _ _ => rfl⟩
    · intro f t f' mirrors _ ran
      exact mirrors.step ran
  exact ⟨mirrors.acts, mirrors.outside⟩

/-- A file of 700 bytes in sectors 3 and 4. The third allocation fails. -/
def oneFile : FS where
  size := 8
  disk _ _ := 0
  bits _ := false
  inode _ := { sector := 2, data := { start := 3, length := 700, magic := 0x494e4f44 } }
  inodes := 1
  openInodes := [0]
  file _ := { inode := 0 }
  files := 0
  freeMapFile := none
  memory := [true, true, false]
  junk _ := 0

/-- The second write is cut at the end of the file, and the third before its last sector. -/
def threeWrites : List Transfer :=
  [.write (fun _ => 7) 100 450, .write (fun _ => 8) 300 600, .write (fun _ => 9) 600 0]

theorem inode_io_refines_array_threeWrites : ∃ f,
    Run (ArrayFile.step 0) Free ⟨oneFile, oneFile.byteAt 3⟩ threeWrites.reverse f ∧
    (f.array 511, f.array 512, f.array 650, f.array 700) = (9, 7, 8, 0) ∧
    ActsAsArray 0 ⟨3, 700, 0x494e4f44⟩ f := by
  have state : ((runs (ArrayFile.step 0) Free ⟨oneFile, oneFile.byteAt 3⟩ threeWrites).map
      fun f => (f.array 511, f.array 512, f.array 650, f.array 700)) = some (9, 7, 8, 0) := by
    decide +kernel
  obtain ⟨f, ran, bytes⟩ := Option.map_eq_some_iff.mp state
  have run := runs_run ran
  have hi : Inside oneFile.size (oneFile.inode 0).data := by
    intro pos lt
    have : (pos : Int) < 700 := lt
    show 3 + pos / 512 < 8
    omega
  exact ⟨f, run, bytes, (inode_io_refines_array hi run).1⟩

end Pintos.Filesys
