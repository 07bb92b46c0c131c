import Pintos.Filesys.Device

/-!
# The free map and the inodes

The bits of the free map (`lib/kernel/bitmap.c`, `filesys/free-map.c`) and the
life of an inode on the device and in memory (`filesys/inode.c`).
-/

namespace Pintos.Filesys

open LittleEndian Prog

/-! ### Bitmaps -/

def elemCnt (bitCnt : Nat) : Nat := (bitCnt + 31) / 32
def byteCnt (bitCnt : Nat) : Nat := 4 * elemCnt bitCnt

/-- The bytes of the words of a bitmap. -/
def bitmapBytes (bits : Nat → Bool) : Bytes := fun j =>
  UInt8.ofNat (((List.range 8).map fun b => if bits (8 * j + b) then 2 ^ b else 0).sum)

/-- `bitmap_contains`, which asserts that the range is in the bitmap. -/
def bitmapContains (start cnt : Nat) (value : Bool) : Fs Bool := do
  let fs ← get
  assert (start ≤ fs.size) "start <= b->bit_cnt"
  assert (start + cnt ≤ fs.size) "start + cnt <= b->bit_cnt"
  pure ((List.range cnt).any fun i => fs.bits (start + i) == value)

def bitmapAll (start cnt : Nat) : Fs Bool := do
  let other ← bitmapContains start cnt false
  pure !other

def bitmapSetMultiple (start cnt : Nat) (value : Bool) : Fs Unit := do
  let fs ← get
  assert (start ≤ fs.size) "start <= b->bit_cnt"
  assert (start + cnt ≤ fs.size) "start + cnt <= b->bit_cnt"
  set { fs with bits := fun i => if start ≤ i ∧ i < start + cnt then value else fs.bits i }

/-- `bitmap_scan` from bit 0 on; nothing stands for `BITMAP_ERROR`. The groups it looks at are
in the bitmap. -/
def bitmapScan (size : Nat) (bits : Nat → Bool) (cnt : Nat) (value : Bool) : Option Nat :=
  if cnt ≤ size then
    (List.range (size - cnt + 1)).find? fun i => (List.range cnt).all fun j => bits (i + j) == value
  else none

/-- `bitmap_scan_and_flip` from bit 0 on. -/
def bitmapScanAndFlip (cnt : Nat) (value : Bool) : Fs (Option Nat) := do
  let fs ← get
  match bitmapScan fs.size fs.bits cnt value with
  | none => pure none
  | some idx => do
    bitmapSetMultiple idx cnt !value
    pure (some idx)

def fileReadAt (file : FilePtr) (buffer : Bytes) (size : Int) (offset : Nat) :
    Fs (Nat × Bytes) := do
  let fs ← get
  inodeReadAt (fs.file file).inode buffer size offset

def fileWriteAt (file : FilePtr) (buffer : Bytes) (size : Int) (offset : Nat) : Fs Nat := do
  let fs ← get
  inodeWriteAt (fs.file file).inode buffer size offset

def bitmapWrite (file : FilePtr) : Fs Bool := do
  let fs ← get
  let written ← fileWriteAt file (bitmapBytes fs.bits) (byteCnt fs.size) 0
  pure (decide (written = byteCnt fs.size))

/-- `bitmap_read`; the bits of the last word that stand for no sector are cleared. -/
def bitmapRead (file : FilePtr) : Fs Bool := do
  let fs ← get
  let (n, bytes) ← fileReadAt file (bitmapBytes fs.bits) (byteCnt fs.size) 0
  let fs ← get
  set { fs with bits := fun i => decide (i < fs.size) && (bytes (i / 8)).toNat.testBit (i % 8) }
  pure (decide (n = byteCnt fs.size))

/-! ### The free map -/

/-- `free_map_allocate`, with the first sector as its result. -/
def freeMapAllocate (cnt : Nat) : Fs (Option Nat) := do
  match ← bitmapScanAndFlip cnt false with
  | none => pure none
  | some sector => do
    let fs ← get
    match fs.freeMapFile with
    | none => pure (some sector)
    | some file => do
      if ← bitmapWrite file then pure (some sector)
      else do
        bitmapSetMultiple sector cnt false
        pure none

def freeMapRelease (sector cnt : Nat) : Fs Unit := do
  let all ← bitmapAll sector cnt
  assert (all = true) "bitmap_all (free_map, sector, cnt)"
  bitmapSetMultiple sector cnt false
  let fs ← get
  match fs.freeMapFile with
  | none => throw "null pointer"
  | some file => do
    let _ ← bitmapWrite file
    pure ()

/-! ### Inodes -/

def inodeMagic : Nat := 0x494e4f44

/-- `DIV_ROUND_UP (size, BLOCK_SECTOR_SIZE)` in the arithmetic of `int`, then made a `size_t`. -/
def bytesToSectors (size : Int) : Nat :=
  ofInt32 ((toInt32 (ofInt32 (size + 511))).tdiv 512)

def decodeInode (b : Bytes) : InodeDisk where
  start := get32 b 0
  length := toInt32 (get32 b 4)
  magic := get32 b 8

def encodeInode (d : InodeDisk) : Bytes := fun i =>
  if i < 4 then put32 d.start i
  else if i < 8 then put32 (ofInt32 d.length) (i - 4)
  else if i < 12 then put32 d.magic (i - 8)
  else 0

/-- The loop of `inode_create` over the new data sectors. -/
def zeroSectors (start : Nat) : Nat → Fs Unit
  | 0 => pure ()
  | cnt + 1 => do
    blockWrite start fun _ => 0
    zeroSectors (start + 1) cnt

def inodeCreate (sector : Nat) (length : Int) : Fs Bool := do
  assert (0 ≤ length) "length >= 0"
  if ← malloc then
    let sectors := bytesToSectors length
    match ← freeMapAllocate sectors with
    | none => pure false
    | some start => do
      blockWrite sector (encodeInode { start, length, magic := inodeMagic })
      zeroSectors start sectors
      pure true
  else pure false

def modifyInode (inode : InodePtr) (f : Inode → Inode) : Fs Unit := do
  let fs ← get
  set { fs with inode := Function.update fs.inode inode (f (fs.inode inode)) }

def inodeReopen (inode : InodePtr) : Fs Unit :=
  modifyInode inode fun i => { i with openCnt := i.openCnt + 1 }

def inodeOpen (sector : Nat) : Fs (Option InodePtr) := do
  let fs ← get
  match fs.openInodes.find? fun i => (fs.inode i).sector == sector with
  | some inode => do
    inodeReopen inode
    pure (some inode)
  | none => do
    if ← malloc then
      let content ← blockRead sector
      let fs ← get
      let inode := fs.inodes
      set { fs with
        inode := Function.update fs.inode inode { sector, data := decodeInode content }
        inodes := inode + 1
        openInodes := inode :: fs.openInodes }
      pure (some inode)
    else pure none

def inodeClose (inode : InodePtr) : Fs Unit := do
  modifyInode inode fun i => { i with openCnt := i.openCnt - 1 }
  let fs ← get
  let i := fs.inode inode
  if i.openCnt = 0 then
    set { fs with openInodes := fs.openInodes.erase inode }
    if i.removed then
      freeMapRelease i.sector 1
      freeMapRelease i.data.start (bytesToSectors i.data.length)
    else pure ()
  else pure ()

def inodeRemove (inode : InodePtr) : Fs Unit :=
  modifyInode inode fun i => { i with removed := true }

def inodeDenyWrite (inode : InodePtr) : Fs Unit := do
  modifyInode inode fun i => { i with denyWriteCnt := i.denyWriteCnt + 1 }
  let fs ← get
  assert ((fs.inode inode).denyWriteCnt ≤ (fs.inode inode).openCnt)
    "inode->deny_write_cnt <= inode->open_cnt"

def inodeAllowWrite (inode : InodePtr) : Fs Unit := do
  let fs ← get
  assert (0 < (fs.inode inode).denyWriteCnt) "inode->deny_write_cnt > 0"
  assert ((fs.inode inode).denyWriteCnt ≤ (fs.inode inode).openCnt)
    "inode->deny_write_cnt <= inode->open_cnt"
  modifyInode inode fun i => { i with denyWriteCnt := i.denyWriteCnt - 1 }

end Pintos.Filesys
