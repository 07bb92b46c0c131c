import Pintos.Lib.LittleEndian
import Pintos.Lib.Prog

/-!
# The device, and inode input and output

The file system lies on a device of sectors of 512 bytes each. What the kernel
keeps of it in memory is the free map, the open inodes and the open files;
pointers to these are numbers that are never used again. Whether an allocation
of memory succeeds is for the environment to say.

Positions in a file are not negative, so they are numbers here; the size of a
transfer may come negative from a system call.
-/

namespace Pintos.Filesys

open LittleEndian

abbrev InodePtr := Nat
abbrev FilePtr := Nat

def freeMapSector : Nat := 0
def rootDirSector : Nat := 1

/-- `struct inode_disk`, without the bytes that are not used. -/
structure InodeDisk where
  start : Nat
  length : Int
  magic : Nat
  deriving DecidableEq

structure Inode where
  sector : Nat
  openCnt : Int := 1
  removed : Bool := false
  denyWriteCnt : Int := 0
  data : InodeDisk
  deriving DecidableEq

structure File where
  inode : InodePtr
  pos : Nat := 0
  denyWrite : Bool := false
  deriving DecidableEq

structure FS where
  /-- `block_size (fs_device)`, which is also the number of bits of the free map. -/
  size : Nat
  disk : Nat → Bytes
  /-- The bits of the free map, with those of its last word that stand for no sector. -/
  bits : Nat → Bool
  inode : InodePtr → Inode
  inodes : Nat
  openInodes : List InodePtr
  file : FilePtr → File
  files : Nat
  freeMapFile : Option FilePtr
  /-- Whether the allocations to come succeed; those beyond the list do. -/
  memory : List Bool
  /-- What a local variable holds before it is written. -/
  junk : Bytes

abbrev Fs (α : Type) := Prog FS α

def malloc : Fs Bool := fun fs =>
  match fs.memory with
  | [] => pure (true, fs)
  | ok :: rest => pure (ok, { fs with memory := rest })

def blockRead (sector : Nat) : Fs Bytes := do
  let fs ← get
  if sector < fs.size then pure (fs.disk sector) else throw "Access past end of device"

def blockWrite (sector : Nat) (buffer : Bytes) : Fs Unit := do
  let fs ← get
  if sector < fs.size then set { fs with disk := Function.update fs.disk sector buffer }
  else throw "Access past end of device"

/-- `memcpy (dst + at, src + from, count)`. -/
def memcpy (dst : Bytes) (place : Nat) (src : Bytes) (from_ count : Nat) : Bytes :=
  fun i => if place ≤ i ∧ i < place + count then src (i - place + from_) else dst i

/-- The bytes that one turn of the loops of `inode_read_at` and `inode_write_at`
can move. The source compares signed numbers and stops when the least of them is
not positive. -/
def chunkSize (length : Int) (size offset : Nat) : Nat :=
  min size (min (length - offset).toNat (512 - offset % 512))

/-- The bounce buffer is allocated when it is needed for the first time. -/
def bounceBuffer (bounce : Bool) : Fs Bool := if bounce then pure true else malloc

/-- The loop of `inode_read_at`. A turn moves at least one byte, so that `size`
turns are enough. -/
def readLoop (data : InodeDisk) : Nat → Nat → Nat → Nat → Bytes → Bool → Fs (Nat × Bytes)
  | 0, _, _, bytesRead, buffer, _ => pure (bytesRead, buffer)
  | turns + 1, size, offset, bytesRead, buffer, bounce =>
    let sectorIdx := data.start + offset / 512
    let sectorOfs := offset % 512
    let chunk := chunkSize data.length size offset
    let next (content : Bytes) (bounce : Bool) := readLoop data turns (size - chunk)
      (offset + chunk) (bytesRead + chunk) (memcpy buffer bytesRead content sectorOfs chunk) bounce
    if chunk = 0 then pure (bytesRead, buffer)
    else if sectorOfs = 0 ∧ chunk = 512 then do
      let content ← blockRead sectorIdx
      next content bounce
    else do
      let bounce ← bounceBuffer bounce
      if bounce then
        let content ← blockRead sectorIdx
        next content true
      else pure (bytesRead, buffer)

def inodeReadAt (inode : InodePtr) (buffer : Bytes) (size : Int) (offset : Nat) :
    Fs (Nat × Bytes) := do
  let fs ← get
  readLoop (fs.inode inode).data size.toNat size.toNat offset 0 buffer false

/-- What the bounce buffer holds before the new bytes go in. -/
def bounceContent (sectorIdx sectorOfs sectorLeft chunk : Nat) : Fs Bytes :=
  if sectorOfs > 0 ∨ chunk < sectorLeft then blockRead sectorIdx else pure fun _ => 0

/-- The loop of `inode_write_at`. -/
def writeLoop (data : InodeDisk) (buffer : Bytes) : Nat → Nat → Nat → Nat → Bool → Fs Nat
  | 0, _, _, bytesWritten, _ => pure bytesWritten
  | turns + 1, size, offset, bytesWritten, bounce =>
    let sectorIdx := data.start + offset / 512
    let sectorOfs := offset % 512
    let sectorLeft := 512 - sectorOfs
    let chunk := chunkSize data.length size offset
    let next (bounce : Bool) := writeLoop data buffer turns (size - chunk) (offset + chunk)
      (bytesWritten + chunk) bounce
    if chunk = 0 then pure bytesWritten
    else if sectorOfs = 0 ∧ chunk = 512 then do
      blockWrite sectorIdx fun i => buffer (bytesWritten + i)
      next bounce
    else do
      let bounce ← bounceBuffer bounce
      if bounce then
        let content ← bounceContent sectorIdx sectorOfs sectorLeft chunk
        blockWrite sectorIdx (memcpy content sectorOfs buffer bytesWritten chunk)
        next true
      else pure bytesWritten

def inodeWriteAt (inode : InodePtr) (buffer : Bytes) (size : Int) (offset : Nat) : Fs Nat := do
  let fs ← get
  if (fs.inode inode).denyWriteCnt ≠ 0 then pure 0
  else writeLoop (fs.inode inode).data buffer size.toNat size.toNat offset 0 false

end Pintos.Filesys
