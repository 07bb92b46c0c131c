import Pintos.Filesys.FreeMap

/-!
# Files, the directory and the file system

`filesys/file.c`, `filesys/directory.c`, `filesys/filesys.c` and the rest of
`filesys/free-map.c`. A null pointer is `none`. The only directory is the root, whose
entries are looked at as the bytes they are.
-/

namespace Pintos.Filesys

open LittleEndian Prog

/-! ### Open files -/

/-- `inode_close`, which ignores a null pointer. -/
def closeInode : Option InodePtr → Fs Unit
  | none => pure ()
  | some inode => inodeClose inode

def fileOpen (inode : Option InodePtr) : Fs (Option FilePtr) := do
  let allocated ← malloc
  match inode, allocated with
  | some inode, true => do
    let fs ← get
    let file := fs.files
    set { fs with file := Function.update fs.file file { inode }, files := file + 1 }
    pure (some file)
  | inode, _ => do
    closeInode inode
    pure none

def fileReopen (file : FilePtr) : Fs (Option FilePtr) := do
  let fs ← get
  inodeReopen (fs.file file).inode
  fileOpen (some (fs.file file).inode)

def modifyFile (file : FilePtr) (f : File → File) : Fs Unit := do
  let fs ← get
  set { fs with file := Function.update fs.file file (f (fs.file file)) }

def fileDenyWrite (file : FilePtr) : Fs Unit := do
  let fs ← get
  if (fs.file file).denyWrite then pure ()
  else do
    modifyFile file fun f => { f with denyWrite := true }
    inodeDenyWrite (fs.file file).inode

def fileAllowWrite (file : FilePtr) : Fs Unit := do
  let fs ← get
  if (fs.file file).denyWrite then do
    modifyFile file fun f => { f with denyWrite := false }
    inodeAllowWrite (fs.file file).inode
  else pure ()

def fileClose : Option FilePtr → Fs Unit
  | none => pure ()
  | some file => do
    fileAllowWrite file
    let fs ← get
    inodeClose (fs.file file).inode

def fileRead (file : FilePtr) (buffer : Bytes) (size : Int) : Fs (Nat × Bytes) := do
  let fs ← get
  let (bytesRead, buffer) ← inodeReadAt (fs.file file).inode buffer size (fs.file file).pos
  modifyFile file fun f => { f with pos := f.pos + bytesRead }
  pure (bytesRead, buffer)

def fileWrite (file : FilePtr) (buffer : Bytes) (size : Int) : Fs Nat := do
  let fs ← get
  let bytesWritten ← inodeWriteAt (fs.file file).inode buffer size (fs.file file).pos
  modifyFile file fun f => { f with pos := f.pos + bytesWritten }
  pure bytesWritten

def fileLength (file : FilePtr) : Fs Int := do
  let fs ← get
  pure (fs.inode (fs.file file).inode).data.length

def fileSeek (file : FilePtr) (newPos : Int) : Fs Unit := do
  assert (0 ≤ newPos) "new_pos >= 0"
  modifyFile file fun f => { f with pos := newPos.toNat }

def fileTell (file : FilePtr) : Fs Nat := do
  let fs ← get
  pure (fs.file file).pos

/-! ### The file of the free map -/

/-- The bits after `bitmap_create`, which leaves those that stand for no sector as they were in
memory, and the two marks of `free_map_init`. -/
def freshBits (size : Nat) (junk : Bytes) : Nat → Bool := fun i =>
  decide (i = freeMapSector ∨ i = rootDirSector) ||
    decide (size ≤ i) && (junk (i / 8)).toNat.testBit (i % 8)

def freeMapInit : Fs Unit := do
  let header ← malloc
  if header then
    let words ← malloc
    let fs ← get
    if words ∨ fs.size = 0 then
      set { fs with bits := freshBits fs.size fs.junk }
    else throw "bitmap creation failed--file system device is too large"
  else throw "bitmap creation failed--file system device is too large"

/-- `free_map_file = file_open (inode_open (FREE_MAP_SECTOR))`. -/
def openFreeMapFile : Fs FilePtr := do
  let inode ← inodeOpen freeMapSector
  let file ← fileOpen inode
  let fs ← get
  set { fs with freeMapFile := file }
  match file with
  | none => throw "can't open free map"
  | some file => pure file

def freeMapOpen : Fs Unit := do
  let file ← openFreeMapFile
  if ← bitmapRead file then pure () else throw "can't read free map"

def freeMapClose : Fs Unit := do
  let fs ← get
  fileClose fs.freeMapFile

def freeMapCreate : Fs Unit := do
  let fs ← get
  if ← inodeCreate freeMapSector (byteCnt fs.size) then
    let file ← openFreeMapFile
    if ← bitmapWrite file then pure () else throw "can't write free map"
  else throw "free map creation failed"

/-! ### Directory entries -/

/-- A string of C, without the null at its end. -/
structure CString where
  chars : List UInt8
  nonzero : 0 ∉ chars
  deriving DecidableEq

theorem nonzero_a : (0 : UInt8) ∉ [97] := by decide

namespace CString

/-- `strlen`. -/
def length (s : CString) : Nat := s.chars.length

def char (s : CString) (i : Nat) : UInt8 := s.chars.getD i 0

end CString

def nameMax : Nat := 14

/-- `sizeof (struct dir_entry)`: the sector in four bytes, the name in 15, the flag in one. -/
def entrySize : Nat := 20

namespace Entry

def inodeSector (e : Bytes) : Nat := get32 e 0

def inUse (e : Bytes) : Bool := e 19 != 0

/-- `!strcmp (name, e.name)`. -/
def named (e : Bytes) (name : CString) : Bool :=
  (List.range name.length).all (fun i => e (4 + i) == name.char i) && e (4 + name.length) == 0

/-- The string in `e.name`, as `strlcpy` copies it to a buffer of the same size. -/
def name (e : Bytes) : List UInt8 :=
  ((List.range nameMax).map fun i => e (4 + i)).takeWhile (· != 0)

/-- The three assignments of `dir_add`; the name is short enough for `strlcpy`. -/
def fill (e : Bytes) (name : CString) (sector : Nat) : Bytes := fun j =>
  if j < 4 then put32 sector j
  else if j < 4 + name.length then name.char (j - 4)
  else if j = 4 + name.length then 0
  else if j = 19 then 1
  else e j

/-- The entry without its flag. -/
def clear (e : Bytes) : Bytes := fun j => if j = 19 then 0 else e j

end Entry

/-! ### The directory -/

structure Dir where
  inode : InodePtr
  pos : Nat := 0

/-- The product is one of `size_t`, and is made an `off_t`. -/
def dirCreate (sector entryCnt : Nat) : Fs Bool :=
  inodeCreate sector (toInt32 (entryCnt * entrySize % 2 ^ 32))

def dirOpen (inode : Option InodePtr) : Fs (Option Dir) := do
  let allocated ← malloc
  match inode, allocated with
  | some inode, true => pure (some { inode })
  | inode, _ => do
    closeInode inode
    pure none

def dirOpenRoot : Fs (Option Dir) := do
  let inode ← inodeOpen rootDirSector
  dirOpen inode

def dirClose : Option Dir → Fs Unit
  | none => pure ()
  | some dir => inodeClose dir.inode

/-- The reads of a directory end at the end of the file, so this many turns are enough. -/
def FS.turns (fs : FS) (dir : Dir) : Nat := (fs.inode dir.inode).data.length.toNat / entrySize + 1

/-- The loop of `lookup`, with the entry it finds and its offset. -/
def lookupLoop (dir : Dir) (name : CString) : Nat → Nat → Bytes → Fs (Option (Bytes × Nat))
  | 0, _, _ => pure none
  | turns + 1, ofs, e => do
    let (n, e) ← inodeReadAt dir.inode e entrySize ofs
    if n = entrySize then
      if Entry.inUse e && Entry.named e name then pure (some (e, ofs))
      else lookupLoop dir name turns (ofs + entrySize) e
    else pure none

def lookup (dir : Dir) (name : CString) : Fs (Option (Bytes × Nat)) := do
  let fs ← get
  lookupLoop dir name (fs.turns dir) 0 fs.junk

def dirLookup (dir : Dir) (name : CString) : Fs (Option InodePtr) := do
  match ← lookup dir name with
  | none => pure none
  | some (e, _) => inodeOpen (Entry.inodeSector e)

/-- The loop of `dir_add` that looks for a free slot. It also ends where a read fails. -/
def freeSlotLoop (dir : Dir) : Nat → Nat → Bytes → Fs (Nat × Bytes)
  | 0, ofs, e => pure (ofs, e)
  | turns + 1, ofs, e => do
    let (n, e) ← inodeReadAt dir.inode e entrySize ofs
    if n = entrySize ∧ Entry.inUse e then freeSlotLoop dir turns (ofs + entrySize) e
    else pure (ofs, e)

def dirAdd (dir : Dir) (name : CString) (inodeSector : Nat) : Fs Bool := do
  if name.length = 0 ∨ nameMax < name.length then pure false
  else
    match ← lookup dir name with
    | some _ => pure false
    | none => do
      let fs ← get
      let (ofs, e) ← freeSlotLoop dir (fs.turns dir) 0 fs.junk
      let n ← inodeWriteAt dir.inode (Entry.fill e name inodeSector) entrySize ofs
      pure (decide (n = entrySize))

def dirRemove (dir : Dir) (name : CString) : Fs Bool := do
  match ← lookup dir name with
  | none => pure false
  | some (e, ofs) => do
    match ← inodeOpen (Entry.inodeSector e) with
    | none => pure false
    | some inode => do
      let n ← inodeWriteAt dir.inode (Entry.clear e) entrySize ofs
      if n = entrySize then inodeRemove inode
      inodeClose inode
      pure (decide (n = entrySize))

/-- The loop of `dir_readdir`: the next name, and the directory with its new position. -/
def readdirLoop : Nat → Dir → Bytes → Fs (Option (List UInt8) × Dir)
  | 0, dir, _ => pure (none, dir)
  | turns + 1, dir, e => do
    let (n, e) ← inodeReadAt dir.inode e entrySize dir.pos
    if n = entrySize then
      let dir := { dir with pos := dir.pos + entrySize }
      if Entry.inUse e then pure (some (Entry.name e), dir) else readdirLoop turns dir e
    else pure (none, dir)

def dirReaddir (dir : Dir) : Fs (Option (List UInt8) × Dir) := do
  let fs ← get
  readdirLoop (fs.turns dir) dir fs.junk

/-- The loop of `fsutil_ls`, with the names it prints. -/
def lsLoop : Nat → Dir → Fs (List (List UInt8))
  | 0, _ => pure []
  | turns + 1, dir => do
    match ← dirReaddir dir with
    | (none, _) => pure []
    | (some name, dir) => do
      let rest ← lsLoop turns dir
      pure (name :: rest)

/-! ### The file system -/

/-- The chain of `filesys_create`: whether every link held, and `inode_sector`. -/
def createIn (name : CString) (initialSize : Int) : Option Dir → Fs (Bool × Nat)
  | none => pure (false, 0)
  | some dir => do
    match ← freeMapAllocate 1 with
    | none => pure (false, 0)
    | some inodeSector => do
      if ← inodeCreate inodeSector initialSize then
        let added ← dirAdd dir name inodeSector
        pure (added, inodeSector)
      else pure (false, inodeSector)

def filesysCreate (name : CString) (initialSize : Int) : Fs Bool := do
  let dir ← dirOpenRoot
  let (success, inodeSector) ← createIn name initialSize dir
  if !success ∧ inodeSector ≠ 0 then freeMapRelease inodeSector 1
  dirClose dir
  pure success

def lookupIn (name : CString) : Option Dir → Fs (Option InodePtr)
  | none => pure none
  | some dir => dirLookup dir name

def filesysOpen (name : CString) : Fs (Option FilePtr) := do
  let dir ← dirOpenRoot
  let inode ← lookupIn name dir
  dirClose dir
  fileOpen inode

def removeIn (name : CString) : Option Dir → Fs Bool
  | none => pure false
  | some dir => dirRemove dir name

def filesysRemove (name : CString) : Fs Bool := do
  let dir ← dirOpenRoot
  let success ← removeIn name dir
  dirClose dir
  pure success

def doFormat : Fs Unit := do
  freeMapCreate
  if ← dirCreate rootDirSector 16 then freeMapClose
  else throw "root directory creation failed"

def filesysInit (format : Bool) : Fs Unit := do
  let fs ← get
  set { fs with openInodes := [] }
  freeMapInit
  if format then doFormat
  freeMapOpen

end Pintos.Filesys
