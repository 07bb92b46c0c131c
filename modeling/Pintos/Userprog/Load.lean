import Pintos.Filesys.Directory
import Pintos.Userprog.PageDir

/-!
# Loading an executable

What `load` does with a program header, in `userprog/process.c`. The file system and the memory of
the kernel are two parts of one state.
-/

namespace Pintos.Userprog

open LittleEndian Prog Paging Filesys

/-! ### Bytes of a page -/

def ramBytes (r : Ram) (page : Nat) : Bytes := fun i => put32 (r.word (page + 4 * (i / 4))) (i % 4)

/-- Stores to a page of RAM, from its first byte on. -/
def storePage (page : Nat) (b : Bytes) : Mem Unit := do
  let r ← get
  set { r with word := fun a => if pgNo a = pgNo page then get32 b (pgOfs a) else r.word a }

structure Loader where
  fs : FS
  ram : Ram

abbrev Load := Prog Loader

section
variable {α : Type}

def onFiles (m : Fs α) : Load α := zoom Loader.fs (fun fs s => { s with fs }) m

def onRam (m : Mem α) : Load α := zoom Loader.ram (fun ram s => { s with ram }) m

end

/-- `file_read` into a page. -/
def readPage (file : FilePtr) (kpage size : Nat) : Load Nat := do
  let s ← get
  let (bytesRead, bytes) ← onFiles (fileRead file (ramBytes s.ram kpage) size)
  onRam (storePage kpage bytes)
  pure bytesRead

/-- `memset (kpage + from, 0, PGSIZE - from)`. -/
def clearRest (kpage from_ : Nat) : Mem Unit := do
  let r ← get
  storePage kpage fun i => if from_ ≤ i then 0 else ramBytes r kpage i

/-! ### Headers -/

/-- What `load` uses of `struct Elf32_Phdr`. -/
structure Phdr where
  type : UInt32
  offset : UInt32
  vaddr : UInt32
  filesz : UInt32
  memsz : UInt32
  flags : UInt32

def phdrSize : Nat := 32

def phdr (b : Bytes) : Phdr where
  type := .ofNat (get32 b 0)
  offset := .ofNat (get32 b 4)
  vaddr := .ofNat (get32 b 8)
  filesz := .ofNat (get32 b 16)
  memsz := .ofNat (get32 b 20)
  flags := .ofNat (get32 b 24)

/-! ### Segments -/

/-- `ROUND_UP (x, PGSIZE)` of 32-bit numbers. -/
def roundUpPage (x : Nat) : Nat := ((x + (pgSize - 1)) % 2 ^ 32 / pgSize * pgSize) % 2 ^ 32

/-- `a - b` of 32-bit numbers. -/
def sub32 (a b : Nat) : Nat := (a + 2 ^ 32 - b) % 2 ^ 32

namespace Phdr

/-- The arguments `load` has for `load_segment`. -/
def readBytes (p : Phdr) : Nat :=
  if p.filesz.toNat > 0 then ((p.vaddr.toNat &&& pgMask) + p.filesz.toNat) % 2 ^ 32 else 0

def zeroBytes (p : Phdr) : Nat :=
  let end_ := roundUpPage (((p.vaddr.toNat &&& pgMask) + p.memsz.toNat) % 2 ^ 32)
  if p.filesz.toNat > 0 then sub32 end_ p.readBytes else end_

end Phdr

def validateSegment (p : Phdr) (file : FilePtr) : Fs Bool := do
  let length ← fileLength file
  let offset := p.offset.toNat
  let vaddr := p.vaddr.toNat
  let memsz := p.memsz.toNat
  if offset &&& pgMask ≠ vaddr &&& pgMask then pure false
  else if offset > ofInt32 length then pure false
  else if memsz < p.filesz.toNat then pure false
  else if memsz = 0 then pure false
  else if ¬ isUserVaddr vaddr then pure false
  else if ¬ isUserVaddr ((vaddr + memsz) % 2 ^ 32) then pure false
  else if (vaddr + memsz) % 2 ^ 32 < vaddr then pure false
  else if vaddr < pgSize then pure false
  else pure true

def installPage (pd upage kpage : Nat) (writable : Bool) : Mem Bool := do
  match ← pagedirGetPage pd upage with
  | some _ => pure false
  | none => pagedirSetPage pd upage kpage writable

section
variable (file : FilePtr) (pd : Nat)

/-- A turn of the loop of `load_segment`, unless it returns. -/
def loadPage (writable : Bool) (upage pageReadBytes : Nat) : Load Bool := do
  match ← onRam (pallocGetPage false) with
  | none => pure false
  | some kpage => do
    let bytesRead ← readPage file kpage pageReadBytes
    if bytesRead ≠ pageReadBytes then
      onRam (pallocFreePage kpage)
      pure false
    else
      onRam (clearRest kpage pageReadBytes)
      let installed ← onRam (installPage pd upage kpage writable)
      if !installed then
        onRam (pallocFreePage kpage)
        pure false
      else pure true

/-- The loop of `load_segment`; `left` turns may be made. The result is `read_bytes` and
`zero_bytes` at its end, unless it is left by a `return`. -/
def loadPages (writable : Bool) : Nat → Nat → Nat → Nat → Load (Option (Nat × Nat))
  | 0, _, _, _ => throw "load_segment does not end"
  | left + 1, upage, readBytes, zeroBytes =>
    if readBytes > 0 ∨ zeroBytes > 0 then do
      let pageReadBytes := if readBytes < pgSize then readBytes else pgSize
      let pageZeroBytes := pgSize - pageReadBytes
      let done ← loadPage file pd writable upage pageReadBytes
      if done then
        loadPages writable left ((upage + pgSize) % 2 ^ 32) (sub32 readBytes pageReadBytes)
          (sub32 zeroBytes pageZeroBytes)
      else pure none
    else pure (some (readBytes, zeroBytes))

/-- There are no more turns than pages below 4 GB. -/
def loadSegment (ofs : Int) (upage readBytes zeroBytes : Nat) (writable : Bool) : Load Bool := do
  assert ((readBytes + zeroBytes) % 2 ^ 32 % pgSize = 0) "(read_bytes + zero_bytes) % PGSIZE == 0"
  assert (pgOfs upage = 0) "pg_ofs (upage) == 0"
  assert (ofs % pgSize = 0) "ofs % PGSIZE == 0"
  onFiles (fileSeek file ofs)
  let ended ← loadPages file pd writable (2 ^ 20 + 1) upage readBytes zeroBytes
  pure ended.isSome

def loadValid (p : Phdr) : Load Bool :=
  let writable : Bool := p.flags.toNat &&& 2 ≠ 0
  let filePage := p.offset.toNat &&& (2 ^ 32 - 1 - pgMask)
  let memPage := p.vaddr.toNat &&& (2 ^ 32 - 1 - pgMask)
  loadSegment file pd (toInt32 filePage) memPage p.readBytes p.zeroBytes writable

/-- What the loop does with a header; the result says whether it goes on. -/
def loadHeader (p : Phdr) : Load Bool := do
  if p.type.toNat = 1 then
    let valid ← onFiles (validateSegment p file)
    if valid then loadValid file pd p else pure false
  else pure (p.type.toNat ≠ 2 ∧ p.type.toNat ≠ 3 ∧ p.type.toNat ≠ 5)

/-- The header at an offset. What `file_read` leaves of a structure it does not fill is not looked
at. -/
def fetchHeader (fileOfs : Int) : Fs (Option Phdr) := do
  let length ← fileLength file
  if fileOfs < 0 ∨ fileOfs > length then pure none
  else
    fileSeek file fileOfs
    let (bytesRead, bytes) ← fileRead file (fun _ => 0) phdrSize
    pure (if bytesRead = phdrSize then some (phdr bytes) else none)

end

end Pintos.Userprog
