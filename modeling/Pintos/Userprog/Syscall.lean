import Pintos.Kernel.Strings
import Pintos.Lib.Attempt

/-!
# System calls

`userprog/syscall.c`, and of `process_exit` the part that closes the files. The kernel reads and
writes the memory of the process at the addresses the process has given it; a page fault in the
kernel is a panic. The lock of the file system is not in the model of a single call.
-/

namespace Pintos.Userprog

open LittleEndian Prog Paging Filesys Strings

/-- Why a call does not return. -/
inductive Stop where
  /-- `thread_exit`. -/
  | exit
  /-- `shutdown_power_off`. -/
  | powerOff
  /-- A page fault in the kernel, at which `kill` panics. -/
  | fault
  | panic (text : String)
  deriving DecidableEq

structure Access where
  address : Nat
  store : Bool
  deriving DecidableEq

/-- The process that makes the call, and the file system. -/
structure Caller where
  /-- The pages that are mapped, and whether they are writable. -/
  page : Nat → Option Bool
  /-- Memory, as the process sees it. -/
  memory : Bytes
  /-- The slots of `fd_table`, of which there are 128. -/
  fdTable : Nat → Option FilePtr := fun _ => none
  nextFd : Nat := 2
  execFile : Option FilePtr := none
  exitStatus : Int := -1
  /-- `f->eax`. -/
  eax : Nat := 0
  fs : FS
  /-- The files that are open in the kernel, but for that of the free map. -/
  opened : List FilePtr := []
  /-- The bytes at addresses of the process that the kernel has read or written. -/
  accesses : List Access := []
  /-- The files that have been passed to a function of `file.c`. -/
  used : List FilePtr := []
  /-- The files that have been passed to `file_close`. -/
  closed : List FilePtr := []
  /-- The files that have been stored in `fd_table`, with their descriptors. -/
  stored : List (Nat × FilePtr) := []

/-- What is outside the model of a call: the memory that `process_execute` can allocate and what
it returns if it gets so far, what `process_wait` returns, and the keys that are typed. -/
structure Env where
  fnCopy : Bool := true
  nameCopy : Bool := true
  childInfo : Bool := true
  threadPage : Bool := true
  executed : Int := 0
  waited : Int → Int := fun _ => -1
  key : Nat → UInt8 := fun _ => 0

abbrev Sys := Attempt Stop Caller

/-- `f->esp + n`. -/
def offset (esp n : Nat) : Nat := (esp + n) % 2 ^ 32

namespace Caller

def mapped (c : Caller) (va : Nat) : Bool := (c.page (pgNo va)).isSome

/-- The access does not fault. The kernel's own addresses are all mapped. -/
def allows (c : Caller) (a : Access) : Bool :=
  physBase ≤ a.address || (c.page (pgNo a.address)).any fun writable => writable || !a.store

/-- The address passes the test in `check_valid_ptr`. -/
def passes (c : Caller) (va : Nat) : Bool := va ≠ 0 && isUserVaddr va && c.mapped va

end Caller

def threadExit {α : Type} : Sys α := throw .exit

def checkValidPtr (vaddr : Nat) : Sys Unit := do
  let c ← get
  if (List.range 4).all fun i => c.passes (offset vaddr i) then pure ()
  else
    set { c with exitStatus := -1 }
    threadExit

def touch (a : Access) : Sys Unit := do
  modify fun c => { c with accesses := a :: c.accesses }
  if (← get).allows a then pure () else throw .fault

/-- It touches so many bytes, one after the other. -/
def touchAll (vaddr : Nat) (store : Bool) : Nat → Sys Unit
  | 0 => pure ()
  | count + 1 => do
    touchAll vaddr store count
    touch ⟨offset vaddr count, store⟩

def loadWord (vaddr : Nat) : Sys Nat := do
  touchAll vaddr false 4
  let c ← get
  pure (get32 (fun i => c.memory (offset vaddr i)) 0)

/-- The string at `vaddr`, all of which is read. A lookup in a directory may compare less of it. -/
def loadString (vaddr : Nat) : Nat → Sys CString
  | 0 => throw .fault
  | most + 1 => do
    touch ⟨vaddr, false⟩
    let char := (← get).memory vaddr
    if null : char = 0 then pure ⟨[], List.not_mem_nil⟩
    else
      let rest ← loadString (offset vaddr 1) most
      pure ⟨char :: rest.chars, by simpa [Ne.symm null] using rest.nonzero⟩

/-- A string ends before all of memory is read. -/
def userString (vaddr : Nat) : Sys CString := loadString vaddr (2 ^ 32)

def loadInt (vaddr : Nat) : Sys Int := do
  let n ← loadWord vaddr
  pure (toInt32 n)

/-- Stores so many of these bytes from `vaddr` on. -/
def storeBytes (vaddr : Nat) (bytes : Bytes) (count : Nat) : Sys Unit := do
  touchAll vaddr true count
  modify fun c => { c with memory := fun a =>
    let i := offset (2 ^ 32 - vaddr % 2 ^ 32) a
    if i < count then bytes i else c.memory a }

def Caller.buffer (c : Caller) (vaddr : Nat) : Bytes := fun i => c.memory (offset vaddr i)

def return_ (n : Int) : Sys Unit := modify fun c => { c with eax := ofInt32 n }

/-! ### The file system -/

def onFs {α : Type} (m : Fs α) : Sys α :=
  Attempt.lift Caller.fs (fun fs c => { c with fs }) .panic m

def onFile {α : Type} (file : FilePtr) (m : Fs α) : Sys α := do
  modify fun c => { c with used := file :: c.used }
  onFs m

def openFile (name : CString) : Sys (Option FilePtr) := do
  let file ← onFs (filesysOpen name)
  modify fun c => { c with opened := file.toList ++ c.opened }
  pure file

def closeFile (file : FilePtr) : Sys Unit := do
  onFile file (fileClose (some file))
  modify fun c => { c with opened := c.opened.erase file, closed := file :: c.closed }

/-- `file_read` into the memory of the process. -/
def readFile (file : FilePtr) (buffer size : Nat) : Sys Int := do
  let c ← get
  let (bytesRead, bytes) ← onFile file (fileRead file (c.buffer buffer) (toInt32 size))
  storeBytes buffer bytes bytesRead
  pure bytesRead

/-- `file_write` from the memory of the process. -/
def writeFile (file : FilePtr) (buffer size : Nat) : Sys Int := do
  let c ← get
  let bytesWritten ← onFile file (fileWrite file (c.buffer buffer) (toInt32 size))
  touchAll buffer false bytesWritten
  pure bytesWritten

/-- What is in the slot of a descriptor, if it has one that may be used. -/
def Caller.file (c : Caller) (fd : Int) : Option FilePtr :=
  if 2 ≤ fd ∧ fd < 128 then c.fdTable fd.toNat else none

/-! ### The calls -/

section
variable (env : Env) (esp : Nat)

/-- `strtok_r (name_copy, " ", &save_ptr)`, on a copy of the text in a page. -/
def firstToken (text : CString) : Sys (Option Nat) :=
  match strtokR (some 0) [space] 0 (strlcpy (fun _ => 0) text pgSize) with
  | .ok ((token, _), _) => pure token
  | .error text => throw (.panic text)

/-- `process_execute`, up to the start of the new thread. -/
def processExecute (fileName : Nat) : Sys Int := do
  if !env.fnCopy then pure (-1)
  else
    let text ← userString fileName
    if !env.nameCopy then pure (-1)
    else
      let progName ← firstToken text
      if !env.childInfo then pure (-1)
      -- `thread_create`, which calls `init_thread`
      else if !env.threadPage then pure (-1)
      else if progName = none then throw (.panic "name != NULL")
      else pure env.executed

/-- The string that the first argument points to. -/
def argString : Sys CString := do
  checkValidPtr (offset esp 4)
  let file ← loadWord (offset esp 4)
  checkValidPtr file
  userString file

def sysOpen : Sys Unit := do
  let name ← argString esp
  match ← openFile name with
  | none => return_ (-1)
  | some file => do
    let c ← get
    if c.nextFd < 128 then
      set { c with
        fdTable := Function.update c.fdTable c.nextFd (some file)
        stored := (c.nextFd, file) :: c.stored
        eax := c.nextFd
        nextFd := c.nextFd + 1 }
    else return_ (-1)

def sysClose : Sys Unit := do
  checkValidPtr (offset esp 4)
  let closeFd ← loadInt (offset esp 4)
  match (← get).file closeFd with
  | none => pure ()
  | some file => do
    closeFile file
    modify fun c => { c with fdTable := Function.update c.fdTable closeFd.toNat none }

def sysExec : Sys Unit := do
  checkValidPtr (offset esp 4)
  let cmdLine ← loadWord (offset esp 4)
  checkValidPtr cmdLine
  return_ (← processExecute env cmdLine)

def sysWait : Sys Unit := do
  checkValidPtr (offset esp 4)
  let pid ← loadInt (offset esp 4)
  return_ (env.waited pid)

def sysCreate : Sys Unit := do
  checkValidPtr (offset esp 4)
  checkValidPtr (offset esp 8)
  let createFile ← loadWord (offset esp 4)
  let initialSize ← loadWord (offset esp 8)
  checkValidPtr createFile
  let name ← userString createFile
  let success ← onFs (filesysCreate name (toInt32 initialSize))
  return_ (if success then 1 else 0)

def sysRemove : Sys Unit := do
  let name ← argString esp
  let success ← onFs (filesysRemove name)
  return_ (if success then 1 else 0)

def sysHalt : Sys Unit := throw .powerOff

def sysExit : Sys Unit := do
  checkValidPtr (offset esp 4)
  let status ← loadInt (offset esp 4)
  modify fun c => { c with exitStatus := status }
  threadExit

/-- The second check of a buffer to be filled. -/
def checkLast (buffer size : Nat) : Sys Unit :=
  if size > 0 then checkValidPtr (offset buffer (size - 1)) else pure ()

def sysRead : Sys Unit := do
  checkValidPtr (offset esp 4)
  checkValidPtr (offset esp 8)
  checkValidPtr (offset esp 12)
  let fd ← loadInt (offset esp 4)
  let buffer ← loadWord (offset esp 8)
  let size ← loadWord (offset esp 12)
  checkValidPtr buffer
  checkLast buffer size
  if fd = 0 then
    storeBytes buffer env.key size
    return_ size
  else
    match (← get).file fd with
    | some file => return_ (← readFile file buffer size)
    | none => return_ (-1)

/-- The arguments are read before they are checked. -/
def sysWrite : Sys Unit := do
  let fd ← loadInt (offset esp 4)
  let buffer ← loadWord (offset esp 8)
  let size ← loadWord (offset esp 12)
  checkValidPtr (offset esp 4)
  checkValidPtr (offset esp 8)
  checkValidPtr (offset esp 12)
  checkValidPtr buffer
  if fd = 1 then
    touchAll buffer false size
    return_ size
  else
    match (← get).file fd with
    | some file => return_ (← writeFile file buffer size)
    | none => return_ (-1)

def sysFilesize : Sys Unit := do
  checkValidPtr (offset esp 4)
  let fd ← loadInt (offset esp 4)
  match (← get).file fd with
  | some file => return_ (← onFile file (fileLength file))
  | none => return_ (-1)

def sysSeek : Sys Unit := do
  checkValidPtr (offset esp 4)
  checkValidPtr (offset esp 8)
  let fd ← loadInt (offset esp 4)
  let position ← loadWord (offset esp 8)
  match (← get).file fd with
  | some file => onFile file (fileSeek file (toInt32 position))
  | none => pure ()

def sysTell : Sys Unit := do
  checkValidPtr (offset esp 4)
  let fd ← loadInt (offset esp 4)
  match (← get).file fd with
  | some file => return_ (← onFile file (fileTell file))
  | none => return_ (-1)

/-- The numbers of `syscall-nr.h` that `syscall_handler` knows, in their order. -/
inductive SyscallNr where
  | halt | exit | exec | wait | create | remove | open_ | filesize | read | write | seek | tell
  | close
  deriving DecidableEq

def SyscallNr.all : List SyscallNr :=
  [.halt, .exit, .exec, .wait, .create, .remove, .open_, .filesize, .read, .write, .seek, .tell,
    .close]

def SyscallNr.ofInt (n : Int) : Option SyscallNr := if 0 ≤ n then SyscallNr.all[n.toNat]? else none

def SyscallNr.code : SyscallNr → Sys Unit
  | .halt => sysHalt
  | .exit => sysExit esp
  | .exec => sysExec env esp
  | .wait => sysWait env esp
  | .create => sysCreate esp
  | .remove => sysRemove esp
  | .open_ => sysOpen esp
  | .filesize => sysFilesize esp
  | .read => sysRead env esp
  | .write => sysWrite esp
  | .seek => sysSeek esp
  | .tell => sysTell esp
  | .close => sysClose esp

def syscallHandler : Sys Unit := do
  checkValidPtr esp
  checkValidPtr (offset esp 3)
  let syscallNum ← loadInt esp
  match SyscallNr.ofInt syscallNum with
  | some number => number.code env esp
  | none => threadExit

end

/-! ### process_exit -/

def closeSlot (i : Nat) : Sys Unit := do
  match (← get).fdTable i with
  | none => pure ()
  | some file => do
    closeFile file
    modify fun c => { c with fdTable := Function.update c.fdTable i none }

def closeSlots : List Nat → Sys Unit
  | [] => pure ()
  | i :: slots => do
    closeSlot i
    closeSlots slots

def processExit : Sys Unit := do
  closeSlots (List.range' 2 126)
  match (← get).execFile with
  | none => pure ()
  | some file => do
    closeFile file
    modify fun c => { c with execFile := none }

end Pintos.Userprog
