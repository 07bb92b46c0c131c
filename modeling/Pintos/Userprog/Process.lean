import Pintos.Lib.Machine
import Pintos.Threads.Synch

/-!
# Processes: exec, wait and exit

`process_execute`, `start_process`, `process_wait` and `process_exit` of
`userprog/process.c`, run by any number of processes. A step is one statement,
one turn of a loop, or one section with interrupts off, of any one process, so
every interleaving is a run. `thread_create` up to its `thread_unblock` is one
step: until then the new thread does not run, and the tid it has in `all_list`
is 0, which is nobody's `parent_tid`.

A `child_info` and a thread's page are named by the order of their allocation
and are never reused; freeing them takes away the `live` mark. A step that
touches what is not live has no successor.
-/

namespace Pintos.Userprog

open Function

open Threads (ThreadPtr listNext)

abbrev CiPtr := Nat
abbrev Tid := Int

def tidError : Tid := -1

structure ChildInfo where
  tid : Tid := tidError
  exitStatus : Int := -1
  waited : Bool := false
  waitSema : Nat := 0
  live : Bool := false
  deriving DecidableEq

/-- What a process does next, with the local variables it still needs. The lists
are walked with `none` for `list_end`. -/
inductive Pc where
  /-- In its own code, outside these functions. -/
  | running
  -- `process_execute`
  | allocate
  | threadCreate (ci : CiPtr)
  | storeTid (ci : CiPtr) (tid : Tid)
  | pushBack (ci : CiPtr) (tid : Tid)
  | loadDown (ci : CiPtr) (tid : Tid)
  | loadCheck (ci : CiPtr) (tid : Tid)
  | remove (ci : CiPtr)
  | free (ci : CiPtr)
  -- `start_process`, whose argument lies in the frame of the parent's `process_execute`
  | start (aux : ThreadPtr)
  | load (aux : ThreadPtr)
  | storeSuccess (aux : ThreadPtr) (success : Bool)
  | loadUp (aux : ThreadPtr) (success : Bool)
  -- `process_wait`
  | waitTest (tid : Tid) (e : Option CiPtr)
  | waitCheck (tid : Tid) (ci : CiPtr)
  | waitDown (tid : Tid) (ci : CiPtr)
  | waitRead (tid : Tid) (ci : CiPtr)
  -- `process_exit`
  | lookup
  | searchBegin (found : ThreadPtr)
  | searchTest (found : ThreadPtr) (e : Option CiPtr)
  | searchNext (found : ThreadPtr) (ci : CiPtr)
  | storeStatus (ci : CiPtr)
  | waitUp (ci : CiPtr)
  | exitDone
  /-- Out of `all_list`, and destroyed unless it is the initial thread. -/
  | gone
  deriving DecidableEq

/-- `struct exec_aux`. Its `ci` is not read by `start_process`, and `fn_copy` is the command. -/
structure ExecAux where
  loadSema : Nat := 0
  loadSuccess : Bool := false
  parentTid : Tid := tidError
  deriving DecidableEq

structure Process where
  tid : Tid := 0
  parentTid : Tid := tidError
  exitStatus : Int := -1
  children : List CiPtr := []
  live : Bool := false
  /-- The local variable of the `process_execute` it is in. -/
  aux : ExecAux := {}
  pc : Pc := .running
  deriving DecidableEq

structure System where
  process : ThreadPtr → Process
  created : Nat
  allList : List ThreadPtr
  info : CiPtr → ChildInfo
  allocated : Nat
  nextTid : Tid

/-- What a program asks for. A process that is killed exits without setting its status. -/
inductive Request where
  | execute
  | wait (tid : Tid)
  | exit (status : Option Int)

/-- The flag of `exec` says whether an allocation, or the loading of the
program, succeeds in that step. -/
inductive Event where
  | request (t : ThreadPtr) (r : Request)
  | exec (t : ThreadPtr) (ok : Bool)

inductive Memory where
  | info (ci : CiPtr)
  | process (t : ThreadPtr)
  deriving DecidableEq

namespace System

def initialThread : ThreadPtr := 0

def modify (k : System) (t : ThreadPtr) (f : Process → Process) : System :=
  { k with process := update k.process t (f (k.process t)) }

def modifyInfo (k : System) (ci : CiPtr) (f : ChildInfo → ChildInfo) : System :=
  { k with info := update k.info ci (f (k.info ci)) }

@[simp] def goto (k : System) (t : ThreadPtr) (pc : Pc) : System :=
  k.modify t fun p => { p with pc }

section
variable (k : System) (t u : ThreadPtr) (ci : CiPtr) (f : Process → Process)
  (g : ChildInfo → ChildInfo)

@[simp] theorem modify_process_self : (k.modify t f).process t = f (k.process t) :=
  update_self ..

@[simp] theorem modifyInfo_info_self : (k.modifyInfo ci g).info ci = g (k.info ci) :=
  update_self ..

variable {t u} in
theorem modify_process_ne (ne : u ≠ t) : (k.modify t f).process u = k.process u :=
  update_of_ne ne ..

variable {ci} in
theorem modifyInfo_info_ne {ci' : CiPtr} (ne : ci' ≠ ci) :
    (k.modifyInfo ci g).info ci' = k.info ci' :=
  update_of_ne ne ..

@[simp] theorem modify_created : (k.modify t f).created = k.created := rfl
@[simp] theorem modify_allList : (k.modify t f).allList = k.allList := rfl
@[simp] theorem modify_info : (k.modify t f).info = k.info := rfl
@[simp] theorem modify_allocated : (k.modify t f).allocated = k.allocated := rfl
@[simp] theorem modify_nextTid : (k.modify t f).nextTid = k.nextTid := rfl
@[simp] theorem modifyInfo_process : (k.modifyInfo ci g).process = k.process := rfl
@[simp] theorem modifyInfo_created : (k.modifyInfo ci g).created = k.created := rfl
@[simp] theorem modifyInfo_allList : (k.modifyInfo ci g).allList = k.allList := rfl
@[simp] theorem modifyInfo_allocated : (k.modifyInfo ci g).allocated = k.allocated := rfl
@[simp] theorem modifyInfo_nextTid : (k.modifyInfo ci g).nextTid = k.nextTid := rfl

end

/-- `thread_foreach` with `find_thread_by_tid`. -/
def findThreadByTid (k : System) (tid : Tid) : Option ThreadPtr :=
  k.allList.foldl (fun found t => if (k.process t).tid = tid then some t else found) none

/-- The records and pages the next step of a process reads or writes, other than its own page. -/
def uses (k : System) (t : ThreadPtr) : List Memory :=
  match (k.process t).pc with
  | .storeTid ci _ => [.info ci]
  -- the neighbours in the list are written as well
  | .pushBack ci _ => .info ci :: ((k.process t).children.getLast?.map .info).toList
  | .remove ci => .info ci :: (((k.process t).children.erase ci).getLast?.map .info).toList
  | .start aux | .storeSuccess aux _ | .loadUp aux _ => [.process aux]
  | .waitTest _ (some ci) | .waitCheck _ ci | .waitDown _ ci | .waitRead _ ci => [.info ci]
  | .searchBegin found => [.process found]
  | .searchTest _ (some ci) | .searchNext _ ci | .storeStatus ci | .waitUp ci => [.info ci]
  | _ => []

def alive (k : System) : Memory → Bool
  | .info ci => (k.info ci).live
  | .process t => (k.process t).live

/-- The next step of a process. `process_execute` removes no record but the one it
has put in last, so that the `list_next` of a removed record is the end of the list. -/
def execPc (k : System) (t : ThreadPtr) (ok : Bool) : Pc → Option System
  | .running | .gone => none
  -- `process_execute`
  | .allocate =>
    some (if ok then
      { k.modify t (fun p => { p with
          aux := { parentTid := p.tid }, pc := .threadCreate k.allocated }) with
        info := update k.info k.allocated { live := true }
        allocated := k.allocated + 1 }
    else k.goto t .running)
  | .threadCreate ci =>
    some (if ok then
      let c := k.created
      { (k.goto t (.storeTid ci k.nextTid)).modify c
          (fun _ => { tid := k.nextTid, live := true, pc := .start t }) with
        created := c + 1, allList := k.allList ++ [c], nextTid := k.nextTid + 1 }
    else (k.modifyInfo ci fun r => { r with live := false }).goto t .running)
  | .storeTid ci tid =>
    some ((k.modifyInfo ci fun r => { r with tid }).goto t (.pushBack ci tid))
  | .pushBack ci tid =>
    some (k.modify t fun p => { p with children := p.children ++ [ci], pc := .loadDown ci tid })
  | .loadDown ci tid =>
    let v := (k.process t).aux.loadSema
    if v = 0 then none
    else some (k.modify t fun p => { p with
      aux := { p.aux with loadSema := v - 1 }, pc := .loadCheck ci tid })
  | .loadCheck ci _ =>
    some (k.goto t (if (k.process t).aux.loadSuccess then .running else .remove ci))
  | .remove ci =>
    some (k.modify t fun p => { p with children := p.children.erase ci, pc := .free ci })
  | .free ci => some ((k.modifyInfo ci fun r => { r with live := false }).goto t .running)
  -- `start_process`
  | .start aux =>
    some (k.modify t fun p => { p with
      parentTid := (k.process aux).aux.parentTid, pc := .load aux })
  | .load aux => some (k.goto t (.storeSuccess aux ok))
  | .storeSuccess aux success =>
    some ((k.modify aux fun p => { p with aux := { p.aux with loadSuccess := success } }).goto t
      (.loadUp aux success))
  | .loadUp aux success =>
    some ((k.modify aux fun p =>
      { p with aux := { p.aux with loadSema := p.aux.loadSema + 1 } }).goto
      t (if success then .running else .lookup))
  -- `process_wait`
  | .waitTest _ none => some (k.goto t .running)
  | .waitTest tid (some ci) =>
    some (k.goto t (if (k.info ci).tid = tid then .waitCheck tid ci
      else .waitTest tid (listNext (k.process t).children ci)))
  | .waitCheck tid ci =>
    some (if (k.info ci).waited then k.goto t .running
      else (k.modifyInfo ci fun r => { r with waited := true }).goto t (.waitDown tid ci))
  | .waitDown tid ci =>
    let v := (k.info ci).waitSema
    if v = 0 then none
    else some ((k.modifyInfo ci fun r => { r with waitSema := v - 1 }).goto t (.waitRead tid ci))
  | .waitRead _ _ => some (k.goto t .running)
  -- `process_exit`
  | .lookup =>
    some (k.goto t (match k.findThreadByTid (k.process t).parentTid with
      | none => .exitDone
      | some found => .searchBegin found))
  | .searchBegin found =>
    some (k.goto t (.searchTest found (k.process found).children.head?))
  | .searchTest _ none => some (k.goto t .exitDone)
  | .searchTest found (some ci) =>
    some (k.goto t (if (k.info ci).tid = (k.process t).tid then .storeStatus ci
      else .searchNext found ci))
  | .searchNext found ci =>
    some (k.goto t (.searchTest found (listNext (k.process found).children ci)))
  | .storeStatus ci =>
    some ((k.modifyInfo ci fun r => { r with exitStatus := (k.process t).exitStatus }).goto t
      (.waitUp ci))
  | .waitUp ci =>
    some ((k.modifyInfo ci fun r => { r with waitSema := r.waitSema + 1 }).goto t .exitDone)
  -- the rest of `thread_exit`, up to the end of `thread_schedule_tail` in the next thread
  | .exitDone =>
    some { k.modify t (fun p => { p with live := decide (t = initialThread), pc := .gone }) with
      allList := k.allList.erase t }

def exec (k : System) (t : ThreadPtr) (ok : Bool) : Option System :=
  if (k.uses t).all k.alive then k.execPc t ok (k.process t).pc else none

def request (k : System) (t : ThreadPtr) : Request → System
  | .execute => k.goto t .allocate
  | .wait tid => k.goto t (.waitTest tid (k.process t).children.head?)
  | .exit status => k.modify t fun p => { p with
      exitStatus := status.getD p.exitStatus, pc := .lookup }

def step (k : System) : Event → Option System
  | .request t r =>
    if t < k.created ∧ (k.process t).pc = .running then some (k.request t r) else none
  | .exec t ok => if t < k.created then k.exec t ok else none

/-- The initial thread, when it calls `process_execute` for the first time. -/
def boot : System where
  process t := if t = initialThread then { tid := 1, live := true } else {}
  created := 1
  allList := [initialThread]
  info _ := {}
  allocated := 0
  nextTid := 3

end System

end Pintos.Userprog
