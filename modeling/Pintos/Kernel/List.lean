import Pintos.Lib.Links
import Pintos.Lib.Loop

/-!
# Doubly linked lists

The code of `lib/kernel/list.c`, over a heap of list elements. A pointer that the code does not
compare with NULL first is not NULL here.
-/

namespace Pintos.LinkedList

open Prog

variable {P : Type}

/-- `struct list`: the addresses of its two sentinels. -/
structure CList (P : Type) where
  head : P
  tail : P

abbrev M (P α : Type) := Prog (Heap P) α

def getPrev (p : P) : M P (Option P) := do return (← get).prev p

def getNext (p : P) : M P (Option P) := do return (← get).next p

def deref : Option P → M P P
  | some p => pure p
  | none => throw "null pointer"

def isHead (elem : P) : M P Bool := do return (← getPrev elem).isNone && (← getNext elem).isSome

def isInterior (elem : P) : M P Bool := do return (← getPrev elem).isSome && (← getNext elem).isSome

def isTail (elem : P) : M P Bool := do return (← getPrev elem).isSome && (← getNext elem).isNone

def listBegin (list : CList P) : M P P := do deref (← getNext list.head)

def listNext (elem : P) : M P P := do
  assert ((← isHead elem) || (← isInterior elem)) "is_head (elem) || is_interior (elem)"
  deref (← getNext elem)

def listPrev (elem : P) : M P P := do
  assert ((← isInterior elem) || (← isTail elem)) "is_interior (elem) || is_tail (elem)"
  deref (← getPrev elem)

section
variable {h : Heap P} {p : P}

@[simp] theorem wp_getPrev {Q : Option P → Heap P → Prop} :
    Wp (getPrev p) Q h ↔ Q (h.prev p) h := by
  simp [getPrev]

@[simp] theorem wp_getNext {Q : Option P → Heap P → Prop} :
    Wp (getNext p) Q h ↔ Q (h.next p) h := by
  simp [getNext]

@[simp] theorem wp_deref {Q : P → Heap P → Prop} : Wp (deref (some p)) Q h ↔ Q p h := wp_pure

@[simp] theorem wp_isHead {Q : Bool → Heap P → Prop} :
    Wp (isHead p) Q h ↔ Q ((h.prev p).isNone && (h.next p).isSome) h := by
  simp [isHead]

@[simp] theorem wp_isInterior {Q : Bool → Heap P → Prop} :
    Wp (isInterior p) Q h ↔ Q ((h.prev p).isSome && (h.next p).isSome) h := by
  simp [isInterior]

@[simp] theorem wp_isTail {Q : Bool → Heap P → Prop} :
    Wp (isTail p) Q h ↔ Q ((h.prev p).isSome && (h.next p).isNone) h := by
  simp [isTail]

end

variable [DecidableEq P]

def setPrev (p : P) (q : Option P) : M P Unit := do set ((← get).setPrev p q)

def setNext (p : P) (q : Option P) : M P Unit := do set ((← get).setNext p q)

section
variable {h : Heap P} {p : P} {o : Option P} {Q : Unit → Heap P → Prop}

@[simp] theorem wp_setPrev : Wp (setPrev p o) Q h ↔ Q () (h.setPrev p o) := by
  simp [setPrev]

@[simp] theorem wp_setNext : Wp (setNext p o) Q h ↔ Q () (h.setNext p o) := by
  simp [setNext]

end

def listInit (list : CList P) : M P Unit := do
  setPrev list.head none
  setNext list.head (some list.tail)
  setPrev list.tail (some list.head)
  setNext list.tail none

def listInsert (before elem : P) : M P Unit := do
  assert ((← isInterior before) || (← isTail before)) "is_interior (before) || is_tail (before)"
  setPrev elem (← getPrev before)
  setNext elem (some before)
  setNext (← deref (← getPrev before)) (some elem)
  setPrev before (some elem)

def listSplice (before first last : P) : M P Unit := do
  assert ((← isInterior before) || (← isTail before)) "is_interior (before) || is_tail (before)"
  if first = last then pure ()
  else do
    let last ← listPrev last
    assert (← isInterior first) "is_interior (first)"
    assert (← isInterior last) "is_interior (last)"
    setNext (← deref (← getPrev first)) (← getNext last)
    setPrev (← deref (← getNext last)) (← getPrev first)
    setPrev first (← getPrev before)
    setNext last (some before)
    setNext (← deref (← getPrev before)) (some first)
    setPrev before (some last)

def listPushFront (list : CList P) (elem : P) : M P Unit := do listInsert (← listBegin list) elem

def listPushBack (list : CList P) (elem : P) : M P Unit := listInsert list.tail elem

def listRemove (elem : P) : M P P := do
  assert (← isInterior elem) "is_interior (elem)"
  setNext (← deref (← getPrev elem)) (← getNext elem)
  setPrev (← deref (← getNext elem)) (← getPrev elem)
  deref (← getNext elem)

def listEmpty (list : CList P) : M P Bool := do return (← listBegin list) = list.tail

def listFront (list : CList P) : M P P := do
  assert (!(← listEmpty list)) "!list_empty (list)"
  deref (← getNext list.head)

def listBack (list : CList P) : M P P := do
  assert (!(← listEmpty list)) "!list_empty (list)"
  deref (← getPrev list.tail)

def listPopFront (list : CList P) : M P P := do
  let front ← listFront list
  let _ ← listRemove front
  pure front

def listPopBack (list : CList P) : M P P := do
  let back ← listBack list
  let _ ← listRemove back
  pure back

/-- The address of a link. -/
inductive Place (P : Type) where
  | prev (elem : P)
  | next (elem : P)

def load : Place P → M P (Option P)
  | .prev elem => getPrev elem
  | .next elem => getNext elem

def store (q : Option P) : Place P → M P Unit
  | .prev elem => setPrev elem q
  | .next elem => setNext elem q

def swap (a b : Place P) : M P Unit := do
  let t ← load a
  store (← load b) a
  store t b

def listReverse (rounds : Nat) (list : CList P) : M P Unit := do
  if ← listEmpty list then pure ()
  else do
    loop (fun e => do
      if e = list.tail then pure (.inr ())
      else do
        swap (.prev e) (.next e)
        return .inl (← deref (← getPrev e))) rounds (← listBegin list)
    swap (.next list.head) (.prev list.tail)
    swap (.prev (← deref (← getNext list.head))) (.next (← deref (← getPrev list.tail)))

def listInsertOrdered (rounds : Nat) (list : CList P) (elem : P) (less : P → P → Bool) : M P Unit :=
  do
  let e ← loop (fun e => do
    if e = list.tail then pure (.inr e)
    else if less elem e then pure (.inr e)
    else return .inl (← listNext e)) rounds (← listBegin list)
  listInsert e elem

/-- `if (duplicates != NULL) list_push_back (duplicates, next)`. -/
def pushDuplicate (duplicates : Option (CList P)) (next : P) : M P Unit :=
  match duplicates with
  | some duplicates => listPushBack duplicates next
  | none => pure ()

def listUnique (rounds : Nat) (list : CList P) (duplicates : Option (CList P))
    (less : P → P → Bool) :
    M P Unit := do
  if ← listEmpty list then pure ()
  else
    loop (fun elem => do
      let next ← listNext elem
      if next = list.tail then pure (.inr ())
      else if !less elem next && !less next elem then do
        let _ ← listRemove next
        pushDuplicate duplicates next
        pure (.inl elem)
      else pure (.inl next)) rounds (← listBegin list)

/-- The elements met from front to back, as the loop over `list_next` meets them. -/
def forward (rounds : Nat) (list : CList P) : M P (List P) := do
  loop (fun s => do
    if s.1 = list.tail then pure (.inr s.2)
    else return .inl (← listNext s.1, s.2 ++ [s.1])) rounds (← listBegin list, [])

/-- The elements met from back to front. -/
def backward (rounds : Nat) (list : CList P) : M P (List P) := do
  loop (fun s => do
    if s.1 = list.head then pure (.inr s.2)
    else return .inl (← listPrev s.1, s.2 ++ [s.1])) rounds (← deref (← getPrev list.tail), [])

end Pintos.LinkedList
