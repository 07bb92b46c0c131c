import Pintos.Lib.Cursor

/-!
# Hash tables

The code of `lib/kernel/hash.c`. A bucket is the sequence of elements of its list. A table grows
and shrinks with the number of its elements, if the memory for it can be had.
-/

namespace Pintos.HashTable

open Cursor

variable {α : Type} [DecidableEq α]

/-- The functions that a table is made with. -/
structure Funcs (α : Type) where
  hash : α → UInt32
  less : α → α → Bool

structure Hash (α : Type) where
  elemCnt : Nat
  bucketCnt : Nat
  buckets : Nat → List α

def setBucket (buckets : Nat → List α) (i : Nat) (l : List α) : Nat → List α :=
  Function.update buckets i l

section
variable (f : Funcs α)

def findBucket (bucketCnt : Nat) (e : α) : Nat := (f.hash e).toNat &&& (bucketCnt - 1)

def equal (a b : α) : Bool := !f.less a b && !f.less b a

def findElem (bucket : List α) (e : α) : Option α := bucket.find? fun hi => equal f hi e

def insertElem (h : Hash α) (bucket : Nat) (e : α) : Hash α :=
  { h with elemCnt := h.elemCnt + 1, buckets := setBucket h.buckets bucket (e :: h.buckets bucket) }

/-- `list_remove` takes the element out of the list it is in. -/
def removeElem (h : Hash α) (e : α) : Hash α :=
  { h with elemCnt := h.elemCnt - 1, buckets := fun i => (h.buckets i).erase e }

def turnOffLeast1bit (x : Nat) : Nat := x &&& (x - 1)

def isPowerOf2 (x : Nat) : Bool := x ≠ 0 && turnOffLeast1bit x = 0

/-- The loop that leaves the highest bit of the number of buckets; a round takes off one bit. -/
def roundDown : Nat → Nat → Nat
  | 0, x => x
  | rounds + 1, x => if isPowerOf2 x then x else roundDown rounds (turnOffLeast1bit x)

def newBucketCnt (elemCnt : Nat) : Nat :=
  let cnt := if elemCnt / 2 < 4 then 4 else elemCnt / 2
  roundDown cnt cnt

/-- Every element of a bucket goes to the front of its new bucket. -/
def moveBucket (bucketCnt : Nat) (old : List α) (buckets : Nat → List α) : Nat → List α :=
  old.foldl (fun buckets e => setBucket buckets (findBucket f bucketCnt e)
    (e :: buckets (findBucket f bucketCnt e))) buckets

/-- `allocated` is the answer of `malloc`. -/
def rehash (allocated : Bool) (h : Hash α) : Hash α :=
  let cnt := newBucketCnt h.elemCnt
  if cnt = h.bucketCnt then h
  else if !allocated then h
  else
    { h with
      bucketCnt := cnt
      buckets := (List.range h.bucketCnt).foldl
        (fun buckets i => moveBucket f cnt (h.buckets i) buckets)
        fun _ => [] }

def hashInsert (allocated : Bool) (h : Hash α) (new : α) : Option α × Hash α :=
  let bucket := findBucket f h.bucketCnt new
  match findElem f (h.buckets bucket) new with
  | none => (none, rehash f allocated (insertElem h bucket new))
  | some old => (some old, rehash f allocated h)

def hashReplace (allocated : Bool) (h : Hash α) (new : α) : Option α × Hash α :=
  let bucket := findBucket f h.bucketCnt new
  match findElem f (h.buckets bucket) new with
  | none => (none, rehash f allocated (insertElem h bucket new))
  | some old => (some old, rehash f allocated (insertElem (removeElem h old) bucket new))

def hashFind (h : Hash α) (e : α) : Option α :=
  findElem f (h.buckets (findBucket f h.bucketCnt e)) e

def hashDelete (allocated : Bool) (h : Hash α) (e : α) : Option α × Hash α :=
  match hashFind f h e with
  | none => (none, h)
  | some found => (some found, rehash f allocated (removeElem h found))

end

/-- The elements come in the order in which the destructor gets them. -/
def hashClear {α : Type} (h : Hash α) : List α × Hash α :=
  ((List.range h.bucketCnt).flatMap h.buckets,
    { h with elemCnt := 0, buckets := fun i => if i < h.bucketCnt then [] else h.buckets i })

/-- `hash_init`, with the contents of the memory for the buckets. -/
def hashInit {α : Type} (junk : Nat → List α) : Hash α :=
  (hashClear { elemCnt := 0, bucketCnt := 4, buckets := junk }).2

/-- The elements in the order in which the action is called for them. -/
def hashApply {α : Type} (h : Hash α) : List α := (List.range h.bucketCnt).flatMap h.buckets

/-- Where an iterator is in its bucket. -/
inductive Place (α : Type) where
  | head
  | elem (e : α)

structure Iterator (α : Type) where
  bucket : Nat
  place : Place α

def hashFirst {α : Type} : Iterator α := { bucket := 0, place := .head }

/-- The loop of `hash_next`: from the end of a bucket on to the beginning of the next one. Nothing
is at the end of a bucket. -/
def skipBuckets {α : Type} (h : Hash α) : Nat → Nat → Option α → Option (α × Nat)
  | _, bucket, some e => some (e, bucket)
  | 0, _, none => none
  | rounds + 1, bucket, none =>
    if bucket + 1 ≥ h.bucketCnt then none
    else skipBuckets h rounds (bucket + 1) (h.buckets (bucket + 1)).head?

def hashNext (h : Hash α) (i : Iterator α) : Option (α × Iterator α) :=
  let next := match i.place with
    | .head => (h.buckets i.bucket).head?
    | .elem e => (rest (h.buckets i.bucket) (some e)).tail.head?
  (skipBuckets h h.bucketCnt i.bucket next).map fun (e, bucket) => (e, { bucket, place := .elem e })

/-- What the iteration returns until it returns a null pointer. -/
def iterate (h : Hash α) : Nat → Iterator α → List α
  | 0, _ => []
  | rounds + 1, i =>
    match hashNext h i with
    | none => []
    | some (e, i) => e :: iterate h rounds i

end Pintos.HashTable
