import Mathlib.Data.Nat.Bitwise
import Pintos.Kernel.Hash
import Pintos.Lib.Machine
import Pintos.Lib.Ordered

/-!
# Tables as sets

A table stands for the set of its elements, no two of which are equal in the order of `less`.
Whether the memory for other buckets can be had or not makes no difference to the set.
-/

namespace Pintos.HashTable

open Cursor Machine Ordered Function List

variable {α : Type}

def elems (bucketCnt : Nat) (buckets : Nat → List α) : List α := (range bucketCnt).flatMap buckets

def Hash.elements (h : Hash α) : List α := elems h.bucketCnt h.buckets

def Equal (f : Funcs α) (a b : α) : Prop := f.less a b = false ∧ f.less b a = false

structure Valid (f : Funcs α) (h : Hash α) : Prop where
  power : ∃ k, 2 ≤ k ∧ h.bucketCnt = 2 ^ k
  placed : ∀ i < h.bucketCnt, ∀ e ∈ h.buckets i, findBucket f h.bucketCnt e = i
  apart : h.elements.Pairwise fun a b => ¬ Equal f a b
  count : h.elemCnt = h.elements.length

variable {f : Funcs α} {h : Hash α} {buckets : Nat → List α} {i n k x rounds : Nat} {e : α}
  {l : List α}

/-! ### The number of buckets -/

/-- Above the highest bit alone, a number keeps it. -/
theorem turnOffLeast1bit_between (low : 2 ^ k < x) (high : x < 2 ^ (k + 1)) :
    2 ^ k ≤ turnOffLeast1bit x ∧ turnOffLeast1bit x < x := by
  constructor
  · apply Nat.ge_two_pow_of_testBit
    have top : ∀ y, 2 ^ k ≤ y → y < 2 ^ (k + 1) → y.testBit k = true := by
      intro y low high
      rw [Nat.testBit_eq_decide_div_mod_eq]
      have one : y / 2 ^ k = 1 := by
        apply Nat.div_eq_of_lt_le <;> omega
      simp [one]
    simp [turnOffLeast1bit, Nat.testBit_and, top x (by omega) high, top (x - 1) (by omega)
      (by omega)]
  · have hb : turnOffLeast1bit x ≤ x - 1 := Nat.and_le_right
    omega

theorem isPowerOf2_two_pow : isPowerOf2 (2 ^ k) = true := by
  simp [isPowerOf2, turnOffLeast1bit, Nat.and_two_pow_sub_one_eq_mod]

theorem roundDown_eq (low : 2 ^ k ≤ x) (high : x < 2 ^ (k + 1)) (he : x ≤ rounds + 2 ^ k) :
    roundDown rounds x = 2 ^ k := by
  induction rounds generalizing x with
  | zero =>
    unfold roundDown
    omega
  | succ rounds ih =>
    unfold roundDown
    by_cases alone : x = 2 ^ k
    · rw [if_pos (by rw [alone]; exact isPowerOf2_two_pow), alone]
    · obtain ⟨above, hb⟩ := turnOffLeast1bit_between (by omega) high
      have pos : 0 < 2 ^ k := Nat.two_pow_pos k
      have several : isPowerOf2 x ≠ true := by
        have hk : turnOffLeast1bit x ≠ 0 := by omega
        simp [isPowerOf2, hk]
      rw [if_neg several]
      apply ih above <;> omega

theorem newBucketCnt_power (elemCnt : Nat) : ∃ k, 2 ≤ k ∧ newBucketCnt elemCnt = 2 ^ k := by
  unfold newBucketCnt
  generalize eq : (if elemCnt / 2 < 4 then 4 else elemCnt / 2) = cnt
  have four : 4 ≤ cnt := by
    rw [← eq]
    split_ifs <;> omega
  have low := Nat.log2_self_le (n := cnt) (by omega)
  have high := Nat.lt_log2_self (n := cnt)
  refine ⟨cnt.log2, ?_, roundDown_eq low high (by omega)⟩
  apply (Nat.le_log2 (by omega)).mpr
  omega

theorem findBucket_lt (power : ∃ k, 2 ≤ k ∧ n = 2 ^ k) (e : α) : findBucket f n e < n := by
  obtain ⟨k, _, rfl⟩ := power
  have hb : findBucket f (2 ^ k) e ≤ 2 ^ k - 1 := Nat.and_le_right
  have pos : 0 < 2 ^ k := Nat.two_pow_pos k
  omega

/-! ### The elements of all buckets -/

theorem mem_elems : e ∈ elems n buckets ↔ ∃ i < n, e ∈ buckets i := by
  simp [elems, mem_flatMap]

/-- One bucket among the others. -/
theorem elems_split (hi : i < n) (buckets : Nat → List α) :
    ∃ A B, ∀ l, elems n (setBucket buckets i l) = A ++ l ++ B := by
  obtain ⟨left, right, eq⟩ := append_of_mem (mem_range.mpr hi)
  have once : (range n).Nodup := nodup_range
  rw [eq, nodup_append, nodup_cons] at once
  refine ⟨left.flatMap buckets, right.flatMap buckets, fun l => ?_⟩
  have same : ∀ part : List Nat, i ∉ part →
      part.flatMap (setBucket buckets i l) = part.flatMap buckets := by
    intro part out
    apply flatMap_congr
    intro j hj
    apply update_of_ne
    rintro rfl
    exact out hj
  have outLeft : i ∉ left := fun hi => once.2.2 i hi i (.head _) rfl
  rw [elems, eq, flatMap_append, flatMap_cons, same left outLeft, same right once.2.1.1,
    setBucket, update_self, append_assoc]

theorem elems_self (hi : i < n) (buckets : Nat → List α) :
    ∃ A B, elems n buckets = A ++ buckets i ++ B ∧ ∀ l, elems n (setBucket buckets i l) =
      A ++ l ++ B := by
  obtain ⟨A, B, split⟩ := elems_split hi buckets
  refine ⟨A, B, ?_, split⟩
  rw [← split, setBucket, update_eq_self]

/-! ### Moving to other buckets -/

theorem moveBucket_apply (f : Funcs α) (cnt : Nat) (old : List α) (buckets : Nat → List α)
    (j : Nat) :
    moveBucket f cnt old buckets j =
      (old.filter fun e => findBucket f cnt e = j).reverse ++ buckets j := by
  induction old generalizing buckets with
  | nil => rfl
  | cons e old ih =>
    have step : moveBucket f cnt (e :: old) buckets = moveBucket f cnt old
      (setBucket buckets (findBucket f cnt e) (e :: buckets (findBucket f cnt e))) := rfl
    rw [step, ih]
    by_cases h : findBucket f cnt e = j
    · subst h
      simp [setBucket]
    · have ne : setBucket buckets (findBucket f cnt e) (e :: buckets (findBucket f cnt e)) j =
          buckets j := update_of_ne (Ne.symm h) ..
      simp [h, ne]

theorem moveBuckets_eq (f : Funcs α) (cnt n : Nat) (old new : Nat → List α) :
    (range n).foldl (fun buckets i => moveBucket f cnt (old i) buckets) new =
      moveBucket f cnt (elems n old) new := by
  unfold elems
  induction n with
  | zero => rfl
  | succ n ih =>
    simp only [range_succ, foldl_append, foldl_cons, foldl_nil, flatMap_append,
      flatMap_cons, flatMap_nil, append_nil, ih]
    simp only [moveBucket, foldl_append]

/-- Elements that are dealt to buckets are all there. -/
theorem elems_dealt (g : α → Nat) (hi : ∀ e ∈ l, g e < n) :
    (elems n fun j => (l.filter fun e => g e = j).reverse).Perm l := by
  induction l with
  | nil => simp [elems]
  | cons e l ih =>
    have rest := ih fun x hx => hi x (.tail _ hx)
    obtain ⟨A, B, split, change⟩ := elems_self (hi e (.head _))
      fun j => (l.filter fun e => g e = j).reverse
    have dealt : (fun j => ((e :: l).filter fun e => g e = j).reverse) =
        setBucket (fun j => (l.filter fun e => g e = j).reverse) (g e)
          ((l.filter fun x => g x = g e).reverse ++ [e]) := by
      funext j
      by_cases h : j = g e
      · subst h
        simp [setBucket]
      · rw [setBucket, update_of_ne h, filter_cons_of_neg]
        simpa using Ne.symm h
    rw [dealt, change]
    rw [split] at rest
    have front : (A ++ ((l.filter fun x => g x = g e).reverse ++ [e]) ++ B).Perm
        (e :: (A ++ (l.filter fun x => g x = g e).reverse ++ B)) := by
      simp only [append_assoc, singleton_append]
      rw [← append_assoc, ← append_assoc]
      exact perm_middle
    exact front.trans (rest.cons e)

namespace Valid

theorem lt (hv : Valid f h) (e : α) : findBucket f h.bucketCnt e < h.bucketCnt :=
  findBucket_lt hv.power e

theorem rehash (hv : Valid f h) (allocated : Bool) :
    Valid f (rehash f allocated h) ∧ (HashTable.rehash f allocated h).elements.Perm h.elements := by
  unfold HashTable.rehash
  dsimp only
  have power := newBucketCnt_power h.elemCnt
  split_ifs with eq failed
  · exact ⟨hv, .refl _⟩
  · exact ⟨hv, .refl _⟩
  · rw [moveBuckets_eq]
    have dealt : moveBucket f (newBucketCnt h.elemCnt) (elems h.bucketCnt h.buckets) (fun _ => []) =
        fun j => (h.elements.filter fun e => findBucket f (newBucketCnt h.elemCnt) e =
          j).reverse := by
      funext j
      rw [moveBucket_apply, append_nil]
      rfl
    have perm := elems_dealt (n := newBucketCnt h.elemCnt) (l := h.elements)
      (findBucket f (newBucketCnt h.elemCnt)) fun e _ => findBucket_lt power e
    rw [dealt]
    refine ⟨⟨power, ?_, ?_, ?_⟩, perm⟩
    · intro i _ e mem
      simpa using (mem_filter.mp (mem_reverse.mp mem)).2
    · apply (perm.pairwise_iff ?_).mpr hv.apart
      exact fun ne eq => ne ⟨eq.2, eq.1⟩
    · exact hv.count.trans perm.length_eq.symm

end Valid

/-! ### Finding, adding and removing -/

/-- Elements that are equal have the same hash. -/
@[grind cases] structure Lawful (f : Funcs α) : Prop where
  weak : StrictWeak fun a b => f.less a b = true
  hash : ∀ a b, Equal f a b → f.hash a = f.hash b

section
variable {a b c : α}

theorem Equal.symm (eq : Equal f a b) : Equal f b a := ⟨eq.2, eq.1⟩

theorem Lawful.refl (lawful : Lawful f) (a : α) : Equal f a a := by
  constructor <;> grind [update_apply]

theorem Lawful.trans (lawful : Lawful f) (first : Equal f a b) (second : Equal f b c) :
    Equal f a c := by
  simp only [Equal, Bool.eq_false_iff] at first second ⊢
  exact ⟨lawful.weak.trans_not second.1 first.1, lawful.weak.trans_not first.2 second.2⟩

theorem equal_iff : equal f a b = true ↔ Equal f a b := by
  simp [equal, Equal]

end

def Found (f : Funcs α) (s : Set α) (e : α) : Option α → Prop
  | none => ∀ x ∈ s, ¬ Equal f x e
  | some x => x ∈ s ∧ Equal f x e

def Hash.stored (h : Hash α) : Set α := {e | e ∈ h.elements}

theorem Valid.mem_bucket (hv : Valid f h) (mem : e ∈ h.elements) :
    e ∈ h.buckets (findBucket f h.bucketCnt e) := by
  obtain ⟨i, hi, hp⟩ := mem_elems.mp mem
  rw [hv.placed i hi e hp]
  exact hp

theorem Valid.found (hv : Valid f h) (lawful : Lawful f) (e : α) :
    Found f h.stored e (hashFind f h e) := by
  unfold hashFind findElem
  cases res : (h.buckets (findBucket f h.bucketCnt e)).find? fun hi => equal f hi e with
  | some x =>
    have inside := mem_of_find?_eq_some res
    have eq := find?_some res
    exact ⟨mem_elems.mpr ⟨_, hv.lt e, inside⟩, equal_iff.mp eq⟩
  | none =>
    intro x mem eq
    have bucket : findBucket f h.bucketCnt x = findBucket f h.bucketCnt e := by
      unfold findBucket
      rw [lawful.hash x e eq]
    have hp := hv.mem_bucket mem
    rw [bucket] at hp
    exact find?_eq_none.mp res x hp (equal_iff.mpr eq)

theorem Valid.insertElem (hv : Valid f h) (new : ∀ x ∈ h.elements, ¬ Equal f x e) :
    Valid f (insertElem h (findBucket f h.bucketCnt e) e) ∧
      (HashTable.insertElem h (findBucket f h.bucketCnt e) e).elements.Perm (e :: h.elements) := by
  obtain ⟨A, B, split, change⟩ := elems_self (hv.lt e) h.buckets
  have perm : (HashTable.insertElem h (findBucket f h.bucketCnt e) e).elements.Perm
    (e :: h.elements) := by
    unfold Hash.elements HashTable.insertElem
    rw [change, split, append_assoc, append_assoc]
    exact perm_middle
  refine ⟨⟨hv.power, ?_, ?_, ?_⟩, perm⟩
  · intro i hi x mem
    by_cases hp : i = findBucket f h.bucketCnt e
    · subst hp
      simp only [HashTable.insertElem, setBucket, update_self, mem_cons] at mem
      obtain rfl | old := mem
      · rfl
      · exact hv.placed _ hi x old
    · simp only [HashTable.insertElem, setBucket, update_of_ne hp] at mem
      exact hv.placed i hi x mem
  · apply (perm.pairwise_iff fun ne eq => ne eq.symm).mpr
    rw [pairwise_cons]
    exact ⟨fun x hx eq => new x hx eq.symm, hv.apart⟩
  · rw [perm.length_eq, length_cons, ← hv.count]
    rfl

/-! ### The operations -/

inductive Op (α : Type) where
  | insert (new : α)
  | replace (new : α)
  | find (e : α)
  | delete (e : α)
  | clear

/-- What an operation is for, on a set with at most one element of a kind. -/
def Does (f : Funcs α) (s s' : Set α) (r : Option α) : Op α → Prop
  | .insert new => Found f s new r ∧ s' = if r.isSome then s else insert new s
  | .replace new => Found f s new r ∧ s' = insert new (s \ {x | Equal f x new})
  | .find e => Found f s e r ∧ s' = s
  | .delete e => Found f s e r ∧ s' = s \ {x | Equal f x e}
  | .clear => s' = ∅

theorem stored_perm {h' : Hash α} {l : List α} (perm : h'.elements.Perm l) :
    h'.stored = {x | x ∈ l} := by
  ext x
  exact perm.mem_iff

theorem Valid.rehash_stored (hv : Valid f h) (allocated : Bool) :
    (HashTable.rehash f allocated h).stored = h.stored :=
  stored_perm (hv.rehash allocated).2

theorem Valid.insert_stored (hv : Valid f h) (new : ∀ x ∈ h.elements, ¬ Equal f x e) :
    (HashTable.insertElem h (findBucket f h.bucketCnt e) e).stored = insert e h.stored := by
  rw [stored_perm (hv.insertElem new).2]
  ext x
  exact mem_cons

theorem Valid.insert (hv : Valid f h) (lawful : Lawful f) (allocated : Bool) (new : α) :
    Valid f (hashInsert f allocated h new).2 ∧ Does f h.stored
      (hashInsert f allocated h new).2.stored
      (hashInsert f allocated h new).1 (.insert new) := by
  have found := hv.found lawful new
  unfold hashFind at found
  unfold hashInsert
  dsimp only
  cases res : findElem f (h.buckets (findBucket f h.bucketCnt new)) new with
  | none =>
    rw [res] at found
    have added := (hv.insertElem found).1
    refine ⟨(added.rehash allocated).1, found, ?_⟩
    rw [added.rehash_stored, hv.insert_stored found]
    rfl
  | some old =>
    rw [res] at found
    exact ⟨(hv.rehash allocated).1, found, hv.rehash_stored allocated⟩

theorem Valid.clear (power : ∃ k, 2 ≤ k ∧ h.bucketCnt = 2 ^ k) :
    Valid f (hashClear h).2 ∧ (hashClear h).2.stored = ∅ := by
  have none : (hashClear h).2.elements = [] := by
    unfold Hash.elements hashClear elems
    rw [flatMap_eq_nil_iff]
    intro i hi
    exact if_pos (mem_range.mp hi)
  refine ⟨⟨power, ?_, ?_, ?_⟩, ?_⟩
  · intro i hi e mem
    have hi : i < h.bucketCnt := hi
    simp only [hashClear, if_pos hi, not_mem_nil] at mem
  · rw [none]
    exact .nil
  · rw [none]
    rfl
  · ext x
    simp [Hash.stored, none]

theorem Valid.nodup (hv : Valid f h) (lawful : Lawful f) : h.elements.Nodup := by
  apply hv.apart.imp
  rintro a b ne rfl
  exact ne (lawful.refl a)

theorem Valid.bucket_nodup (hv : Valid f h) (lawful : Lawful f) (hi : i < h.bucketCnt) :
    (h.buckets i).Nodup := by
  obtain ⟨A, B, split, _⟩ := elems_self hi h.buckets
  have once := hv.nodup lawful
  unfold Hash.elements at once
  rw [split] at once
  exact (nodup_append.mp (nodup_append.mp once).1).2.1

/-- The elements of the buckets behind this one. -/
def later (h : Hash α) (bucket : Nat) : List α :=
  (range' (bucket + 1) (h.bucketCnt - (bucket + 1))).flatMap h.buckets

theorem later_eq {b : Nat} (hi : b + 1 < h.bucketCnt) :
    later h b = h.buckets (b + 1) ++ later h (b + 1) := by
  unfold later
  obtain ⟨m, eq⟩ : ∃ m, h.bucketCnt - (b + 1) = m + 1 := ⟨h.bucketCnt - (b + 2), by omega⟩
  have lt : h.bucketCnt - (b + 1 + 1) = m := by omega
  rw [eq, lt, range'_succ, flatMap_cons]

theorem later_last {b : Nat} (last : h.bucketCnt ≤ b + 1) : later h b = [] := by
  unfold later
  have none : h.bucketCnt - (b + 1) = 0 := by omega
  rw [none]
  rfl

/-- The loop finds the first element of what is left of a bucket and of those behind it. -/
theorem skipBuckets_eq {b : Nat} {part : List α} (suffix : part <:+ h.buckets b)
    (hi : b < h.bucketCnt)
    (he : h.bucketCnt ≤ b + 1 + rounds) :
    match skipBuckets h rounds b part.head? with
    | none => part ++ later h b = []
    | some (e, b') => b' < h.bucketCnt ∧ ∃ part', e :: part' <:+ h.buckets b' ∧
        part ++ later h b = e :: part' ++ later h b' := by
  induction rounds generalizing b part with
  | zero =>
    cases part with
    | nil => exact later_last (by omega)
    | cons e part => exact ⟨hi, part, suffix, rfl⟩
  | succ rounds ih =>
    cases part with
    | nil =>
      simp only [head?_nil, skipBuckets]
      by_cases last : b + 1 ≥ h.bucketCnt
      · rw [if_pos last]
        exact later_last last
      · rw [if_neg last, nil_append, later_eq (by omega)]
        apply ih suffix_rfl <;> omega
    | cons e part => exact ⟨hi, part, suffix, rfl⟩

variable [DecidableEq α]

theorem Valid.removeElem (hv : Valid f h) (mem : e ∈ h.elements) :
    Valid f (removeElem h e) ∧ (e :: (HashTable.removeElem h e).elements).Perm h.elements := by
  have hp := hv.mem_bucket mem
  obtain ⟨A, B, split, change⟩ := elems_self (hv.lt e) h.buckets
  have perm : (e :: (HashTable.removeElem h e).elements).Perm h.elements := by
    have same : (HashTable.removeElem h e).elements = elems h.bucketCnt (setBucket h.buckets
        (findBucket f h.bucketCnt e) ((h.buckets (findBucket f h.bucketCnt e)).erase e)) := by
      apply flatMap_congr
      intro i hi
      by_cases eq : i = findBucket f h.bucketCnt e
      · subst eq
        simp [HashTable.removeElem, setBucket]
      · rw [setBucket, update_of_ne eq]
        apply erase_of_not_mem
        intro ne
        exact eq (hv.placed i (mem_range.mp hi) e ne).symm
    unfold Hash.elements at same ⊢
    rw [same, change, split, append_assoc, append_assoc]
    refine perm_middle.symm.trans (Perm.append_left A ?_)
    exact ((perm_cons_erase hp).append_right B).symm
  refine ⟨⟨hv.power, ?_, ?_, ?_⟩, perm⟩
  · exact fun i hi x old => hv.placed i hi x (mem_of_mem_erase old)
  · have ha := (perm.pairwise_iff fun differ same => differ same.symm).mpr hv.apart
    exact (pairwise_cons.mp ha).2
  · have length := perm.length_eq
    rw [length_cons, ← hv.count] at length
    show h.elemCnt - 1 = _
    omega

/-- Nothing equal to an element is left when it is removed. -/
theorem Valid.remove_stored (hv : Valid f h) (lawful : Lawful f) {old : α} (mem : old ∈ h.elements)
    (eq : Equal f old e) : (HashTable.removeElem h old).stored = h.stored \ {x | Equal f x e} := by
  have perm := (hv.removeElem mem).2
  have ha := (perm.pairwise_iff fun ne eq => ne eq.symm).mpr hv.apart
  rw [pairwise_cons] at ha
  ext x
  constructor
  · intro hi
    exact ⟨perm.mem_iff.mp (.tail _ hi), fun equal =>
      ha.1 x hi (lawful.trans eq equal.symm)⟩
  · rintro ⟨hi, differs⟩
    obtain rfl | rest := mem_cons.mp (perm.mem_iff.mpr hi)
    · exact absurd eq differs
    · exact rest

theorem Valid.delete (hv : Valid f h) (lawful : Lawful f) (allocated : Bool) (e : α) :
    Valid f (hashDelete f allocated h e).2 ∧ Does f h.stored (hashDelete f allocated h e).2.stored
      (hashDelete f allocated h e).1 (.delete e) := by
  have found := hv.found lawful e
  unfold hashDelete
  cases res : hashFind f h e with
  | none =>
    rw [res] at found
    refine ⟨hv, found, ?_⟩
    ext x
    exact ⟨fun hi => ⟨hi, found x hi⟩, fun hi => hi.1⟩
  | some old =>
    rw [res] at found
    have removed := (hv.removeElem found.1).1
    refine ⟨(removed.rehash allocated).1, found, ?_⟩
    rw [removed.rehash_stored, hv.remove_stored lawful found.1 found.2]

theorem Valid.replace (hv : Valid f h) (lawful : Lawful f) (allocated : Bool) (new : α) :
    Valid f (hashReplace f allocated h new).2 ∧ Does f h.stored
      (hashReplace f allocated h new).2.stored
      (hashReplace f allocated h new).1 (.replace new) := by
  have found := hv.found lawful new
  unfold hashFind at found
  unfold hashReplace
  dsimp only
  cases res : findElem f (h.buckets (findBucket f h.bucketCnt new)) new with
  | none =>
    rw [res] at found
    have added := (hv.insertElem found).1
    refine ⟨(added.rehash allocated).1, found, ?_⟩
    rw [added.rehash_stored, hv.insert_stored found]
    congr 1
    ext x
    exact ⟨fun hi => ⟨hi, found x hi⟩, fun hi => hi.1⟩
  | some old =>
    rw [res] at found
    have removed := (hv.removeElem found.1).1
    have left := hv.remove_stored lawful found.1 found.2
    have none : ∀ x ∈ (HashTable.removeElem h old).elements, ¬ Equal f x new := by
      intro x hi
      have hi : x ∈ (HashTable.removeElem h old).stored := hi
      rw [left] at hi
      exact hi.2
    have added := (removed.insertElem none).1
    refine ⟨(added.rehash allocated).1, found, ?_⟩
    have stored := removed.insert_stored none
    rw [left] at stored
    exact (added.rehash_stored allocated).trans stored

def perform (f : Funcs α) (allocated : Bool) (h : Hash α) : Op α → Option α × Hash α
  | .insert new => hashInsert f allocated h new
  | .replace new => hashReplace f allocated h new
  | .find e => (hashFind f h e, h)
  | .delete e => hashDelete f allocated h e
  | .clear => (none, (hashClear h).2)

def step (f : Funcs α) (h : Hash α) (e : Op α × Bool) : Option (Hash α) :=
  some (perform f e.2 h e.1).2

theorem Valid.perform (hv : Valid f h) (lawful : Lawful f) (allocated : Bool) (op : Op α) :
    Valid f (perform f allocated h op).2 ∧ Does f h.stored
      (HashTable.perform f allocated h op).2.stored
      (HashTable.perform f allocated h op).1 op := by
  cases op with
  | insert new => exact hv.insert lawful allocated new
  | replace new => exact hv.replace lawful allocated new
  | find e => exact ⟨hv, hv.found lawful e, rfl⟩
  | delete e => exact hv.delete lawful allocated e
  | clear => exact Valid.clear hv.power

/-! ### Iteration -/

/-- What an iterator has before it in its bucket. -/
def current (h : Hash α) (i : Iterator α) : List α :=
  match i.place with
  | .head => h.buckets i.bucket
  | .elem e => (rest (h.buckets i.bucket) (some e)).tail

def remaining (h : Hash α) (i : Iterator α) : List α := current h i ++ later h i.bucket

theorem rest_of_suffix {part : List α} (once : l.Nodup) (suffix : e :: part <:+ l) :
    rest l (some e) = e :: part := by
  obtain ⟨was, rfl⟩ := suffix
  have new : ∀ x ∈ was, decide (x ≠ e) = true := by grind
  unfold rest
  dsimp only
  rw [dropWhile_append_of_pos new]
  simp

theorem Valid.next (hv : Valid f h) (lawful : Lawful f) {i : Iterator α}
    (hi : i.bucket < h.bucketCnt) :
    match hashNext h i with
    | none => remaining h i = []
    | some (e, i') => i'.bucket < h.bucketCnt ∧ remaining h i = e :: remaining h i' := by
  have suffix : current h i <:+ h.buckets i.bucket := by
    unfold current
    split
    · exact suffix_rfl
    · exact (tail_suffix _).trans (dropWhile_suffix _)
  have first : hashNext h i = (skipBuckets h h.bucketCnt i.bucket (current h i).head?).map
      fun r => (r.1, { bucket := r.2, place := .elem r.1 }) := by
    unfold hashNext current
    cases i.place <;> rfl
  have he : h.bucketCnt ≤ i.bucket + 1 + h.bucketCnt := by omega
  have skip := skipBuckets_eq suffix hi he
  rw [first]
  cases res : skipBuckets h h.bucketCnt i.bucket (current h i).head? with
  | none =>
    rw [res] at skip
    exact skip
  | some r =>
    rw [res] at skip
    obtain ⟨inside', part, suffix', split⟩ := skip
    refine ⟨inside', split.trans ?_⟩
    have left : current h { bucket := r.2, place := .elem r.1 } = part := by
      unfold current
      dsimp only
      rw [rest_of_suffix (hv.bucket_nodup lawful inside') suffix']
      rfl
    rw [remaining, left]
    rfl

theorem Valid.iterate (hv : Valid f h) (lawful : Lawful f) {i : Iterator α}
    (hi : i.bucket < h.bucketCnt) (he : (remaining h i).length < rounds) :
    iterate h rounds i = remaining h i := by
  induction rounds generalizing i with
  | zero => omega
  | succ rounds ih =>
    have next := hv.next lawful hi
    unfold HashTable.iterate
    cases res : hashNext h i with
    | none =>
      rw [res] at next
      exact next.symm
    | some r => grind

theorem remaining_first (pos : 0 < h.bucketCnt) : remaining h hashFirst = h.elements := by
  obtain ⟨n, eq⟩ : ∃ n, h.bucketCnt = n + 1 := ⟨h.bucketCnt - 1, by omega⟩
  have all : h.elements = h.buckets 0 ++ later h 0 := by
    simp only [Hash.elements, elems, later, eq]
    rw [range_eq_range', range'_succ, flatMap_cons]
    simp
  exact all.symm

/-! ### Every sequence of operations -/

theorem hash_refines {junk : Nat → List α} {history : List (Op α × Bool)} (lawful : Lawful f)
    (run : Run (step f) Free (hashInit junk) history h) :
    Valid f h ∧
    (∀ op allocated, Does f h.stored (perform f allocated h op).2.stored
      (perform f allocated h op).1 op) ∧
    ((hashApply h).Nodup ∧ ∀ x, x ∈ hashApply h ↔ x ∈ h.stored) ∧
    (hashClear h).1 = hashApply h ∧
    ∀ rounds, h.elemCnt < rounds → iterate h rounds hashFirst = hashApply h := by
  have start : Valid f (hashInit junk) := (Valid.clear ⟨2, Nat.le_refl 2, rfl⟩).1
  have hv : Valid f h := by
    apply run.invariant start
    rintro s e t was _ ⟨⟩
    exact (was.perform lawful e.2 e.1).1
  have pos : 0 < h.bucketCnt := by
    obtain ⟨k, _, power⟩ := hv.power
    rw [power]
    exact Nat.two_pow_pos k
  refine ⟨hv, fun op allocated => (hv.perform lawful allocated op).2,
    ⟨hv.nodup lawful, fun x => Iff.rfl⟩, rfl, fun rounds he => ?_⟩
  have all := remaining_first pos
  rw [hv.count, ← all] at he
  exact (hv.iterate lawful pos he).trans all

/-- Numbers are equal if their halves are. -/
def halves : Funcs Nat where
  hash e := UInt32.ofNat (e / 2)
  less a b := a / 2 < b / 2

theorem halves_lawful : Lawful halves where
  weak := by
    constructor
    · intro a b
      simp only [halves, decide_eq_true_eq]
      omega
    · intro a b c
      simp only [halves, decide_eq_true_eq]
      omega
  hash a b := by
    simp only [Equal, halves, decide_eq_false_iff_not]
    intro eq
    have half : a / 2 = b / 2 := by omega
    rw [half]

/-- The table grows at the second attempt, and stays large at the end. -/
def growing : List (Op Nat × Bool) :=
  (range 15).map (fun i => (.insert (2 * i), true)) ++
    [(.insert 40, false), (.insert 41, true), (.replace 1, true), (.delete 7, false)]

theorem hash_refines_growing : ∃ h, Run (step halves) Free (hashInit fun _ => [])
    growing.reverse h ∧
    h.bucketCnt = 8 ∧ h.elemCnt = 15 ∧ Valid halves h ∧
    iterate h 16 hashFirst = [1, 16, 2, 18, 4, 20, 22, 8, 24, 40, 10, 26, 12, 28, 14] := by
  have state : ((runs (step halves) Free (hashInit fun _ => []) growing).map fun h =>
      (h.bucketCnt, h.elemCnt, hashApply h)) =
      some (8, 15, [1, 16, 2, 18, 4, 20, 22, 8, 24, 40, 10, 26, 12, 28, 14]) := by
    decide +kernel
  obtain ⟨h, hr, seen⟩ := Option.map_eq_some_iff.mp state
  simp only [Prod.mk.injEq] at seen
  obtain ⟨buckets, count, all⟩ := seen
  have run := runs_run hr
  obtain ⟨hv, _, _, _, iteration⟩ := hash_refines halves_lawful run
  exact ⟨h, run, buckets, count, hv, (iteration 16 (by omega)).trans all⟩

end Pintos.HashTable
