import Mathlib.Data.List.Flatten
import Mathlib.Data.List.Forall2
import Pintos.Kernel.Strings

/-!
# The arguments of a process

`push_arguments` of `userprog/process.c` and what the `main` of the process finds on its stack.
-/

namespace Pintos.Userprog

open LittleEndian Prog Paging Filesys Strings Threads.CommandLine List

/-- The memory `push_arguments` works on: its page with the copy of the command line, and the
memory of the process at its own addresses. -/
structure Push where
  copy : Bytes
  memory : Bytes
  /-- `*esp`. -/
  esp : Nat
  /-- The addresses of the bytes that are written through `*esp`. -/
  written : List Nat := []

/-- The loop over the tokens, with room for `left` more elements in `argv`. -/
def parseArguments : Nat → Option Nat → Nat → List Nat → Prog Bytes (List Nat)
  | 0, _, _, _ => throw "argv out of bounds"
  | left + 1, s, savePtr, argv => do
    match ← strtokR s [space] savePtr with
    | (none, _) => pure argv
    | (some token, savePtr) =>
      let argv := argv ++ [token]
      if argv.length ≥ 128 then pure argv else parseArguments left none savePtr argv

/-- `*esp -= count`, and a store of as many bytes there. -/
def pushBytes (bytes : Bytes) (count : Nat) : Prog Push Nat := do
  let p ← get
  let esp := p.esp - count
  set { p with
    esp, memory := memcpy p.memory esp bytes 0 count
    written := range' esp count ++ p.written }
  pure esp

def pushWord (n : Nat) : Prog Push Nat := pushBytes (put32 n) 4

/-- The strings, the last one first; `arg_ptrs` is returned. -/
def pushStrings : List Nat → Prog Push (List Nat)
  | [] => pure []
  | s :: argv => do
    let argPtrs ← pushStrings argv
    let p ← get
    let len ← strlen p.copy s
    let place ← pushBytes (fun i => p.copy (s + i)) (len + 1)
    pure (place :: argPtrs)

def pushPointers : List Nat → Prog Push Unit
  | [] => pure ()
  | place :: argPtrs => do
    pushPointers argPtrs
    let _ ← pushWord place

/-- `palloc_get_page` finds the page with these contents, or none. -/
def pushArguments (page : Option Bytes) (cmdline : CString) : Prog Push Bool := do
  match page with
  | none => pure false
  | some junk =>
    let p ← get
    set { p with copy := strlcpy junk cmdline pgSize }
    let argv ← zoom Push.copy (fun copy p => { p with copy }) (parseArguments 128 (some 0) 0 [])
    let argPtrs ← pushStrings argv
    let p ← get
    set { p with esp := p.esp &&& (2 ^ 32 - 1 - 3) }
    let _ ← pushWord 0
    pushPointers argPtrs
    let argvOnStack := (← get).esp
    let _ ← pushWord argvOnStack
    let _ ← pushWord argv.length
    let _ ← pushWord 0
    let p ← get
    set { p with copy := fun _ => 0xcc }
    pure true

/-! ### The tokens -/

def arguments (cmdline : CString) : List (List UInt8) :=
  (tokens (cmdline.chars.take (pgSize - 1))).take 128

variable {page page' memory : Bytes} {text : List UInt8} {words : List (List UInt8)}
  {s savePtr left base place : Nat} {start : Option Nat} {argv : List Nat} {cmdline : CString}

/-- The elements of `argv` point to these words. -/
abbrev Points (page : Bytes) (argv : List Nat) (words : List (List UInt8)) : Prop :=
  Forall₂ (Text page) argv words

theorem Points.plain (points : Points page argv words) : ∀ word ∈ words, 0 ∉ word := by
  induction points with
  | nil => simp
  | cons h _ ih => simpa using ⟨h.plain, ih⟩

/-- A token found before stays where it is: its null is at most where the search goes on. -/
theorem wp_parseArguments (room : left + argv.length = 128) (pos : 0 < left)
    (from_ : start.getD savePtr = s) (h : Text page s text)
    (found : Forall₂ (fun place word => Text page place word ∧ place + word.length ≤ s)
      argv words) :
    Wp (parseArguments left start savePtr argv) (fun argv' page' =>
      Points page' argv' (words ++ (tokens text).take left)) page := by
  induction left generalizing start savePtr s page text argv words with
  | zero => omega
  | succ left ih =>
    unfold parseArguments
    simp only [wp_bind]
    apply (wp_strtokIn from_ h).mono
    intro found_ page' splits
    cases splits with
    | done empty =>
      rw [wp_pure, tokens_eq, empty, take_nil, append_nil]
      exact found.imp fun _ _ => And.left
    | @token token save _ word first hp later cuts after was =>
      have found' : Forall₂ (fun place word => Text page' place word ∧ place + word.length ≤ save)
          (argv ++ [token]) (words ++ [word]) := by
        apply rel_append _ (.cons ⟨hp, was⟩ .nil)
        apply found.imp
        rintro place word ⟨text, ends⟩
        exact ⟨text.congr fun i low => (cuts i).resolve_right (by omega), by omega⟩
      have grown : (argv ++ [token]).length = argv.length + 1 := by simp
      rw [tokens_eq, first, ← tokens_eq, take_succ_cons, ← singleton_append, ← append_assoc]
      dsimp only
      by_cases full : (argv ++ [token]).length ≥ 128
      · obtain rfl : left = 0 := by omega
        rw [if_pos full, wp_pure, take_zero, append_nil]
        exact found'.imp fun _ _ => And.left
      · rw [if_neg full]
        exact ih (by omega) (by omega) rfl later found'

/-! ### What is pushed -/

/-- The memory from `p'.esp` up to `p.esp` is all that is written. -/
@[grind cases] structure Pushed (p p' : Push) : Prop where
  copy : p'.copy = p.copy
  down : p'.esp ≤ p.esp
  kept : ∀ a, a < p'.esp ∨ p.esp ≤ a → p'.memory a = p.memory a
  written : ∀ a ∈ p'.written, a ∈ p.written ∨ p'.esp ≤ a ∧ a < p.esp

variable {p p' p'' : Push} {n count : Nat} {bytes : Bytes} {values : List Nat}

theorem Pushed.refl (p : Push) : Pushed p p := ⟨rfl, Nat.le_refl _, fun _ _ => rfl, fun _ => .inl⟩

theorem Pushed.trans (first : Pushed p p') (second : Pushed p' p'') : Pushed p p'' where
  copy := second.copy.trans first.copy
  down := Nat.le_trans second.down first.down
  kept a outside := by
    have := first.down
    have := second.down
    rw [second.kept a (by omega), first.kept a (by omega)]
  written a hi := by
    have := first.down
    have := second.down
    cases second.written a hi with
    | inl old => grind
    | inr new => exact .inr (by omega)

theorem wp_pushBytes (room : count ≤ p.esp) :
    Wp (pushBytes bytes count)
      (fun place p' => place = p'.esp ∧ p'.esp + count = p.esp ∧ Pushed p p' ∧
      (∀ i < count, p'.memory (p'.esp + i) = bytes i ∧ p'.esp + i ∈ p'.written)) p := by
  simp only [pushBytes, wp_bind, wp_get, wp_set, wp_pure]
  refine ⟨trivial, by omega, ⟨rfl, Nat.sub_le .., fun a outside => ?_, fun a hi => ?_⟩,
    fun i lt => ⟨?_, ?_⟩⟩
  · exact if_neg (by dsimp only at outside; omega)
  · grind
  · simp [memcpy, lt]
  · apply mem_append_left
    rw [mem_range'_1]
    omega

/-- These words are in memory from `place` on. -/
def Words (memory : Bytes) (place : Nat) (values : List Nat) : Prop :=
  ∀ (i : Nat) (h : i < values.length), get32 memory (place + 4 * i) = values[i]

theorem wp_pushWord (room : 4 ≤ p.esp) (hs : n < 2 ^ 32) (above : Words p.memory p.esp values) :
    Wp (pushWord n) (fun _ p' => p'.esp + 4 = p.esp ∧ Pushed p p' ∧ p'.esp ∈ p'.written ∧
      Words p'.memory p'.esp (n :: values)) p := by
  unfold pushWord
  apply (wp_pushBytes room).mono
  rintro _ p' ⟨_, esp, pushed, bytes⟩
  refine ⟨esp, pushed, (bytes 0 (by decide)).2, fun i hi => ?_⟩
  cases i with
  | zero => exact get32_of_bytes hs fun j lt => (bytes j lt).1
  | succ i =>
    have place : p'.esp + 4 * (i + 1) = p.esp + 4 * i := by omega
    rw [place, getElem_cons_succ, ← above i (by simpa using hi)]
    apply get32_congr
    intro j lt
    exact pushed.kept _ (by omega)

theorem wp_pushPointers (room : 4 * argv.length ≤ p.esp) (hs : ∀ place ∈ argv, place < 2 ^ 32)
    (above : Words p.memory p.esp values) :
    Wp (pushPointers argv) (fun _ p' => p'.esp + 4 * argv.length = p.esp ∧ Pushed p p' ∧
      Words p'.memory p'.esp (argv ++ values)) p := by
  induction argv with
  | nil =>
    rw [pushPointers, wp_pure]
    exact ⟨rfl, .refl p, above⟩
  | cons place argv ih =>
    rw [length_cons] at room ⊢
    simp only [pushPointers, wp_bind, wp_pure]
    apply (ih (by omega) fun q hi => hs q (.tail _ hi)).mono
    rintro _ p1 ⟨esp1, pushed1, words1⟩
    apply (wp_pushWord (by omega) (hs place (.head _)) words1).mono
    rintro _ p2 ⟨esp2, pushed2, _, words2⟩
    exact ⟨by omega, pushed1.trans pushed2, words2⟩

/-- Where the strings are, one behind the other. -/
def places : Nat → List (List UInt8) → List Nat
  | _, [] => []
  | place, word :: words => place :: places (place + word.length + 1) words

theorem joined_cons (word : List UInt8) (words : List (List UInt8)) :
    joined (word :: words) = (word ++ [0]) ++ joined words := rfl

theorem length_joined_cons (word : List UInt8) (words : List (List UInt8)) :
    (joined (word :: words)).length = word.length + 1 + (joined words).length := by
  rw [joined_cons, length_append, length_append, length_singleton]

theorem wp_pushStrings (room : (joined words).length ≤ p.esp) (points : Points p.copy argv words) :
    Wp (pushStrings argv) (fun argPtrs p' => p'.esp + (joined words).length = p.esp ∧ Pushed p p' ∧
      argPtrs = places p'.esp words ∧ Holds p'.memory p'.esp (joined words)) p := by
  induction points with
  | nil =>
    rw [pushStrings, wp_pure]
    exact ⟨rfl, .refl p, rfl, nofun⟩
  | @cons s word argv words h points ih =>
    rw [length_joined_cons] at room ⊢
    simp only [pushStrings, wp_bind]
    apply (ih (by omega)).mono
    rintro argPtrs p1 ⟨esp1, pushed1, ptrs, strings⟩
    simp only [wp_get, wp_lift]
    refine ⟨word.length, pushed1.copy ▸ strlen_text h, ?_⟩
    simp only [wp_pure]
    apply (wp_pushBytes (by omega)).mono
    rintro place p2 ⟨rfl, esp2, pushed2, bytes⟩
    have next : p2.esp + word.length + 1 = p1.esp := by omega
    refine ⟨by omega, pushed1.trans pushed2, by rw [ptrs, places, next], fun i hi => ?_⟩
    rw [length_joined_cons] at hi
    simp only [joined_cons]
    by_cases low : i < word.length + 1
    · rw [(bytes i low).1, getElem_append_left (by simpa using low), pushed1.copy]
      exact h.holds i (by simpa using low)
    · have place : p2.esp + i = p1.esp + (i - (word.length + 1)) := by omega
      rw [getElem_append_right (by simpa using low), place, pushed2.kept _ (by omega),
        strings _ (by omega)]
      simp

/-! ### The stack of a new process -/

/-- The bytes that the arguments take, from the top of the stack. -/
def imageSize (args : List (List UInt8)) : Nat :=
  ((joined args).length + 3) / 4 * 4 + 4 * (args.length + 1) + 12

theorem and_not_three {n : Nat} (hs : n < 2 ^ 32) : n &&& (2 ^ 32 - 1 - 3) = n / 4 * 4 := by
  have split : n &&& (2 ^ 32 - 1 - 3) = ((n >>> 2) &&& (2 ^ 30 - 1)) <<< 2 := by
    apply Nat.eq_of_testBit_eq
    intro i
    have mask : 2 ^ 32 - 1 - 3 = (2 ^ 30 - 1) <<< 2 := rfl
    rw [mask, Nat.testBit_and, Nat.testBit_shiftLeft, Nat.testBit_shiftLeft, Nat.testBit_and,
      Nat.testBit_shiftRight]
    by_cases low : 2 ≤ i
    · simp only [low, decide_true, Bool.true_and, Nat.add_sub_cancel' low]
    · simp [low]
  rw [split, Nat.and_two_pow_sub_one_eq_mod, Nat.shiftRight_eq_div_pow, Nat.shiftLeft_eq]
  omega

/-- The three words, the pointers and the strings. -/
@[grind cases] structure Image (p p' : Push) (args : List (List UInt8)) (base : Nat) : Prop where
  top : base + (joined args).length = p.esp
  bottom : p'.esp + 12 + 4 * (args.length + 1) = base / 4 * 4
  words : Words p'.memory p'.esp (0 :: args.length :: (p'.esp + 12) :: (places base args ++ [0]))
  strings : Holds p'.memory base (joined args)
  plain : ∀ arg ∈ args, 0 ∉ arg
  written : ∀ a ∈ p'.written, a ∈ p.written ∨ p'.esp ≤ a ∧ a < p.esp
  lowest : p'.esp ∈ p'.written

theorem length_places (base : Nat) : (places base words).length = words.length := by
  induction words generalizing base with
  | nil => rfl
  | cons word words ih => simp [places, ih]

theorem places_le (hi : place ∈ places base words) : place ≤ base + (joined words).length := by
  induction words generalizing base with
  | nil => cases hi
  | cons word words ih =>
    rw [length_joined_cons]
    cases hi with
    | head => omega
    | tail _ later =>
      have := ih later
      omega

theorem wp_pushArguments (junk : Bytes) (low : p.esp < 2 ^ 32)
    (room : imageSize (arguments cmdline) ≤ p.esp) :
    Wp (pushArguments (some junk) cmdline) (fun pushed p' =>
      pushed = true ∧ ∃ base, Image p p' (arguments cmdline) base) p := by
  unfold imageSize at room
  simp only [pushArguments, wp_bind, wp_get, wp_set, wp_pure, wp_zoom]
  apply (wp_parseArguments (by rfl) (by decide) rfl (strlcpy_text junk cmdline) .nil).mono
  intro argv copy found
  have points : Points copy argv (arguments cmdline) := found
  have count : argv.length = (arguments cmdline).length := points.length_eq
  apply (wp_pushStrings (by dsimp only; omega) points).mono
  rintro argPtrs p1 ⟨esp1, pushed1, ptrs, strings⟩
  dsimp only at esp1
  rw [and_not_three (by omega)]
  have hs : ∀ place ∈ argPtrs, place < 2 ^ 32 := by
    intro place hi
    rw [ptrs] at hi
    have := places_le hi
    omega
  have many : argPtrs.length = (arguments cmdline).length := ptrs ▸ length_places _
  have none : Words p1.memory (p1.esp / 4 * 4) [] := by simp [Words]
  apply (wp_pushWord (by dsimp only; omega) (by decide) none).mono
  rintro _ p2 ⟨esp2, pushed2, _, words2⟩
  apply (wp_pushPointers (by dsimp only at *; omega) hs words2).mono
  rintro _ p3 ⟨esp3, pushed3, words3⟩
  dsimp only at esp2
  apply (wp_pushWord (by omega) (by omega) words3).mono
  rintro _ p4 ⟨esp4, pushed4, _, words4⟩
  apply (wp_pushWord (by omega) (by omega) words4).mono
  rintro _ p5 ⟨esp5, pushed5, _, words5⟩
  apply (wp_pushWord (by omega) (by decide) words5).mono
  rintro _ p6 ⟨esp6, pushed6, lowest, words6⟩
  have hb := (((pushed2.trans pushed3).trans pushed4).trans pushed5).trans pushed6
  refine ⟨trivial, p1.esp, esp1, by dsimp only; omega, ?_, fun i hi => ?_, points.plain,
    fun a hi => ?_, lowest⟩
  · rwa [ptrs, count, show p3.esp = p6.esp + 12 by omega] at words6
  · rw [hb.kept _ (.inr (by dsimp only; omega))]
    exact strings i hi
  · dsimp only at hi ⊢
    cases hb.written a hi with
    | inl old =>
      cases pushed1.written a old with
      | inl old => exact .inl old
      | inr new => exact .inr ⟨by omega, new.2⟩
    | inr new =>
      dsimp only at new
      exact .inr (by omega)

def pointers (memory : Bytes) (argv count : Nat) : List Nat :=
  (range count).map fun i => get32 memory (argv + 4 * i)

/-- Where the three words, the array and the strings are, and how many bytes they take. -/
def regions (memory : Bytes) (esp : Nat) (args : List (List UInt8)) : List (Nat × Nat) :=
  let argv := get32 memory (esp + 8)
  (esp, 12) :: (argv, 4 * (args.length + 1)) ::
    zipWith (fun place arg => (place, arg.length + 1)) (pointers memory argv args.length) args

def Apart (r r' : Nat × Nat) : Prop := r.1 + r.2 ≤ r'.1 ∨ r'.1 + r'.2 ≤ r.1

def InStackPage (a : Nat) : Prop := physBase - pgSize ≤ a ∧ a < physBase

/-- What `main` finds when it starts. -/
structure Layout (memory : Bytes) (esp : Nat) (args : List (List UInt8)) : Prop where
  aligned : esp % 4 = 0
  returns : get32 memory esp = 0
  argc : get32 memory (esp + 4) = args.length
  strings : Forall₂ (fun place arg => 0 ∉ arg ∧ Holds memory place (arg ++ [0]))
    (pointers memory (get32 memory (esp + 8)) args.length) args
  null : get32 memory (get32 memory (esp + 8) + 4 * args.length) = 0
  apart : (regions memory esp args).Pairwise Apart
  inside : ∀ r ∈ regions memory esp args, physBase - pgSize ≤ r.1 ∧ r.1 + r.2 ≤ physBase

theorem places_hold (strings : Holds memory base (joined words)) (hp : ∀ word ∈ words, 0 ∉ word) :
    Forall₂ (fun place word => 0 ∉ word ∧ Holds memory place (word ++ [0])) (places base words)
      words := by
  induction words generalizing base with
  | nil => exact .nil
  | cons word words ih =>
    rw [joined_cons] at strings
    obtain ⟨h, later⟩ := strings.append
    rw [length_append, length_singleton, ← Nat.add_assoc] at later
    exact .cons ⟨hp word (.head _), h⟩
      (ih later fun word hi => hp word (.tail _ hi))

/-- The strings do not overlap. -/
theorem places_ascend (base : Nat) :
    (zipWith (fun place word => (place, word.length + 1)) (places base words) words).Pairwise
        (fun r r' => r.1 + r.2 ≤ r'.1) ∧
      ∀ r ∈ zipWith (fun place word => (place, word.length + 1)) (places base words) words,
        base ≤ r.1 ∧ r.1 + r.2 ≤ base + (joined words).length := by
  induction words generalizing base with
  | nil => exact ⟨.nil, nofun⟩
  | cons word words ih =>
    obtain ⟨ascends, hi⟩ := ih (base + word.length + 1)
    rw [length_joined_cons]
    refine ⟨.cons (fun r later => ?_) ascends, fun r mem => ?_⟩
    · exact (hi r later).1
    · cases mem with
      | head => dsimp only; omega
      | tail _ later =>
        have := hi r later
        omega

theorem Words.tail (h : Words memory place (n :: values)) :
    get32 memory place = n ∧ Words memory (place + 4) values := by
  refine ⟨h 0 (by simp), fun i hi => ?_⟩
  rw [Nat.add_assoc, show 4 + 4 * i = 4 * (i + 1) by omega]
  exact h (i + 1) (by simpa using hi)

theorem Words.pointers_eq (h : Words memory place (argv ++ values)) :
    pointers memory place argv.length = argv := by
  apply ext_getElem (by simp [pointers])
  intro i _ hi
  simp only [pointers, getElem_map, getElem_range]
  rw [h i (by simp; omega), getElem_append_left hi]

theorem Image.layout {args : List (List UInt8)} (image : Image p p' args base)
    (top : p.esp = physBase) (hf : imageSize args ≤ pgSize) : Layout p'.memory p'.esp args := by
  obtain ⟨returns, words⟩ := image.words.tail
  obtain ⟨argc, words⟩ := words.tail
  obtain ⟨argv, array⟩ := words.tail
  have many : pointers p'.memory (p'.esp + 12) args.length = places base args := by
    rw [← length_places base]
    exact array.pointers_eq
  have null : get32 p'.memory (p'.esp + 12 + 4 * args.length) = 0 := by
    have last := array args.length (by simp [length_places])
    simpa [length_places] using last
  have bottom := image.bottom
  have total := image.top
  unfold imageSize at hf
  unfold pgSize physBase at *
  obtain ⟨ascends, hi⟩ := @places_ascend args base
  have regions_eq : regions p'.memory p'.esp args = (p'.esp, 12) ::
    (p'.esp + 12, 4 * (args.length + 1)) ::
      zipWith (fun place arg => (place, arg.length + 1)) (places base args) args := by
    unfold regions
    dsimp only
    rw [argv, many]
  refine ⟨by omega, returns, argc, ?_, by rw [argv]; exact null, ?_, ?_⟩
  · rw [argv, many]
    exact places_hold image.strings image.plain
  · rw [regions_eq]
    refine Pairwise.imp .inl (.cons (fun r later => ?_) (.cons (fun r later => ?_) ascends))
    · grind
    · have := hi r later
      dsimp only
      omega
  · rw [regions_eq]
    intro r mem
    rcases mem_cons.mp mem with rfl | mem
    · dsimp only
      unfold physBase pgSize
      omega
    · rcases mem_cons.mp mem with rfl | mem
      · dsimp only
        unfold physBase pgSize
        omega
      · have := hi r mem
        unfold physBase pgSize
        omega

theorem push_arguments_layout (fits : imageSize (arguments cmdline) ≤ pgSize) (junk : Bytes)
    (top : p.esp = physBase) : ∃ p', pushArguments (some junk) cmdline p = .ok (true, p') ∧
      Layout p'.memory p'.esp (arguments cmdline) := by
  have room : imageSize (arguments cmdline) ≤ p.esp := by
    rw [top]
    exact Nat.le_trans fits (by decide)
  obtain ⟨_, p', run, rfl, base, image⟩ := wp_pushArguments junk (by rw [top]; decide) room
  exact ⟨p', run, image.layout top fits⟩

/-- An argument and blanks around it. -/
def echoX : CString := ⟨[32, 101, 99, 104, 111, 32, 32, 120, 32], by decide⟩

theorem push_arguments_layout_echoX : ∃ p', pushArguments (some fun _ => 0) echoX
      ⟨fun _ => 0, fun _ => 0, physBase, []⟩ = .ok (true, p') ∧
    Layout p'.memory p'.esp [[101, 99, 104, 111], [120]] :=
  @push_arguments_layout echoX _ (by decide) _ rfl

/-! ### The page of the stack -/

theorem length_joined_splitOnP (p : UInt8 → Bool) (text : List UInt8) :
    (joined (text.splitOnP p)).length = text.length + 1 := by
  induction text with
  | nil => simp [joined]
  | cons c text ih =>
    rw [splitOnP_cons_eq_if_modifyHead]
    split
    · rw [length_joined_cons, ih, length_cons, length_nil]
      omega
    · cases split : text.splitOnP p with
      | nil => exact absurd split (splitOnP_ne_nil p text)
      | cons word words =>
        rw [split, length_joined_cons] at ih
        rw [modifyHead_cons, length_joined_cons, length_cons, length_cons]
        omega

/-- The image of any command line fits below `PHYS_BASE`. -/
theorem imageSize_le (cmdline : CString) : imageSize (arguments cmdline) ≤ physBase := by
  have cut : (cmdline.chars.take (pgSize - 1)).length ≤ 4095 := length_take_le ..
  have sublist := (take_sublist 128 _).trans (filter_sublist (l :=
    (cmdline.chars.take (pgSize - 1)).splitOn space) (p := (· ≠ [])))
  have bytes := (sublist.flatMap (· ++ [0])).length_le
  have whole := length_joined_splitOnP (· == space) (cmdline.chars.take (pgSize - 1))
  have few : (arguments cmdline).length ≤ 128 := length_take_le ..
  have hb : (joined (arguments cmdline)).length ≤ 4096 := by
    refine bytes.trans ?_
    show (joined _).length ≤ _
    rw [splitOn, whole]
    omega
  unfold imageSize physBase
  omega

/-- The bytes are in the page just if there is no page for the copy or the image fits. -/
theorem push_arguments_inside (cmdline : CString) (page : Option Bytes) (top : p.esp = physBase)
    (before : p.written = []) : (∃ pushed p', pushArguments page cmdline p = .ok (pushed, p') ∧
      (pushed = false ∨ ∀ a ∈ p'.written, InStackPage a)) ↔
      page = none ∨ imageSize (arguments cmdline) ≤ pgSize := by
  cases page with
  | none => exact ⟨fun _ => .inl rfl, fun _ => ⟨false, p, rfl, .inl rfl⟩⟩
  | some junk =>
    obtain ⟨_, p1, run, rfl, base, image⟩ :=
      wp_pushArguments junk (by rw [top]; decide) (top ▸ imageSize_le cmdline)
    have bottom := image.bottom
    have total := image.top
    rw [top] at total
    simp only [run, Except.ok.injEq, Prod.mk.injEq, reduceCtorEq, false_or]
    constructor
    · rintro ⟨pushed, p', ⟨rfl, rfl⟩, inside⟩
      have lowest := (inside.resolve_left Bool.noConfusion _ image.lowest).1
      unfold imageSize
      unfold pgSize physBase at *
      omega
    · intro fits
      refine ⟨true, p1, ⟨rfl, rfl⟩, .inr fun a hi => ?_⟩
      rcases image.written a hi with old | new
      · rw [before] at old
        cases old
      · unfold imageSize at fits
        unfold InStackPage
        unfold pgSize physBase at *
        omega

theorem push_arguments_inside_echoX : ∃ pushed p',
    pushArguments (some fun _ => 0) echoX ⟨fun _ => 0, fun _ => 0, physBase, []⟩ = .ok
      (pushed, p') ∧
      (pushed = false ∨ ∀ a ∈ p'.written, InStackPage a) :=
  (@push_arguments_inside ⟨fun _ => 0, fun _ => 0, physBase, []⟩ echoX _ rfl rfl).mpr
    (.inr (by decide))

/-- A command with one argument, of this many characters. -/
def longLine (n : Nat) : CString := ⟨97 :: 32 :: replicate n 98, by simp⟩

theorem arguments_longLine (pos : 0 < n) (most : n ≤ 4093) :
    arguments (longLine n) = [[97], replicate n 98] := by
  have cut : (longLine n).chars.take (pgSize - 1) = [97] ++ space :: replicate n 98 := by
    unfold pgSize longLine
    rw [take_of_length_le (by simp; omega)]
    rfl
  unfold arguments
  rw [cut, tokens_eq, tokensOf_word (by simp) (by simp [space]) (by simp),
    tokensOf_last (by simp; omega) (by simp [space])]
  rfl

theorem length_longLine (pos : 0 < n) (most : n ≤ 4093) :
    (joined (arguments (longLine n))).length = n + 3 ∧ (arguments (longLine n)).length = 2 := by
  rw [arguments_longLine pos most, length_joined_cons, length_joined_cons, length_replicate]
  exact ⟨by simp [joined]; omega, rfl⟩

/-- The strings fill the page, and the words behind them are written below it. -/
theorem push_arguments_overruns : ∃ p', (longLine 4093).length ≤ 4095 ∧
    pushArguments (some fun _ => 0) (longLine 4093) ⟨fun _ => 0, fun _ => 0, physBase, []⟩ =
      .ok (true, p') ∧ ∃ a ∈ p'.written, ¬ InStackPage a := by
  obtain ⟨total, two⟩ := @length_longLine 4093 (by decide) (by decide)
  have size : imageSize (arguments (longLine 4093)) = 4120 := by
    unfold imageSize
    rw [total, two]
  obtain ⟨_, p', run, rfl, base, image⟩ := @wp_pushArguments (longLine 4093)
    ⟨fun _ => 0, fun _ => 0, physBase, []⟩ (fun _ => 0) (by decide) (by rw [size]; decide)
  have short : (longLine 4093).length ≤ 4095 := by
    unfold longLine CString.length
    rw [length_cons, length_cons, length_replicate]
  refine ⟨p', short, run, p'.esp, image.lowest, ?_⟩
  have bottom := image.bottom
  have top := image.top
  rw [total] at top
  rw [two] at bottom
  unfold InStackPage pgSize
  unfold physBase at *
  dsimp only at top
  omega

end Pintos.Userprog
