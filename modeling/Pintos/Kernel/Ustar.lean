import Pintos.Kernel.Stdio
import Pintos.Kernel.Strings

/-!
# Headers of ustar archives

`lib/ustar.c`: a header is 512 bytes, in fields of characters.
-/

namespace Pintos.Ustar

open LittleEndian Stdio List
open Filesys (CString)
open Threads.CommandLine (Holds stringAt ends_at_null)

def headerSize : Nat := 512

inductive UstarType
  | regular
  | directory
  | eof
  deriving DecidableEq

def UstarType.flag : UstarType → UInt8
  | regular => 48
  | directory => 53
  | eof => 255

/-- Sum of the bytes, those of the `chksum` field counting as spaces. -/
def calculateChksum (h : Bytes) : Nat :=
  (range headerSize).foldl
    (fun chksum i => (chksum + if i ≥ 148 ∧ i < 156 then 32 else (h i).toNat) % 2 ^ 32) 0

/-- A name that begins with `/`, `./` or `../`. -/
def antisocial (fileName : List UInt8) : Bool :=
  [47].isPrefixOf fileName || [46, 47].isPrefixOf fileName || [46, 46, 47].isPrefixOf fileName

/-- `strchr (file_name, '/') + 1`. -/
def afterSlash (fileName : List UInt8) : List UInt8 := (fileName.dropWhile (· != 47)).tail

variable {fileName s : List UInt8} {c : UInt8}

theorem afterSlash_lt (bad : antisocial fileName = true) :
    (afterSlash fileName).length < fileName.length := by
  have shorter := (dropWhile_suffix (· != 47) (l := fileName)).length_le
  have slash : fileName ≠ [] := by
    rintro rfl
    simp [antisocial] at bad
  have := length_pos_iff.mpr slash
  unfold afterSlash
  rw [length_tail]
  omega

def dropAntisocial (fileName : List UInt8) : List UInt8 :=
  if antisocial fileName then dropAntisocial (afterSlash fileName) else fileName
termination_by fileName.length
decreasing_by exact afterSlash_lt ‹_›

def stripAntisocialPrefixes (fileName : List UInt8) : List UInt8 :=
  let fileName := dropAntisocial fileName
  if fileName = [] ∨ fileName = [46, 46] then [46] else fileName

/-! The same with every read: a string is the bytes up to and with its null, and a function that
would read behind it fails. -/

/-- `!memcmp (s, literal, size)`, for the size of the literal. -/
def sameBytes : (s literal : List UInt8) → Except String Bool
  | _, [] => .ok true
  | [], _ :: _ => .error "read past the null"
  | c :: s, d :: literal => if c ≠ d then .ok false else sameBytes s literal

def strchr (c : UInt8) : List UInt8 → Except String (Option (List UInt8))
  | [] => .error "read past the null"
  | d :: s => if d = c then .ok (some (d :: s)) else if d = 0 then .ok none else strchr c s

/-- `!strcmp (a, b)`. -/
def sameString : (a b : List UInt8) → Except String Bool
  | c :: a, d :: b => if c ≠ 0 ∧ c = d then sameString a b else .ok (c == d)
  | _, _ => .error "read past the null"

theorem strchr_lt {rest : List UInt8} (found : strchr c s = .ok (some rest)) :
    rest.tail.length < s.length := by
  fun_induction strchr c s with
  | case1 => cases found
  | case2 s => cases found; simp
  | case3 => cases found
  | case4 d s _ _ ih => exact Nat.lt_succ_of_lt (ih found)

/-- The loop of `strip_antisocial_prefixes`. -/
def skipAntisocial (s : List UInt8) : Except String (List UInt8) := do
  if ← sameBytes s [47] <||> sameBytes s [46, 47] <||> sameBytes s [46, 46, 47] then
    match _ : strchr 47 s with
    | .ok (some rest) => skipAntisocial rest.tail
    | _ => throw "no slash"
  else pure s
termination_by s.length
decreasing_by exact strchr_lt ‹_›

def stripReading (s : List UInt8) : Except String (List UInt8) := do
  let s ← skipAntisocial s
  if ← sameBytes s [0] <||> sameString s [46, 46, 0] then pure [46, 0] else pure s

/-- The header with these bytes at an offset. -/
def put (h : Bytes) (ofs : Nat) (bytes : List UInt8) : Bytes :=
  fun i => if ofs ≤ i ∧ i < ofs + bytes.length then bytes.getD (i - ofs) 0 else h i

/-- `strlcpy` to the field of `size` bytes at `ofs`. -/
def strlcpy (h : Bytes) (ofs : Nat) (src : List UInt8) (size : Nat) : Bytes :=
  put h ofs (src.take (size - 1) ++ [0])

def bytesOf (text : List Char) : List UInt8 := text.map fun ch => UInt8.ofNat ch.toNat

/-- `snprintf` of one argument to the field of `size` bytes at `ofs`. -/
def snprintf (h : Bytes) (ofs size : Nat) (format : String) (arg : Word) : Except String Bytes := do
  let (stored, _) ← vsnprintf (fun _ => []) size format.toList [arg]
  pure (put h ofs (bytesOf stored))

/-- Returns the header, or nothing for a name that is too long. -/
def ustarMakeHeader (fileName : CString) (type : UstarType) (size : Int) :
    Except String (Option Bytes) := do
  if type = .eof then throw "type == USTAR_REGULAR || type == USTAR_DIRECTORY"
  let fileName := stripAntisocialPrefixes fileName.chars
  if fileName.length > 99 then return none
  let h : Bytes := fun _ => 0
  let h := strlcpy h 0 fileName 100
  let h ← snprintf h 100 8 "%07o" (if type = .regular then 0o644 else 0o755)
  let h := strlcpy h 108 (bytesOf "0000000".toList) 8
  let h := strlcpy h 116 (bytesOf "0000000".toList) 8
  let h ← snprintf h 124 12 "%011o" (BitVec.ofInt 32 size)
  let h ← snprintf h 136 12 "%011o" 1136102400
  let h := put h 156 [type.flag]
  let h := strlcpy h 257 (bytesOf "ustar".toList) 6
  let h := put h 263 [48, 48]
  let h := strlcpy h 297 (bytesOf "root".toList) 32
  let h := strlcpy h 265 (bytesOf "root".toList) 32
  let h ← snprintf h 148 8 "%07o" (BitVec.ofNat 32 (calculateChksum h))
  pure (some h)

/-- The loop of `parse_octal_field`, with `left` bytes to come. -/
def parseOctalDigits (s : Bytes) : (left ofs value : Nat) → Option Nat
  | 0, _, _ => none
  | left + 1, ofs, value =>
    let c := s ofs
    if c ≥ 48 ∧ c ≤ 55 then
      if value > (2 ^ 32 - 1) / 8 then none
      else parseOctalDigits s left (ofs + 1) ((c.toNat - 48 + value * 8) % 2 ^ 32)
    else if c = 32 ∨ c = 0 then if ofs > 0 then some value else none
    else none

def parseOctalField (s : Bytes) (size : Nat) : Option Nat := parseOctalDigits s size 0 0

def isAllZeros (block : Bytes) (cnt : Nat) : Bool := (range cnt).all fun i => block i == 0

structure Entry where
  fileName : Option (List UInt8)
  type : UstarType
  size : Int
  deriving DecidableEq

/-- Fails with the message that is returned. -/
def ustarParseHeader (h : Bytes) : Except String Entry :=
  if isAllZeros h headerSize then .ok ⟨none, .eof, 0⟩
  else if (range 6).map (fun i => h (257 + i)) ≠ bytesOf "ustar".toList ++ [0] then
    .error "not a ustar archive"
  else if h 263 ≠ 48 ∨ h 264 ≠ 48 then .error "invalid ustar version"
  else match parseOctalField (fun i => h (148 + i)) 8 with
  | none => .error "corrupt chksum field"
  | some chksum =>
    if chksum ≠ calculateChksum h then .error "checksum mismatch"
    else if h 99 ≠ 0 ∨ h 345 ≠ 0 then .error "file name too long"
    else
      let fileName := stripAntisocialPrefixes (stringAt h 0 100)
      if h 156 = UstarType.regular.flag then
        match parseOctalField (fun i => h (124 + i)) 12 with
        | none => .error "corrupt file size field"
        | some size =>
          if size > 2 ^ 31 - 1 then .error "file too large" else .ok ⟨some fileName, .regular, size⟩
      else if h 156 = UstarType.directory.flag then .ok ⟨some fileName, .directory, 0⟩
      else .error "unimplemented file type"

/-! ## Names -/

theorem dropAntisocial_social (fileName : List UInt8) :
    antisocial (dropAntisocial fileName) = false := by
  fun_induction dropAntisocial fileName with
  | case1 fileName bad ih => exact ih
  | case2 fileName good => simpa using good

theorem dropAntisocial_suffix (fileName : List UInt8) : dropAntisocial fileName <:+ fileName := by
  fun_induction dropAntisocial fileName with
  | case1 fileName bad ih =>
    exact ih.trans ((tail_suffix _).trans (dropWhile_suffix _))
  | case2 fileName good => exact suffix_refl _

theorem strip_strip (fileName : List UInt8) :
    stripAntisocialPrefixes (stripAntisocialPrefixes fileName) =
      stripAntisocialPrefixes fileName := by
  have social := dropAntisocial_social fileName
  have hk : ∀ name, antisocial name = false → dropAntisocial name = name := by
    intro name good
    rw [dropAntisocial, good]
    rfl
  by_cases special : dropAntisocial fileName = [] ∨ dropAntisocial fileName = [46, 46]
  · simp [stripAntisocialPrefixes, special, hk [46] (by decide)]
  · simp [stripAntisocialPrefixes, special, hk _ social]

theorem strip_plain (hp : 0 ∉ fileName) : 0 ∉ stripAntisocialPrefixes fileName := by
  unfold stripAntisocialPrefixes
  dsimp only
  split
  · decide
  · exact fun member => hp ((dropAntisocial_suffix fileName).mem member)

theorem sameBytes_text (literal : List UInt8) (hp : 0 ∉ literal) (s : List UInt8) :
    sameBytes (s ++ [0]) literal = .ok (literal.isPrefixOf s) := by
  induction literal generalizing s with
  | nil => rw [sameBytes, isPrefixOf_nil_left]
  | cons d literal ih =>
    obtain ⟨ne, hp⟩ := ne_and_not_mem_of_not_mem_cons hp
    cases s with
    | nil => simp [sameBytes, ne]
    | cons c s =>
      by_cases eq : c = d
      · simp [sameBytes, eq, ih hp]
      · simp [sameBytes, eq, isPrefixOf, Ne.symm eq]

theorem sameString_text {a b : List UInt8} (plainA : 0 ∉ a) (plainB : 0 ∉ b) :
    sameString (a ++ [0]) (b ++ [0]) = .ok (a == b) := by
  induction a generalizing b with
  | nil => cases b <;> simp_all [sameString]
  | cons c a ih =>
    obtain ⟨ne, plainA⟩ := ne_and_not_mem_of_not_mem_cons plainA
    cases b with
    | nil => simp [sameString, Ne.symm ne]
    | cons d b =>
      have later := ih plainA (ne_and_not_mem_of_not_mem_cons plainB).2
      by_cases eq : c = d
      · subst eq
        simp [sameString, Ne.symm ne, later]
      · simp [sameString, eq]

theorem strchr_text (hp : 0 ∉ s) (hi : c ∈ s) :
    strchr c (s ++ [0]) = .ok (some (s.dropWhile (· != c) ++ [0])) := by
  induction s with
  | nil => cases hi
  | cons d s ih =>
    obtain ⟨ne, hp⟩ := ne_and_not_mem_of_not_mem_cons hp
    by_cases eq : d = c
    · simp [strchr, eq]
    · have later : c ∈ s := by simpa [Ne.symm eq] using hi
      simp [strchr, eq, Ne.symm ne, ih hp later]

theorem either_ok (a b : Bool) : (Except.ok a <||> Except.ok b : Except String Bool) = .ok
    (a || b) := by
  cases a <;> rfl

theorem skipAntisocial_text (hp : 0 ∉ s) :
    skipAntisocial (s ++ [0]) = .ok (dropAntisocial s ++ [0]) := by
  have test (t : List UInt8) : (sameBytes (t ++ [0]) [47] <||> sameBytes (t ++ [0]) [46, 47] <||>
      sameBytes (t ++ [0]) [46, 46, 47]) = .ok (antisocial t) := by
    rw [sameBytes_text [47] (by decide), sameBytes_text [46, 47] (by decide),
      sameBytes_text [46, 46, 47] (by decide), either_ok, either_ok, antisocial, Bool.or_assoc]
  fun_induction dropAntisocial s with
  | case1 s bad ih =>
    have slash : 47 ∈ s := by
      simp only [antisocial, Bool.or_eq_true, isPrefixOf_iff_prefix] at bad
      rcases bad with (bad | bad) | bad <;> exact bad.mem (by simp)
    have found := strchr_text hp slash
    have hr : s.dropWhile (· != 47) ≠ [] := by simpa using slash
    rw [skipAntisocial, test, bad]
    simp only [bind, Except.bind, if_true]
    split
    · rename_i rest h
      rw [found] at h
      cases h
      rw [tail_append_of_ne_nil hr]
      exact ih fun member => hp ((tail_suffix _).trans (dropWhile_suffix _) |>.mem member)
    · rename_i none
      exact absurd found (none _)
  | case2 s good =>
    rw [skipAntisocial, test]
    simp only [bind, Except.bind, if_neg good]
    rfl

/-- The reads stay in the string. -/
theorem stripReading_text (hp : 0 ∉ s) :
    stripReading (s ++ [0]) = .ok (stripAntisocialPrefixes s ++ [0]) := by
  have plain' : 0 ∉ dropAntisocial s := fun member => hp ((dropAntisocial_suffix s).mem member)
  have dots := sameString_text plain' (b := [46, 46]) (by decide)
  have first : sameBytes (dropAntisocial s ++ [0]) [0] = .ok (dropAntisocial s == []) := by
    cases dropped : dropAntisocial s with
    | nil => rfl
    | cons c rest =>
      have ne : c ≠ 0 := by rintro rfl; simp [dropped] at plain'
      simp [sameBytes, ne]
  rw [stripReading, skipAntisocial_text hp]
  simp only [bind, Except.bind, first, show [46, 46, (0 : UInt8)] = [46, 46] ++ [0] from rfl, dots,
    either_ok, stripAntisocialPrefixes, Bool.or_eq_true, beq_iff_eq]
  split <;> rfl

theorem stripped_name_safe (fileName : CString) :
    stripReading (fileName.chars ++ [0]) = .ok (stripAntisocialPrefixes fileName.chars ++ [0]) ∧
    stripAntisocialPrefixes fileName.chars ∉ [[], [46, 46]] ∧
    (∀ start ∈ [[47], [46, 47], [46, 46, 47]], ¬ start <+: stripAntisocialPrefixes fileName.chars) ∧
    (stripAntisocialPrefixes fileName.chars = [46] ∨
      stripAntisocialPrefixes fileName.chars <:+ fileName.chars) ∧
    stripAntisocialPrefixes (stripAntisocialPrefixes fileName.chars) =
      stripAntisocialPrefixes fileName.chars := by
  refine ⟨stripReading_text fileName.nonzero, ?_⟩
  rw [strip_strip]
  by_cases special : dropAntisocial fileName.chars = [] ∨ dropAntisocial fileName.chars = [46, 46]
  · have name : stripAntisocialPrefixes fileName.chars = [46] := if_pos special
    rw [name]
    exact ⟨by decide, by decide, .inl rfl, rfl⟩
  · have name : stripAntisocialPrefixes fileName.chars = dropAntisocial fileName.chars :=
      if_neg special
    have social := dropAntisocial_social fileName.chars
    rw [name]
    refine ⟨by simpa using special, ?_, .inr (dropAntisocial_suffix _), rfl⟩
    simpa [antisocial, ← isPrefixOf_iff_prefix, and_assoc] using social

/-! ## Fields -/

variable {h h' : Bytes} {bytes ds name : List UInt8} {ofs i w value left v size : Nat}
  {type : UstarType}

theorem put_other (outside : i < ofs ∨ ofs + bytes.length ≤ i) : put h ofs bytes i = h i := by
  unfold put
  rw [if_neg (by omega)]

theorem put_inside (hi : i < bytes.length) : put h ofs bytes (ofs + i) = bytes[i] := by
  simp [put, hi]

/-- The digits that `"%0<w>o"` gives. -/
def octal (w value : Nat) : List UInt8 :=
  bytesOf (formatInteger value false false baseO ⟨{ zero := true }, w, -1, .int⟩)

def octalValue (n : Nat) (ds : List UInt8) : Nat := ds.foldl (fun n c => n * 8 + (c.toNat - 48)) n

theorem baseO_sound : baseO.Sound := ⟨by decide, by decide, by decide, by decide⟩

theorem octalValue_bytesOf {text : List Char} (all : ∀ ch ∈ text, ch ∈ baseO.digits) (n : Nat) :
    octalValue n (bytesOf text) = baseO.read n text := by
  have digit : ∀ ch ∈ baseO.digits, ch ≠ ',' ∧
      (UInt8.ofNat ch.toNat).toNat - 48 = baseO.digits.idxOf ch :=
    forall_iff_forall_mem.mp (by decide)
  induction text generalizing n with
  | nil => rfl
  | cons ch text ih =>
    obtain ⟨ne, index⟩ := digit ch (all ch mem_cons_self)
    have later := ih (fun ch mem => all ch (mem_cons_of_mem _ mem)) (n * 8 + baseO.digits.idxOf ch)
    simp only [octalValue, bytesOf, IntegerBase.read] at later ⊢
    simp only [map_cons, foldl_cons, index, if_neg ne]
    exact later

/-- A number that fits fills the field with its digits. -/
theorem octal_spec (pos : 0 < w) (hf : w < 2 ^ 31) (hs : value < 8 ^ w) :
    (octal w value).length = w ∧ (∀ c ∈ octal w value, c ≥ 48 ∧ c ≤ 55) ∧
      octalValue 0 (octal w value) = value := by
  let c : Conversion := ⟨{ zero := true }, w, -1, .int⟩
  let digits := accumulate baseO false value 0 []
  have few : digits.length ≤ w := by simpa using accumulate_length baseO false hs 0 []
  have filled : digitsOf value baseO c = replicate (1 - digits.length) '0' ++ digits := by
    simp [digitsOf, fillZeros, c, digits]
  have least : (digitsOf value baseO c).length = max 1 digits.length := by
    rw [filled]
    simp
    omega
  have pad : padCnt c (digitsOf value baseO c).length = w - max 1 digits.length := by
    rw [least]
    exact padCnt_eq rfl hf (by omega)
  have text : formatInteger value false false baseO c =
      replicate (w - max 1 digits.length + (1 - digits.length)) '0' ++ digits := by
    have hp : formatInteger value false false baseO c =
        replicate (padCnt c (digitsOf value baseO c).length) '0' ++ digitsOf value baseO c := by
      simp [formatInteger, signOf, prefixOf, c]
    rw [hp, pad, filled, replicate_add, append_assoc]
  have mem : ∀ ch ∈ formatInteger value false false baseO c, ch ∈ baseO.digits := by
    intro ch hi
    rw [text, mem_append, mem_replicate] at hi
    rcases hi with ⟨-, rfl⟩ | hi
    · decide
    · exact (IntegerBase.accumulate_digits baseO_sound (by simp) ch hi).resolve_right (by simp)
  have eq : octal w value = bytesOf (formatInteger value false false baseO c) := rfl
  refine ⟨?_, ?_, ?_⟩
  · rw [eq, bytesOf, text]
    simp
    omega
  · have range : ∀ ch ∈ baseO.digits, UInt8.ofNat ch.toNat ≥ 48 ∧ UInt8.ofNat ch.toNat ≤ 55 :=
      forall_iff_forall_mem.mp (by decide)
    simp only [eq, bytesOf, mem_map]
    rintro _ ⟨ch, hi, rfl⟩
    exact range ch (mem ch hi)
  · rw [eq, octalValue_bytesOf mem, text, baseO_sound.read_zeros, baseO_sound.read_accumulate]
    rfl

theorem le_octalValue (n : Nat) (ds : List UInt8) : n ≤ octalValue n ds := by
  induction ds generalizing n with
  | nil => exact Nat.le_refl n
  | cons c ds ih =>
    have later := ih (n * 8 + (c.toNat - 48))
    simp only [octalValue, foldl_cons] at later ⊢
    omega

theorem holds_cons {s : Bytes} : Holds s ofs (c :: ds) ↔ s ofs = c ∧ Holds s (ofs + 1) ds := by
  constructor
  · intro holds
    exact ⟨holds 0 (by simp), (Holds.append (show Holds s ofs ([c] ++ ds) from holds)).2⟩
  · rintro ⟨first, later⟩ (_ | i) hi
    · exact first
    · rw [← Nat.add_assoc, Nat.add_right_comm]
      exact later i (by simpa using hi)

/-- Octal digits that bring the accumulator from `value` to `v`, below `2^32`, and a space or
null that ends them, in the next `left` bytes. -/
structure Octal (s : Bytes) (left ofs value : Nat) (ds : List UInt8) (v : Nat) : Prop where
  digits : ∀ c ∈ ds, c ≥ 48 ∧ c ≤ 55
  ended : Holds s ofs (ds ++ [32]) ∨ Holds s ofs (ds ++ [0])
  within : ds.length < left
  denotes : octalValue value ds = v
  small : v < 2 ^ 32

theorem Octal.cons {s : Bytes} :
    Octal s (left + 1) ofs value (c :: ds) v ↔ s ofs = c ∧ (c ≥ 48 ∧ c ≤ 55) ∧
      Octal s left (ofs + 1) (value * 8 + (c.toNat - 48)) ds v := by
  constructor
  · rintro ⟨digits, ended, within, denotes, hs⟩
    simp only [cons_append, holds_cons, ← and_or_left] at ended
    exact ⟨ended.1, digits c mem_cons_self, fun c hi => digits c (mem_cons_of_mem _ hi),
      ended.2, by simpa using within, denotes, hs⟩
  · rintro ⟨first, digit, digits, ended, within, denotes, hs⟩
    refine ⟨forall_mem_cons.mpr ⟨digit, digits⟩, ?_, by simpa using within, denotes, hs⟩
    simp only [cons_append, holds_cons, ← and_or_left]
    exact ⟨first, ended⟩

/-- The accumulator never wraps: a value that would is refused before. -/
theorem parseOctalDigits_iff {s : Bytes} (hs : value < 2 ^ 32) :
    parseOctalDigits s left ofs value = some v ↔
      ∃ ds, 0 < ofs + ds.length ∧ Octal s left ofs value ds v := by
  induction left generalizing ofs value with
  | zero => exact ⟨nofun, fun ⟨_, _, field⟩ => absurd field.within (Nat.not_lt_zero _)⟩
  | succ left ih =>
    unfold parseOctalDigits
    by_cases digit : s ofs ≥ 48 ∧ s ofs ≤ 55
    · have more : (∃ ds, 0 < ofs + ds.length ∧ Octal s (left + 1) ofs value ds v) ↔
          ∃ ds, Octal s left (ofs + 1) (value * 8 + ((s ofs).toNat - 48)) ds v := by
        constructor
        · rintro ⟨_ | ⟨c, ds⟩, -, field⟩
          · rcases field.ended with ended | ended <;>
              simp [(holds_cons.mp ended).1] at digit
          · obtain ⟨rfl, -, field⟩ := Octal.cons.mp field
            exact ⟨ds, field⟩
        · rintro ⟨ds, field⟩
          exact ⟨s ofs :: ds, by simp, Octal.cons.mpr ⟨rfl, digit, field⟩⟩
      rw [if_pos digit, more]
      split_ifs with large
      · refine ⟨nofun, fun ⟨ds, field⟩ => ?_⟩
        have grows := le_octalValue (value * 8 + ((s ofs).toNat - 48)) ds
        have := field.small
        rw [field.denotes] at grows
        omega
      · have whole : ((s ofs).toNat - 48 + value * 8) % 2 ^ 32 = value * 8 +
          ((s ofs).toNat - 48) := by
          have high : (s ofs).toNat ≤ 55 := UInt8.le_iff_toNat_le.mp digit.2
          omega
        rw [whole, ih (by omega)]
        simp
    · rw [if_neg digit]
      constructor
      · intro parsed
        split_ifs at parsed with blank started
        cases parsed
        refine ⟨[], started, nofun, ?_, Nat.succ_pos left, rfl, hs⟩
        exact blank.imp (fun c => holds_cons.mpr ⟨c, nofun⟩) (fun c => holds_cons.mpr ⟨c, nofun⟩)
      · rintro ⟨_ | ⟨c, ds⟩, started, field⟩
        · have blank : s ofs = 32 ∨ s ofs = 0 :=
            field.ended.imp (fun ended => (holds_cons.mp ended).1)
              (fun ended => (holds_cons.mp ended).1)
          rw [if_pos blank, if_pos (show ofs > 0 from started)]
          exact congrArg some field.denotes
        · obtain ⟨rfl, c, -⟩ := Octal.cons.mp field
          exact absurd c digit

theorem octal_field_parsed_exactly (s : Bytes) (size v : Nat) :
    parseOctalField s size = some v ↔ ∃ ds, ds ≠ [] ∧ Octal s size 0 0 ds v := by
  unfold parseOctalField
  rw [parseOctalDigits_iff (by decide)]
  apply exists_congr
  intro ds
  rw [Nat.zero_add, length_pos_iff]

/-- An octal field is read as the number it was made from. -/
theorem parseOctalField_octal (holds : Holds (fun i => h (ofs + i)) 0 (octal w value ++ [0]))
    (pos : 0 < w) (hf : w < 2 ^ 31) (hs : value < 8 ^ w) (word : value < 2 ^ 32) :
    parseOctalField (fun i => h (ofs + i)) (w + 1) = .some value := by
  obtain ⟨length, all, eq⟩ := octal_spec pos hf hs
  exact (parseOctalDigits_iff (by decide)).mpr
    ⟨octal w value, by omega, all, .inr holds, by omega, eq, word⟩

/-- A number that fits is stored with a null behind it. -/
theorem snprintf_octal {format : String} {directive : List Char} {v : Word} (pos : 0 < w)
    (hf : w < 2 ^ 31 - 1) (hs : v.toNat < 8 ^ w) (begins : format.toList = '%' :: directive)
    (ne : directive.head? ≠ .some '%')
    (parsed : parseConversion directive [v] = .some (⟨{ zero := true }, w, -1, .int⟩, ['o'], [v])) :
    snprintf h ofs (w + 1) format v = .ok (put h ofs (octal w v.toNat ++ [0])) := by
  let text := formatInteger v.toNat false false baseO ⟨{ zero := true }, w, -1, .int⟩
  have length : text.length = w := by
    have spec := (octal_spec pos (by omega) hs).1
    simpa [octal, bytesOf] using spec
  have width : Threads.int32 w = w := Threads.int32_of_fits ⟨by omega, by omega⟩
  have printed : vprintf (fun _ => []) format.toList [v] = .ok text := by
    have converted : convert (fun _ => []) 'o' ⟨{ zero := true }, w, -1, .int⟩ [v] =
        .some (text, []) := rfl
    rw [begins, vprintf_conversion ne parsed converted]
    simp [vprintf]
  have folded := @vsnprintfHelper_fold text ⟨[], 0, w⟩ (Int.le_refl 0)
    (by rw [length]; dsimp only; omega)
  have whole : text.take w = text := take_of_length_le (Nat.le_of_eq length)
  simp only [snprintf, vsnprintf, printed, bind, Except.bind, pure, Except.pure]
  simp [width, folded, whole, octal, bytesOf, text]

theorem calculateChksum_congr (eq : ∀ i < headerSize, i < 148 ∨ 156 ≤ i → h i = h' i) :
    calculateChksum h = calculateChksum h' := by
  unfold calculateChksum
  apply foldl_ext
  intro chksum i mem
  have lt := mem_range.mp mem
  by_cases hi : i ≥ 148 ∧ i < 156
  · simp only [if_pos hi]
  · simp only [if_neg hi, eq i lt (by omega)]

theorem calculateChksum_lt (h : Bytes) : calculateChksum h < 8 ^ 7 := by
  have hb : ∀ (l : List Nat) (n : Nat), l.foldl
      (fun chksum i => (chksum + if i ≥ 148 ∧ i < 156 then 32 else (h i).toNat) % 2 ^ 32) n ≤
        n + 255 * l.length := by
    intro l
    induction l with
    | nil => simp
    | cons i l ih =>
      intro n
      have byte := (h i).toNat_lt
      apply Nat.le_trans (ih _)
      simp only [length_cons]
      split <;> omega
  have total := hb (range headerSize) 0
  rw [length_range] at total
  unfold calculateChksum
  unfold headerSize at total ⊢
  omega

/-- The header in front of the last `snprintf`. -/
def composed (name : List UInt8) (type : UstarType) (size : Nat) : Bytes :=
  let h := put (fun _ => 0) 0 (name ++ [0])
  let h := put h 100 (octal 7 (if type = .regular then 0o644 else 0o755) ++ [0])
  let h := put h 108 [48, 48, 48, 48, 48, 48, 48, 0]
  let h := put h 116 [48, 48, 48, 48, 48, 48, 48, 0]
  let h := put h 124 (octal 11 size ++ [0])
  let h := put h 136 (octal 11 1136102400 ++ [0])
  let h := put h 156 [type.flag]
  let h := put h 257 [117, 115, 116, 97, 114, 0]
  let h := put h 263 [48, 48]
  let h := put h 297 [114, 111, 111, 116, 0]
  put h 265 [114, 111, 111, 116, 0]

/-- The header, with its checksum. -/
def sealed (h : Bytes) : Bytes := put h 148 (octal 7 (calculateChksum h) ++ [0])

theorem snprintf_seven (v : Word) (hs : v.toNat < 8 ^ 7) :
    snprintf h ofs 8 "%07o" v = .ok (put h ofs (octal 7 v.toNat ++ [0])) :=
  snprintf_octal (by decide) (by decide) hs rfl (by decide) rfl

theorem snprintf_eleven (v : Word) :
    snprintf h ofs 12 "%011o" v = .ok (put h ofs (octal 11 v.toNat ++ [0])) :=
  snprintf_octal (by decide) (by decide) (Nat.lt_trans v.isLt (by decide)) rfl (by decide) rfl

theorem snprintf_chksum (h : Bytes) :
    snprintf h 148 8 "%07o" (BitVec.ofNat 32 (calculateChksum h)) = .ok (sealed h) := by
  have hs := calculateChksum_lt h
  have eq : (BitVec.ofNat 32 (calculateChksum h)).toNat = calculateChksum h := by
    rw [BitVec.toNat_ofNat]
    omega
  rw [snprintf_seven _ (by rw [eq]; exact hs), eq, sealed]

theorem ustarMakeHeader_eq (fileName : CString)
    (short : (stripAntisocialPrefixes fileName.chars).length ≤ 99)
    (known : type ≠ .eof) {size : Int} (least : 0 ≤ size) (most : size ≤ 2 ^ 31 - 1) :
    ustarMakeHeader fileName type size =
      .ok (some (sealed (composed (stripAntisocialPrefixes fileName.chars) type size.toNat))) := by
  have wide : (BitVec.ofInt 32 size).toNat = size.toNat := by
    rw [BitVec.toNat_ofInt]
    omega
  have mode : (if type = .regular then (0o644 : Word) else 0o755).toNat =
      if type = .regular then 0o644 else 0o755 := by
    split <;> rfl
  have whole : (stripAntisocialPrefixes fileName.chars).take 99 =
      stripAntisocialPrefixes fileName.chars := take_of_length_le short
  have first := fun h => @snprintf_seven h 100 (if type = .regular then 0o644 else 0o755)
    (by rw [mode]; split <;> decide)
  have ok_bind : ∀ {α β : Type} (a : α) (f : α → Except String β), (.ok a >>= f) = f a :=
    fun _ _ => rfl
  unfold ustarMakeHeader
  rw [if_neg known]
  simp only [if_neg (Nat.not_lt.mpr short), first, ok_bind, snprintf_eleven, snprintf_chksum]
  refine congrArg (fun h => Except.ok (some (sealed h))) ?_
  rw [mode, wide]
  simp [whole, composed, bytesOf, strlcpy]

theorem sealed_other (outside : i < 148 ∨ 156 ≤ i) : sealed h i = h i := by
  have length := (octal_spec (w := 7) (by decide) (by decide) (calculateChksum_lt h)).1
  apply put_other
  simp only [length_append, length, length_singleton]
  omega

theorem sealed_chksum (h : Bytes) : parseOctalField (fun i => sealed h (148 + i)) 8 =
    some (calculateChksum (sealed h)) := by
  have hs := calculateChksum_lt h
  have eq : calculateChksum (sealed h) = calculateChksum h :=
    calculateChksum_congr fun i _ outside => sealed_other outside
  rw [eq]
  refine parseOctalField_octal (w := 7) (fun i hi => ?_) (by decide) (by decide) hs (by omega)
  rw [Nat.zero_add]
  exact put_inside hi

/-- What a reader looks at, besides the checksum. -/
structure Composed (h : Bytes) (name : List UInt8) (type : UstarType) (size : Nat) : Prop where
  name : Holds h 0 (name ++ [0])
  last : h 99 = 0
  size : Holds (fun i => h (124 + i)) 0 (octal 11 size ++ [0])
  flag : h 156 = type.flag
  magic : (range 6).map (fun i => h (257 + i)) = bytesOf "ustar".toList ++ [0]
  version : h 263 = 48 ∧ h 264 = 48
  beginning : h 345 = 0

theorem composed_name (hi : i < 100) :
    composed name type size i = put (fun _ => 0) 0 (name ++ [0]) i := by
  unfold composed
  iterate 10 rw [put_other (Or.inl (by omega))]

theorem composed_spec (short : name.length ≤ 99)
    (hs : size < 8 ^ 11) : Composed (composed name type size) name type size := by
  have seven : ∀ v < 8 ^ 7, (octal 7 v).length = 7 := fun v hs =>
    (octal_spec (by decide) (by decide) hs).1
  have eleven : ∀ v < 8 ^ 11, (octal 11 v).length = 11 := fun v hs =>
    (octal_spec (by decide) (by decide) hs).1
  have mode := seven (if type = .regular then 0o644 else 0o755) (by split <;> decide)
  have mtime := eleven 1136102400 (by decide)
  have length := eleven size hs
  refine { name := ?_, last := ?_, size := ?_, flag := ?_, magic := rfl, version := ⟨rfl, rfl⟩,
           beginning := ?_ }
  · intro i hi
    rw [length_append, length_singleton] at hi
    rw [composed_name (by omega)]
    exact put_inside _
  · rw [composed_name (by decide), put]
    grind
  · intro i hi
    rw [length_append, length, length_singleton] at hi
    simp only [composed, Nat.zero_add]
    iterate 6 rw [put_other (Or.inl (by omega))]
    exact put_inside _
  · unfold composed
    iterate 4 rw [put_other (Or.inl (by omega))]
    rfl
  · unfold composed
    iterate 11 rw [put_other (Or.inr (by
      simp only [length_append, length_cons, length_nil, mode, mtime, length]; omega))]

/-- The checksum is outside of what is looked at. -/
theorem Composed.sealed (spec : Composed h name type size) (short : name.length ≤ 99)
    (hs : size < 8 ^ 11) : Composed (sealed h) name type size := by
  have length := (octal_spec (w := 11) (by decide) (by decide) hs).1
  refine { name := ?_, last := ?_, size := ?_, flag := ?_, magic := ?_, version := ⟨?_, ?_⟩,
           beginning := ?_ }
  · intro i hi
    rw [← spec.name i hi]
    rw [length_append, length_singleton] at hi
    exact sealed_other (by omega)
  · rw [sealed_other (by omega), spec.last]
  · intro i hi
    rw [← spec.size i hi]
    rw [length_append, length, length_singleton] at hi
    exact sealed_other (by omega)
  · rw [sealed_other (by omega), spec.flag]
  · rw [← spec.magic]
    exact map_congr_left fun i _ => sealed_other (by omega)
  · rw [sealed_other (by omega), spec.version.1]
  · rw [sealed_other (by omega), spec.version.2]
  · rw [sealed_other (by omega), spec.beginning]

theorem Composed.parse (spec : Composed h name type size) (short : name.length ≤ 99) (hp : 0 ∉ name)
    (stripped : stripAntisocialPrefixes name = name) (known : type ≠ .eof) (hs : size < 2 ^ 31)
    (chksum : parseOctalField (fun i => h (148 + i)) 8 = some (calculateChksum h)) :
    ustarParseHeader h = .ok ⟨some name, type, if type = .regular then size else 0⟩ := by
  have filled : isAllZeros h headerSize = false := by
    rw [isAllZeros, all_eq_false]
    exact ⟨263, mem_range.mpr (by decide), by simp [spec.version.1]⟩
  have string : stringAt h 0 100 = name := (ends_at_null 100 spec.name hp (by omega)).2
  have field : parseOctalField (fun i => h (124 + i)) 12 = some size :=
    parseOctalField_octal spec.size (by decide) (by decide) (Nat.lt_trans hs (by decide)) (by omega)
  simp only [ustarParseHeader, filled, spec.magic, spec.version, chksum, spec.last, spec.beginning,
    string, stripped, spec.flag, field]
  cases type with
  | eof => exact absurd rfl known
  | regular =>
    simp
    omega
  | directory => simp [UstarType.flag]

/-- What `ustar_parse_header` returns for a header that was made, whatever its name, type and size
were. -/
theorem header_round_trip (fileName : CString)
    (short : (stripAntisocialPrefixes fileName.chars).length ≤ 99) (type : UstarType)
    (known : type ≠ .eof) (size : Int) (least : 0 ≤ size) (most : size ≤ 2 ^ 31 - 1) :
    ∃ h, ustarMakeHeader fileName type size = .ok (some h) ∧
      ustarParseHeader h = .ok ⟨some (stripAntisocialPrefixes fileName.chars), type,
        if type = .regular then size else 0⟩ := by
  have hs : size.toNat < 2 ^ 31 := by omega
  have digits : size.toNat < 8 ^ 11 := Nat.lt_trans hs (by decide)
  have whole : (size.toNat : Int) = size := Int.toNat_of_nonneg least
  refine ⟨_, ustarMakeHeader_eq fileName short known least most, ?_⟩
  have spec := ((composed_spec short digits).sealed short digits).parse short
    (strip_plain fileName.nonzero) (strip_strip fileName.chars) known hs
    (sealed_chksum (composed _ type _))
  rw [spec, whole]

/-- `/a`, of 5 bytes. -/
theorem header_round_trip_small :
    ∃ h, ustarMakeHeader ⟨[47, 97], by decide⟩ .regular 5 = .ok (some h) ∧
      ustarParseHeader h = .ok ⟨some [97], .regular, 5⟩ := by
  have name : stripAntisocialPrefixes [47, 97] = [97] := by decide +kernel
  have trip := header_round_trip ⟨[47, 97], by decide⟩ (by rw [name]; decide) .regular (by decide) 5
    (by decide) (by decide)
  rw [name] at trip
  exact trip

end Pintos.Ustar
