import Mathlib.Data.List.Basic
import Mathlib.Data.List.Induction
import Pintos.Threads.FixedPoint

/-!
# Formatted output

`__vprintf` of `lib/stdio.c` and what it calls. A format is the characters in front of its null;
the characters that are output are returned. Variable arguments are words of 32 bits, the wider
types taking two of them, and `strings` has the string that a pointer points to.
-/

namespace Pintos.Stdio

open List

open Threads (int32 int32_of_fits)

abbrev Word := BitVec 32

structure Flags where
  minus : Bool := false
  plus : Bool := false
  space : Bool := false
  pound : Bool := false
  zero : Bool := false
  group : Bool := false
  deriving DecidableEq

inductive ArgType
  | char
  | short
  | int
  | intmax
  | long
  | longlong
  | ptrdifft
  | sizet
  deriving DecidableEq

/-- `struct printf_conversion`. -/
structure Conversion where
  flags : Flags
  width : Int
  precision : Int
  type : ArgType
  deriving DecidableEq

structure IntegerBase where
  base : Nat
  digits : List Char
  x : Option Char
  group : Nat
  large : 1 < base

def baseD : IntegerBase := ⟨10, "0123456789".toList, none, 3, by decide⟩
def baseO : IntegerBase := ⟨8, "01234567".toList, none, 3, by decide⟩
def baseX : IntegerBase := ⟨16, "0123456789abcdef".toList, some 'x', 4, by decide⟩
def baseUpperX : IntegerBase := ⟨16, "0123456789ABCDEF".toList, some 'X', 4, by decide⟩

/-! ## `parse_conversion` -/

/-- The flags with that of `ch`, if it is the character of one. -/
def Flags.add (f : Flags) (ch : Char) : Option Flags :=
  match ch with
  | '-' => some { f with minus := true }
  | '+' => some { f with plus := true }
  | ' ' => some { f with space := true }
  | '#' => some { f with pound := true }
  | '0' => some { f with zero := true }
  | '\'' => some { f with group := true }
  | _ => none

def parseFlags (f : Flags) : List Char → Flags × List Char
  | [] => (f, [])
  | ch :: format =>
    match f.add ch with
    | some f' => parseFlags f' format
    | none => (f, ch :: format)

/-- The digits of a width or a precision, added up in an `int`. -/
def parseNumber (n : Int) : List Char → Int × List Char
  | [] => (n, [])
  | ch :: format =>
    if ch.isDigit then parseNumber (int32 (n * 10 + ch.toNat - '0'.toNat)) format
    else (n, ch :: format)

/-- A number that is given in the format, or by an argument; `none` without that argument. -/
def parseStar (format : List Char) (args : List Word) : Option (Int × List Char × List Word) :=
  match format, args with
  | '*' :: _, [] => none
  | '*' :: format, arg :: args => some (arg.toInt, format, args)
  | _, _ =>
    let (n, format) := parseNumber 0 format
    some (n, format, args)

def parseWidth (f : Flags) (format : List Char) (args : List Word) :
    Option (Flags × Int × List Char × List Word) :=
  (parseStar format args).map fun (width, format, args) =>
    if width < 0 then ({ f with minus := true }, int32 (-width), format, args)
    else (f, width, format, args)

def parsePrecision (format : List Char) (args : List Word) :
    Option (Int × List Char × List Word) :=
  match format with
  | '.' :: format =>
    (parseStar format args).map fun (precision, format, args) =>
      (if precision < 0 then -1 else precision, format, args)
  | _ => some (-1, format, args)

def parseType : List Char → ArgType × List Char
  | 'h' :: 'h' :: format => (.char, format)
  | 'h' :: format => (.short, format)
  | 'j' :: format => (.intmax, format)
  | 'l' :: 'l' :: format => (.longlong, format)
  | 'l' :: format => (.long, format)
  | 't' :: format => (.ptrdifft, format)
  | 'z' :: format => (.sizet, format)
  | format => (.int, format)

/-- Returns the rest of the format from the conversion character on, and of the arguments. -/
def parseConversion (format : List Char) (args : List Word) :
    Option (Conversion × List Char × List Word) := do
  let (f, format) := parseFlags {} format
  let f := if f.minus then { f with zero := false } else f
  let f := if f.plus then { f with space := false } else f
  let (f, width, format, args) ← parseWidth f format args
  let (precision, format, args) ← parsePrecision format args
  let f := if precision ≥ 0 then { f with zero := false } else f
  let (type, format) := parseType format
  some (⟨f, width, precision, type⟩, format, args)

/-! ## `format_integer` -/

def signOf (isSigned negative : Bool) (f : Flags) : List Char :=
  if isSigned then
    if f.plus then [if negative then '-' else '+']
    else if f.space then [if negative then '-' else ' ']
    else if negative then ['-']
    else []
  else []

/-- `0x` or `0X`. -/
def prefixOf (value : Nat) (b : IntegerBase) (f : Flags) : List Char :=
  if f.pound && value ≠ 0 then b.x.elim [] fun x => ['0', x] else []

/-- The digits in `buf`, the last one stored first: the order in which they are output. -/
def accumulate (b : IntegerBase) (group : Bool) (value digitCnt : Nat) (buf : List Char) :
    List Char :=
  if value = 0 then buf
  else
    let buf := if group && digitCnt > 0 && digitCnt % b.group == 0 then ',' :: buf else buf
    accumulate b group (value / b.base) (digitCnt + 1) (b.digits.getD (value % b.base) '0' :: buf)
termination_by value
decreasing_by exact Nat.div_lt_self (Nat.pos_of_ne_zero ‹_›) b.large

/-- Zeros up to the precision, as far as the buffer of 64 characters goes, and one for `#` in
base 8. -/
def fillZeros (b : IntegerBase) (c : Conversion) (buf : List Char) : List Char :=
  let precision := if c.precision < 0 then 1 else c.precision
  let buf := replicate (min precision.toNat 63 - buf.length) '0' ++ buf
  if c.flags.pound && b.base == 8 && (buf.isEmpty || buf.head? != some '0') then '0' :: buf else buf

def digitsOf (value : Nat) (b : IntegerBase) (c : Conversion) : List Char :=
  fillZeros b c (accumulate b c.flags.group value 0 [])

/-- `pad_cnt`, in the arithmetic of `int`. -/
def padCnt (c : Conversion) (used : Nat) : Nat := (int32 (c.width - used)).toNat

def formatInteger (value : Nat) (isSigned negative : Bool) (b : IntegerBase) (c : Conversion) :
    List Char :=
  let sign := signOf isSigned negative c.flags
  let x := prefixOf value b c.flags
  let digits := digitsOf value b c
  let pad := padCnt c (digits.length + x.length + sign.length)
  (if !c.flags.minus && !c.flags.zero then replicate pad ' ' else []) ++ sign ++ x ++
    (if c.flags.zero then replicate pad '0' else []) ++ digits ++
    (if c.flags.minus then replicate pad ' ' else [])

/-! ## `__vprintf` -/

def vaArg32 : List Word → Option (Word × List Word)
  | [] => none
  | w :: args => some (w, args)

def vaArg64 : List Word → Option (BitVec 64 × List Word)
  | low :: high :: args => some (high ++ low, args)
  | _ => none

/-- The argument of `%d` and `%i`. -/
def signedArg (type : ArgType) (args : List Word) : Option (Int × List Word) :=
  match type with
  | .char => (vaArg32 args).map fun (w, args) => ((w.setWidth 8).toInt, args)
  | .short => (vaArg32 args).map fun (w, args) => ((w.setWidth 16).toInt, args)
  -- a `size_t` above half of its range is made negative again
  | .int | .long | .ptrdifft | .sizet => (vaArg32 args).map fun (w, args) => (w.toInt, args)
  | .intmax | .longlong => (vaArg64 args).map fun (w, args) => (w.toInt, args)

/-- The argument of `%o`, `%u`, `%x` and `%X`. -/
def unsignedArg (type : ArgType) (args : List Word) : Option (Nat × List Word) :=
  match type with
  | .char => (vaArg32 args).map fun (w, args) => (w.toNat % 2 ^ 8, args)
  | .short => (vaArg32 args).map fun (w, args) => (w.toNat % 2 ^ 16, args)
  | .int | .long | .ptrdifft | .sizet => (vaArg32 args).map fun (w, args) => (w.toNat, args)
  | .intmax | .longlong => (vaArg64 args).map fun (w, args) => (w.toNat, args)

def formatSigned (c : Conversion) (args : List Word) : Option (List Char × List Word) :=
  (signedArg c.type args).map fun (value, args) =>
    (formatInteger value.natAbs true (value < 0) baseD c, args)

def formatUnsigned (b : IntegerBase) (c : Conversion) (args : List Word) :
    Option (List Char × List Word) :=
  (unsignedArg c.type args).map fun (value, args) => (formatInteger value false false b c, args)

def formatString (string : List Char) (c : Conversion) : List Char :=
  let pad := replicate (c.width - string.length).toNat ' '
  (if c.flags.minus then [] else pad) ++ string ++ (if c.flags.minus then pad else [])

/-- The text in place of a conversion that there is none for. -/
def unsupported (ch : Char) (text : String) : List Char :=
  "<<no %".toList ++ [ch] ++ text.toList

/-- The conversion with character `ch`, which is null at the end of the format. -/
def convert (strings : Word → List Char) (ch : Char) (c : Conversion) (args : List Word) :
    Option (List Char × List Word) :=
  match ch with
  | 'd' | 'i' => formatSigned c args
  | 'o' => formatUnsigned baseO c args
  | 'u' => formatUnsigned baseD c args
  | 'x' => formatUnsigned baseX c args
  | 'X' => formatUnsigned baseUpperX c args
  | 'c' => (vaArg32 args).map fun (w, args) => (formatString [Char.ofNat (w.toNat % 256)] c, args)
  | 's' => (vaArg32 args).map fun (w, args) =>
    let s := if w = 0 then "(null)".toList else strings w
    (formatString (if c.precision < 0 then s else s.take c.precision.toNat) c, args)
  | 'p' => (vaArg32 args).map fun (w, args) =>
    (formatInteger w.toNat false false baseX { c with flags := { pound := true } }, args)
  | 'f' | 'e' | 'E' | 'g' | 'G' | 'n' => some (unsupported ch " in kernel>>", args)
  | _ => some (unsupported ch " conversion>>", args)

theorem parseFlags_le (f : Flags) (format : List Char) :
    (parseFlags f format).2.length ≤ format.length := by
  fun_induction parseFlags f format <;> grind

theorem parseNumber_le (n : Int) (format : List Char) :
    (parseNumber n format).2.length ≤ format.length := by
  fun_induction parseNumber n format <;> grind

theorem parseType_le (format : List Char) : (parseType format).2.length ≤ format.length := by
  fun_cases parseType format <;> grind [parseType]

/-- The format behind a number. -/
def skipNumber : List Char → List Char
  | '*' :: format => format
  | format => (parseNumber 0 format).2

def skipPrecision : List Char → List Char
  | '.' :: format => skipNumber format
  | format => format

/-- The format from the conversion character on. -/
def skipConversion (format : List Char) : List Char :=
  (parseType (skipPrecision (skipNumber (parseFlags {} format).2))).2

theorem skipNumber_le (format : List Char) : (skipNumber format).length ≤ format.length := by
  have number := parseNumber_le 0 format
  fun_cases skipNumber format <;> grind

theorem skipConversion_le (format : List Char) :
    (skipConversion format).length ≤ format.length := by
  have flags := parseFlags_le {} format
  have width := skipNumber_le (parseFlags {} format).2
  have precision (format : List Char) : (skipPrecision format).length ≤ format.length := by
    fun_cases skipPrecision format <;> grind [skipNumber_le]
  have type := parseType_le (skipPrecision (skipNumber (parseFlags {} format).2))
  have later := precision (skipNumber (parseFlags {} format).2)
  unfold skipConversion
  omega

section
variable {format rest : List Char} {args args' : List Word}

theorem parseStar_rest {n : Int} (parsed : parseStar format args = some (n, rest, args')) :
    rest = skipNumber format := by
  unfold parseStar at parsed
  split at parsed
  · cases parsed
  · cases parsed
    rfl
  · have hp : ∀ format', format ≠ '*' :: format' := by cases args <;> grind
    cases parsed
    rw [skipNumber]
    exact hp

theorem parseWidth_rest {f f' : Flags} {n : Int}
    (parsed : parseWidth f format args = some (f', n, rest, args')) : rest = skipNumber format := by
  obtain ⟨⟨width, after, _⟩, star, cut⟩ := Option.map_eq_some_iff.mp parsed
  dsimp only at cut
  split at cut <;> cases cut <;> exact parseStar_rest star

/-- Where a conversion ends is up to the format only. -/
theorem parseConversion_rest {c : Conversion}
    (parsed : parseConversion format args = some (c, rest, args')) :
    rest = skipConversion format := by
  simp only [parseConversion, Option.bind_eq_bind, Option.bind_eq_some_iff, Option.some.injEq,
    Prod.mk.injEq] at parsed
  obtain ⟨⟨f, _, format', args1⟩, width, ⟨_, last, args2⟩, precision, -, rfl, -⟩ := parsed
  have second : last = skipPrecision format' := by
    fun_cases skipPrecision format' with
    | case1 format =>
      obtain ⟨⟨_, after, _⟩, star, cut⟩ := Option.map_eq_some_iff.mp precision
      cases cut
      exact parseStar_rest star
    | case2 format' hp =>
      rw [parsePrecision] at precision
      · cases precision
        rfl
      · exact hp
  rw [second, parseWidth_rest width]
  rfl

end

/-- Returns the output. Behind a conversion that the null of the format ends, the loop looks past
that null. -/
def vprintf (strings : Word → List Char) (format : List Char) (args : List Word) :
    Except String (List Char) :=
  match format with
  | [] => .ok []
  | '%' :: '%' :: format => ('%' :: ·) <$> vprintf strings format args
  | '%' :: format =>
    match _ : parseConversion format args with
    | none => .error "argument missing"
    | some (_, [], _) => .error "read past the end of the format"
    | some (c, ch :: rest, args) =>
      match convert strings ch c args with
      | none => .error "argument missing"
      | some (out, args) => (out ++ ·) <$> vprintf strings rest args
  | ch :: format => (ch :: ·) <$> vprintf strings format args
termination_by format.length
decreasing_by
  · grind
  · have := parseConversion_rest ‹_›
    grind [skipConversion_le]
  · grind

theorem vprintf_conversion {strings : Word → List Char} {format rest out : List Char}
    {args args' args'' : List Word} {c : Conversion} {ch : Char} (ne : format.head? ≠ some '%')
    (parsed : parseConversion format args = some (c, ch :: rest, args'))
    (converted : convert strings ch c args' = some (out, args'')) :
    vprintf strings ('%' :: format) args = (out ++ ·) <$> vprintf strings rest args'' := by
  rw [vprintf]
  · split <;> grind
  · rintro format rfl
    simp at ne

/-- How a scan ends, for a format that is cut off or not. -/
def Scanned (out : Except String (List Char)) (cut : Bool) : Prop :=
  out = .error "argument missing" ∨ out = .error "read past the end of the format" ∧ cut = true ∨
    (∃ text, out = .ok text) ∧ cut = false

theorem Scanned.map {out : Except String (List Char)} {cut : Bool} (h : Scanned out cut)
    (f : List Char → List Char) : Scanned (f <$> out) cut := by
  rcases h with rfl | ⟨rfl, cut⟩ | ⟨⟨text, rfl⟩, cut⟩
  · exact .inl rfl
  · exact .inr (.inl ⟨rfl, cut⟩)
  · exact .inr (.inr ⟨⟨f text, rfl⟩, cut⟩)

/-- `struct vsnprintf_aux`, with the characters in front of `p`. -/
structure VsnprintfAux where
  stored : List Char
  length : Int
  maxLength : Int

def vsnprintfHelper (aux : VsnprintfAux) (ch : Char) : VsnprintfAux :=
  { aux with
    length := int32 (aux.length + 1)
    stored := if aux.length < aux.maxLength then aux.stored ++ [ch] else aux.stored }

/-- Returns what is stored in the buffer as well. -/
def vsnprintf (strings : Word → List Char) (bufSize : Nat) (format : List Char) (args : List Word) :
    Except String (List Char × Int) := do
  let out ← vprintf strings format args
  let aux := out.foldl vsnprintfHelper ⟨[], 0, int32 (if bufSize > 0 then bufSize - 1 else 0)⟩
  pure (if bufSize > 0 then aux.stored ++ ['\x00'] else aux.stored, aux.length)

theorem vsnprintfHelper_fold (out : List Char) {aux : VsnprintfAux} (least : 0 ≤ aux.length)
    (short : aux.length + out.length < 2 ^ 31) :
    out.foldl vsnprintfHelper aux =
      { aux with
        stored := aux.stored ++ out.take (aux.maxLength - aux.length).toNat
        length := aux.length + out.length } := by
  induction out generalizing aux with
  | nil => simp
  | cons ch out ih =>
    rw [length_cons] at short
    have next : (vsnprintfHelper aux ch).length = aux.length + 1 :=
      int32_of_fits ⟨by omega, by omega⟩
    rw [foldl_cons, ih (by omega) (by omega), next]
    simp only [vsnprintfHelper]
    by_cases room : aux.length < aux.maxLength
    · have more : (aux.maxLength - aux.length).toNat =
        (aux.maxLength - (aux.length + 1)).toNat + 1 := by
        omega
      simp [room, more]
      omega
    · have none : (aux.maxLength - aux.length).toNat = 0 := by omega
      have neither : (aux.maxLength - (aux.length + 1)).toNat = 0 := by omega
      simp [room, none, neither]
      omega

/-! ## Values -/

namespace IntegerBase

/-- There is a digit of its own for each number below the base. -/
structure Sound (b : IntegerBase) : Prop where
  length : b.digits.length = b.base
  nodup : b.digits.Nodup
  comma : ',' ∉ b.digits
  zero : b.digits.head? = some '0'

/-- The number that `n` becomes when digits are added to it, commas aside. -/
def read (b : IntegerBase) (n : Nat) (text : List Char) : Nat :=
  text.foldl (fun n ch => if ch = ',' then n else n * b.base + b.digits.idxOf ch) n

variable {b : IntegerBase}

theorem Sound.digit (hs : b.Sound) {i : Nat} (lt : i < b.base) :
    b.digits.getD i '0' ∈ b.digits ∧ b.digits.idxOf (b.digits.getD i '0') = i := by
  have hi : i < b.digits.length := hs.length ▸ lt
  have eq : b.digits.getD i '0' = b.digits[i] := by simp [hi]
  rw [eq]
  exact ⟨getElem_mem hi, hs.nodup.idxOf_getElem i hi⟩

theorem Sound.read_accumulate (hs : b.Sound) (group : Bool) (value cnt : Nat) (buf : List Char) :
    b.read 0 (accumulate b group value cnt buf) = b.read value buf := by
  fun_induction accumulate b group value cnt buf with
  | case1 => grind
  | case2 value cnt buf pos buf' ih =>
    obtain ⟨mem, index⟩ := hs.digit (Nat.mod_lt value (Nat.lt_trans Nat.zero_lt_one b.large))
    have ne : b.digits.getD (value % b.base) '0' ≠ ',' := fun eq => hs.comma (eq ▸ mem)
    have whole : value / b.base * b.base + value % b.base = value := Nat.div_add_mod' ..
    have eq : b.read value buf' = b.read value buf := by
      simp only [buf']
      split <;> simp [read]
    rw [ih, ← eq, read, foldl_cons, if_neg ne, index, whole]
    rfl

theorem Sound.read_zeros (hs : b.Sound) (n : Nat) (text : List Char) :
    b.read 0 (replicate n '0' ++ text) = b.read 0 text := by
  have zero : b.digits.idxOf '0' = 0 := by
    cases digits : b.digits with
    | nil => simp
    | cons d ds =>
      have first := hs.zero
      simp only [digits, head?_cons, Option.some.injEq] at first
      simp [first]
  induction n with
  | zero => rfl
  | succ n ih =>
    rw [← ih, replicate_succ]
    simp [read, zero]

theorem accumulate_digits (hs : b.Sound) {group : Bool} {value cnt : Nat} {buf : List Char}
    (all : ∀ ch ∈ buf, ch ∈ b.digits ∨ group = true ∧ ch = ',') :
    ∀ ch ∈ accumulate b group value cnt buf, ch ∈ b.digits ∨ group = true ∧ ch = ',' := by
  fun_induction accumulate b group value cnt buf with
  | case1 => exact all
  | case2 value cnt buf pos buf' ih =>
    apply ih
    have digit := hs.digit (Nat.mod_lt value (Nat.lt_trans Nat.zero_lt_one b.large))
    refine forall_mem_cons.mpr ⟨.inl digit.1, ?_⟩
    simp only [buf']
    split
    · exact forall_mem_cons.mpr ⟨by simp_all, all⟩
    · exact all

end IntegerBase

/-- At most one comma comes with a digit. -/
theorem accumulate_length (b : IntegerBase) (group : Bool) {k value : Nat}
    (hs : value < b.base ^ k) (cnt : Nat) (buf : List Char) :
    (accumulate b group value cnt buf).length ≤ buf.length + (if group then 2 * k else k) := by
  induction k generalizing value cnt buf with
  | zero =>
    have zero : value = 0 := by simpa using hs
    simp [accumulate, zero]
  | succ k ih =>
    unfold accumulate
    split
    · omega
    · have fewer : value / b.base < b.base ^ k :=
        Nat.div_lt_of_lt_mul (by rwa [Nat.pow_succ'] at hs)
      have hb := ih fewer (cnt + 1)
      apply Nat.le_trans (hb _)
      cases group <;> grind

/-! ## The buffer -/

/-- `*cp++ = ch`, where `cp - buf` is the number of characters stored before. -/
def store (ch : Char) (buf : List Char) : Except String (List Char) :=
  if buf.length < 64 then .ok (ch :: buf) else .error "behind the buffer"

/-- `accumulate`, with every store checked. -/
def storeDigits (b : IntegerBase) (group : Bool) (value digitCnt : Nat) (buf : List Char) :
    Except String (List Char) :=
  if value = 0 then .ok buf
  else do
    let buf ← if group && digitCnt > 0 && digitCnt % b.group == 0 then store ',' buf else .ok buf
    let buf ← store (b.digits.getD (value % b.base) '0') buf
    storeDigits b group (value / b.base) (digitCnt + 1) buf
termination_by value
decreasing_by exact Nat.div_lt_self (Nat.pos_of_ne_zero ‹_›) b.large

/-- `while (cp - buf < precision && cp < buf + sizeof buf - 1) *cp++ = '0';`. -/
def storeZeros (precision : Int) : Nat → List Char → Except String (List Char)
  | 0, _ => .error "the loop goes on"
  | rounds + 1, buf =>
    if buf.length < precision ∧ buf.length < 63 then store '0' buf >>= storeZeros precision rounds
    else .ok buf

/-- How `format_integer` fills its buffer. -/
def fillBuffer (value : Nat) (b : IntegerBase) (c : Conversion) : Except String (List Char) := do
  let buf ← storeDigits b c.flags.group value 0 []
  let buf ← storeZeros (if c.precision < 0 then 1 else c.precision) 64 buf
  if c.flags.pound && b.base == 8 && (buf.isEmpty || buf.head? != some '0') then store '0' buf
  else .ok buf

theorem store_eq {ch : Char} {buf : List Char} (room : buf.length < 64) :
    store ch buf = .ok (ch :: buf) := if_pos room

theorem storeDigits_eq (b : IntegerBase) (group : Bool) {k value : Nat} (hs : value < b.base ^ k)
    {cnt : Nat} {buf : List Char} (room : buf.length + 2 * k ≤ 64) :
    storeDigits b group value cnt buf = .ok (accumulate b group value cnt buf) := by
  induction k generalizing value cnt buf with
  | zero =>
    have zero : value = 0 := by simpa using hs
    simp [storeDigits, accumulate, zero]
  | succ k ih =>
    unfold storeDigits accumulate
    split
    · rfl
    · have fewer : value / b.base < b.base ^ k :=
        Nat.div_lt_of_lt_mul (by rwa [Nat.pow_succ'] at hs)
      have first : buf.length < 64 := by omega
      have second : (',' :: buf).length < 64 := by simp; omega
      split
      · simp only [store_eq first, store_eq second, bind, Except.bind]
        exact ih fewer (by simp; omega)
      · simp only [store_eq first, bind, Except.bind]
        exact ih fewer (by simp; omega)

theorem storeZeros_eq (precision : Int) {rounds : Nat} {buf : List Char}
    (he : 63 - buf.length < rounds) :
    storeZeros precision rounds buf =
      .ok (replicate (min precision.toNat 63 - buf.length) '0' ++ buf) := by
  induction rounds generalizing buf with
  | zero => omega
  | succ rounds ih =>
    unfold storeZeros
    split
    · obtain ⟨n, more⟩ : ∃ n, min precision.toNat 63 - buf.length = n + 1 :=
        ⟨min precision.toNat 63 - buf.length - 1, by omega⟩
      rw [store_eq (by omega), more, replicate_succ']
      show storeZeros precision rounds ('0' :: buf) = _
      rw [ih (by simp; omega), length_cons, ← Nat.sub_sub, more, Nat.add_sub_cancel, append_assoc]
      rfl
    · rw [show min precision.toNat 63 - buf.length = 0 by omega]
      rfl

/-- Every store of `format_integer` is into its buffer of 64 characters, and what is there at the
end is what it outputs. -/
theorem scratch_buffer_suffices (value : BitVec 64) (b : IntegerBase) (known : b.base ∈ [8, 10, 16])
    (c : Conversion) : fillBuffer value.toNat b c = .ok (digitsOf value.toNat b c) ∧
      (digitsOf value.toNat b c).length ≤ 64 := by
  have large : 8 ≤ b.base := by
    simp only [mem_cons, not_mem_nil, or_false] at known
    omega
  have hs : value.toNat < b.base ^ 22 :=
    Nat.lt_of_lt_of_le (Nat.lt_of_lt_of_le value.isLt (by decide)) (Nat.pow_le_pow_left large 22)
  have few : (accumulate b c.flags.group value.toNat 0 []).length ≤ 44 := by
    apply Nat.le_trans (accumulate_length b c.flags.group hs 0 [])
    split <;> simp
  have digits : storeDigits b c.flags.group value.toNat 0 [] = .ok _ :=
    storeDigits_eq b _ hs (by simp)
  have zeros : storeZeros _ 64 (accumulate b c.flags.group value.toNat 0 []) = .ok _ :=
    storeZeros_eq (if c.precision < 0 then 1 else c.precision) (by omega)
  simp only [fillBuffer, digitsOf, fillZeros, digits, zeros, bind, Except.bind]
  generalize filled : replicate _ '0' ++ accumulate b c.flags.group value.toNat 0 [] = buf
  have room : buf.length < 64 := by
    rw [← filled, length_append, length_replicate]
    omega
  split
  · exact ⟨store_eq room, room⟩
  · exact ⟨rfl, Nat.le_of_lt room⟩

theorem scratch_buffer_suffices_octal : baseO.base ∈ [8, 10, 16] ∧
    fillBuffer 8 baseO ⟨{ pound := true, group := true }, 0, 100, .int⟩ =
      .ok (digitsOf 8 baseO ⟨{ pound := true, group := true }, 0, 100, .int⟩) :=
  ⟨by decide, (scratch_buffer_suffices 8#64 baseO (by decide) _).1⟩

/-! ## `vhprintf` -/

/-- `struct vhprintf_aux`, with the characters in front of `p`, the last one first, and the calls of
`write` so far. -/
structure VhprintfAux where
  buf : List Char := []
  charCnt : Int := 0
  writes : List (List Char) := []

def flush (aux : VhprintfAux) : VhprintfAux :=
  { aux with
    buf := [], writes := if aux.buf = [] then aux.writes else aux.writes ++ [aux.buf.reverse] }

def addChar (aux : VhprintfAux) (c : Char) : Except String VhprintfAux := do
  let aux := { aux with buf := ← store c aux.buf }
  let aux := if aux.buf.length ≥ 64 then flush aux else aux
  pure { aux with charCnt := int32 (aux.charCnt + 1) }

/-- Returns the calls of `write` as well. -/
def vhprintf (strings : Word → List Char) (format : List Char) (args : List Word) :
    Except String (List (List Char) × Int) := do
  let out ← vprintf strings format args
  let aux ← out.foldlM addChar {}
  pure ((flush aux).writes, aux.charCnt)

/-- A call of `write` has between 1 and 64 bytes. -/
def Fit (writes : List (List Char)) : Prop := ∀ call ∈ writes, 1 ≤ call.length ∧ call.length ≤ 64

/-- The characters so far are written or in the buffer. -/
structure Buffered (out : List Char) (aux : VhprintfAux) : Prop where
  room : aux.buf.length < 64
  fit : Fit aux.writes
  all : aux.writes.flatten ++ aux.buf.reverse = out
  count : aux.charCnt = out.length

theorem flush_writes {aux : VhprintfAux} (few : aux.buf.length ≤ 64) (fit : Fit aux.writes) :
    Fit (flush aux).writes ∧ (flush aux).writes.flatten =
      aux.writes.flatten ++ aux.buf.reverse := by
  unfold flush
  by_cases empty : aux.buf = []
  · simpa [empty] using fit
  · dsimp only
    rw [if_neg empty]
    refine ⟨fun call hi => ?_, by simp⟩
    rcases mem_append.mp hi with old | new
    · exact fit call old
    · rw [mem_singleton.mp new, length_reverse]
      exact ⟨length_pos_iff.mpr empty, few⟩

theorem Buffered.addChar {out : List Char} {c : Char} {aux : VhprintfAux} (h : Buffered out aux)
    (short : (out ++ [c]).length < 2 ^ 31) :
    ∃ aux', addChar aux c = .ok aux' ∧ Buffered (out ++ [c]) aux' := by
  have count : int32 (aux.charCnt + 1) = (out ++ [c]).length := by
    rw [h.count]
    rw [length_append, length_singleton] at short ⊢
    exact int32_of_fits ⟨by omega, by omega⟩
  have all : aux.writes.flatten ++ (c :: aux.buf).reverse = out ++ [c] := by
    rw [reverse_cons, ← append_assoc, h.all]
  simp only [Stdio.addChar, store_eq h.room, bind, Except.bind]
  refine ⟨_, rfl, ?_⟩
  split
  next =>
    obtain ⟨fit, whole⟩ := @flush_writes { aux with buf := c :: aux.buf } h.room h.fit
    exact ⟨Nat.zero_lt_succ 63, fit, by rw [← all, ← whole]; simp [flush], count⟩
  next lt => exact ⟨Nat.lt_of_not_le lt, h.fit, all, count⟩

theorem buffered_foldlM {out : List Char} (short : out.length < 2 ^ 31) :
    ∃ aux, out.foldlM addChar {} = .ok aux ∧ Buffered out aux := by
  induction out using List.reverseRecOn with
  | nil => exact ⟨_, rfl, by decide, nofun, rfl, rfl⟩
  | append_singleton out c ih =>
    obtain ⟨aux, ran, h⟩ := ih (by rw [length_append] at short; omega)
    obtain ⟨aux', ran', h'⟩ := h.addChar short
    refine ⟨aux', ?_, h'⟩
    rw [foldlM_append, ran]
    simp [bind, Except.bind, pure, Except.pure, ran']

/-- The buffer of `vsnprintf` holds the beginning of the output, and the calls of `write` that
`vhprintf` makes hold all of it. -/
theorem output_sinks_agree (strings : Word → List Char) (format : List Char) (args : List Word)
    (out : List Char) (ran : vprintf strings format args = .ok out) (short : out.length < 2 ^ 31) :
    (∀ bufSize < 2 ^ 31, vsnprintf strings bufSize format args =
      .ok (if bufSize = 0 then [] else out.take (bufSize - 1) ++ ['\x00'], out.length)) ∧
    ∃ writes, vhprintf strings format args = .ok (writes, out.length) ∧ Fit writes ∧
      writes.flatten = out := by
  constructor
  · intro bufSize hf
    have most : int32 (if bufSize > 0 then (bufSize : Int) - 1 else 0) = (bufSize - 1 : Nat) := by
      split <;> rw [int32_of_fits ⟨by omega, by omega⟩] <;> omega
    have filled := @vsnprintfHelper_fold out ⟨[], 0, (bufSize - 1 : Nat)⟩ (Int.le_refl 0)
      (by dsimp only; omega)
    simp only [vsnprintf, ran, bind, Except.bind, most, filled]
    rcases Nat.eq_zero_or_pos bufSize with rfl | pos
    · simp [pure, Except.pure]
    · simp [pos, Nat.ne_of_gt pos, pure, Except.pure]
  · obtain ⟨aux, filled, h⟩ := buffered_foldlM short
    obtain ⟨fit, whole⟩ := flush_writes (Nat.le_of_lt h.room) h.fit
    refine ⟨_, ?_, fit, whole.trans h.all⟩
    rw [vhprintf, ran, ← h.count]
    simp [filled, bind, Except.bind, pure, Except.pure]

theorem output_sinks_agree_ok :
    (∀ bufSize < 2 ^ 31, vsnprintf (fun _ => []) bufSize ['o', 'k'] [] =
      .ok (if bufSize = 0 then [] else ['o', 'k'].take (bufSize - 1) ++ ['\x00'], 2)) ∧
    ∃ writes, vhprintf (fun _ => []) ['o', 'k'] [] = .ok (writes, 2) ∧ Fit writes ∧
      writes.flatten = ['o', 'k'] :=
  output_sinks_agree (fun _ => []) ['o', 'k'] [] ['o', 'k'] (by simp [vprintf]) (by decide)

/-! ## Numbers as they are output -/

/-- Commas stand at the places, counted from the right, that `group + 1` divides, and no others. -/
def Grouped (group : Nat) : List Char → Prop
  | [] => True
  | ch :: text => (ch = ',' ↔ (text.length + 1) % (group + 1) = 0) ∧ Grouped group text

theorem accumulate_grouped {b : IntegerBase} (hs : b.Sound) (three : b.group = 3 ∨ b.group = 4)
    {value cnt : Nat} {buf : List Char} (grouped : Grouped b.group buf)
    (first : buf.head? ≠ some ',')
    (length : buf.length = cnt + (cnt - 1) / b.group) :
    Grouped b.group (accumulate b true value cnt buf) ∧
      (accumulate b true value cnt buf).head? ≠ some ',' := by
  fun_induction accumulate b true value cnt buf with
  | case1 => exact ⟨grouped, first⟩
  | case2 value cnt buf pos buf' ih =>
    have digit := hs.digit (Nat.mod_lt value (Nat.lt_trans Nat.zero_lt_one b.large))
    have ne : b.digits.getD (value % b.base) '0' ≠ ',' := fun eq => hs.comma (eq ▸ digit.1)
    have step : Grouped b.group buf' ∧ buf'.length = cnt + cnt / b.group ∧
        (buf'.length + 1) % (b.group + 1) ≠ 0 := by
      simp only [buf', Bool.true_and, Bool.and_eq_true, decide_eq_true_eq, beq_iff_eq]
      split
      · refine ⟨⟨?_, grouped⟩, ?_⟩
        · rcases three with g | g <;> simp only [g] at * <;> simp <;> omega
        · rcases three with g | g <;> simp only [g, length_cons] at * <;> omega
      · refine ⟨grouped, ?_⟩
        rcases three with g | g <;> simp only [g] at * <;> omega
    obtain ⟨grouped', length', place⟩ := step
    apply ih ⟨iff_of_false ne place, grouped'⟩
    · simpa only [head?_cons, ne_eq, Option.some.injEq] using ne
    · rw [length_cons, length', Nat.add_sub_cancel, Nat.add_right_comm]

/-- What is left of a number without padding spaces and sign. -/
def unsignedText (out : List Char) : List Char := out.filter (· ∉ [' ', '+', '-'])

/-- And without commas and prefix. -/
def digitText (b : IntegerBase) (out : List Char) : List Char :=
  match (unsignedText out).filter (· ≠ ','), b.x with
  | '0' :: ch :: text, some x => if ch = x then text else '0' :: ch :: text
  | text, _ => text

/-- Digits, letter and group of a base that output is in. -/
structure IntegerBase.Printed (b : IntegerBase) : Prop extends b.Sound where
  groups : b.group = 3 ∨ b.group = 4
  plain : ∀ ch ∈ [' ', '+', '-'], ch ∉ b.digits
  letter : ∀ x ∈ b.x, x ∉ b.digits ∧ x ∉ [' ', '+', '-', ',']

theorem IntegerBase.printed {b : IntegerBase} (known : b ∈ [baseD, baseO, baseX, baseUpperX]) :
    b.Printed := by
  simp only [mem_cons, not_mem_nil, or_false] at known
  rcases known with rfl | rfl | rfl | rfl <;>
    exact ⟨⟨by decide, by decide, by decide, by decide⟩, by decide,
      forall_iff_forall_mem.mp (by decide), by rintro x ⟨⟩ <;> decide⟩

/-- The digits that `format_integer` outputs behind sign and prefix. -/
def zeroFilled (n : Nat) (b : IntegerBase) (group : Bool) (value : Nat) : List Char :=
  replicate n '0' ++ accumulate b group value 0 []

theorem formatInteger_layout (value : Nat) (isSigned negative : Bool) (b : IntegerBase)
    (c : Conversion) :
    ∃ i j n, formatInteger value isSigned negative b c =
      replicate i ' ' ++ signOf isSigned negative c.flags ++
        (prefixOf value b c.flags ++ zeroFilled n b c.flags.group value) ++ replicate j ' ' ∧
      (c.precision < 0 → c.flags.zero = false → c.flags.pound = false →
        n = 1 - (accumulate b c.flags.group value 0 []).length) := by
  have filled : ∃ n, digitsOf value b c = zeroFilled n b c.flags.group value ∧
      (c.precision < 0 → c.flags.pound = false →
        n = 1 - (accumulate b c.flags.group value 0 []).length) := by
    have one : c.precision < 0 → min (if c.precision < 0 then 1 else c.precision).toNat 63 = 1 :=
      fun none => by simp [none]
    simp only [digitsOf, fillZeros]
    generalize min _ 63 = least at one ⊢
    split_ifs with octal
    · exact ⟨_ + 1, rfl, fun _ hp => by simp [hp] at octal⟩
    · exact ⟨_, rfl, fun none _ => by rw [one none]⟩
  obtain ⟨n, digits, least⟩ := filled
  simp only [formatInteger, digits]
  generalize padCnt c _ = pad
  refine ⟨if !c.flags.minus && !c.flags.zero then pad else 0, if c.flags.minus then pad else 0,
    (if c.flags.zero then pad else 0) + n, ?_, fun none zero hp => by simp [zero, least none hp]⟩
  cases c.flags.minus <;> cases c.flags.zero <;> simp [zeroFilled, ← replicate_append_replicate]

namespace IntegerBase.Printed

variable {b : IntegerBase} (printed : b.Printed) (n value : Nat) (group : Bool) (f : Flags)

include printed

theorem zeroFilled_digits : ∀ ch ∈ zeroFilled n b group value, ch ∈ b.digits ∨ group = true ∧ ch =
    ',' := by
  intro ch mem
  rcases mem_append.mp mem with zero | digit
  · rw [eq_of_mem_replicate zero]
    exact .inl (mem_of_mem_head? printed.zero)
  · exact accumulate_digits printed.toSound (by simp) ch digit

omit printed in
theorem prefix_cases : prefixOf value b f = [] ∨ ∃ x, b.x = some x ∧ prefixOf value b f =
    ['0', x] := by
  unfold prefixOf
  cases b.x <;> grind

/-- Behind the sign there is no space and no other sign, and no comma that was not asked for. -/
theorem inner : ∀ ch ∈ prefixOf value b f ++ zeroFilled n b group value,
    ch ∉ [' ', '+', '-'] ∧ (ch = ',' → group = true) := by
  have comma := printed.comma
  intro ch mem
  rcases mem_append.mp mem with was | digit
  · rcases prefix_cases (b := b) value f with none | ⟨x, letter, some⟩
    · simp [none] at was
    · have := printed.letter x letter
      grind
  · have hp := printed.plain
    rcases printed.zeroFilled_digits n value group ch digit with digit | ⟨_, rfl⟩
    · grind
    · exact ⟨by decide, fun _ => ‹_›⟩

theorem digitText_eq {out : List Char}
    (text : unsignedText out = prefixOf value b f ++ zeroFilled n b group value) :
    digitText b out = (zeroFilled n b group value).filter (· ≠ ',') := by
  have digits : ∀ ch ∈ (zeroFilled n b group value).filter (· ≠ ','), ch ∈ b.digits := by
    intro ch mem
    have := printed.zeroFilled_digits n value group ch
    grind
  unfold digitText
  rw [text, filter_append]
  generalize (zeroFilled n b group value).filter (· ≠ ',') = ds at digits ⊢
  rcases prefix_cases (b := b) value f with none | ⟨x, letter, some⟩
  · rw [none]
    split
    · have := (printed.letter _ ‹_›).1
      grind
    · simp
  · have ne : x ≠ ',' := by have := (printed.letter x letter).2; grind
    simp [some, letter, ne]

omit printed in
theorem read_filter (text : List Char) : b.read n (text.filter (· ≠ ',')) = b.read n text := by
  unfold read
  rw [foldl_filter]
  congr
  grind

end IntegerBase.Printed

/-- What the output of `format_integer` says about its arguments. -/
structure NumberText (b : IntegerBase) (value : Nat) (isSigned negative : Bool) (c : Conversion)
    (out : List Char) : Prop where
  digits : ∀ ch ∈ digitText b out, ch ∈ b.digits
  denotes : b.read 0 (digitText b out) = value
  grouped : c.precision < 0 → c.flags.zero = false → c.flags.pound = false → c.flags.group = true →
    Grouped b.group (unsignedText out) ∧ (unsignedText out).head? ≠ some ','
  ungrouped : c.flags.group = false → ',' ∉ out
  minus : '-' ∈ out ↔ isSigned = true ∧ negative = true

theorem number_text_denotes (b : IntegerBase) (known : b ∈ [baseD, baseO, baseX, baseUpperX])
    (value : BitVec 64) (isSigned negative : Bool) (c : Conversion) :
    NumberText b value.toNat isSigned negative c
      (formatInteger value.toNat isSigned negative b c) := by
  have printed := IntegerBase.printed known
  obtain ⟨i, j, n, laid, least⟩ := formatInteger_layout value.toNat isSigned negative b c
  have inner := printed.inner n value.toNat c.flags.group c.flags
  have sign : ∀ ch ∈ signOf isSigned negative c.flags, ch ∈ [' ', '+', '-'] := by
    simp only [signOf]
    grind
  have text : unsignedText (formatInteger value.toNat isSigned negative b c) =
      prefixOf value.toNat b c.flags ++ zeroFilled n b c.flags.group value.toNat := by
    have none : (signOf isSigned negative c.flags).filter (· ∉ [' ', '+', '-']) = [] :=
      filter_eq_nil_iff.mpr fun ch mem => by simp [sign ch mem]
    have all := filter_eq_self.mpr fun ch mem => decide_eq_true (inner ch mem).1
    rw [laid, unsignedText, filter_append, filter_append, filter_append, none, all]
    simp
  have shown := printed.digitText_eq n value.toNat c.flags.group c.flags text
  constructor
  case digits =>
    intro ch mem
    have := printed.zeroFilled_digits n value.toNat c.flags.group ch
    rw [shown] at mem
    grind
  case denotes =>
    rw [shown, IntegerBase.Printed.read_filter, zeroFilled, printed.read_zeros,
      printed.read_accumulate]
    rfl
  case grouped =>
    intro none zero hp grouped
    rw [text, show prefixOf value.toNat b c.flags = [] by simp [prefixOf, hp], zeroFilled,
      least none zero hp, grouped]
    have commas :=
      @accumulate_grouped b printed.toSound printed.groups value.toNat 0 [] trivial nofun
      (by simp)
    cases digits : accumulate b true value.toNat 0 [] with
    | nil => rcases printed.groups with g | g <;> simp [Grouped, g]
    | cons ch text => simpa [digits] using commas
  case ungrouped =>
    intro ungrouped mem
    have hi : ',' ∈ unsignedText (formatInteger value.toNat isSigned negative b c) :=
      mem_filter.mpr ⟨mem, by decide⟩
    rw [text] at hi
    exact absurd ((inner _ hi).2 rfl) (by simp [ungrouped])
  case minus =>
    have others :
      '-' ∉ prefixOf value.toNat b c.flags ++ zeroFilled n b c.flags.group value.toNat :=
      fun mem => (inner _ mem).1 (by decide)
    have minus : '-' ∈ signOf isSigned negative c.flags ↔ isSigned = true ∧ negative = true := by
      simp only [signOf]
      grind
    simp only [laid, mem_append, minus] at others ⊢
    simp [others]

theorem number_text_denotes_million : baseD ∈ [baseD, baseO, baseX, baseUpperX] ∧
    NumberText baseD (1234567 : BitVec 64).toNat true true ⟨{ group := true }, 0, -1, .int⟩
      (formatInteger (1234567 : BitVec 64).toNat true true baseD
        ⟨{ group := true }, 0, -1, .int⟩) :=
  ⟨mem_cons_self, number_text_denotes baseD mem_cons_self _ _ _ _⟩

/-! ## Field widths -/

/-- A width or a precision as a format gives it: digits, or an argument. -/
inductive Amount
  | literal (digits : List (Fin 10))
  | star (arg : Word)

namespace Amount

def text : Amount → List Char
  | literal digits => digits.map fun d : Fin 10 => Nat.digitChar d
  | star _ => ['*']

def args : Amount → List Word
  | literal _ => []
  | star arg => [arg]

def value : Amount → Int
  | literal digits => digits.foldl (fun n (d : Fin 10) => n * 10 + (d : Nat)) 0
  | star arg => arg.toInt

end Amount

def ArgType.text : ArgType → List Char
  | .char => ['h', 'h']
  | .short => ['h']
  | .int => []
  | .intmax => ['j']
  | .long => ['l']
  | .longlong => ['l', 'l']
  | .ptrdifft => ['t']
  | .sizet => ['z']

/-- The conversion of an integer, from behind its `%` up to its conversion character. -/
structure Directive where
  flags : List Char
  width : Amount
  precision : Option Amount
  type : ArgType
  char : Char
  /-- A `0` in front of the width is a flag. -/
  nonzero : ∀ digits, width ≠ .literal (0 :: digits)
  known : ∀ ch ∈ flags, ch ∈ ['-', '+', ' ', '#', '0', '\'']
  integer : char ∈ ['d', 'i', 'o', 'u', 'x', 'X']

namespace Directive

def tail (d : Directive) (rest : List Char) : List Char :=
  d.precision.elim [] (fun p => '.' :: p.text) ++ (d.type.text ++ d.char :: rest)

def text (d : Directive) (rest : List Char) : List Char :=
  d.flags ++ (d.width.text ++ d.tail rest)

def args (d : Directive) (rest : List Word) : List Word :=
  d.width.args ++ (d.precision.elim [] Amount.args ++ rest)

def left (d : Directive) : Bool := '-' ∈ d.flags ∨ d.width.value < 0

def zeroFlag (d : Directive) : Bool := '0' ∈ d.flags

/-- With a precision, a negative one counting as none. -/
def precise (d : Directive) : Bool := d.precision.elim false fun p => 0 ≤ int32 p.value

end Directive

/-- The first character is neither a flag nor part of a number. -/
def Stops (format : List Char) : Prop :=
  ∃ ch rest, format = ch :: rest ∧ ch.isDigit = false ∧ ch ≠ '*' ∧ ∀ f : Flags, f.add ch = none

theorem Stops.of_type (type : ArgType) {ch : Char} (integer : ch ∈ ['d', 'i', 'o', 'u', 'x', 'X'])
    (rest : List Char) : Stops (type.text ++ ch :: rest) := by
  cases type with
  | int =>
    simp only [mem_cons, not_mem_nil, or_false] at integer
    rcases integer with rfl | rfl | rfl | rfl | rfl | rfl <;>
      exact ⟨_, _, rfl, by decide, by decide, fun _ => rfl⟩
  | _ => exact ⟨_, _, rfl, by decide, by decide, fun _ => rfl⟩

theorem parseType_text (type : ArgType) {ch : Char} (integer : ch ∈ ['d', 'i', 'o', 'u', 'x', 'X'])
    (rest : List Char) : parseType (type.text ++ ch :: rest) = (type, ch :: rest) := by
  simp only [mem_cons, not_mem_nil, or_false] at integer
  rcases integer with rfl | rfl | rfl | rfl | rfl | rfl <;> cases type <;> rfl

theorem Directive.stops (d : Directive) (rest : List Char) : Stops (d.tail rest) := by
  unfold Directive.tail
  cases d.precision with
  | none => exact Stops.of_type d.type d.integer rest
  | some p => exact ⟨'.', _, rfl, by decide, by decide, fun _ => rfl⟩

theorem parseFlags_append {flags : List Char}
    (known : ∀ ch ∈ flags, ch ∈ ['-', '+', ' ', '#', '0', '\''])
    (f : Flags) {rest : List Char} (ends : ∀ f, parseFlags f rest = (f, rest)) :
    ∃ f', parseFlags f (flags ++ rest) = (f', rest) ∧ f'.minus = (f.minus || '-' ∈ flags) ∧
      f'.zero = (f.zero || '0' ∈ flags) := by
  induction flags generalizing f with
  | nil => exact ⟨f, ends f, by simp, by simp⟩
  | cons ch flags ih =>
    have first := known ch (mem_cons_self ..)
    have others : ∀ ch ∈ flags, ch ∈ ['-', '+', ' ', '#', '0', '\''] :=
      fun ch mem => known ch (mem_cons_of_mem _ mem)
    simp only [mem_cons, not_mem_nil, or_false] at first
    rcases first with rfl | rfl | rfl | rfl | rfl | rfl <;>
    · obtain ⟨f', parsed, minus, zero⟩ := ih others _
      exact ⟨f', parsed, by simp [minus], by simp [zero]⟩

theorem int32_step (n d : Int) : int32 (int32 n * 10 + d) = int32 (n * 10 + d) := by
  unfold int32
  rw [← Int.bmod_add_bmod, Int.bmod_mul_bmod, Int.bmod_add_bmod]

theorem parseNumber_append (digits : List (Fin 10)) (n : Int) {rest : List Char}
    (stops : Stops rest) :
    parseNumber (int32 n) (digits.map (fun d : Fin 10 => Nat.digitChar d) ++ rest) =
      (int32 (digits.foldl (fun n (d : Fin 10) => n * 10 + (d : Nat)) n), rest) := by
  induction digits generalizing n with
  | nil =>
    obtain ⟨ch, rest, rfl, digit, -⟩ := stops
    simp [parseNumber, digit]
  | cons d digits ih =>
    have code : ∀ d : Fin 10, (Nat.digitChar d).isDigit = true ∧
        (Nat.digitChar d).toNat = d + '0'.toNat := by decide
    have sum : int32 n * 10 + (Nat.digitChar d).toNat - '0'.toNat = int32 n * 10 + (d : Nat) := by
      have := (code d).2
      omega
    simp only [map_cons, cons_append, parseNumber, (code d).1, if_true, sum, int32_step,
      ih, foldl_cons]

theorem parseStar_text (a : Amount) {rest : List Char} (stops : Stops rest) (args : List Word) :
    parseStar (a.text ++ rest) (a.args ++ args) = some (int32 a.value, rest, args) := by
  cases a with
  | star arg =>
    have hf : int32 arg.toInt = arg.toInt := int32_of_fits ⟨by grind, by grind⟩
    simp [Amount.text, Amount.args, Amount.value, parseStar, hf]
  | literal digits =>
    have parsed := parseNumber_append digits 0 stops
    have unstarred : ∀ d : Fin 10, Nat.digitChar d ≠ '*' := by decide
    have hp : ∀ others, digits.map (fun d : Fin 10 => Nat.digitChar d) ++ rest ≠ '*' :: others := by
      obtain ⟨ch, rest, rfl, -, star, -⟩ := stops
      cases digits <;> simp_all
    simp only [Amount.text, Amount.args, Amount.value, nil_append, parseStar]
    split
    · exact absurd ‹_› (hp _)
    · exact absurd ‹_› (hp _)
    · exact congrArg (fun r => some (r.1, r.2, _)) parsed

theorem Directive.parseFlags_width (d : Directive) (rest : List Char) (f : Flags) :
    parseFlags f (d.width.text ++ d.tail rest) = (f, d.width.text ++ d.tail rest) := by
  have unflagged : ∀ (d : Fin 10) (f : Flags), d ≠ 0 → f.add (Nat.digitChar d) = none := by
    intro d f pos
    match d with
    | 0 => contradiction
    | 1 | 2 | 3 | 4 | 5 | 6 | 7 | 8 | 9 => rfl
  obtain ⟨ch, tail, eq, -, -, flag⟩ := d.stops rest
  have nonzero := d.nonzero
  cases width : d.width with
  | star => rfl
  | literal digits =>
    cases digits with
    | nil => simp [Amount.text, eq, parseFlags, flag]
    | cons first digits =>
      have pos : first ≠ 0 := fun zero => nonzero digits (zero ▸ width)
      simp [Amount.text, parseFlags, unflagged first f pos]

def Directive.precisionValue (d : Directive) : Int :=
  d.precision.elim (-1) fun p => if int32 p.value < 0 then -1 else int32 p.value

theorem Directive.parsePrecision_tail (d : Directive) (rest : List Char) (args : List Word) :
    parsePrecision (d.tail rest) (d.precision.elim [] Amount.args ++ args) =
      some (d.precisionValue, d.type.text ++ d.char :: rest, args) := by
  have stops := Stops.of_type d.type d.integer rest
  unfold Directive.tail Directive.precisionValue
  cases d.precision with
  | none =>
    have undotted : ∀ others, d.type.text ++ d.char :: rest ≠ '.' :: others := by
      have integer := d.integer
      simp only [mem_cons, not_mem_nil, or_false] at integer
      rcases integer with eq | eq | eq | eq | eq | eq <;> cases d.type <;>
        simp [eq, ArgType.text]
    simp only [Option.elim_none, nil_append, parsePrecision]
  | some p => simp [parsePrecision, parseStar_text p stops]

/-- The width as it is parsed, without its sign. -/
def Directive.parsedWidth (d : Directive) : Int :=
  if int32 d.width.value < 0 then int32 (-int32 d.width.value) else int32 d.width.value

/-- What the conversion of a directive is. -/
theorem Directive.parse (d : Directive) (rest : List Char) (args : List Word) :
    ∃ c, parseConversion (d.text rest) (d.args args) = some (c, d.char :: rest, args) ∧
      c.width = d.parsedWidth ∧
      c.flags.minus = (decide ('-' ∈ d.flags) || decide (int32 d.width.value < 0)) ∧
      c.flags.zero = (d.zeroFlag && '-' ∉ d.flags && !d.precise) := by
  obtain ⟨f, parsed, minus, zero⟩ := parseFlags_append d.known {} (d.parseFlags_width rest)
  have width := parseStar_text d.width (d.stops rest) (d.precision.elim [] Amount.args ++ args)
  have precise : d.precise = decide (0 ≤ d.precisionValue) := by
    unfold Directive.precise Directive.precisionValue
    cases d.precision with
    | none => rfl
    | some p => simp; grind
  unfold Directive.parsedWidth
  simp only [parseConversion, Directive.text, Directive.args, parsed, parseWidth, width,
    Option.map_some]
  by_cases negative : int32 d.width.value < 0
  · simp only [negative, if_true, Option.bind_eq_bind, Option.bind_some, d.parsePrecision_tail,
      parseType_text _ d.integer]
    refine ⟨_, rfl, ?_⟩
    simp only [Directive.zeroFlag, precise]
    grind
  · simp only [negative, if_false, Option.bind_eq_bind, Option.bind_some, d.parsePrecision_tail,
      parseType_text _ d.integer]
    refine ⟨_, rfl, ?_⟩
    simp only [Directive.zeroFlag, precise]
    grind

theorem fillZeros_length (b : IntegerBase) (c : Conversion) (buf : List Char) :
    (fillZeros b c buf).length ≤ max buf.length 63 + 1 := by
  simp only [fillZeros]
  generalize (if c.precision < 0 then 1 else c.precision).toNat = precision
  split <;> simp only [length_cons, length_append, length_replicate] <;> omega

theorem digitsOf_length (value : BitVec 64) (b : IntegerBase) (c : Conversion) :
    (digitsOf value.toNat b c).length ≤ 129 := by
  have hs : value.toNat < b.base ^ 64 :=
    Nat.lt_of_lt_of_le value.isLt (Nat.pow_le_pow_left b.large 64)
  have digits := accumulate_length b c.flags.group hs 0 []
  have filled := fillZeros_length b c (accumulate b c.flags.group value.toNat 0 [])
  simp only [length_nil] at digits
  unfold digitsOf
  split at digits <;> omega

theorem Amount.value_ge (a : Amount) : -2 ^ 31 ≤ a.value := by
  cases a with
  | literal digits =>
    have sum : ∀ n : Int, 0 ≤ n → 0 ≤ digits.foldl
      (fun (n : Int) (d : Fin 10) => n * 10 + (d : Nat)) n := by
      induction digits with
      | nil => exact fun _ => id
      | cons d digits ih =>
        intro n pos
        exact ih _ (show 0 ≤ n * 10 + ((d : Nat) : Int) by omega)
    exact (by decide : (-2 ^ 31 : Int) ≤ 0).trans (sum 0 (Int.le_refl 0))
  | star arg => exact BitVec.le_toInt arg

theorem padCnt_eq {c : Conversion} {width used : Nat} (eq : c.width = width) (hf : width < 2 ^ 31)
    (few : used < 2 ^ 31) : padCnt c used = width - used := by
  have exact : int32 (width - used) = width - used := int32_of_fits ⟨by omega, by omega⟩
  rw [padCnt, eq, exact]
  omega

section
variable {c : Conversion} {d : Directive} {used : Nat} (eq : c.width = d.parsedWidth)
  (few : used < 2 ^ 31)
include eq few

theorem padCnt_fits (hf : d.width.value.natAbs < 2 ^ 31) :
    padCnt c used = d.width.value.natAbs - used := by
  apply padCnt_eq (eq.trans _) hf few
  simp only [Directive.parsedWidth, int32, Int.bmod]
  split_ifs <;> omega

/-- The least `int` has no opposite, and the subtraction wraps around. -/
theorem padCnt_least (hf : d.width.value.natAbs = 2 ^ 31) :
    int32 d.width.value < 0 ∧ padCnt c used = if used = 0 then 0 else 2 ^ 31 - used := by
  simp only [padCnt, eq, Directive.parsedWidth, int32, Int.bmod]
  split_ifs <;> omega

theorem padCnt_wraps (large : 2 ^ 31 < d.width.value.natAbs) :
    padCnt c used ≠ d.width.value.natAbs - used := by
  have := d.width.value_ge
  simp only [padCnt, eq, Directive.parsedWidth, int32, Int.bmod]
  split_ifs <;> omega

end

/-- A field of so many characters, with this text in it. -/
def Directive.field (d : Directive) (sign x digits : List Char) : List Char :=
  let pad := replicate (d.width.value.natAbs - (sign ++ x ++ digits).length)
  if d.left then sign ++ x ++ digits ++ pad ' '
  else if d.zeroFlag && !d.precise then sign ++ x ++ pad '0' ++ digits
  else pad ' ' ++ sign ++ x ++ digits

theorem Directive.length_field (d : Directive) (sign x digits : List Char) :
    (d.field sign x digits).length = max d.width.value.natAbs (sign ++ x ++ digits).length := by
  unfold Directive.field
  split_ifs <;> simp <;> omega

/-- There is nothing to fill, or the width is an `int` and does not turn the `-` flag on behind the
`0` flag. The opposite of the least `int` will do as a width for a text to the left. -/
def Directive.Sound (d : Directive) (text : List Char) : Prop :=
  d.width.value.natAbs ≤ text.length ∨
    (d.width.value < 0 → d.zeroFlag = true → '-' ∈ d.flags ∨ d.precise = true) ∧
    (d.width.value.natAbs < 2 ^ 31 ∨ d.width.value.natAbs = 2 ^ 31 ∧ text ≠ [] ∧
      (d.left = true ∨ (d.zeroFlag && !d.precise) = false ∧ ∀ ch ∈ text, ch = ' '))

/-- What is put around the text, with the flags and the number that the code goes by. -/
def laidOut (minus zero : Bool) (pad : Nat) (sign x digits : List Char) : List Char :=
  (if !minus && !zero then replicate pad ' ' else []) ++ sign ++ x ++
    (if zero then replicate pad '0' else []) ++ digits ++ (if minus then replicate pad ' ' else [])

theorem length_laidOut (minus zero : Bool) (pad : Nat) (sign x digits : List Char) :
    (laidOut minus zero pad sign x digits).length =
      (sign ++ x ++ digits).length + if minus && zero then 2 * pad else pad := by
  unfold laidOut
  cases minus <;> cases zero <;> simp <;> omega

theorem Directive.field_eq (d : Directive) (sign x digits : List Char) :
    d.field sign x digits = laidOut d.left (!d.left && (d.zeroFlag && !d.precise))
      (d.width.value.natAbs - (sign ++ x ++ digits).length) sign x digits := by
  unfold Directive.field laidOut
  cases d.left <;> cases d.zeroFlag && !d.precise <;> simp

/-- Spaces in front are spaces behind only if there is nothing else. -/
theorem append_spaces {text : List Char} {n : Nat} (more : text.length ≤ n) :
    text ++ replicate n ' ' = replicate n ' ' ++ text ↔ ∀ ch ∈ text, ch = ' ' := by
  constructor
  · intro same
    have first := congrArg (take text.length) same
    rw [take_left, take_append_of_le_length (by simpa using more), take_replicate] at first
    rw [first]
    exact fun ch mem => eq_of_mem_replicate mem
  · intro all
    rw [eq_replicate_of_mem all, replicate_append_replicate, replicate_append_replicate,
      Nat.add_comm]

section
variable (d : Directive) {c : Conversion} (sign x digits : List Char)
  (width : c.width = d.parsedWidth)
  (minus : c.flags.minus = (decide ('-' ∈ d.flags) || decide (int32 d.width.value < 0)))
  (zero : c.flags.zero = (d.zeroFlag && '-' ∉ d.flags && !d.precise))

/-- With the `-` flag as the directive has it, only the two flags together are wrong. -/
theorem laidOut_flags (zero : c.flags.zero = (d.zeroFlag && '-' ∉ d.flags && !d.precise))
    (same : c.flags.minus = d.left) (short : (sign ++ x ++ digits).length < d.width.value.natAbs) :
    laidOut c.flags.minus c.flags.zero (d.width.value.natAbs - (sign ++ x ++ digits).length) sign x
      digits = d.field sign x digits ↔
      (d.width.value < 0 → d.zeroFlag = true → '-' ∈ d.flags ∨ d.precise = true) := by
  have lengths := length_laidOut d.left c.flags.zero
    (d.width.value.natAbs - (sign ++ x ++ digits).length) sign x digits
  rw [same, d.field_eq]
  by_cases both : d.left = true ∧ c.flags.zero = true
  · rw [both.1, both.2] at lengths ⊢
    refine iff_of_false (fun eq => ?_) fun consistent => ?_
    · rw [eq, length_laidOut] at lengths
      simp only [Bool.not_true, Bool.false_and, Bool.and_false, Bool.and_self, if_true] at lengths
      simp at lengths short
      omega
    · rw [zero] at both
      simp only [Directive.left] at both
      grind
  · have eq : c.flags.zero = (!d.left && (d.zeroFlag && !d.precise)) := by
      rw [zero] at both ⊢
      simp only [Directive.left] at both ⊢
      grind
    refine iff_of_true (by rw [eq]) ?_
    rw [zero] at both
    simp only [Directive.left] at both
    grind

include width minus zero

theorem laidOut_iff (few : (sign ++ x ++ digits).length < 2 ^ 30) :
    laidOut c.flags.minus c.flags.zero (padCnt c (sign ++ x ++ digits).length) sign x digits =
      d.field sign x digits ↔ d.Sound (sign ++ x ++ digits) := by
  have less : (sign ++ x ++ digits).length < 2 ^ 31 := by omega
  unfold Directive.Sound
  rcases Nat.lt_trichotomy d.width.value.natAbs (2 ^ 31) with fits | least | large
  · have exact_ : int32 d.width.value = d.width.value := int32_of_fits ⟨by omega, by omega⟩
    have same : c.flags.minus = d.left := by
      rw [minus, exact_, Directive.left]
      simp
    rw [padCnt_fits width less fits]
    by_cases none : d.width.value.natAbs ≤ (sign ++ x ++ digits).length
    · rw [d.field_eq, Nat.sub_eq_zero_of_le none]
      refine iff_of_true ?_ (.inl none)
      unfold laidOut
      simp
    · rw [laidOut_flags d sign x digits zero same (by omega)]
      simp only [none, false_or, fits, true_or, and_true]
  · obtain ⟨wraps, pad⟩ := padCnt_least width less least
    have set : c.flags.minus = true := by simp [minus, wraps]
    have none : ¬ d.width.value.natAbs ≤ (sign ++ x ++ digits).length := by omega
    have big : ¬ d.width.value.natAbs < 2 ^ 31 := by omega
    rw [or_iff_right none, or_iff_right big, and_iff_right least]
    by_cases empty : sign ++ x ++ digits = []
    · refine iff_of_false (fun eq => ?_) fun sound => sound.2.1 empty
      have lengths := congrArg length eq
      rw [pad, empty, d.length_field, length_laidOut, empty, least] at lengths
      simp at lengths
    · rw [if_neg (by rwa [length_eq_zero_iff]), ← least] at pad
      rw [pad, and_iff_right empty]
      cases left : d.left with
      | true =>
        rw [laidOut_flags d sign x digits zero (set.trans left.symm) (by omega)]
        simp
      | false =>
        -- a literal, which turns the flag on
        have plain : ¬ '-' ∈ d.flags ∧ ¬ d.width.value < 0 := by simpa [Directive.left] using left
        rw [d.field_eq, left, set, zero]
        cases filled : d.zeroFlag && !d.precise with
        | true =>
          refine iff_of_false (fun eq => ?_) (by simp)
          have lengths := congrArg length eq
          obtain ⟨given, free⟩ := Bool.and_eq_true_iff.mp filled
          rw [length_laidOut, length_laidOut, given, free] at lengths
          simp [plain.1] at lengths
          simp at none
          omega
        | false =>
          have off : (d.zeroFlag && decide ('-' ∉ d.flags) && !d.precise) = false := by
            rw [← filled]
            simp [plain.1]
          rw [off, ← append_spaces (n := d.width.value.natAbs - (sign ++ x ++ digits).length)
            (by omega)]
          simp [laidOut, plain.2]
  · have none : ¬ d.width.value.natAbs ≤ (sign ++ x ++ digits).length := by omega
    have differ := padCnt_wraps width less large
    refine iff_of_false (fun eq => ?_) (by omega)
    have lengths := congrArg length eq
    rw [d.length_field, length_laidOut] at lengths
    by_cases both : c.flags.minus = true ∧ c.flags.zero = true
    · -- the spaces behind are too many
      have plain := d.width.value_ge
      rw [both.1, both.2] at eq lengths
      rw [zero] at both
      have right : d.left = false ∧ (d.zeroFlag && !d.precise) = true := by
        simp only [Directive.left]
        grind
      rw [d.field_eq, right.1, right.2] at eq
      have spaces := congrArg (count ' ') eq
      simp [laidOut, count_replicate] at spaces
      simp [spaces] at lengths
      simp at none
      omega
    · simp only [Bool.and_eq_true, both, if_false] at lengths
      omega

end

/-- The field of a conversion is as wide as it says, or as what it holds, and filled on one side:
with spaces behind a left-justified number, and in front of another one with zeros behind its
sign and prefix or with spaces. -/
theorem field_width_obeyed (d : Directive) (rest : List Char) (args : List Word) (value : BitVec 64)
    (isSigned negative : Bool) (b : IntegerBase) :
    ∃ c, parseConversion (d.text rest) (d.args args) = some (c, d.char :: rest, args) ∧
      let sign := signOf isSigned negative c.flags
      let x := prefixOf value.toNat b c.flags
      let digits := digitsOf value.toNat b c
      let out := formatInteger value.toNat isSigned negative b c
      (out.length = max d.width.value.natAbs (sign ++ x ++ digits).length ∧
        out = d.field sign x digits ↔ d.Sound (sign ++ x ++ digits)) := by
  obtain ⟨c, parsed, width, minus, zero⟩ := d.parse rest args
  refine ⟨c, parsed, ?_⟩
  intro sign x digits out
  have short : sign.length ≤ 1 ∧ x.length ≤ 2 := by
    refine ⟨by simp only [sign, signOf]; grind, ?_⟩
    simp only [x, prefixOf]
    cases b.x <;> grind
  have few : digits.length ≤ 129 := digitsOf_length value b c
  have used : digits.length + x.length + sign.length = (sign ++ x ++ digits).length := by
    simp
    omega
  have laid : out = laidOut c.flags.minus c.flags.zero (padCnt c (sign ++ x ++ digits).length)
      sign x digits := by
    rw [← used]
    rfl
  rw [laid, ← laidOut_iff d sign x digits width minus zero (by omega)]
  exact ⟨fun h => h.2, fun same => ⟨same ▸ d.length_field sign x digits, same⟩⟩

/-- `%05d`. -/
def zeroFive : Directive := ⟨['0'], .literal [5], none, .int, 'd', by simp, by simp, by simp⟩

theorem field_width_obeyed_five : zeroFive.text [] = "05d".toList ∧
    ∃ c, parseConversion (zeroFive.text []) [] = some (c, ['d'], []) ∧
      5 ≤ (formatInteger 42 true false baseD c).length := by
  obtain ⟨c, parsed, sound⟩ := field_width_obeyed zeroFive [] [] 42 true false baseD
  have fits : zeroFive.width.value.natAbs < 2 ^ 31 := by decide
  obtain ⟨length, -⟩ := sound.mpr (.inr ⟨by decide, .inl fits⟩)
  exact ⟨rfl, c, parsed, length ▸ Nat.le_max_left _ _⟩

/-- `%0*d` of 42 in a width of -5 is filled on both sides, and a width that no `int` holds is
another one. -/
theorem field_filled_twice :
    (∃ c, parseConversion "0*d".toList [-5] = some (c, ['d'], []) ∧
      formatInteger 42 true false baseD c = "00042   ".toList) ∧
    ∃ c, parseConversion "4294967301d".toList [] = some (c, ['d'], []) ∧
      formatInteger 42 true false baseD c = "   42".toList := by
  refine ⟨⟨⟨{ minus := true, zero := true }, 5, -1, .int⟩, ?_⟩, ⟨⟨{}, 5, -1, .int⟩, ?_⟩⟩ <;>
    decide +kernel

end Pintos.Stdio
