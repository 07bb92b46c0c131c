import Mathlib.Data.List.TakeWhile
import Pintos.Filesys.Directory
import Pintos.Threads.CommandLine
import Pintos.Threads.Paging

/-!
# Strings in a page

The functions of `lib/string.c` that processes are started with. The buffer is one page, from
its first byte on; a function that would read behind its end stops. `strtok_r` is described in
memory of any size.
-/

namespace Pintos.Strings

open LittleEndian Prog Paging Filesys Threads.CommandLine Function List

def strlcpy (dst : Bytes) (src : CString) (size : Nat) : Bytes :=
  if size > 0 then
    let dstLen := min src.length (size - 1)
    fun i => if i < dstLen then src.char i else if i = dstLen then 0 else dst i
  else dst

/-- The first place from `s` on with a byte to stop at; `left` bytes may be looked at. -/
def scan (stop : UInt8 → Bool) (page : Bytes) : Nat → Nat → Except String Nat
  | 0, _ => .error "end of page"
  | left + 1, s => if stop (page s) then .ok s else scan stop page left (s + 1)

def strlen (page : Bytes) (s : Nat) : Except String Nat := do
  let p ← scan (· = 0) page (pgSize - s) s
  pure (p - s)

/-- `strchr (delimiters, c) != NULL`: every string has its null. -/
def strchr (delimiters : List UInt8) (c : UInt8) : Bool := c = 0 || delimiters.contains c

/-- Returns the token and what is stored in `*save_ptr`; bytes from `size` on are not read. -/
def strtokIn (size : Nat) (s : Option Nat) (delimiters : List UInt8) (savePtr : Nat) :
    Prog Bytes (Option Nat × Nat) := do
  let page ← get
  let s := s.getD savePtr
  -- the first loop leaves at a null as well
  let s ← scan (fun c => c = 0 || !strchr delimiters c) page (size - s) s
  if page s = 0 then pure (none, s)
  else
    let token := s
    let s ← scan (strchr delimiters) page (size - s) s
    if page s ≠ 0 then
      set (update page s 0)
      pure (some token, s + 1)
    else pure (some token, s)

abbrev strtokR := strtokIn pgSize

/-- `strtok_r (s, d, &p)`, then `strtok_r (NULL, d, &p)`, one call for each delimiter string. -/
def strtokCalls (size : Nat) : List (List UInt8) → Option Nat → Nat → Prog Bytes (List (Option Nat))
  | [], _, _ => pure []
  | d :: calls, s, savePtr => do
    let (token, savePtr) ← strtokIn size s d savePtr
    let later ← strtokCalls size calls none savePtr
    pure (token :: later)

def space : UInt8 := 32

/-! ### Scans -/

variable {page page' : Bytes} {stop : UInt8 → Bool} {text word rest ds : List UInt8}
  {s t left size : Nat}

/-- The text and its null are in memory from `s` on, below `size`. -/
structure TextIn (size : Nat) (page : Bytes) (s : Nat) (text : List UInt8) : Prop where
  holds : Holds page s (text ++ [0])
  plain : 0 ∉ text
  fits : s + text.length < size

abbrev Text := TextIn pgSize

theorem TextIn.append (h : TextIn size page s (word ++ rest)) :
    TextIn size page (s + word.length) rest where
  holds := by
    have holds := h.holds
    rw [append_assoc] at holds
    exact holds.append.2
  plain hi := h.plain (mem_append_right word hi)
  fits := by
    have fits := h.fits
    rw [length_append] at fits
    omega

theorem TextIn.null (h : TextIn size page s []) : page s = 0 := h.holds 0 (by simp)

theorem TextIn.first {c : UInt8} (h : TextIn size page s (c :: rest)) : page s = c ∧ c ≠ 0 := by
  refine ⟨h.holds 0 (by simp), ?_⟩
  rintro rfl
  exact h.plain (.head _)

theorem TextIn.tail {c : UInt8} (h : TextIn size page s (c :: rest)) :
    TextIn size page (s + 1) rest :=
  TextIn.append (show TextIn size page s ([c] ++ rest) from h)

/-- The copy holds as much of the text as has room. -/
theorem strlcpy_text (junk : Bytes) (cmdline : CString) :
    Text (strlcpy junk cmdline pgSize) 0 (cmdline.chars.take (pgSize - 1)) := by
  have length : (cmdline.chars.take (pgSize - 1)).length = min cmdline.length (pgSize - 1) := by
    rw [length_take, Nat.min_comm]
    rfl
  refine ⟨fun i hi => ?_, fun hi => cmdline.nonzero (mem_of_mem_take hi), ?_⟩
  · rw [length_append, length, length_singleton] at hi
    unfold strlcpy
    rw [if_pos (by decide), Nat.zero_add]
    by_cases last : i = min cmdline.length (pgSize - 1)
    · rw [if_neg (by omega), if_pos last, getElem_append_right (by omega)]
      simp
    · have lt : i < min cmdline.length (pgSize - 1) := by omega
      rw [if_pos lt, getElem_append_left (by omega), getElem_take]
      have hi : i < cmdline.chars.length := Nat.lt_of_lt_of_le lt (Nat.min_le_left ..)
      simp [CString.char, hi]
  · rw [length]
    unfold pgSize
    omega

/-- A scan that stops at a null skips the characters that do not stop it. -/
theorem scan_text (null : stop 0 = true) (h : TextIn size page s text) (he : text.length < left) :
    scan stop page left s = .ok (s + (text.takeWhile fun c => !stop c).length) := by
  induction text generalizing s left with
  | nil =>
    obtain ⟨n, rfl⟩ : ∃ n, left = n + 1 := ⟨left - 1, by simp at he; omega⟩
    simp [scan, h.null, null]
  | cons c text ih =>
    obtain ⟨n, rfl⟩ : ∃ n, left = n + 1 := ⟨left - 1, by simp at he; omega⟩
    obtain ⟨first, _⟩ := h.first
    unfold scan
    rw [first]
    cases stops : stop c with
    | true => simp [stops]
    | false =>
      rw [if_neg (by simp), ih h.tail (by simpa using he)]
      simp only [stops, takeWhile_cons, Bool.not_false, if_true, length_cons]
      congr 1
      omega

theorem strlen_text (h : Text page s text) : strlen page s = .ok text.length := by
  have all : text.takeWhile (fun c => !decide (c = 0)) = text := by
    apply takeWhile_eq_self_iff.mpr
    intro c hi
    simp only [Bool.not_eq_eq_eq_not, Bool.not_true, decide_eq_false_iff_not]
    rintro rfl
    exact h.plain hi
  have he : text.length < pgSize - s := by
    have := h.fits
    omega
  unfold strlen
  rw [scan_text (by simp) h he, all]
  simp [Bind.bind, Except.bind, Pure.pure, Except.pure]

/-! ### Tokens -/

/-- The maximal runs of characters other than the space. -/
def tokens (text : List UInt8) : List (List UInt8) := (text.splitOn space).filter (· ≠ [])

/-- The maximal runs of characters other than the delimiters. -/
def tokensOf (ds text : List UInt8) : List (List UInt8) :=
  (text.splitOnP ds.contains).filter (· ≠ [])

/-- What is left of the text behind its first token and the delimiter that ends it. -/
def unread (ds text : List UInt8) : List UInt8 :=
  ((text.dropWhile ds.contains).dropWhile fun c => !ds.contains c).tail

theorem tokens_eq : tokens text = tokensOf [space] text := by
  have same : [space].contains = (· == space) := by
    funext c
    rw [Bool.eq_iff_iff]
    simp
  rw [tokensOf, same]
  rfl

theorem tokensOf_skip (blank : ∀ c ∈ word, ds.contains c) :
    tokensOf ds (word ++ rest) = tokensOf ds rest := by
  induction word with
  | nil => rfl
  | cons c word ih =>
    rw [← ih fun c hi => blank c (.tail _ hi)]
    unfold tokensOf
    rw [cons_append, splitOnP_cons_eq_if_modifyHead, if_pos (blank c (.head _)),
      filter_cons_of_neg (by simp)]

theorem tokensOf_word {c : UInt8} (nonempty : word ≠ []) (run : ∀ c ∈ word, ds.contains c = false)
    (ends : ds.contains c) : tokensOf ds (word ++ c :: rest) = word :: tokensOf ds rest := by
  unfold tokensOf
  rw [splitOnP_append_cons_of_forall_mem run c ends rest,
    filter_cons_of_pos (by simpa using nonempty)]

theorem tokensOf_last (nonempty : word ≠ []) (run : ∀ c ∈ word, ds.contains c = false) :
    tokensOf ds word = [word] := by
  unfold tokensOf
  rw [splitOnP_eq_singleton run, filter_cons_of_pos (by simpa using nonempty)]
  rfl

/-- What a call of `strtok_r` finds in the text that is left at `s`. -/
inductive Splits (size : Nat) (ds : List UInt8) (page : Bytes) (s : Nat) (text : List UInt8) :
    Option Nat × Nat → Bytes → Prop where
  | done {save : Nat} : tokensOf ds text = [] → unread ds text = [] → TextIn size page save [] →
      s ≤ save → Splits size ds page s text (none, save) page
  | token {token save : Nat} {page' : Bytes} {word : List UInt8} :
      tokensOf ds text = word :: tokensOf ds (unread ds text) → TextIn size page' token word →
      TextIn size page' save (unread ds text) → (∀ i, page' i = page i ∨ s < i ∧ page' i = 0) → s ≤
        token →
      token + word.length ≤ save → Splits size ds page s text (some token, save) page'

theorem TextIn.congr (h : TextIn size page s text)
    (eq : ∀ i ≤ s + text.length, page' i = page i) : TextIn size page' s text where
  holds i hi := by
    rw [eq _ (by simp at hi; omega)]
    exact h.holds i hi
  plain := h.plain
  fits := h.fits

/-- Where the null is put, the word in front of it ends. -/
theorem TextIn.cut {c : UInt8} (h : TextIn size page s (word ++ c :: rest)) :
    TextIn size (update page (s + word.length) 0) s word ∧
      TextIn size (update page (s + word.length) 0) (s + word.length + 1) rest := by
  have bytes := h.holds
  have hf := h.fits
  rw [append_assoc] at bytes
  simp only [length_append, length_cons] at hf
  constructor
  · refine ⟨fun i hi => ?_, fun hi => h.plain (mem_append_left _ hi), by omega⟩
    by_cases last : i = word.length
    · subst last
      rw [update_self]
      simp
    · have within : i < word.length := by simp at hi; omega
      rw [update_of_ne (by omega), bytes.append.1 i within, getElem_append_left within]
  · refine ⟨fun i hi => ?_, fun hi => ?_, by omega⟩
    · rw [update_of_ne (by omega)]
      exact h.append.tail.holds i hi
    · exact h.plain (mem_append_right _ (.tail _ hi))

/-- A scan stops at the end of what it skips. -/
theorem wp_scan {Q : Nat → Bytes → Prop} (null : stop 0 = true) (h : TextIn size page s text)
    (after : ∀ word rest, text = word ++ rest → (∀ c ∈ word, stop c = false) →
      (∀ c ∈ rest.head?, stop c = true) → Q (s + word.length) page) :
    Wp (liftM (scan stop page (size - s) s) : Prog Bytes Nat) Q page := by
  have he : text.length < size - s := by
    have := h.fits
    omega
  rw [wp_lift]
  refine ⟨_, scan_text null h he, ?_⟩
  apply after _ (text.dropWhile fun c => !stop c) takeWhile_append_dropWhile.symm
  · intro c hi
    simpa using mem_takeWhile_imp hi
  · intro c first
    have stops := head?_dropWhile_not (fun c => !stop c) text
    rw [Option.mem_def.mp first] at stops
    simpa using stops

theorem wp_strtokIn {savePtr : Nat} {start : Option Nat} (from_ : start.getD savePtr = s)
    (h : TextIn size page s text) :
    Wp (strtokIn size start ds savePtr) (fun found page' => Splits size ds page s text found page')
      page := by
  unfold strtokIn
  simp only [wp_bind, wp_get, from_]
  apply wp_scan (by simp) h
  intro blanks text' whole blank starts
  subst whole
  have blank : ∀ c ∈ blanks, ds.contains c := by
    intro c hi
    have := blank c hi
    simp_all [strchr]
  have skipped : tokensOf ds (blanks ++ text') = tokensOf ds text' := tokensOf_skip blank
  have dropped : (blanks ++ text').dropWhile ds.contains = text'.dropWhile ds.contains :=
    dropWhile_append_of_pos blank
  have h' := h.append
  cases text' with
  | nil =>
    rw [if_pos h'.null, wp_pure]
    exact .done skipped (by rw [unread, dropped]; rfl) h' (by omega)
  | cons c text' =>
    obtain ⟨first, nonzero⟩ := h'.first
    have ne : ds.contains c = false := by
      have := starts c rfl
      simp_all [strchr]
    rw [dropWhile_cons_of_neg (by simpa using ne)] at dropped
    rw [if_neg (first ▸ nonzero)]
    simp only [wp_bind]
    apply wp_scan (by simp [strchr]) h'
    intro word rest whole run ends
    have nonempty : word ≠ [] := by
      rintro rfl
      have := ends c (by rw [← nil_append rest, ← whole]; rfl)
      simp_all [strchr]
    have run : ∀ c ∈ word, ds.contains c = false := by
      intro c hi
      have := run c hi
      simp_all [strchr]
    have long := length_pos_iff.mpr nonempty
    have left : unread ds (blanks ++ (c :: text')) =
      (rest.dropWhile fun c => !ds.contains c).tail := by
      rw [unread, dropped, whole, dropWhile_append_of_pos (by simpa using run)]
    rw [whole] at skipped h' left ⊢
    cases rest with
    | nil =>
      have ended := h'.append
      rw [if_neg (by simpa using ended.null), wp_pure]
      rw [append_nil] at skipped h' left ⊢
      refine .token (skipped.trans ?_) h' (left ▸ ended) (fun _ => .inl rfl) (by omega) (by omega)
      rw [tokensOf_last nonempty run, left]
      rfl
    | cons d rest =>
      obtain ⟨char, nonzero⟩ := h'.append.first
      have blank : ds.contains d := by
        have := ends d rfl
        simp_all [strchr]
      rw [dropWhile_cons_of_neg (by simpa using blank), tail_cons] at left
      rw [if_pos (char ▸ nonzero)]
      simp only [wp_bind, wp_set, wp_pure]
      obtain ⟨was, after⟩ := h'.cut
      refine .token (skipped.trans ?_) was (by rwa [left]) (fun i => ?_) (by omega) (by omega)
      · rw [tokensOf_word nonempty run blank, left]
      · by_cases cut : i = s + blanks.length + word.length
        · exact .inr ⟨by omega, cut ▸ update_self ..⟩
        · exact .inl (update_of_ne cut ..)

/-! ### The loop -/

/-- The first token of what the calls before have left, for each call's own delimiters. -/
def firstTokens : List (List UInt8) → List UInt8 → List (Option (List UInt8))
  | [], _ => []
  | d :: calls, text => (tokensOf d text).head? :: firstTokens calls (unread d text)

/-- A token found before stays: its null is at most where the search goes on. -/
theorem wp_strtokCalls {calls : List (List UInt8)} {savePtr : Nat} {start : Option Nat}
    (from_ : start.getD savePtr = s) (h : TextIn size page s text) :
    Wp (strtokCalls size calls start savePtr) (fun found page' =>
      Forall₂ (Option.Rel (TextIn size page')) found (firstTokens calls text) ∧
      (∀ i, page' i = page i ∨ s < i ∧ page' i = 0) ∧ (found.filterMap id).Pairwise (· < ·) ∧
      ∀ place ∈ found.filterMap id, s ≤ place) page := by
  induction calls generalizing start savePtr s page text with
  | nil => simp [strtokCalls, firstTokens]
  | cons d calls ih =>
    simp only [strtokCalls, wp_bind]
    apply (wp_strtokIn from_ h).mono
    intro found page1 splits
    cases splits with
    | @done save empty none ended low =>
      apply (ih (s := save) rfl ended).mono
      rintro later page' ⟨all, cuts, sorted, above⟩
      rw [wp_pure, firstTokens, empty, none]
      refine ⟨.cons .none all, fun i => ?_, sorted, fun place hi => low.trans (above place hi)⟩
      exact (cuts i).imp_right fun cut => ⟨by omega, cut.2⟩
    | @token token save _ word first hp rest cuts1 low high =>
      apply (ih (s := save) rfl rest).mono
      rintro later page' ⟨all, cuts, sorted, above⟩
      have nonempty : word ≠ [] := by
        have hi : word ∈ tokensOf d text := first ▸ .head _
        simpa using (mem_filter.mp hi).2
      have long := length_pos_iff.mpr nonempty
      rw [wp_pure, firstTokens, first]
      refine ⟨.cons (.some (hp.congr fun i low => (cuts i).resolve_right (by omega))) all,
        fun i => ?_, .cons (fun place hi => ?_) sorted, ?_⟩
      · rcases cuts i with eq | cut
        · exact eq ▸ cuts1 i
        · exact .inr ⟨by omega, cut.2⟩
      · have := above place hi
        omega
      · rintro place (_ | ⟨_, hi⟩)
        · exact low
        · have := above place hi
          omega

/-- With the same delimiters each time, there is one call for each token in front of `NULL`. -/
theorem firstTokens_replicate {d : List UInt8} (h : TextIn size page s text) :
    firstTokens (replicate ((tokensOf d text).length + 1) d) text =
      (tokensOf d text).map some ++ [none] := by
  generalize found : tokensOf d text = words
  induction words generalizing page s text with
  | nil => simp [firstTokens, found]
  | cons word words ih =>
    have call : Wp (strtokIn size (some s) d 0) _ page := wp_strtokIn rfl h
    obtain ⟨_, _, -, splits⟩ := call
    cases splits with
    | done empty => simp [empty] at found
    | token first _ rest =>
      obtain ⟨-, later⟩ := cons.inj (first.symm.trans found)
      rw [length_cons, replicate_succ, firstTokens, found, ih rest later]
      rfl

/-- In memory that ends behind the null of the string, every call finds the first token, for its
own delimiters, of what was left; the loop ends after the last token. -/
theorem strtok_enumerates_tokens (page : Bytes) (s p : Nat) (text : List UInt8)
    (h : TextIn (s + text.length + 1) page s text) :
    (∀ calls, Wp (strtokCalls (s + text.length + 1) calls (some s) p) (fun found page' =>
      Forall₂ (Option.Rel (TextIn (s + text.length + 1) page')) found
        (firstTokens calls text) ∧
      (∀ i, page' i = page i ∨ s < i ∧ page' i = 0) ∧ (found.filterMap id).Pairwise (· < ·)) page) ∧
    ∀ d, firstTokens (replicate ((tokensOf d text).length + 1) d) text =
      (tokensOf d text).map some ++ [none] := by
  refine ⟨fun calls => (wp_strtokCalls rfl h).mono ?_, fun d => firstTokens_replicate h⟩
  exact fun _ _ ⟨all, cuts, sorted, _⟩ => ⟨all, cuts, sorted⟩

theorem strtok_enumerates_tokens_twice :
    Wp (strtokCalls 4 [[space], [space], [space]] (some 0) 0) (fun found page' =>
      Forall₂ (Option.Rel (TextIn 4 page')) found [some [97], some [98], none] ∧
      (∀ i, page' i = [97, space, 98].getD i 0 ∨ 0 < i ∧ page' i = 0) ∧
      (found.filterMap id).Pairwise (· < ·)) (fun i => [97, space, 98].getD i 0) ∧
    firstTokens [[space], [space], [space]] [97, space, 98] = [some [97], some [98], none] := by
  obtain ⟨found, whole⟩ := strtok_enumerates_tokens (fun i => [97, space, 98].getD i 0) 0 0
    [97, space, 98] ⟨by unfold Holds; decide, by decide, by decide⟩
  have tokens : firstTokens [[space], [space], [space]] [97, space, 98] =
      [some [97], some [98], none] := whole [space]
  have calls := found [[space], [space], [space]]
  rw [tokens] at calls
  exact ⟨calls, tokens⟩

/-! ### Moves -/

/-- `while (size-- > 0) *dst++ = *src++;` and where `dst` is behind it. -/
def moveUp : Nat → Nat → Nat → Prog Bytes Nat
  | 0, dst, _ => pure dst
  | size + 1, dst, src => do
    let memory ← get
    set (update memory dst (memory src))
    moveUp size (dst + 1) (src + 1)

/-- `while (size-- > 0) *--dst = *--src;` and where `dst` is behind it. -/
def moveDown : Nat → Nat → Nat → Prog Bytes Nat
  | 0, dst, _ => pure dst
  | size + 1, dst, src => do
    let memory ← get
    set (update memory (dst - 1) (memory (src - 1)))
    moveDown size (dst - 1) (src - 1)

/-- `memmove (dst, src, size)` returns the pointer that its loop has moved. -/
def memmove (dst src size : Nat) : Prog Bytes Nat := do
  assert (dst ≠ 0 ∨ size = 0) "dst != NULL || size == 0"
  assert (src ≠ 0 ∨ size = 0) "src != NULL || size == 0"
  if dst < src then moveUp size dst src else moveDown size (dst + size) (src + size)

variable {dst src : Nat} {memory : Bytes}

/-- The memory behind a copy through a temporary. -/
def copied (memory : Bytes) (dst src size : Nat) : Bytes := fun a =>
  if dst ≤ a ∧ a < dst + size then memory (src + (a - dst)) else memory a

/-- Upwards, a byte is read before the copy reaches it. -/
theorem wp_moveUp (ne : dst < src) : Wp (moveUp size dst src)
    (fun end_ memory' => memory' = copied memory dst src size ∧ end_ = dst + size) memory := by
  induction size generalizing dst src memory with
  | zero =>
    rw [moveUp, wp_pure]
    exact ⟨funext fun a => (if_neg (by omega)).symm, rfl⟩
  | succ size ih =>
    simp only [moveUp, wp_bind, wp_get, wp_set]
    apply (ih (by omega)).mono
    rintro _ _ ⟨rfl, rfl⟩
    refine ⟨funext fun a => ?_, by omega⟩
    by_cases first : a = dst
    · subst first
      simp [copied]
    · simp only [copied, update_apply]
      grind

/-- Downwards, likewise. -/
theorem wp_moveDown (ne : src ≤ dst) : Wp (moveDown size (dst + size) (src + size))
    (fun end_ memory' => memory' = copied memory dst src size ∧ end_ = dst) memory := by
  induction size generalizing memory with
  | zero =>
    rw [moveDown, wp_pure]
    exact ⟨funext fun a => (if_neg (by omega)).symm, rfl⟩
  | succ size ih =>
    simp only [moveDown, wp_bind, wp_get, wp_set, Nat.add_succ_sub_one]
    apply ih.mono
    rintro _ _ ⟨rfl, same⟩
    refine ⟨funext fun a => ?_, same⟩
    by_cases last : a = dst + size
    · subst last
      simp [copied]
    · simp only [copied, update_apply]
      grind

/-- The bytes arrive as through a temporary, and no other byte changes; the pointer that is
returned is the destination unless the copy went upwards. -/
theorem memmove_copies (memory : Bytes) (dst src size : Nat)
    (valid : dst ≠ 0 ∧ src ≠ 0 ∨ size = 0) :
    Wp (memmove dst src size) (fun returned memory' =>
      (∀ i < size, memory' (dst + i) = memory (src + i)) ∧
      (∀ a, a < dst ∨ dst + size ≤ a → memory' a = memory a) ∧
      (returned = dst ↔ size = 0 ∨ src ≤ dst)) memory := by
  have bytes : (∀ i < size, copied memory dst src size (dst + i) = memory (src + i)) ∧
      ∀ a, a < dst ∨ dst + size ≤ a → copied memory dst src size a = memory a := by
    refine ⟨fun i lt => ?_, fun a away => if_neg (by omega)⟩
    rw [copied, if_pos (by omega), Nat.add_sub_cancel_left]
  simp only [memmove, wp_bind, wp_assert]
  refine ⟨by omega, by omega, ?_⟩
  split
  next ne =>
    apply (wp_moveUp ne).mono
    rintro _ _ ⟨rfl, rfl⟩
    exact ⟨bytes.1, bytes.2, by omega⟩
  next ne =>
    apply (wp_moveDown (Nat.le_of_not_lt ne)).mono
    rintro _ _ ⟨rfl, rfl⟩
    exact ⟨bytes.1, bytes.2, by omega⟩

theorem memmove_copies_up : Wp (memmove 4 3 2) (fun returned memory' =>
    memory' 5 = 4 ∧ returned = 4) fun a => UInt8.ofNat a :=
  (memmove_copies _ 4 3 2 (by decide)).mono fun _ _ ⟨bytes, _, returned⟩ =>
    ⟨bytes 1 (by decide), returned.mpr (by decide)⟩

/-- Down to a lower address, the pointer behind the destination is returned. -/
theorem memmove_returns_end :
    (memmove 3 4 2 fun _ => 0).map Prod.fst = .ok 5 := rfl

end Pintos.Strings
