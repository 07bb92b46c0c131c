import Pintos.Userprog.Descriptors

/-!
# Validation of user pointers

`check_valid_ptr` tests the four bytes from an address on, whatever is there. What a system call
needs of the memory of the process is one thing, what it tests another: each call touches only
what it needs, and stops for a reason.
-/

namespace Pintos.Userprog

open LittleEndian Prog Paging Filesys Machine Attempt Strings

variable {c c' c'' : Caller} {α β : Type} {vaddr count esp n : Nat} {env : Env} {mapFile : FilePtr}
  {number : SyscallNr} {Q : α → Caller → Prop} {E : Stop → Caller → Prop}

/-! ### Bytes a process may have the kernel touch -/

namespace Caller

/-- The byte belongs to the process, and it may be stored to if it is. -/
def sound (c : Caller) (a : Access) : Bool :=
  a.address < physBase && (c.page (pgNo a.address)).any fun writable => writable || !a.store

def Readable (c : Caller) (vaddr count : Nat) : Prop :=
  ∀ i < count, c.sound ⟨offset vaddr i, false⟩ = true

instance (c : Caller) (vaddr count : Nat) : Decidable (c.Readable vaddr count) :=
  inferInstanceAs (Decidable (∀ i < count, _ = true))

def Writable (c : Caller) (vaddr count : Nat) : Prop :=
  ∀ i < count, c.sound ⟨offset vaddr i, true⟩ = true

theorem sound_allows {a : Access} (hs : c.sound a = true) : c.allows a = true := by
  unfold Caller.sound at hs
  unfold Caller.allows
  rw [Bool.and_eq_true] at hs
  rw [hs.2, Bool.or_true]

theorem Window.readable (window : c.Window vaddr) : c.Readable vaddr 4 := by
  intro i lt
  have passes := window i lt
  simp only [Caller.passes, Caller.mapped, Bool.and_eq_true, decide_eq_true_eq] at passes
  obtain ⟨⟨_, user⟩, mapped⟩ := passes
  obtain ⟨hw, is⟩ := Option.isSome_iff_exists.mp mapped
  simp only [Caller.sound, is, Option.any_some, Bool.not_false, Bool.or_true, Bool.and_true,
    decide_eq_true_eq]
  exact user

/-! ### What a call needs, and what it checks -/

/-- Word `i` of the call's stack frame. -/
def arg (c : Caller) (esp i : Nat) : Nat := c.word (offset esp (4 * i))

def called (c : Caller) (esp : Nat) : Option SyscallNr := SyscallNr.ofInt (toInt32 (c.word esp))

/-- There is a string, all of which the process may read. -/
def HoldsString (c : Caller) (vaddr : Nat) : Prop :=
  ∃ text, c.HasString vaddr text ∧ c.Readable vaddr (text.length + 1)

end Caller

def SyscallNr.args : SyscallNr → Nat
  | .halt => 0
  | .exit | .exec | .wait | .remove | .open_ | .filesize | .tell | .close => 1
  | .create | .seek => 2
  | .read | .write => 3

namespace Caller

/-- All user bytes that the call uses are there. -/
structure Needs (c : Caller) (esp : Nat) (number : SyscallNr) : Prop where
  args : ∀ i, 0 < i → i ≤ number.args → c.Readable (offset esp (4 * i)) 4
  string : number ∈ [.exec, .create, .remove, .open_] → c.HoldsString (c.arg esp 1)
  fills : number = .read → c.Writable (c.arg esp 2) (c.arg esp 3)
  drains : number = .write → c.Readable (c.arg esp 2) (c.arg esp 3)

/-- All tests of `check_valid_ptr` in the arm of this number pass. -/
structure Checked (c : Caller) (esp : Nat) (number : SyscallNr) : Prop where
  args : ∀ i, 0 < i → i ≤ number.args → c.Window (offset esp (4 * i))
  string : number ∈ [.exec, .create, .remove, .open_] → c.Window (c.arg esp 1)
  buffer : number ∈ [.read, .write] → c.Window (c.arg esp 2)
  last : number = .read → 0 < c.arg esp 3 → c.Window (offset (c.arg esp 2) (c.arg esp 3 - 1))

/-- What is not checked is there when what is checked is; `SYS_WRITE` reads its arguments before
it checks them. -/
@[grind cases] structure Trusted (c : Caller) (esp : Nat) (number : SyscallNr) : Prop where
  early : number = .write → ∀ i, 0 < i → i ≤ 3 → c.Readable (offset esp (4 * i)) 4
  rest : c.Checked esp number → c.Needs esp number

/-- The integers and the text are such that no assertion fails: a size or a position is not
negative as an `off_t`, and a command line names a program within the page it is copied to. -/
structure Proper (c : Caller) (esp : Nat) (number : SyscallNr) : Prop where
  size : number = .create → c.arg esp 2 < 2 ^ 31
  position : number = .seek → c.arg esp 2 < 2 ^ 31
  command : number = .exec → ∀ text, c.HasString (c.arg esp 1) text →
    tokens (text.chars.take (pgSize - 1)) ≠ []

end Caller

/-- Why the arm of a number stops. -/
inductive Stops (c : Caller) (esp : Nat) (number : SyscallNr) : Stop → Caller → Prop where
  | refused {c' : Caller} : ¬ c.Checked esp number → c'.exitStatus = -1 →
      Stops c esp number .exit c'
  | exits {c' : Caller} : c.Checked esp number → number = .exit →
      c'.exitStatus = toInt32 (c.arg esp 1) → Stops c esp number .exit c'
  | halts {c' : Caller} : c.Checked esp number → number = .halt → Stops c esp number .powerOff c'
  | asserts {c' : Caller} {text : String} : c.Checked esp number → ¬ c.Proper esp number →
      Stops c esp number (.panic text) c'

/-- The page table is the same, and only sound accesses have been made. -/
structure Safe (c c' : Caller) : Prop where
  page : c'.page = c.page
  accesses : ∀ a ∈ c'.accesses, a ∈ c.accesses ∨ c.sound a = true

theorem Safe.congr (safe : Safe c c') (page : c''.page = c'.page)
    (accesses : c''.accesses = c'.accesses) :
    Safe c c'' :=
  ⟨page.trans safe.page, accesses ▸ safe.accesses⟩

/-- So far the call has only read memory. -/
def Peeks (c c' : Caller) : Prop := ∃ log, (∀ a ∈ log, c.sound a = true) ∧ c' = c.after log

namespace Peeks

theorem refl (c : Caller) : Peeks c c := ⟨[], nofun, rfl⟩

section
variable (hp : Peeks c c') {q : Unit → Sys α}
include hp

theorem safe : Safe c c' := by
  obtain ⟨log, hs, rfl⟩ := hp
  refine ⟨rfl, fun a mem => ?_⟩
  rcases List.mem_append.mp mem with new | old
  · exact .inr (hs a new)
  · exact .inl old

theorem tidy (ht : Tidy mapFile c) : Tidy mapFile c' := by
  obtain ⟨log, _, rfl⟩ := hp
  exact ht.aside ⟨rfl⟩

theorem touches (readable : c.Readable vaddr count) :
    Peeks c (c'.after (touches vaddr false count)) := by
  obtain ⟨log, hs, rfl⟩ := hp
  refine ⟨_, fun a mem => ?_, Caller.after_after ..⟩
  rcases List.mem_append.mp mem with new | old
  · obtain ⟨i, lt, rfl⟩ := mem_touches.mp new
    exact readable i lt
  · exact hs a old

theorem check (passes : c.Window vaddr → Ends (q ()) Q E c')
    (fails : ¬ c.Window vaddr → E .exit { c' with exitStatus := -1 }) :
    Ends (checkValidPtr vaddr >>= q) Q E c' := by
  have eq : c'.Window vaddr ↔ c.Window vaddr := by
    obtain ⟨log, _, rfl⟩ := hp
    rfl
  rw [ends_bind]
  apply ends_checkValidPtr.mono
  · rintro _ _ ⟨rfl, window⟩
    exact passes (eq.mp window)
  · rintro _ _ ⟨rfl, rfl, narrow⟩
    exact fails fun window => narrow (eq.mpr window)

theorem touchAll (readable : c.Readable vaddr count)
    (next : ∀ c'', Peeks c c'' → Ends (q ()) Q E c'') :
    Ends (touchAll vaddr false count >>= q) Q E c' := by
  have hs : ∀ i < count, c'.allows ⟨offset vaddr i, false⟩ = true := by
    obtain ⟨log, _, rfl⟩ := hp
    exact fun i lt => c.sound_allows (readable i lt)
  rw [ends_bind]
  apply ends_touchAll.mono
  · rintro _ _ ⟨rfl, _⟩
    exact next _ (hp.touches readable)
  · grind

theorem word {q : Nat → Sys α} (readable : c.Readable vaddr 4)
    (next : ∀ c'', Peeks c c'' → Ends (q (c.word vaddr)) Q E c'') :
    Ends (loadWord vaddr >>= q) Q E c' := by
  rw [loadWord, bind_assoc]
  apply hp.touchAll readable
  intro c'' hp
  simp only [ends_bind, ends_get, ends_pure]
  have eq : c''.memory = c.memory := by
    obtain ⟨log, _, rfl⟩ := hp
    rfl
  rw [eq]
  exact next c'' hp

theorem int {q : Int → Sys α} (readable : c.Readable vaddr 4)
    (next : ∀ c'', Peeks c c'' → Ends (q (toInt32 (c.word vaddr))) Q E c'') :
    Ends (loadInt vaddr >>= q) Q E c' := by
  rw [loadInt, bind_assoc]
  exact hp.word readable next

end

end Peeks

/-- A string that the process may read ends before it has gone through all of memory. -/
theorem Caller.Readable.short (readable : c.Readable vaddr count) : count < 2 ^ 32 := by
  by_contra long
  have hs := readable ((2 ^ 32 - vaddr % 2 ^ 32 + physBase) % 2 ^ 32) (by omega)
  have top : offset vaddr ((2 ^ 32 - vaddr % 2 ^ 32 + physBase) % 2 ^ 32) = physBase := by
    unfold offset physBase
    omega
  rw [top] at hs
  simp [Caller.sound] at hs

namespace Peeks

theorem string {q : CString → Sys α} (hp : Peeks c c') (hs : vaddr < 2 ^ 32)
    (holds : c.HoldsString vaddr)
    (next : ∀ text c'', c.HasString vaddr text → Peeks c c'' → Ends (q text) Q E c'') :
    Ends (userString vaddr >>= q) Q E c' := by
  obtain ⟨text, ⟨_, null⟩, readable⟩ := holds
  have short := readable.short
  have eq : c'.memory = c.memory ∧ ∀ a, c'.allows a = c.allows a := by
    obtain ⟨log, _, rfl⟩ := hp
    exact ⟨rfl, fun _ => rfl⟩
  -- the characters that were read have no null among them, so they are in front of it
  have was : ∀ k, (∀ i < k, c'.memory (offset vaddr i) ≠ 0) → k ≤ text.length := by
    intro k chars
    by_contra long
    apply chars text.length (by omega)
    rw [eq.1, null]
  rw [userString, ends_bind]
  apply (ends_loadString hs).mono
  · rintro found c'' ⟨⟨chars, ends⟩, rfl, _⟩
    have length : found.length ≤ text.length := by
      apply was
      intro i hi is
      rw [chars i hi, CString.char, List.getD_eq_getElem _ _ hi] at is
      exact found.nonzero (is ▸ List.getElem_mem hi)
    apply next
    · rw [eq.1] at chars ends
      exact ⟨chars, ends⟩
    · apply hp.touches
      exact fun i lt => readable i (by omega)
  · rintro _ _ ⟨_, k, _, away⟩
    have length := was k away.chars
    cases away.ends with
    | inl faults =>
      have h := faults.here
      rw [eq.2, c.sound_allows (readable k (by omega))] at h
      cases h
    | inr all => omega

end Peeks

namespace Safe

theorem allows (safe : Safe c c') {a : Access} (hs : c.sound a = true) : c'.allows a = true := by
  have allowed := c.sound_allows hs
  unfold Caller.allows at *
  rwa [safe.page]

end Safe

/-! ### The calls -/

/-- A part `p` of an arm, from a state of it: it is safe, it stops for a reason, and behind it all
tests have passed. -/
def Arm (c : Caller) (esp : Nat) (number : SyscallNr) (p : Sys α) (c' : Caller) : Prop :=
  Ends p (fun _ c'' => Safe c c'' ∧ c.Checked esp number)
    (fun stop c'' => Safe c c'' ∧ Stops c esp number stop c'') c'

namespace Arm

theorem bind {p : Sys α} {q : α → Sys β} (first : Arm c esp number p c')
    (next : ∀ a c'', Safe c c'' → Arm c esp number (q a) c'') : Arm c esp number (p >>= q) c' := by
  unfold Arm at *
  rw [ends_bind]
  exact first.mono (fun a c'' h => next a c'' h.1) fun _ _ => id

theorem check {q : Unit → Sys α} (hp : Peeks c c') (tested : c.Checked esp number → c.Window vaddr)
    (next : c.Window vaddr → Arm c esp number (q ()) c') :
    Arm c esp number (checkValidPtr vaddr >>= q) c' :=
  hp.check next fun narrow =>
    ⟨hp.safe.congr rfl rfl, .refused (fun hc => narrow (tested hc)) rfl⟩

theorem checkLast {q : Unit → Sys α} {buffer size : Nat} (hp : Peeks c c')
    (tested : c.Checked esp number → 0 < size → c.Window (offset buffer (size - 1)))
    (next : (0 < size → c.Window (offset buffer (size - 1))) → Arm c esp number (q ()) c') :
    Arm c esp number (checkLast buffer size >>= q) c' := by
  unfold Userprog.checkLast
  split
  · rename_i some
    exact check hp (fun hc => tested hc some) fun window => next fun _ => window
  · rename_i none
    exact next fun some => absurd some none

section
variable (hc : c.Checked esp number) (safe : Safe c c')
include hc safe

theorem return_ (n : Int) : Arm c esp number (return_ n) c' := ⟨safe.congr rfl rfl, hc⟩

theorem touchAll {store : Bool} (hs : ∀ i < count, c.sound ⟨offset vaddr i, store⟩ = true) :
    Arm c esp number (touchAll vaddr store count) c' := by
  apply ends_touchAll.mono
  · rintro _ _ ⟨rfl, _⟩
    refine ⟨⟨safe.page, fun a mem => ?_⟩, hc⟩
    rcases List.mem_append.mp mem with new | old
    · obtain ⟨i, lt, rfl⟩ := mem_touches.mp new
      exact .inr (hs i lt)
    · exact safe.accesses a old
  · rintro _ _ ⟨_, k, lt, faults⟩
    have h := faults.here
    rw [safe.allows (hs k lt)] at h
    cases h

theorem storeBytes {bytes : Bytes} (hw : c.Writable vaddr count) :
    Arm c esp number (storeBytes vaddr bytes count) c' := by
  apply Arm.bind (touchAll hc safe hw)
  exact fun _ _ after => ⟨after.congr rfl rfl, hc⟩

variable {p : Fs α} {P : α → FS → Prop} {ok : Prop}

/-- A call of the file system leaves memory alone, and fails no assertion but one that the
arguments fail. -/
theorem onFs (runs : Runs ok p P c'.fs) (fails : ¬ ok → ¬ c.Proper esp number) :
    Arm c esp number (onFs p) c' := by
  apply ends_onFs runs
  · exact fun _ _ _ => ⟨safe.congr rfl rfl, hc⟩
  · exact fun failed text => ⟨safe, .asserts hc (fails failed)⟩

theorem onFile {f : FilePtr} (runs : Runs ok p P c'.fs) (fails : ¬ ok → ¬ c.Proper esp number) :
    Arm c esp number (onFile f p) c' := by
  unfold Arm Userprog.onFile
  rw [ends_bind, ends_modify]
  have safe1 : Safe c { c' with used := f :: c'.used } := safe.congr rfl rfl
  exact Arm.onFs hc safe1 runs fails

end

/-- What is done with the file of a descriptor. -/
theorem withFile {fd : Int} {q : FilePtr → Sys Unit} {r : Sys Unit} (hp : Peeks c c')
    (ht : Tidy mapFile c) (held : ∀ f, f ∈ c'.opened → Arm c esp number (q f) c')
    (ne : Arm c esp number r c') :
    Arm c esp number (do
      match (← MonadState.get).file fd with
      | some f => q f
      | none => r) c' := by
  unfold Arm
  rw [ends_bind, ends_get]
  split
  · rename_i f is
    exact held f ((hp.tidy ht).file_opened is)
  · exact ne

end Arm

theorem toInt32_toNat (hs : n < 2 ^ 32) : (toInt32 n).toNat ≤ n := by
  unfold toInt32
  split_ifs <;> omega

theorem toInt32_nonneg (hs : n < 2 ^ 31) : 0 ≤ toInt32 n := by
  unfold toInt32
  rw [if_pos hs]
  omega

theorem Caller.arg_lt (i : Nat) : c.arg esp i < 2 ^ 32 := get32_lt _ _

/-- One, two or three arguments. -/
theorem forall_args {P : Nat → Prop} (most : n ≤ 3) (first : 1 ≤ n → P 1) (second : 2 ≤ n → P 2)
    (third : 3 ≤ n → P 3) : ∀ i, 0 < i → i ≤ n → P i := by
  grind

/-- One argument, which is not a pointer, is all that is checked. -/
theorem Caller.Checked.single (one : number.args = 1) (plain : number ∉ [.exec, .remove, .open_])
    (window : c.Window (offset esp 4)) : c.Checked esp number := by
  refine ⟨fun i pos hi => ?_, ?_, ?_, ?_⟩
  · obtain rfl : i = 1 := by omega
    exact window
  all_goals
    revert one plain
    cases number <;> simp [SyscallNr.args]

section
variable (esp)

theorem arm_readFile {f : FilePtr} {buffer size : Nat} (hc : c.Checked esp number)
    (safe : Safe c c') (ht : Tidy mapFile c')
    (mem : f ∈ c'.opened) (hs : size < 2 ^ 32) (hw : c.Writable buffer size) :
    Arm c esp number (readFile f buffer size) c' := by
  have runs : Runs True (fileRead f (c'.buffer buffer) (toInt32 size)) _ c'.fs :=
    (ht.served.reads mem _).runs
  unfold Arm
  simp only [readFile, onFile, ends_bind, ends_get, ends_modify, ends_pure]
  apply ends_onFs (c := { c' with used := f :: c'.used }) runs
  · rintro ⟨bytesRead, bytes⟩ fs' ⟨_, most⟩
    have safe1 : Safe c { c' with used := f :: c'.used, fs := fs' } := safe.congr rfl rfl
    apply Arm.storeBytes hc safe1
    intro i lt
    have := toInt32_toNat hs
    exact hw i (by dsimp only at most; omega)
  · exact fun never => absurd trivial never

theorem arm_writeFile {f : FilePtr} {buffer size : Nat} (hc : c.Checked esp number)
    (safe : Safe c c') (ht : Tidy mapFile c')
    (mem : f ∈ c'.opened) (hs : size < 2 ^ 32) (readable : c.Readable buffer size) :
    Arm c esp number (writeFile f buffer size) c' := by
  have runs : Runs True (fileWrite f (c'.buffer buffer) (toInt32 size)) _ c'.fs :=
    (ht.served.writes mem _).runs
  unfold Arm
  simp only [writeFile, onFile, ends_bind, ends_get, ends_modify, ends_pure]
  apply ends_onFs (c := { c' with used := f :: c'.used }) runs
  · rintro bytesWritten fs' ⟨_, most⟩
    have safe1 : Safe c { c' with used := f :: c'.used, fs := fs' } := safe.congr rfl rfl
    apply Arm.touchAll hc safe1
    intro i lt
    have := toInt32_toNat hs
    exact readable i (by omega)
  · exact fun never => absurd trivial never

/-- The arms that take a descriptor and nothing else. -/
theorem arm_descriptor {q : Int → Sys Unit} (one : number.args = 1)
    (plain : number ∉ [.exec, .remove, .open_])
    (next : ∀ fd c', c.Checked esp number → Peeks c c' → Arm c esp number (q fd) c') :
    Arm c esp number (do
      checkValidPtr (offset esp 4)
      let fd ← loadInt (offset esp 4)
      q fd) c := by
  apply Arm.check (.refl c) fun hc => hc.args 1 (by decide) one.ge
  intro window
  apply (Peeks.refl c).int window.readable
  exact fun c1 hp => next _ c1 (.single one plain window) hp

theorem arm_filesize (ht : Tidy mapFile c) : Arm c esp .filesize (sysFilesize esp) c := by
  apply arm_descriptor esp rfl (by decide)
  intro fd c1 hc hp
  apply Arm.withFile hp ht
  · intro f _
    have runs : Runs True (fileLength f) (fun _ _ => True) c1.fs := trivial
    apply (Arm.onFile hc hp.safe runs fun never => absurd trivial never).bind
    exact fun n _ safe => .return_ hc safe n
  · exact .return_ hc hp.safe _

theorem arm_tell (ht : Tidy mapFile c) : Arm c esp .tell (sysTell esp) c := by
  apply arm_descriptor esp rfl (by decide)
  intro fd c1 hc hp
  apply Arm.withFile hp ht
  · intro f _
    have runs : Runs True (fileTell f) (fun _ _ => True) c1.fs := trivial
    apply (Arm.onFile hc hp.safe runs fun never => absurd trivial never).bind
    exact fun n _ safe => .return_ hc safe n
  · exact .return_ hc hp.safe _

theorem arm_close (ht : Tidy mapFile c) : Arm c esp .close (sysClose esp) c := by
  apply arm_descriptor esp rfl (by decide)
  intro fd c1 hc hp
  unfold Arm
  rw [ends_bind, ends_get]
  split
  · exact ⟨hp.safe, hc⟩
  · rename_i f is
    have tidy1 := hp.tidy ht
    have runs : Runs True (fileClose (some f)) _ c1.fs :=
      (tidy1.served.closes (tidy1.file_opened is)).runs
    have closes : Arm c esp .close (closeFile f) c1 := by
      apply (Arm.onFile hc hp.safe runs fun never => absurd trivial never).bind
      exact fun _ _ safe => ⟨safe.congr rfl rfl, hc⟩
    exact closes.bind fun _ _ safe => ⟨safe.congr rfl rfl, hc⟩

theorem arm_wait (env : Env) : Arm c esp .wait (sysWait env esp) c := by
  apply arm_descriptor esp rfl (by decide)
  exact fun _ c1 hc hp => .return_ hc hp.safe _

theorem arm_exit : Arm c esp .exit (sysExit esp) c := by
  apply Arm.check (.refl c) fun hc => hc.args 1 (by decide) (by decide)
  intro window
  apply (Peeks.refl c).int window.readable
  exact fun c1 hp => ⟨hp.safe.congr rfl rfl, .exits (.single rfl (by decide) window) rfl rfl⟩

theorem arm_seek (ht : Tidy mapFile c) : Arm c esp .seek (sysSeek esp) c := by
  apply Arm.check (.refl c) fun hc => hc.args 1 (by decide) (by decide)
  intro first
  apply Arm.check (.refl c) fun hc => hc.args 2 (by decide) (by decide)
  intro second
  apply (Peeks.refl c).int first.readable
  intro c1 peeks1
  apply peeks1.word second.readable
  intro c2 hp
  have hc : c.Checked esp .seek :=
    ⟨forall_args (by decide) (fun _ => first) (fun _ => second)
      fun more => absurd more (by decide), nofun, nofun, nofun⟩
  apply Arm.withFile hp ht
  · intro f _
    apply Arm.onFile hc hp.safe ((hp.tidy ht).served.seeks _)
    exact fun negative proper => negative (toInt32_nonneg (proper.position rfl))
  · exact ⟨hp.safe, hc⟩

/-- The arms that take a string first. -/
theorem arm_string {q : CString → Sys Unit} (one : number.args = 1)
    (stringly : number ∈ [.exec, .create, .remove, .open_]) (trusted : c.Trusted esp number)
    (next : ∀ name c', c.Checked esp number → Peeks c c' → Arm c esp number (q name) c') :
    Arm c esp number (argString esp >>= q) c := by
  unfold argString
  simp only [bind_assoc]
  apply Arm.check (.refl c) fun hc => hc.args 1 (by decide) one.ge
  intro window
  apply (Peeks.refl c).word window.readable
  intro c1 hp
  apply Arm.check hp fun hc => hc.string stringly
  intro start
  have hc : c.Checked esp number := by
    refine ⟨fun i pos hi => ?_, fun _ => start, fun is => ?_, fun is => ?_⟩
    · obtain rfl : i = 1 := by omega
      exact window
    · grind
    · subst is
      cases one
  apply hp.string (get32_lt _ _) ((trusted.rest hc).string stringly)
  exact fun name c2 _ hp => next name c2 hc hp

theorem arm_open (ht : Tidy mapFile c) (trusted : c.Trusted esp .open_) :
    Arm c esp .open_ (sysOpen esp) c := by
  apply arm_string esp rfl (by decide) trusted
  intro name c1 hc hp
  have runs : Runs True (filesysOpen name) _ c1.fs := ((hp.tidy ht).served.opens name).runs
  have ho : Arm c esp .open_ (openFile name) c1 := by
    apply (Arm.onFs hc hp.safe runs fun never => absurd trivial never).bind
    exact fun _ _ safe => ⟨safe.congr rfl rfl, hc⟩
  apply ho.bind
  intro r c2 safe
  cases r with
  | none => exact .return_ hc safe _
  | some f =>
    unfold Arm
    rw [ends_bind, ends_get]
    split
    · exact ⟨safe.congr rfl rfl, hc⟩
    · exact Arm.return_ hc safe _

theorem arm_remove (ht : Tidy mapFile c) (trusted : c.Trusted esp .remove) :
    Arm c esp .remove (sysRemove esp) c := by
  apply arm_string esp rfl (by decide) trusted
  intro name c1 hc hp
  have runs : Runs True (filesysRemove name) _ c1.fs := ((hp.tidy ht).served.removes name).runs
  apply (Arm.onFs hc hp.safe runs fun never => absurd trivial never).bind
  exact fun _ _ safe => .return_ hc safe _

theorem arm_create (ht : Tidy mapFile c) (trusted : c.Trusted esp .create) :
    Arm c esp .create (sysCreate esp) c := by
  apply Arm.check (.refl c) fun hc => hc.args 1 (by decide) (by decide)
  intro first
  apply Arm.check (.refl c) fun hc => hc.args 2 (by decide) (by decide)
  intro second
  apply (Peeks.refl c).word first.readable
  intro c1 peeks1
  apply peeks1.word second.readable
  intro c2 peeks2
  apply Arm.check peeks2 fun hc => hc.string (by decide)
  intro start
  have hc : c.Checked esp .create :=
    ⟨forall_args (by decide) (fun _ => first) (fun _ => second)
      fun more => absurd more (by decide), fun _ => start, nofun, nofun⟩
  apply peeks2.string (get32_lt _ _) ((trusted.rest hc).string (by decide))
  intro name c3 _ hp
  have hs : c.arg esp 2 < 2 ^ 32 := c.arg_lt 2
  have runs := (hp.tidy ht).served.creates name (toInt32_lt hs)
  apply Arm.bind
  · apply Arm.onFs hc hp.safe runs
    exact fun negative proper => negative (toInt32_nonneg (proper.size rfl))
  · exact fun _ _ safe => .return_ hc safe _

theorem arm_read (env : Env) (ht : Tidy mapFile c) (trusted : c.Trusted esp .read) :
    Arm c esp .read (sysRead env esp) c := by
  apply Arm.check (.refl c) fun hc => hc.args 1 (by decide) (by decide)
  intro first
  apply Arm.check (.refl c) fun hc => hc.args 2 (by decide) (by decide)
  intro second
  apply Arm.check (.refl c) fun hc => hc.args 3 (by decide) (by decide)
  intro third
  apply (Peeks.refl c).int first.readable
  intro c1 peeks1
  apply peeks1.word second.readable
  intro c2 peeks2
  apply peeks2.word third.readable
  intro c3 hp
  apply Arm.check hp fun hc => hc.buffer (by decide)
  intro start
  apply Arm.checkLast hp fun hc => hc.last rfl
  intro last
  have hc : c.Checked esp .read :=
    ⟨forall_args (by decide) (fun _ => first) (fun _ => second) (fun _ => third), nofun, fun _ =>
      start,
      fun _ => last⟩
  have hw := (trusted.rest hc).fills rfl
  split
  · apply (Arm.storeBytes hc hp.safe hw).bind
    exact fun _ _ safe => .return_ hc safe _
  apply Arm.withFile hp ht
  · intro f mem
    apply (arm_readFile esp hc hp.safe (hp.tidy ht) mem (c.arg_lt 3) hw).bind
    exact fun _ _ safe => .return_ hc safe _
  · exact .return_ hc hp.safe _

/-- The first token of a command line, if there is one in the copy. -/
theorem firstToken_eq (text : CString) : ∃ token, firstToken text = pure token ∧
    (token = none → tokens (text.chars.take (pgSize - 1)) = []) := by
  have found : Wp (strtokR (some 0) [space] 0) _ (strlcpy (fun _ => 0) text pgSize) :=
    wp_strtokIn rfl (strlcpy_text (fun _ => 0) text)
  obtain ⟨⟨token, save⟩, page, ran, splits⟩ := found
  refine ⟨token, by rw [firstToken, ran], ?_⟩
  rintro rfl
  cases splits with
  | done none => exact tokens_eq.trans none

theorem arm_exec (env : Env) (trusted : c.Trusted esp .exec) :
    Arm c esp .exec (sysExec env esp) c := by
  apply Arm.check (.refl c) fun hc => hc.args 1 (by decide) (by decide)
  intro window
  apply (Peeks.refl c).word window.readable
  intro c1 peeks1
  apply Arm.check peeks1 fun hc => hc.string (by decide)
  intro start
  have hc : c.Checked esp .exec := by
    refine ⟨forall_args (by decide) (fun _ => window) (fun more => absurd more (by decide))
      fun more => absurd more (by decide), fun _ => start, nofun, nofun⟩
  apply Arm.bind
  · unfold processExecute
    split
    · exact ⟨peeks1.safe, hc⟩
    apply peeks1.string (get32_lt _ _) ((trusted.rest hc).string (by decide))
    intro text c2 has hp
    split
    · exact ⟨hp.safe, hc⟩
    obtain ⟨token, is, ha⟩ := firstToken_eq text
    rw [is]
    simp only [pure_bind]
    split
    · exact ⟨hp.safe, hc⟩
    split
    · exact ⟨hp.safe, hc⟩
    split
    · rename_i none
      refine ⟨hp.safe, .asserts hc fun proper => ?_⟩
      exact proper.command rfl text has (ha none)
    · exact ⟨hp.safe, hc⟩
  · exact fun n _ safe => .return_ hc safe n

theorem arm_write (ht : Tidy mapFile c) (trusted : c.Trusted esp .write) :
    Arm c esp .write (sysWrite esp) c := by
  have early := trusted.early rfl
  apply (Peeks.refl c).int (early 1 (by decide) (by decide))
  intro c1 peeks1
  apply peeks1.word (early 2 (by decide) (by decide))
  intro c2 peeks2
  apply peeks2.word (early 3 (by decide) (by decide))
  intro c3 hp
  apply Arm.check hp fun hc => hc.args 1 (by decide) (by decide)
  intro first
  apply Arm.check hp fun hc => hc.args 2 (by decide) (by decide)
  intro second
  apply Arm.check hp fun hc => hc.args 3 (by decide) (by decide)
  intro third
  apply Arm.check hp fun hc => hc.buffer (by decide)
  intro start
  have hc : c.Checked esp .write :=
    ⟨forall_args (by decide) (fun _ => first) (fun _ => second) (fun _ => third), nofun, fun _ =>
      start, nofun⟩
  have readable := (trusted.rest hc).drains rfl
  split
  · apply (Arm.touchAll hc hp.safe readable).bind
    exact fun _ _ safe => .return_ hc safe _
  apply Arm.withFile hp ht
  · intro f mem
    apply (arm_writeFile esp hc hp.safe (hp.tidy ht) mem (c.arg_lt 3) readable).bind
    exact fun _ _ safe => .return_ hc safe _
  · exact .return_ hc hp.safe _

theorem arm_code (env : Env) (ht : Tidy mapFile c) (trusted : c.Trusted esp number) :
    Arm c esp number (number.code env esp) c := by
  cases number with
  | halt =>
    have hc : c.Checked esp .halt := ⟨fun _ pos le => absurd le pos.not_ge, nofun, nofun, nofun⟩
    exact ⟨(Peeks.refl c).safe, .halts hc rfl⟩
  | exit => exact arm_exit esp
  | exec => exact arm_exec esp env trusted
  | wait => exact arm_wait esp env
  | create => exact arm_create esp ht trusted
  | remove => exact arm_remove esp ht trusted
  | open_ => exact arm_open esp ht trusted
  | filesize => exact arm_filesize esp ht
  | read => exact arm_read esp env ht trusted
  | write => exact arm_write esp ht trusted
  | seek => exact arm_seek esp ht
  | tell => exact arm_tell esp ht
  | close => exact arm_close esp ht

end

/-! ### The handler -/

/-- Why a system call stops. -/
inductive CallStops (c : Caller) (esp : Nat) : Stop → Caller → Prop where
  | frame {c' : Caller} : ¬ (c.Window esp ∧ c.Window (offset esp 3)) → c'.exitStatus = -1 →
      CallStops c esp .exit c'
  | unknown {c' : Caller} : c.called esp = none → CallStops c esp .exit c'
  | arm {c' : Caller} {stop : Stop} {number : SyscallNr} : c.Window esp → c.Window (offset esp 3) →
      c.called esp = some number → Stops c esp number stop c' → CallStops c esp stop c'

theorem Peeks.checked (hp : Peeks c c') : c'.Checked esp number ↔ c.Checked esp number := by
  obtain ⟨log, _, rfl⟩ := hp
  constructor
  · exact fun ⟨args, string, buffer, last⟩ => ⟨args, string, buffer, last⟩
  · exact fun ⟨args, string, buffer, last⟩ => ⟨args, string, buffer, last⟩

theorem Peeks.trusted (hp : Peeks c c') (trusted : c.Trusted esp number) :
    c'.Trusted esp number := by
  have hc : c'.Checked esp number ↔ c.Checked esp number := hp.checked
  obtain ⟨log, _, rfl⟩ := hp
  refine ⟨trusted.early, fun passed => ?_⟩
  obtain ⟨args, string, fills, drains⟩ := trusted.rest (hc.mp passed)
  exact ⟨args, string, fills, drains⟩

theorem Stops.of_peeks {stop : Stop} (hp : Peeks c c') (stops : Stops c' esp number stop c'') :
    Stops c esp number stop c'' := by
  have hc : c'.Checked esp number ↔ c.Checked esp number := hp.checked
  obtain ⟨log, _, rfl⟩ := hp
  cases stops with
  | refused narrow status => exact .refused (fun passed => narrow (hc.mpr passed)) status
  | exits passed is status => exact .exits (hc.mp passed) is status
  | halts passed is => exact .halts (hc.mp passed) is
  | asserts passed improper =>
    refine .asserts (hc.mp passed) fun proper => improper ?_
    exact ⟨proper.size, proper.position, proper.command⟩

theorem Safe.of_peeks (hp : Peeks c c') (safe : Safe c' c'') : Safe c c'' := by
  have was := hp.safe
  have eq : c'.sound = c.sound := by
    unfold Caller.sound
    rw [was.page]
  refine ⟨safe.page.trans was.page, fun a mem => ?_⟩
  rcases safe.accesses a mem with old | hs
  · exact was.accesses a old
  · exact .inr (eq ▸ hs)

theorem ends_syscallHandler (env : Env) (ht : Tidy mapFile c)
    (trusted : ∀ number, c.called esp = some number → c.Trusted esp number) :
    Ends (syscallHandler env esp)
      (fun _ c' => Safe c c' ∧ c.Window esp ∧ c.Window (offset esp 3) ∧
        ∃ number, c.called esp = some number ∧ c.Checked esp number)
      (fun stop c' => Safe c c' ∧ CallStops c esp stop c') c := by
  have refused : ∀ {c'}, Peeks c c' → ¬ (c.Window esp ∧ c.Window (offset esp 3)) →
      Safe c { c' with exitStatus := -1 } ∧ CallStops c esp .exit { c' with exitStatus := -1 } :=
    fun hp narrow => ⟨hp.safe.congr rfl rfl, .frame narrow rfl⟩
  apply (Peeks.refl c).check _ fun narrow => refused (.refl c) fun both => narrow both.1
  intro first
  apply (Peeks.refl c).check _ fun narrow => refused (.refl c) fun both => narrow both.2
  intro second
  apply (Peeks.refl c).int first.readable
  intro c1 hp
  split
  · rename_i number hc
    apply (arm_code esp env (hp.tidy ht) (hp.trusted (trusted number hc))).mono
    · exact fun _ _ ⟨safe, passed⟩ =>
        ⟨safe.of_peeks hp, first, second, number, hc, hp.checked.mp passed⟩
    · exact fun _ _ ⟨safe, stops⟩ => ⟨safe.of_peeks hp, .arm first second hc (stops.of_peeks hp)⟩
  · rename_i unknown
    exact ⟨hp.safe, .unknown unknown⟩

/-! ### An `open` that fails -/

theorem Caller.HasString.unique {text text' : CString} (has : c.HasString vaddr text)
    (has' : c.HasString vaddr text') : text = text' := by
  obtain ⟨chars, null⟩ := has
  obtain ⟨chars', null'⟩ := has'
  have shorter : ∀ {a b : CString}, (∀ i < a.length, c.memory (offset vaddr i) = a.char i) →
      c.memory (offset vaddr b.length) = 0 → a.length ≤ b.length := by
    intro a b chars null
    by_contra! longer
    exact a.char_ne_zero longer ((chars _ longer).symm.trans null)
  have length : text.length = text'.length :=
    Nat.le_antisymm (shorter chars null') (shorter chars' null)
  cases text with
  | mk list nonzero =>
    cases text' with
    | mk list' nonzero' =>
      congr 1
      refine List.ext_getElem length fun i lt lt' => ?_
      have same := (chars i lt).symm.trans (chars' i lt')
      unfold CString.char at same
      rwa [List.getD_eq_getElem _ _ lt, List.getD_eq_getElem _ _ lt'] at same

/-- How an `open` of this name ends. -/
structure OpenEnds (c : Caller) (name : CString) (c' : Caller) : Prop where
  traceless : c'.eax = ofInt32 (-1) → (c.nextFd < 128 ∨ ∀ slot, ¬ c.fs.Matches slot name) →
    Traceless c c'
  lost : 128 ≤ c.nextFd → Plenty c.fs → ∀ slot, c.fs.Matches slot name →
    c'.eax = ofInt32 (-1) ∧ ∃ f, c'.opened = f :: c.opened

theorem ends_sysOpen_named {name : CString} (ht : Tidy mapFile c) (word : c.Window (offset esp 4))
    (first : c.Window (c.arg esp 1)) (has : c.HasString (c.arg esp 1) name)
    (readable : c.Readable (c.arg esp 1) (name.length + 1)) :
    Ends (sysOpen esp) (fun _ => OpenEnds c name) (fun _ _ => False) c := by
  simp only [sysOpen, argString, bind_assoc]
  apply (Peeks.refl c).check _ fun narrow => narrow word
  intro _
  apply (Peeks.refl c).word word.readable
  intro c1 peeks1
  apply peeks1.check _ fun narrow => narrow first
  intro _
  apply peeks1.string (get32_lt _ _) ⟨name, has, readable⟩
  intro text c2 is peeks2
  obtain rfl := is.unique has
  have eq : c2.fs = c.fs ∧ c2.opened = c.opened ∧ c2.nextFd = c.nextFd := by
    obtain ⟨_, _, rfl⟩ := peeks2
    exact ⟨rfl, rfl, rfl⟩
  obtain ⟨fs, ho, fd⟩ := eq
  have runs : Runs True (filesysOpen text) _ c2.fs := (fs.symm ▸ ht.served.openFails text).runs
  simp only [openFile, ends_bind]
  apply ends_onFs runs _ fun never => absurd trivial never
  intro r fs' found
  rw [fs] at found
  simp only [ends_modify, ends_pure]
  cases r with
  | none =>
    exact ⟨fun _ _ => ⟨ho, found.1⟩, fun _ room slot listed => absurd listed (found.2 room slot)⟩
  | some f =>
    rw [ends_bind, ends_get]
    split
    · rename_i room
      have room : c2.nextFd < 128 := room
      refine ⟨fun failed => ?_, fun full => absurd (fd ▸ room) full.not_gt⟩
      -- a descriptor is no error code
      have : c2.nextFd = 2 ^ 32 - 1 := failed
      omega
    · rename_i full
      have full : ¬ c2.nextFd < 128 := full
      obtain ⟨slot, listed⟩ := found
      refine ⟨fun _ fine => ?_, fun _ _ _ _ => ⟨rfl, f, congrArg (f :: ·) ho⟩⟩
      rcases fine with room | missing
      · exact absurd (fd ▸ room) full
      · exact absurd listed (missing slot)

namespace Desk

/-- The process makes a system call, with this memory. -/
def call (k : Desk) (given : List Bool) (junk : Bytes) (page : Nat → Option Bool) (memory : Bytes) :
    Caller :=
  { k.enter given junk with page, memory, accesses := [] }

section
variable {size : UInt32} {disk : Nat → Bytes} {memory : List Bool} {junk : Bytes} {s0 s : Session}
  {before : List Filesys.Event} {execFile : Option FilePtr} {history : List DeskEvent} {k : Desk}

theorem call_tidy {mapFile : FilePtr} (hk : Kept mapFile k) (alive : k.exited = false)
    (given : List Bool)
    (noise : Bytes) (page : Nat → Option Bool) (content : Bytes) :
    Tidy mapFile (k.call given noise page content) :=
  (enter_tidy (hk.tidy alive) given noise page content).aside ⟨rfl⟩

/-- The bytes that `check_valid_ptr` tests are there. -/
def Vetted (c : Caller) (esp : Nat) (number : SyscallNr) : Prop :=
  c.Window esp ∧ c.Window (offset esp 3) ∧ c.Checked esp number

/-- A call whose bytes are there is carried out just if the bytes that `check_valid_ptr` tests are
there too; `exit (-1)` ends as if it were. -/
theorem valid_calls_accepted {page : Nat → Option Bool} {content noise : Bytes} {given : List Bool}
    (env : Env) (formatted : Session.format (Session.boot size disk memory junk) = some s0)
    (earlier : Run Session.step Free s0 before s) (own : ∀ e, execFile = some e → e ∈ s.opened)
    (run : Run step Free (start s execFile) history k) (alive : k.exited = false)
    (called : c = k.call given noise page content) (is : c.called esp = some number)
    (needs : c.Needs esp number) :
    Ends (syscallHandler env esp) (fun _ _ => True)
      (fun stop c' => number = .exit ∧ stop = .exit ∧ c'.exitStatus = toInt32 (c.arg esp 1) ∨
        number = .halt ∧ stop = .powerOff ∨ ∃ text, stop = .panic text ∧ ¬ c.Proper esp number) c ↔
      Vetted c esp number ∨ number = .exit ∧ toInt32 (c.arg esp 1) = -1 := by
  obtain ⟨m, hk⟩ := run_kept formatted earlier own run
  have ht : Tidy m c := called ▸ call_tidy hk alive given noise page content
  have trusted : ∀ n, c.called esp = some n → c.Trusted esp n := by
    intro n also
    obtain rfl : number = n := Option.some.inj (is.symm.trans also)
    refine ⟨fun write => ?_, fun _ => needs⟩
    subst write
    exact needs.args
  have ends := ends_syscallHandler env ht trusted
  cases outcome : Attempt.outcome (syscallHandler env esp) c with
  | mk result c' =>
    unfold Ends at ends ⊢
    rw [outcome] at ends ⊢
    cases result with
    | ok a =>
      obtain ⟨_, first, second, n, also, passed⟩ := ends
      obtain rfl := Option.some.inj (is.symm.trans also)
      exact ⟨fun _ => .inl ⟨first, second, passed⟩, fun _ => trivial⟩
    | error stop =>
      -- a refusal ends the process with -1, all other stops are behind the tests
      have refused : ¬ Vetted c esp number → c'.exitStatus = -1 →
        ((number = .exit ∧ Stop.exit = .exit ∧
          c'.exitStatus = toInt32 (c.arg esp 1) ∨ number = .halt ∧ Stop.exit = .powerOff ∨
          ∃ text, Stop.exit = .panic text ∧ ¬ c.Proper esp number) ↔
          Vetted c esp number ∨ number = .exit ∧ toInt32 (c.arg esp 1) = -1) := by
        intro narrow status
        simp [narrow, status, eq_comm]
      cases ends.2 with
      | frame narrow status => exact refused (fun h => narrow ⟨h.1, h.2.1⟩) status
      | unknown none =>
        rw [is] at none
        cases none
      | arm first second also stops =>
        obtain rfl := Option.some.inj (is.symm.trans also)
        cases stops with
        | refused narrow status => exact refused (fun h => narrow h.2.2) status
        | exits passed number status =>
          exact ⟨fun _ => .inl ⟨first, second, passed⟩, fun _ => .inl ⟨number, rfl, status⟩⟩
        | halts passed number =>
          exact ⟨fun _ => .inl ⟨first, second, passed⟩, fun _ => .inr (.inl ⟨number, rfl⟩)⟩
        | asserts passed improper =>
          exact ⟨fun _ => .inl ⟨first, second, passed⟩, fun _ => .inr (.inr ⟨_, rfl, improper⟩)⟩

/-- A process that has run out of descriptors loses the file it opens; every other `open` that
fails opens nothing. -/
theorem open_failure_traceless {page : Nat → Option Bool} {content : Bytes} {name : CString}
    (formatted : Session.format (Session.boot size disk memory junk) = some s0)
    (earlier : Run Session.step Free s0 before s) (own : ∀ e, execFile = some e → e ∈ s.opened)
    (run : Run step Free (start s execFile) history k) (alive : k.exited = false)
    (called : c = k.call [] (fun _ => 0) page content) (word : c.Window (offset esp 4))
    (first : c.Window (c.arg esp 1)) (has : c.HasString (c.arg esp 1) name)
    (readable : c.Readable (c.arg esp 1) (name.length + 1)) :
    (∀ given noise c', Attempt.outcome (sysOpen esp) (k.call given noise page content) =
      (.ok (), c') →
      c'.eax = ofInt32 (-1) → Traceless k.caller c') ↔
      k.caller.nextFd < 128 ∨ ∀ slot, ¬ k.caller.fs.Matches slot name := by
  subst called
  obtain ⟨m, hk⟩ := run_kept formatted earlier own run
  have ends : ∀ given noise, Ends (sysOpen esp)
      (fun _ => OpenEnds (k.call given noise page content) name) (fun _ _ => False)
      (k.call given noise page content) := fun given noise =>
    ends_sysOpen_named (call_tidy hk alive given noise page content) word first has readable
  constructor
  · intro traceless
    by_contra! lost
    obtain ⟨full, slot, listed⟩ := lost
    have ends := ends [] fun _ => 0
    unfold Ends at ends
    split at ends
    · rename_i c' ran
      obtain ⟨failed, f, grown⟩ := ends.lost full nofun slot listed
      have same := (traceless [] _ c' ran failed).opened
      rw [grown] at same
      exact absurd (congrArg List.length same) (by simp [call, enter])
    · exact ends
  · intro fine given noise c' ran failed
    obtain ⟨ho, ⟨openInodes, openCnt⟩⟩ := ((ends given noise).result ran).traceless failed fine
    exact ⟨ho, openInodes, openCnt⟩

end

/-- The facts about the bytes of a call `open (name)` that need evaluation. -/
def OpensText (c : Caller) (esp : Nat) (text : CString) : Prop :=
  c.called esp = some .open_ ∧ c.Readable (offset esp 4) 4 ∧
    (∀ i < text.length, c.memory (offset (c.arg esp 1) i) = text.char i) ∧
    c.memory (offset (c.arg esp 1) text.length) = 0 ∧ c.Readable (c.arg esp 1) (text.length + 1)

instance (c : Caller) (esp : Nat) (text : CString) : Decidable (OpensText c esp text) :=
  inferInstanceAs (Decidable (_ ∧ _ ∧ _ ∧ _ ∧ _))

theorem OpensText.needs {text : CString} (ho : OpensText c esp text) : c.Needs esp .open_ := by
  obtain ⟨_, args, chars, null, readable⟩ := ho
  refine ⟨fun i pos hi => ?_, fun _ => ⟨text, ⟨chars, null⟩, readable⟩, nofun, nofun⟩
  obtain rfl : i = 1 := Nat.le_antisymm hi pos
  exact args

def nameA : CString := ⟨[97], nonzero_a⟩

/-- The first call of the first process, in a new file system. -/
def firstCall (s : Session) (page : Nat → Option Bool) (content : Bytes) : Caller :=
  (start s none).call [] (fun _ => 0) page content

/-- What a test says of the first call. -/
def sees (page : Nat → Option Bool) (content : Bytes) (test : Caller → Bool) : Bool :=
  (Session.format Session.tenSectors).any fun s => test (firstCall s page content)

theorem of_sees {page : Nat → Option Bool} {content : Bytes} {test : Caller → Bool}
    (seen : sees page content test = true) : ∃ s0 c,
    Session.format Session.tenSectors = some s0 ∧
      c = firstCall s0 page content ∧ test c = true := by
  obtain ⟨s0, hf, seen⟩ := (Option.any_eq_true _ _).mp seen
  exact ⟨s0, _, hf, rfl, seen⟩

/-- The four bytes from each of these places pass the test. -/
def Windows (c : Caller) (places : List Nat) : Prop :=
  ∀ place ∈ places, ∀ i < 4, c.passes (offset place i) = true

instance (c : Caller) (places : List Nat) : Decidable (Windows c places) :=
  inferInstanceAs (Decidable (∀ place ∈ places, ∀ i < 4, c.passes (offset place i) = true))

theorem valid_calls_accepted_openA : ∃ s0 c,
    Session.format Session.tenSectors = some s0 ∧
      c = firstCall s0 stackPage (stacked 6 [physBase - 16]) ∧ OpensText c (physBase - 32) nameA ∧
      Ends (syscallHandler {} (physBase - 32)) (fun _ _ => True)
        (fun stop c' => SyscallNr.open_ = .exit ∧ stop = .exit ∧
            c'.exitStatus = toInt32 (c.arg (physBase - 32) 1) ∨
          SyscallNr.open_ = .halt ∧ stop = .powerOff ∨
            ∃ text, stop = .panic text ∧ ¬ c.Proper (physBase - 32) .open_) c := by
  have seen : sees stackPage (stacked 6 [physBase - 16]) (fun c =>
      decide (OpensText c (physBase - 32) nameA ∧
        Windows c [physBase - 32, offset (physBase - 32) 3, offset (physBase - 32) 4,
          c.arg (physBase - 32) 1])) = true := by decide +kernel
  obtain ⟨s0, c, hf, is, seen⟩ := of_sees seen
  obtain ⟨ho, windows⟩ := of_decide_eq_true seen
  refine ⟨s0, c, hf, is, ho, ?_⟩
  apply (valid_calls_accepted {} hf .start (fun _ is => ?_) .start rfl is ho.1 ho.needs).mpr
  · refine .inl ⟨windows _ (by simp), windows _ (by simp), fun i pos hi => ?_,
      fun _ => windows _ (by simp), nofun, nofun⟩
    obtain rfl : i = 1 := Nat.le_antisymm hi pos
    exact windows _ (by simp)
  · cases is

/-- `open ("a")` from a frame 16 bytes below the end of the stack, with the name in its last two
bytes. -/
def nameAtEnd : Bytes := fun a =>
  let i := a - (physBase - 16)
  if i < 8 then put32 ([6, physBase - 2].getD (i / 4) 0) (i % 4) else if i = 14 then 97 else 0

theorem boundary_name_refused : ∃ s0 c c',
    Session.format Session.tenSectors = some s0 ∧
      c = firstCall s0 stackPage nameAtEnd ∧ c.called (physBase - 16) = some .open_ ∧
      c.Readable (physBase - 16) 4 ∧ c.Needs (physBase - 16) .open_ ∧
      Attempt.outcome (syscallHandler {} (physBase - 16)) c = (.error .exit, c') ∧ c'.exitStatus =
        -1 := by
  have seen : sees stackPage nameAtEnd (fun c => decide (OpensText c (physBase - 16) nameA ∧
      c.Readable (physBase - 16) 4 ∧
      (Attempt.outcome (syscallHandler {} (physBase - 16)) c).1 = .error .exit ∧
      (Attempt.outcome (syscallHandler {} (physBase - 16)) c).2.exitStatus = -1)) = true := by
        decide +kernel
  obtain ⟨s0, c, hf, is, seen⟩ := of_sees seen
  obtain ⟨ho, readable, stopped, status⟩ := of_decide_eq_true seen
  exact ⟨s0, c, _, hf, is, ho.1, readable, ho.needs, Prod.ext stopped rfl, status⟩

def opensFirst (k : Desk) : Except Stop Unit × Caller :=
  Attempt.outcome (sysOpen (physBase - 32))
    (k.call [] (fun _ => 0) stackPage (stacked 6 [physBase - 16]))

theorem open_failure_traceless_missing : ∃ s0 c',
    Session.format Session.tenSectors = some s0 ∧
      (start s0 none).opensFirst = (.ok (), c') ∧ c'.eax = ofInt32 (-1) ∧
      Traceless (start s0 none).caller c' := by
  have seen : ((Session.format Session.tenSectors).map fun s0 =>
      ((start s0 none).opensFirst.1.toOption, (start s0 none).opensFirst.2.eax,
        decide (OpensText (firstCall s0 stackPage (stacked 6 [physBase - 16])) (physBase - 32)
          nameA ∧
          Windows (firstCall s0 stackPage (stacked 6 [physBase - 16])) [offset (physBase - 32) 4,
            (firstCall s0 stackPage (stacked 6 [physBase - 16])).arg (physBase - 32) 1]))) =
      some (some (), ofInt32 (-1), true) := by decide +kernel
  obtain ⟨s0, hf, seen⟩ := Option.map_eq_some_iff.mp seen
  simp only [Prod.mk.injEq, decide_eq_true_eq] at seen
  obtain ⟨returned, failed, ⟨_, _, chars, null, readable⟩, windows⟩ := seen
  have ran := returned_of_toOption returned
  have room : (start s0 none).caller.nextFd < 128 := show 2 < 128 by decide
  refine ⟨s0, _, hf, ran, failed, ?_⟩
  refine (open_failure_traceless hf .start (fun _ is => ?_) .start rfl rfl (windows _ (.head _))
    (windows _ (.tail _ (.head _))) ⟨chars, null⟩ readable).mpr (.inl room) [] _ _ ran failed
  cases is

/-- The descriptors are never used again, and the file that is left over stays open. -/
theorem open_failure_leaks : ∃ s0 s k c',
    Session.format Session.tenSectors = some s0 ∧
      Run Session.step Free s0 withFile.reverse s ∧
      Run step Free (start s none) (List.replicate 126 (makes 6 [physBase - 16])).reverse k ∧
      k.exited = false ∧ k.opensFirst = (.ok (), c') ∧ c'.eax = ofInt32 (-1) ∧
      c'.opened.length = k.caller.opened.length + 1 ∧ 4 ∈ k.caller.fs.openInodes ∧
      (k.caller.fs.inode 4).openCnt = 126 ∧ (c'.fs.inode 4).openCnt = 127 := by
  have seen : ((Session.format Session.tenSectors).bind fun s0 =>
      (runs Session.step Free s0 withFile).bind fun s =>
        (runs step Free (start s none) (List.replicate 126 (makes 6 [physBase - 16]))).map fun k =>
          (k.exited, k.opensFirst.1.toOption, k.opensFirst.2.eax,
            decide (k.opensFirst.2.opened.length = k.caller.opened.length + 1 ∧
              4 ∈ k.caller.fs.openInodes ∧ (k.caller.fs.inode 4).openCnt = 126 ∧
              (k.opensFirst.2.fs.inode 4).openCnt = 127))) =
      some (false, some (), ofInt32 (-1), true) := by decide +kernel
  obtain ⟨s0, hf, seen⟩ := Option.bind_eq_some_iff.mp seen
  obtain ⟨s, earlier, seen⟩ := Option.bind_eq_some_iff.mp seen
  obtain ⟨k, ran, seen⟩ := Option.map_eq_some_iff.mp seen
  simp only [Prod.mk.injEq, decide_eq_true_eq] at seen
  obtain ⟨alive, returned, failed, rest⟩ := seen
  exact ⟨s0, s, k, _, hf, runs_run earlier, runs_run ran, alive,
    returned_of_toOption returned, failed, rest⟩

end Desk

end Pintos.Userprog
