import Pintos.Filesys.Session
import Pintos.Userprog.UserMemory

/-!
# The descriptor table

Each system call keeps the table of descriptors in order, and so does the end of the process. A
call on a descriptor that is not open leaves all files alone.
-/

namespace Pintos.Userprog

open LittleEndian Prog Filesys Machine Attempt Function List

variable {c c' c'' : Caller} {α β : Type} {m : Sys α} {esp vaddr count : Nat} {env : Env}
  {Q : α → Caller → Prop} {E : Stop → Caller → Prop}

/-! ### What the memory of a process has to do with its files -/

/-- Only memory, the result and the status have changed. -/
structure Aside (c c' : Caller) : Prop where
  kept : c' = { c with memory := c'.memory, eax := c'.eax, exitStatus := c'.exitStatus
                       accesses := c'.accesses }

theorem Aside.refl (c : Caller) : Aside c c := ⟨rfl⟩

theorem Aside.trans (first : Aside c c') (second : Aside c' c'') : Aside c c'' := by
  obtain ⟨hk⟩ := first
  obtain ⟨kept'⟩ := second
  exact ⟨by rw [kept', hk]⟩

/-- Whether it returns or stops, the program only does this. -/
def Minds (m : Sys α) : Prop := ∀ c, Ends m (fun _ => Aside c) (fun _ => Aside c) c

theorem Minds.bind {f : α → Sys β} (first : Minds m) (next : ∀ a, Minds (f a)) :
    Minds (m >>= f) := by
  intro c
  rw [ends_bind]
  apply (first c).mono
  · intro a c1 aside
    apply (next a c1).mono
    · exact fun _ _ after => aside.trans after
    · exact fun _ _ after => aside.trans after
  · exact fun _ _ => id

theorem Minds.pure (a : α) : Minds (pure a : Sys α) := fun c => .refl c

theorem Minds.throw (stop : Stop) : Minds (throw stop : Sys α) := fun c => .refl c

theorem Minds.get {f : Caller → Sys α} (next : ∀ c, Minds (f c)) :
    Minds (MonadState.get >>= f) := by
  intro c
  rw [ends_bind, ends_get]
  exact next c c

theorem minds_checkValidPtr (vaddr : Nat) : Minds (checkValidPtr vaddr) := by
  intro c
  simp only [checkValidPtr, ends_bind, ends_get]
  split
  · exact .refl c
  · simp only [ends_bind, ends_set]
    exact ⟨rfl⟩

theorem minds_checkLast (buffer size : Nat) : Minds (checkLast buffer size) := by
  unfold checkLast
  split
  · exact minds_checkValidPtr _
  · exact .pure ()

theorem minds_touch (a : Access) : Minds (touch a) := by
  intro c
  simp only [touch, ends_bind, ends_modify, ends_get]
  split
  · exact ⟨rfl⟩
  · exact ⟨rfl⟩

theorem minds_touchAll (vaddr : Nat) (store : Bool) (count : Nat) :
    Minds (touchAll vaddr store count) := by
  induction count with
  | zero => exact .pure ()
  | succ count ih => exact .bind ih fun _ => minds_touch _

theorem minds_loadWord (vaddr : Nat) : Minds (loadWord vaddr) :=
  .bind (minds_touchAll vaddr false 4) fun _ => .get fun _ => .pure _

theorem minds_loadInt (vaddr : Nat) : Minds (loadInt vaddr) :=
  .bind (minds_loadWord vaddr) fun _ => .pure _

theorem minds_loadString (vaddr most : Nat) : Minds (loadString vaddr most) := by
  induction most generalizing vaddr with
  | zero => exact .throw _
  | succ most ih =>
    refine .bind (minds_touch _) fun _ => .get fun c => ?_
    dsimp only
    split
    · exact .pure _
    · exact .bind (ih _) fun _ => .pure _

theorem minds_storeBytes (vaddr : Nat) (bytes : Bytes) (count : Nat) :
    Minds (storeBytes vaddr bytes count) := by
  refine .bind (minds_touchAll vaddr true count) fun _ c => ?_
  rw [ends_modify]
  exact ⟨rfl⟩

theorem minds_return (n : Int) : Minds (return_ n) := fun _ => ⟨rfl⟩

theorem minds_processExecute (fileName : Nat) : Minds (processExecute env fileName) := by
  unfold processExecute
  split
  · exact .pure _
  refine .bind (minds_loadString fileName _) fun text => ?_
  split
  · exact .pure _
  refine .bind ?_ fun progName => ?_
  · unfold firstToken
    split
    · exact .pure _
    · exact .throw _
  split
  · exact .pure _
  split
  · exact .pure _
  split
  · exact .throw _
  · exact .pure _

/-! ### The table -/

/-- How often the file has been stored in the table. -/
def Caller.storings (c : Caller) (f : FilePtr) : Nat := (c.stored.map Prod.snd).count f

@[grind cases] structure Tidy (m : FilePtr) (c : Caller) : Prop where
  served : Served False c.fs m c.opened
  slots : ∀ i f, c.fdTable i = some f → (2 ≤ i ∧ i < c.nextFd) ∧ f ∈ c.opened
  bound : 2 ≤ c.nextFd ∧ c.nextFd ≤ 128
  distinct : ∀ i j f, c.fdTable i = some f → c.fdTable j = some f → i = j
  returned : ∀ entry ∈ c.stored, entry.1 < c.nextFd
  once : (c.stored.map Prod.fst).Nodup
  exec : ∀ e, c.execFile = some e → e ∈ c.opened ∧ (∀ i, c.fdTable i ≠ some e) ∧ c.storings e = 0
  open_ : ∀ i f, c.fdTable i = some f → c.storings f = c.closed.count f + 1
  shut : ∀ f, (∀ i, c.fdTable i ≠ some f) → c.storings f = c.closed.count f

/-- The program keeps the table tidy, whether it returns or stops. -/
def Tidies (m : FilePtr) (p : Sys α) : Prop :=
  ∀ c, Tidy m c → Ends p (fun _ => Tidy m) (fun _ => Tidy m) c

section
variable {mapFile f : FilePtr} {p : Sys α} {fs' : FS}

theorem Tidy.aside (ht : Tidy mapFile c) (aside : Aside c c') : Tidy mapFile c' := by
  obtain ⟨hk⟩ := aside
  rw [hk]
  exact ⟨ht.served, ht.slots, ht.bound, ht.distinct, ht.returned, ht.once, ht.exec,
    ht.open_, ht.shut⟩

theorem Tidy.withUsed (ht : Tidy mapFile c) (used : List FilePtr) : Tidy mapFile { c with used } :=
  ⟨ht.served, ht.slots, ht.bound, ht.distinct, ht.returned, ht.once, ht.exec, ht.open_,
    ht.shut⟩

theorem Tidy.withFs (ht : Tidy mapFile c) (hs : Served False fs' mapFile c.opened) :
    Tidy mapFile { c with fs := fs' } :=
  ⟨hs, ht.slots, ht.bound, ht.distinct, ht.returned, ht.once, ht.exec, ht.open_,
    ht.shut⟩

theorem Minds.tidies (minds : Minds p) : Tidies mapFile p := by
  intro c ht
  apply (minds c).mono
  · exact fun _ _ aside => ht.aside aside
  · exact fun _ _ aside => ht.aside aside

theorem Tidies.bind {q : α → Sys β} (first : Tidies mapFile p) (next : ∀ a, Tidies mapFile (q a)) :
    Tidies mapFile (p >>= q) := by
  intro c ht
  rw [ends_bind]
  apply (first c ht).mono
  · exact fun a c' => next a c'
  · exact fun _ _ => id

/-- A call of the file system, from what is known of its runs. -/
theorem ends_onFs {p : Fs α} {P : α → FS → Prop} {ok : Prop} (runs : Runs ok p P c.fs)
    (returns : ∀ a fs', P a fs' → Q a { c with fs := fs' })
    (stops : ¬ ok → ∀ text, E (.panic text) c) :
    Ends (onFs p) Q E c := by
  unfold onFs
  rw [ends_lift]
  unfold Runs at runs
  split at runs
  · rename_i a fs' ran
    rw [ran]
    exact returns a fs' runs
  · rename_i text ran
    rw [ran]
    exact stops runs text

/-- A call that opens and closes nothing. -/
theorem tidies_onFs {p : Fs α} (keeps : ∀ c, Tidy mapFile c →
    Runs False p (fun _ fs' => Served False fs' mapFile c.opened) c.fs) : Tidies mapFile
      (onFs p) := by
  intro c ht
  apply ends_onFs (keeps c ht)
  · exact fun _ fs' hs => ht.withFs hs
  · exact fun _ _ => ht

theorem Caller.file_some {fd : Int} (held : c.file fd = some f) :
    (2 ≤ fd ∧ fd < 128) ∧ c.fdTable fd.toNat = some f := by
  unfold Caller.file at held
  split_ifs at held with hi
  exact ⟨hi, held⟩

theorem Tidy.file_opened (ht : Tidy mapFile c) {fd : Int} (held : c.file fd = some f) :
    f ∈ c.opened :=
  (ht.slots _ f (c.file_some held).2).2

/-- A call on a file that neither opens nor closes. -/
theorem ends_onFile {p : Fs α} (ht : Tidy mapFile c)
    (runs : Runs False p (fun _ fs' => Served False fs' mapFile c.opened) c.fs) :
    Ends (onFile f p) (fun _ => Tidy mapFile) (fun _ => Tidy mapFile) c := by
  simp only [onFile, ends_bind, ends_modify]
  have tidy' := ht.withUsed (f :: c.used)
  apply ends_onFs (c := { c with used := f :: c.used }) runs
  · exact fun _ fs' hs => tidy'.withFs hs
  · exact fun _ _ => tidy'

/-! ### The calls keep the table tidy -/

theorem tidies_check (vaddr : Nat) : Tidies mapFile (checkValidPtr vaddr) :=
  (minds_checkValidPtr vaddr).tidies

theorem tidies_word (vaddr : Nat) : Tidies mapFile (loadWord vaddr) := (minds_loadWord vaddr).tidies

theorem tidies_int (vaddr : Nat) : Tidies mapFile (loadInt vaddr) := (minds_loadInt vaddr).tidies

theorem tidies_return (n : Int) : Tidies mapFile (return_ n) := (minds_return n).tidies

theorem tidies_string (vaddr : Nat) : Tidies mapFile (userString vaddr) :=
  (minds_loadString vaddr _).tidies

theorem minds_argString (esp : Nat) : Minds (argString esp) :=
  .bind (minds_checkValidPtr _) fun _ => .bind (minds_loadWord _) fun _ =>
    .bind (minds_checkValidPtr _) fun _ => minds_loadString _ _

/-- What is then done with the file of a descriptor, if it has one. -/
theorem tidies_withFile {fd : Int} {q : FilePtr → Sys α} {r : Sys α}
    (held : ∀ f c, Tidy mapFile c → f ∈ c.opened →
      Ends (q f) (fun _ => Tidy mapFile) (fun _ => Tidy mapFile) c) (ne : Tidies mapFile r) :
    Tidies mapFile (do
      match (← MonadState.get).file fd with
      | some f => q f
      | none => r) := by
  intro c ht
  rw [ends_bind, ends_get]
  split
  · rename_i f is
    exact held f c ht (ht.file_opened is)
  · exact ne c ht

theorem Ends.tidies {p : Sys α} {q : α → Sys β}
    (first : Ends p (fun _ => Tidy mapFile) (fun _ => Tidy mapFile) c)
    (next : ∀ a, Tidies mapFile (q a)) :
    Ends (p >>= q) (fun _ => Tidy mapFile) (fun _ => Tidy mapFile) c := by
  rw [ends_bind]
  exact first.mono (fun a c' => next a c') fun _ _ => id

theorem tidies_sysFilesize (esp : Nat) : Tidies mapFile (sysFilesize esp) := by
  refine .bind (tidies_check _) fun _ => .bind (tidies_int _) fun fd => ?_
  refine tidies_withFile (fun f c ht _ => ?_) (tidies_return _)
  exact Ends.tidies (ends_onFile ht ht.served) tidies_return

theorem tidies_sysTell (esp : Nat) : Tidies mapFile (sysTell esp) := by
  refine .bind (tidies_check _) fun _ => .bind (tidies_int _) fun fd => ?_
  refine tidies_withFile (fun f c ht _ => ?_) (tidies_return _)
  exact Ends.tidies (ends_onFile ht ht.served) fun _ => tidies_return _

theorem tidies_sysSeek (esp : Nat) : Tidies mapFile (sysSeek esp) := by
  refine .bind (tidies_check _) fun _ => .bind (tidies_check _) fun _ => .bind (tidies_int _)
    fun fd =>
    .bind (tidies_word _) fun position => ?_
  refine tidies_withFile (fun f c ht _ => ?_) (Minds.pure ()).tidies
  exact ends_onFile ht ((ht.served.seeks _).weaken False.elim)

theorem tidies_sysRead (env : Env) (esp : Nat) : Tidies mapFile (sysRead env esp) := by
  refine .bind (tidies_check _) fun _ => .bind (tidies_check _) fun _ => .bind (tidies_check _)
    fun _ =>
    .bind (tidies_int _) fun fd => .bind (tidies_word _) fun buffer => .bind (tidies_word _)
      fun size =>
    .bind (tidies_check _) fun _ => .bind (minds_checkLast _ _).tidies fun _ => ?_
  split
  · exact .bind (minds_storeBytes _ _ _).tidies fun _ => tidies_return _
  refine tidies_withFile (fun f c ht mem => ?_) (tidies_return _)
  refine Ends.tidies ?_ fun _ => tidies_return _
  simp only [readFile, ends_bind, ends_get, ends_pure]
  apply (ends_onFile ht ((ht.served.reads mem _).mono fun _ _ h => h.1).runs).mono
  · exact fun _ c' tidy' => (minds_storeBytes _ _ _).tidies c' tidy'
  · exact fun _ _ => id

theorem tidies_sysWrite (esp : Nat) : Tidies mapFile (sysWrite esp) := by
  refine .bind (tidies_int _) fun fd => .bind (tidies_word _) fun buffer =>
    .bind (tidies_word _) fun size => .bind (tidies_check _) fun _ => .bind (tidies_check _)
      fun _ =>
    .bind (tidies_check _) fun _ => .bind (tidies_check _) fun _ => ?_
  split
  · exact .bind (minds_touchAll _ _ _).tidies fun _ => tidies_return _
  refine tidies_withFile (fun f c ht mem => ?_) (tidies_return _)
  refine Ends.tidies ?_ fun _ => tidies_return _
  simp only [writeFile, ends_bind, ends_get, ends_pure]
  apply (ends_onFile ht ((ht.served.writes mem _).mono fun _ _ h => h.1).runs).mono
  · exact fun _ c' tidy' => (minds_touchAll _ _ _).tidies c' tidy'
  · exact fun _ _ => id

theorem toInt32_lt {n : Nat} (hs : n < 2 ^ 32) : toInt32 n < 2 ^ 31 := by
  unfold toInt32
  split_ifs <;> omega

theorem tidies_sysCreate (esp : Nat) : Tidies mapFile (sysCreate esp) := by
  refine .bind (tidies_check _) fun _ => .bind (tidies_check _) fun _ => .bind (tidies_word _)
    fun place c ht => ?_
  rw [ends_bind]
  apply ends_loadWord.mono
  · rintro size _ ⟨rfl, rfl, _⟩
    have tidy' : Tidy mapFile (c.after (touches (offset esp 8) false 4)) := ht.aside ⟨rfl⟩
    refine Tidies.bind (tidies_check _) (fun _ => .bind (tidies_string _) fun name =>
      .bind (tidies_onFs fun c ht => ?_) fun _ => tidies_return _) _ tidy'
    exact (ht.served.creates name (toInt32_lt (get32_lt _ _))).weaken False.elim
  · rintro _ _ ⟨_, k, _, faults⟩
    rw [faults.touched]
    exact ht.aside ⟨rfl⟩

theorem tidies_sysRemove (esp : Nat) : Tidies mapFile (sysRemove esp) := by
  refine .bind (minds_argString esp).tidies fun name => .bind (tidies_onFs fun c ht => ?_) fun _ =>
    tidies_return _
  exact (ht.served.removes name).runs

theorem tidies_sysExec (env : Env) (esp : Nat) : Tidies mapFile (sysExec env esp) :=
  .bind (tidies_check _) fun _ => .bind (tidies_word _) fun _ => .bind (tidies_check _) fun _ =>
    .bind (minds_processExecute _).tidies tidies_return

theorem tidies_sysWait (env : Env) (esp : Nat) : Tidies mapFile (sysWait env esp) :=
  .bind (tidies_check _) fun _ => .bind (tidies_int _) fun _ => tidies_return _

theorem tidies_sysExit (esp : Nat) : Tidies mapFile (sysExit esp) := by
  refine .bind (tidies_check _) fun _ => .bind (tidies_int _) fun status => .bind (fun c ht => ?_)
    fun _ =>
    (Minds.throw _).tidies
  rw [ends_modify]
  exact ht.aside ⟨rfl⟩

/-- A file has been opened, and is nowhere in the table. -/
theorem ends_openFile (ht : Tidy mapFile c) (name : CString) :
    Ends (openFile name)
      (fun r c' => Tidy mapFile c' ∧ (c'.nextFd = c.nextFd ∧ c'.stored = c.stored) ∧
      ∀ f, r = some f → f ∈ c'.opened ∧ (∀ i, c'.fdTable i ≠ some f) ∧ c'.execFile ≠ some f)
      (fun _ => Tidy mapFile) c := by
  have runs : Runs False (filesysOpen name) _ c.fs := (ht.served.opens name).runs
  simp only [openFile, ends_bind]
  apply ends_onFs runs
  · rintro r fs' ⟨hs, hf⟩
    simp only [ends_modify, ends_pure]
    have more : ∀ f ∈ c.opened, f ∈ r.toList ++ c.opened := fun f => mem_append_right _
    refine ⟨⟨hs, fun i f held => ⟨(ht.slots i f held).1, more f (ht.slots i f held).2⟩, ht.bound,
      ht.distinct, ht.returned, ht.once, fun e is => ⟨more e (ht.exec e is).1, (ht.exec e is).2⟩,
      ht.open_, ht.shut⟩, ⟨trivial, trivial⟩, fun f is => ⟨?_, fun i held => ?_, fun runs => ?_⟩⟩
    · rw [is]
      exact (.head _)
    · exact hf f is (ht.slots i f held).2
    · exact hf f is (ht.exec f runs).1
  · exact fun _ _ => ht

theorem storings_cons (entry : Nat × FilePtr) (c : Caller) (g : FilePtr) :
    ((entry :: c.stored).map Prod.snd).count g = c.storings g + if entry.2 = g then 1 else 0 := by
  simp [Caller.storings, count_cons]

/-- The file is stored in the next slot. -/
theorem Tidy.store (ht : Tidy mapFile c) (room : c.nextFd < 128) (ho : f ∈ c.opened)
    (free : ∀ i, c.fdTable i ≠ some f) (other : c.execFile ≠ some f) :
    Tidy mapFile { c with
      fdTable := update c.fdTable c.nextFd (some f), stored := (c.nextFd, f) :: c.stored
      eax := c.nextFd, nextFd := c.nextFd + 1 } := by
  have bound := ht.bound
  have slot : ∀ i g, update c.fdTable c.nextFd (some f) i = some g →
      i = c.nextFd ∧ g = f ∨ c.fdTable i = some g := by
    intro i g held
    rw [update_apply] at held
    split_ifs at held with here
    · exact .inl ⟨here, (Option.some.inj held).symm⟩
    · exact .inr held
  have old : ∀ {i g}, c.fdTable i = some g → f ≠ g ∧ update c.fdTable c.nextFd (some f) i =
    some g := by
    grind
  constructor
  case served => exact ht.served
  case slots => grind
  case bound => exact ⟨Nat.le_succ_of_le bound.1, room⟩
  case distinct => grind
  case returned => grind
  case once => grind
  case exec =>
    intro e runs
    obtain ⟨mem, absent, none⟩ := ht.exec e runs
    have ne : f ≠ e := fun is => other (is ▸ runs)
    refine ⟨mem, fun i held => ?_, ?_⟩
    · grind
    · rw [Caller.storings, storings_cons, none, if_neg ne]
  case open_ =>
    intro i g held
    rw [Caller.storings, storings_cons]
    rcases slot i g held with ⟨_, rfl⟩ | was
    · rw [if_pos rfl, ht.shut g free]
    · rw [if_neg (old was).1, ht.open_ i g was]
  case shut =>
    intro g absent
    have ne : f ≠ g := by
      rintro rfl
      exact absent c.nextFd (update_self ..)
    rw [Caller.storings, storings_cons, if_neg ne]
    exact ht.shut g fun i held => absent i (old held).2

/-- `open` fails, or it returns a descriptor that it has not returned before. -/
def Opened (stored : List (Nat × FilePtr)) (c' : Caller) : Prop :=
  c'.eax = ofInt32 (-1) ∧ c'.stored = stored ∨
    ∃ f, c'.stored = (c'.eax, f) :: stored ∧ c'.eax ∉ stored.map Prod.fst

theorem ends_sysOpen (esp : Nat) (ht : Tidy mapFile c) :
    Ends (sysOpen esp) (fun _ c' => Tidy mapFile c' ∧ Opened c.stored c') (fun _ => Tidy mapFile)
      c := by
  rw [sysOpen, ends_bind]
  apply (minds_argString esp c).mono
  · rintro name c1 aside
    have eq : c1.stored = c.stored := by rw [aside.kept]
    rw [ends_bind]
    apply (ends_openFile (ht.aside aside) name).mono
    · rintro r c2 ⟨tidy2, ⟨_, stored⟩, hf⟩
      rw [← eq, ← stored]
      cases r with
      | none => exact ⟨tidies_return _ c2 tidy2, .inl ⟨rfl, rfl⟩⟩
      | some f =>
        obtain ⟨mem, free, ne⟩ := hf f rfl
        simp only [ends_bind, ends_get]
        split
        · rename_i room
          rw [ends_set]
          refine ⟨tidy2.store room mem free ne, .inr ⟨f, rfl, fun again => ?_⟩⟩
          obtain ⟨entry, hi, is⟩ := mem_map.mp again
          have := tidy2.returned entry hi
          dsimp only at is
          omega
        · exact ⟨tidies_return _ c2 tidy2, .inl ⟨rfl, rfl⟩⟩
    · exact fun _ _ => id
  · exact fun _ _ aside => ht.aside aside

/-- No file is open that was not, and no inode either. -/
structure Traceless (c c' : Caller) : Prop where
  opened : c'.opened = c.opened
  inodes : SameInodes c.fs c'.fs

theorem tidies_sysOpen (esp : Nat) : Tidies mapFile (sysOpen esp) := by
  intro c ht
  exact (ends_sysOpen esp ht).mono (fun _ _ after => after.1) fun _ _ => id

/-- The file in a slot is closed and the slot is cleared. -/
theorem Tidy.clear {i : Nat} {used : List FilePtr} (ht : Tidy mapFile c)
    (held : c.fdTable i = some f)
    (served : Served False fs' mapFile (c.opened.erase f)) :
    Tidy mapFile { c with
      fs := fs', used, opened := c.opened.erase f, closed := f :: c.closed
      fdTable := update c.fdTable i none } := by
  have slot : ∀ j g, update c.fdTable i none j = some g → c.fdTable j = some g ∧ g ≠ f := by
    grind
  have old : ∀ {j g}, c.fdTable j = some g → f ≠ g → update c.fdTable i none j = some g := by
    grind
  constructor
  case served => exact served
  case slots => grind
  case bound => exact ht.bound
  case distinct =>
    exact fun j k g first second =>
      ht.distinct j k g (slot j g first).1 (slot k g second).1
  case returned => exact ht.returned
  case once => exact ht.once
  case exec =>
    intro e runs
    obtain ⟨mem, ha, none⟩ := ht.exec e runs
    have ne : e ≠ f := fun is => ha i (is ▸ held)
    exact ⟨(mem_erase_of_ne ne).mpr mem, fun j there => ha j (slot j e there).1, none⟩
  case open_ =>
    intro j g there
    obtain ⟨was, ne⟩ := slot j g there
    rw [count_cons_of_ne ne.symm]
    exact ht.open_ j g was
  case shut =>
    intro g ha
    by_cases is : f = g
    · subst is
      rw [count_cons_self]
      exact ht.open_ i f held
    · rw [count_cons_of_ne is]
      exact ht.shut g fun j there => ha j (old there is)

theorem ends_closeHeld {i : Nat} (tidy : Tidy mapFile c) (held : c.fdTable i = some f) :
    Ends (do
      closeFile f
      modify fun c => { c with fdTable := update c.fdTable i none })
      (fun _ c' => Tidy mapFile c' ∧ c'.fdTable = update c.fdTable i none ∧
        c'.execFile = c.execFile ∧ c'.stored = c.stored ∧ c'.nextFd = c.nextFd)
      (fun _ => Tidy mapFile) c := by
  obtain ⟨_, mem⟩ := tidy.slots i f held
  have runs : Runs False (fileClose (some f)) _ c.fs := (tidy.served.closes mem).runs
  simp only [closeFile, onFile, ends_bind, ends_modify]
  apply ends_onFs (c := { c with used := f :: c.used }) runs
  · exact fun _ fs' served => ⟨tidy.clear held served, rfl, rfl, rfl, rfl⟩
  · exact fun _ _ => tidy.withUsed (f :: c.used)

theorem tidies_sysClose (esp : Nat) : Tidies mapFile (sysClose esp) := by
  refine .bind (tidies_check _) fun _ => .bind (tidies_int _) fun fd c ht => ?_
  rw [ends_bind, ends_get]
  split
  · exact ht
  · rename_i f is
    exact (ends_closeHeld ht (c.file_some is).2).mono (fun _ _ after => after.1) fun _ _ => id

/-- An open descriptor is closed: the file in its slot goes to `file_close`, the slot is empty. -/
theorem ends_sysClose (esp : Nat) (ht : Tidy mapFile c)
    (held : c.file (toInt32 (c.word (offset esp 4))) = some f) :
    Ends (sysClose esp)
      (fun _ c' => c'.fdTable = update c.fdTable (toInt32 (c.word (offset esp 4))).toNat none ∧
        c'.used = f :: c.used ∧ c'.closed = f :: c.closed)
      (fun stop _ => stop = .exit ∨ stop = .fault) c := by
  have runs : Runs True (fileClose (some f)) _ c.fs := (ht.served.closes (ht.file_opened held)).runs
  rw [sysClose, ends_bind]
  apply ends_checkValidPtr.mono _ fun _ _ refused => .inl refused.1
  rintro _ _ ⟨same, _⟩
  rw [same, ends_bind]
  apply ends_loadInt.mono _ fun _ _ faults => .inr faults.1
  rintro _ _ ⟨rfl, rfl, _⟩
  have there : (c.after (touches (offset esp 4) false 4)).file _ = some f := held
  rw [ends_bind, ends_get, there]
  simp only [closeFile, onFile, ends_bind, ends_modify]
  apply ends_onFs (c := { c.after _ with used := f :: c.used }) runs
  · exact fun _ _ _ => ⟨rfl, rfl, rfl⟩
  · exact fun never => absurd trivial never

theorem tidies_code (env : Env) (esp : Nat) (number : SyscallNr) :
    Tidies mapFile (number.code env esp) := by
  cases number with
  | halt => exact (Minds.throw _).tidies
  | exit => exact tidies_sysExit esp
  | exec => exact tidies_sysExec env esp
  | wait => exact tidies_sysWait env esp
  | create => exact tidies_sysCreate esp
  | remove => exact tidies_sysRemove esp
  | open_ => exact tidies_sysOpen esp
  | filesize => exact tidies_sysFilesize esp
  | read => exact tidies_sysRead env esp
  | write => exact tidies_sysWrite esp
  | seek => exact tidies_sysSeek esp
  | tell => exact tidies_sysTell esp
  | close => exact tidies_sysClose esp

theorem tidies_handler (env : Env) (esp : Nat) : Tidies mapFile (syscallHandler env esp) := by
  refine .bind (tidies_check _) fun _ => .bind (tidies_check _) fun _ => .bind (tidies_int _)
    fun n => ?_
  split
  · exact tidies_code env esp _
  · exact (Minds.throw _).tidies

/-! ### The exit of the process -/

/-- These slots are empty, and nothing else about the table has changed. -/
@[grind cases] structure Swept (c c' : Caller) (slots : List Nat) : Prop where
  table : ∀ i, c'.fdTable i = if i ∈ slots then none else c.fdTable i
  exec : c'.execFile = c.execFile
  stored : c'.stored = c.stored
  nextFd : c'.nextFd = c.nextFd

theorem ends_closeSlot (ht : Tidy mapFile c) (i : Nat) :
    Ends (closeSlot i) (fun _ c' => Tidy mapFile c' ∧ Swept c c' [i]) (fun _ => Tidy mapFile)
      c := by
  rw [closeSlot, ends_bind, ends_get]
  split
  · rename_i free
    refine ⟨ht, fun j => ?_, rfl, rfl, rfl⟩
    split_ifs with h
    · rw [mem_singleton.mp h, free]
    · rfl
  · rename_i f held
    apply (ends_closeHeld ht held).mono
    · rintro _ c' ⟨tidy', table, exec, stored, nextFd⟩
      refine ⟨tidy', fun j => ?_, exec, stored, nextFd⟩
      rw [table, update_apply]
      simp only [mem_singleton]
    · exact fun _ _ => id

theorem ends_closeSlots (slots : List Nat) (ht : Tidy mapFile c) :
    Ends (closeSlots slots) (fun _ c' => Tidy mapFile c' ∧ Swept c c' slots) (fun _ => Tidy mapFile)
      c := by
  induction slots generalizing c with
  | nil => exact ⟨ht, fun i => by simp, rfl, rfl, rfl⟩
  | cons i slots ih =>
    rw [closeSlots, ends_bind]
    apply (ends_closeSlot ht i).mono
    · rintro _ c1 ⟨tidy1, swept1⟩
      apply (ih tidy1).mono
      · rintro _ c2 ⟨tidy2, swept2⟩
        refine ⟨tidy2, fun j => ?_, swept2.exec.trans swept1.exec,
          swept2.stored.trans swept1.stored,
          swept2.nextFd.trans swept1.nextFd⟩
        rw [swept2.table, swept1.table]
        by_cases later : j ∈ slots
        · simp [later]
        · simp [later]
      · exact fun _ _ => id
    · exact fun _ _ => id

/-- What is true of a process that has exited. -/
structure Released (c : Caller) : Prop where
  empty : ∀ i, c.fdTable i = none
  closed : ∀ f ∈ c.stored.map Prod.snd, c.closed.count f = c.storings f

theorem ends_processExit (ht : Tidy mapFile c) :
    Ends processExit (fun _ c' => Released c' ∧ Served False c'.fs mapFile c'.opened ∧
      c'.stored = c.stored ∧ c'.nextFd = c.nextFd) (fun _ _ => True) c := by
  rw [processExit, ends_bind]
  apply (ends_closeSlots _ ht).mono
  · rintro _ c1 ⟨tidy1, swept⟩
    have empty : ∀ i, c1.fdTable i = none := by
      intro i
      rw [swept.table]
      split_ifs with hi
      · rfl
      cases held : c.fdTable i with
      | none => rfl
      | some f => grind
    have shut : ∀ f, c1.storings f = c1.closed.count f :=
      fun f => tidy1.shut f fun i => by simp [empty i]
    rw [ends_bind, ends_get]
    split
    · exact ⟨⟨empty, fun f _ => (shut f).symm⟩, tidy1.served, swept.stored, swept.nextFd⟩
    · rename_i e runs
      obtain ⟨mem, _, none⟩ := tidy1.exec e runs
      have hc : Runs False (fileClose (some e)) _ c1.fs := (tidy1.served.closes mem).runs
      simp only [closeFile, onFile, ends_bind, ends_modify]
      apply ends_onFs (c := { c1 with used := e :: c1.used }) hc
      · refine fun _ fs' hs => ⟨⟨empty, fun f stored => ?_⟩, hs, swept.stored, swept.nextFd⟩
        have ne : e ≠ f := by
          rintro rfl
          exact count_eq_zero.mp none stored
        rw [count_cons_of_ne ne]
        exact (shut f).symm
      · exact fun _ _ => trivial
  · exact fun _ _ _ => trivial

end

/-! ### Descriptors that are not open -/

/-- No file is passed to a function of `file.c`. -/
def Spares (p : Sys α) (c : Caller) : Prop :=
  Ends p (fun _ c' => c'.used = c.used) (fun _ c' => c'.used = c.used) c

section
variable {p : Sys α}

theorem Minds.spares (minds : Minds p) (c : Caller) : Spares p c := by
  apply (minds c).mono
  · rintro _ c' ⟨hk⟩
    rw [hk]
  · rintro _ c' ⟨hk⟩
    rw [hk]

theorem spares_check {q : Unit → Sys α} (next : Spares (q ()) c) :
    Spares (checkValidPtr vaddr >>= q) c := by
  unfold Spares
  rw [ends_bind]
  apply ends_checkValidPtr.mono
  · rintro _ _ ⟨rfl, _⟩
    exact next
  · rintro _ _ ⟨_, rfl, _⟩
    rfl

theorem spares_word {q : Nat → Sys α}
    (next : Spares (q (c.word vaddr)) (c.after (touches vaddr false 4))) :
    Spares (loadWord vaddr >>= q) c := by
  unfold Spares
  rw [ends_bind]
  apply ends_loadWord.mono
  · rintro _ _ ⟨rfl, rfl, _⟩
    exact next
  · rintro _ _ ⟨_, _, _, faults⟩
    rw [faults.touched]
    rfl

theorem spares_int {q : Int → Sys α}
    (next : Spares (q (toInt32 (c.word vaddr))) (c.after (touches vaddr false 4))) :
    Spares (loadInt vaddr >>= q) c := by
  unfold Spares
  rw [ends_bind]
  apply ends_loadInt.mono
  · rintro _ _ ⟨rfl, rfl, _⟩
    exact next
  · rintro _ _ ⟨_, _, _, faults⟩
    rw [faults.touched]
    rfl

theorem spares_file {fd : Int} {q : FilePtr → Sys α} {r : Sys α} (free : c.file fd = none)
    (ne : Spares r c) :
    Spares (do
      match (← MonadState.get).file fd with
      | some f => q f
      | none => r) c := by
  unfold Spares
  rw [ends_bind, ends_get, free]
  exact ne

end

/-- The numbers of the calls that take a descriptor. -/
def SyscallNr.takesFd : SyscallNr → Bool
  | .filesize | .read | .write | .seek | .tell | .close => true
  | _ => false

theorem spares_checkLast {q : Unit → Sys α} {buffer size : Nat} (next : Spares (q ()) c) :
    Spares (checkLast buffer size >>= q) c := by
  unfold checkLast
  split
  · exact spares_check next
  · exact next

theorem code_spares (env : Env) (esp : Nat) {number : SyscallNr} (takes : number.takesFd = true)
    (free : c.file (toInt32 (c.word (offset esp 4))) = none) : Spares (number.code env esp) c := by
  cases number with
  | filesize | tell =>
    exact spares_check (spares_int (spares_file free ((minds_return _).spares _)))
  | seek =>
    exact spares_check
      (spares_check (spares_int (spares_word (spares_file free ((Minds.pure ()).spares _)))))
  | close =>
    refine spares_check (spares_int ?_)
    unfold Spares
    have closed : (c.after (touches (offset esp 4) false 4)).file
      (toInt32 (c.word (offset esp 4))) = none := free
    rw [ends_bind, ends_get, closed]
    rfl
  | read =>
    refine spares_check (spares_check (spares_check (spares_int (spares_word (spares_word
      (spares_check (spares_checkLast ?_)))))))
    split
    · exact (Minds.bind (minds_storeBytes _ _ _) fun _ => minds_return _).spares _
    · exact spares_file free ((minds_return _).spares _)
  | write =>
    refine spares_int
      (spares_word (spares_word (spares_check (spares_check (spares_check (spares_check ?_))))))
    split
    · exact (Minds.bind (minds_touchAll _ _ _) fun _ => minds_return _).spares _
    · exact spares_file free ((minds_return _).spares _)
  | halt | exit | exec | wait | create | remove | open_ => cases takes

end Pintos.Userprog
