import Mathlib.Data.List.Basic
import Pintos.Lib.LittleEndian

/-!
# Partition tables

`devices/partition.c`. Memory for the table and for each partition is always there. The recursion
of `read_partition_table` has no bound in the source, so the model is given a depth and returns
`none` when that is used up.
-/

namespace Pintos.Partition

open LittleEndian List

/-- The device that is scanned, with `block_size` a `block_sector_t`. -/
structure Block where
  size : Nat
  sector : Nat → Bytes
  bounded : size < 2 ^ 32

/-- `struct partition_table_entry`, without the fields that nothing reads. -/
structure Entry where
  type : UInt8
  offset : Nat
  size : Nat
  deriving DecidableEq

/-- Entry `i` of `pt->partitions`, behind the 446 bytes of the loader. -/
def entryAt (pt : Bytes) (i : Nat) : Entry where
  type := pt (446 + 16 * i + 4)
  offset := get32 pt (446 + 16 * i + 8)
  size := get32 pt (446 + 16 * i + 12)

def partitions (pt : Bytes) : List Entry := (range 4).map (entryAt pt)

def signature (pt : Bytes) : Nat := (pt 510).toNat + 256 * (pt 511).toNat

def Entry.isEmpty (e : Entry) : Bool := e.size == 0 || e.type == 0

def Entry.isExtended (e : Entry) : Bool :=
  e.type == 0x05 || e.type == 0x0f || e.type == 0x85 || e.type == 0xc5

inductive BlockType
  | kernel
  | filesys
  | scratch
  | swap
  | foreign
  deriving DecidableEq

def blockType (partType : UInt8) : BlockType :=
  if partType = 0x20 then .kernel
  else if partType = 0x21 then .filesys
  else if partType = 0x22 then .scratch
  else if partType = 0x23 then .swap
  else .foreign

/-- What `block_register` is called with; the name is that of the device with `partNr` behind it. -/
structure Registered where
  partNr : Nat
  partType : UInt8
  type : BlockType
  start : Nat
  size : Nat
  deriving DecidableEq

/-- What is printed. -/
inductive Message
  /-- Partition table at sector %u past end of device. -/
  | tablePastEnd (sector : Nat)
  /-- Invalid partition table signature -/
  | invalidSignature
  /-- Invalid extended partition table in sector %u -/
  | invalidExtended (sector : Nat)
  /-- Extended partition in sector %u -/
  | extendedPartition (sector : Nat)
  /-- Partition starts past end of device (sector %u) -/
  | startsPastEnd (partNr start : Nat)
  /-- Partition end (%u) past end of device (%u) -/
  | endPastEnd (partNr last size : Nat)
  /-- Device contains no partitions -/
  | noPartitions
  deriving DecidableEq

structure Scan where
  partNr : Nat := 0
  registered : List Registered := []
  messages : List Message := []
  /-- The sectors from which a table has been read. -/
  tables : List Nat := []
  deriving DecidableEq

def Scan.print (scan : Scan) (message : Message) : Scan :=
  { scan with messages := scan.messages ++ [message] }

def Scan.register (scan : Scan) (r : Registered) : Scan :=
  { scan with registered := scan.registered ++ [r] }

variable (block : Block) {call : Nat × Nat} {e : Entry} {f : Scan → Entry → Option Scan}
  {es : List Entry}

def foundPartition (partType : UInt8) (start size partNr : Nat) (scan : Scan) : Scan :=
  if block.size ≤ start then scan.print (.startsPastEnd partNr start)
  else if (start + size) % 2 ^ 32 < start ∨ block.size < (start + size) % 2 ^ 32 then
    scan.print (.endPastEnd partNr ((start + size) % 2 ^ 32) block.size)
  else scan.register ⟨partNr, partType, blockType partType, start, size⟩

/-- The body of the loop over the entries; `descend` is the recursive call. -/
def readEntry (descend : Nat → Nat → Scan → Option Scan) (sector primaryExtendedSector : Nat)
    (scan : Scan) (e : Entry) : Option Scan :=
  if e.isEmpty then some scan
  else if e.isExtended then
    if sector = 0 then descend e.offset e.offset (scan.print (.extendedPartition sector))
    else descend ((e.offset + primaryExtendedSector) % 2 ^ 32) primaryExtendedSector
      (scan.print (.extendedPartition sector))
  else some (foundPartition block e.type ((e.offset + sector) % 2 ^ 32) e.size (scan.partNr + 1)
    { scan with partNr := scan.partNr + 1 })

/-- `block_read`. -/
def blockRead (sector : Nat) (scan : Scan) : Bytes × Scan :=
  (block.sector sector, { scan with tables := scan.tables ++ [sector] })

/-- The table is read from sector 0, whatever `sector` is. -/
def readPartitionTable : Nat → Nat → Nat → Scan → Option Scan
  | 0, _, _, _ => none
  | depth + 1, sector, primaryExtendedSector, scan =>
    if block.size ≤ sector then some (scan.print (.tablePastEnd sector))
    else
      let (pt, scan) := blockRead block 0 scan
      if signature pt ≠ 0xaa55 then
        some (scan.print (if primaryExtendedSector = 0 then .invalidSignature
          else .invalidExtended sector))
      else (partitions pt).foldlM
        (readEntry block (readPartitionTable depth) sector primaryExtendedSector) scan

def partitionScan (depth : Nat) : Option Scan :=
  (readPartitionTable block depth 0 0 {}).map fun scan =>
    if scan.partNr = 0 then scan.print .noPartitions else scan

/-! ## Termination -/

/-- The recursion ends at some depth. -/
def Halts : Prop := ∃ depth scan, partitionScan block depth = some scan

/-- The offsets of the extended partitions that sector 0 lists. -/
def extendedOffsets : List Nat :=
  ((partitions (block.sector 0)).filter fun e => !e.isEmpty && e.isExtended).map Entry.offset

/-- Where a call goes for an extended partition at `offset`. -/
def next (call : Nat × Nat) (offset : Nat) : Nat × Nat :=
  if call.1 = 0 then (offset, offset) else ((offset + call.2) % 2 ^ 32, call.2)

variable {block}

theorem mem_extendedOffsets {offset : Nat} :
    offset ∈ extendedOffsets block ↔ ∃ e ∈ partitions (block.sector 0),
      e.isEmpty = false ∧ e.isExtended = true ∧ e.offset = offset := by
  simp [extendedOffsets, and_assoc]

theorem readEntry_extended {descend : Nat → Nat → Scan → Option Scan}
    (scan : Scan) (nonempty : e.isEmpty = false) (extended : e.isExtended = true) :
    readEntry block descend call.1 call.2 scan e =
      descend (next call e.offset).1 (next call e.offset).2
        (scan.print (.extendedPartition call.1)) := by
  unfold readEntry next
  simp only [nonempty, extended, Bool.false_eq_true, if_false, if_true]
  split <;> rfl

theorem foldlM_none (mem : e ∈ es)
    (stuck : ∀ scan, f scan e = none) (scan : Scan) : es.foldlM f scan = none := by
  induction es generalizing scan with
  | nil => cases mem
  | cons first rest ih =>
    rw [foldlM_cons]
    cases mem_cons.mp mem with
    | inl h => rw [← h, stuck]; rfl
    | inr later =>
      cases f scan first with
      | none => rfl
      | some scan' => exact ih later scan'

/-- Calls that lead to one another for ever: none returns at any depth. -/
theorem readPartitionTable_loops (calls : Nat × Nat → Prop)
    (signed : signature (block.sector 0) = 0xaa55) (hi : ∀ call, calls call → call.1 < block.size)
    (follows : ∀ call, calls call → ∃ offset ∈ extendedOffsets block, calls (next call offset))
    (depth : Nat) (call : Nat × Nat) (member : calls call) (scan : Scan) :
    readPartitionTable block depth call.1 call.2 scan = none := by
  induction depth generalizing call scan with
  | zero => rfl
  | succ depth ih =>
    obtain ⟨offset, hl, again⟩ := follows call member
    obtain ⟨e, mem, nonempty, extended, rfl⟩ := mem_extendedOffsets.mp hl
    unfold readPartitionTable
    rw [if_neg (by have := hi call member; omega)]
    dsimp only
    rw [if_neg (by simpa [blockRead] using signed)]
    apply foldlM_none mem
    intro scan
    rw [readEntry_extended scan nonempty extended]
    exact ih _ again _

theorem foldlM_some (goes : ∀ e ∈ es, ∀ scan, ∃ scan', f scan e = some scan') (scan : Scan) :
    ∃ scan', es.foldlM f scan = some scan' := by
  induction es generalizing scan with
  | nil => exact ⟨scan, rfl⟩
  | cons first rest ih =>
    obtain ⟨scan', eq⟩ := goes first (.head _) scan
    rw [foldlM_cons, eq]
    exact ih (fun e mem => goes e (mem_cons_of_mem first mem)) scan'

/-- A call returns one level above all the calls it makes. -/
theorem readPartitionTable_returns {depth : Nat} (call : Nat × Nat)
    (hb : call.1 < block.size → ∀ offset ∈ extendedOffsets block, ∀ scan, ∃ scan',
      readPartitionTable block depth (next call offset).1 (next call offset).2 scan = some scan')
    (scan : Scan) : ∃ scan', readPartitionTable block (depth + 1) call.1 call.2 scan =
    some scan' := by
  unfold readPartitionTable
  split
  · exact ⟨_, rfl⟩
  dsimp only
  split
  · exact ⟨_, rfl⟩
  apply foldlM_some
  intro e mem scan
  by_cases extended : e.isEmpty = false ∧ e.isExtended = true
  · rw [readEntry_extended scan extended.1 extended.2]
    exact hb (by omega) _ (mem_extendedOffsets.mpr ⟨e, mem, extended.1, extended.2, rfl⟩) _
  · unfold readEntry
    split
    · exact ⟨_, rfl⟩
    · rw [if_neg (fun is => extended ⟨by simpa using ‹¬ e.isEmpty = true›, is⟩)]
      exact ⟨_, rfl⟩

theorem readPartitionTable_pastEnd (past : block.size ≤ call.1) (depth : Nat)
    (scan : Scan) : ∃ scan', readPartitionTable block (depth + 1) call.1 call.2 scan = some scan' :=
  readPartitionTable_returns call (fun hi => absurd hi (by omega)) scan

/-- From an extended partition inside the device, the offset of no other leads back inside. -/
def NoReturn (block : Block) : Prop :=
  signature (block.sector 0) = 0xaa55 →
    ∀ first ∈ extendedOffsets block, first < block.size →
      ∀ second ∈ extendedOffsets block, block.size ≤ (first + second) % 2 ^ 32

/-- The calls that two extended partitions drive round. -/
inductive Circle (first second : Nat) : Nat × Nat → Prop
  | boot : Circle first second (0, 0)
  | table : Circle first second (first, first)
  | back : Circle first second ((second + first) % 2 ^ 32, first)

theorem Circle.next {first second : Nat} (mem : Circle first second call) :
    Circle first second (next call first) ∨ Circle first second (next call second) := by
  unfold Partition.next
  cases mem with
  | boot => exact .inl .table
  | table =>
    dsimp only
    split
    · exact .inl .table
    · exact .inr .back
  | back =>
    dsimp only
    split
    · exact .inl .table
    · exact .inr .back

theorem Halts.noReturn (halts : Halts block) : NoReturn block := by
  intro signed first hl hi second also
  obtain ⟨depth, scan, eq⟩ := halts
  by_contra short
  have back : (second + first) % 2 ^ 32 < block.size := by
    rw [Nat.add_comm]
    omega
  have loops : readPartitionTable block depth 0 0 {} = none := by
    apply readPartitionTable_loops (Circle first second) signed _ _ depth (0, 0) .boot
    · intro call mem
      cases mem with
      | boot => exact Nat.zero_lt_of_lt hi
      | table => exact hi
      | back => exact back
    · intro call mem
      cases mem.next with
      | inl again => exact ⟨first, hl, again⟩
      | inr again => exact ⟨second, also, again⟩
  rw [partitionScan, loops] at eq
  cases eq

theorem NoReturn.halts (noReturn : NoReturn block) : Halts block := by
  have top (scan : Scan) : ∃ scan', readPartitionTable block 3 0 0 scan = some scan' := by
    by_cases signed : signature (block.sector 0) = 0xaa55
    · apply readPartitionTable_returns (0, 0)
      intro _ first hl scan
      apply readPartitionTable_returns (first, first)
      intro hi second also scan
      apply readPartitionTable_pastEnd
      have past := noReturn signed first hl hi
      have nonzero : first ≠ 0 := by
        rintro rfl
        have := past 0 hl
        simp at this
        omega
      dsimp only at hi
      rw [next, if_neg nonzero, Nat.add_comm]
      exact past second also
    · unfold readPartitionTable
      split
      · exact ⟨_, rfl⟩
      · exact ⟨_, if_pos signed⟩
  obtain ⟨scan, eq⟩ := top {}
  exact ⟨3, _, congrArg (Option.map _) eq⟩

/-- Scanning ends exactly when no two extended partitions drive it round. -/
theorem partition_scan_halts_iff (block : Block) : Halts block ↔ NoReturn block :=
  ⟨Halts.noReturn, NoReturn.halts⟩

/-- A signed table with the entries `es`, and empty ones behind them. -/
def tableOf (es : List Entry) : Bytes := fun i =>
  if i = 510 then 0x55
  else if i = 511 then 0xaa
  else if i < 446 then 0
  else
    let e := es.getD ((i - 446) / 16) ⟨0, 0, 0⟩
    let field := (i - 446) % 16
    if field = 4 then e.type
    else if 8 ≤ field ∧ field < 12 then put32 e.offset (field - 8)
    else if 12 ≤ field then put32 e.size (field - 12)
    else 0

/-- A device of 64 sectors with an extended partition from sector 8 on. -/
theorem extended_never_halts :
    ¬ Halts ⟨64, fun _ => tableOf [⟨0x05, 8, 16⟩], by decide⟩ := by
  intro halts
  have past := halts.noReturn (by decide) 8 (by decide) (by decide) 8 (by decide)
  exact absurd past (by decide)

/-! ## What is registered -/

/-- A partition as the tables describe it, with its absolute start. -/
structure Described where
  partType : UInt8
  start : Nat
  size : Nat
  deriving DecidableEq

/-- The table that an extended entry designates: from the boot record by its absolute sector, from
other tables relative to the first extended table. -/
def Entry.designates (e : Entry) (sector primaryExtendedSector : Nat) : Nat × Nat :=
  if sector = 0 then (e.offset, e.offset)
  else (e.offset + primaryExtendedSector, primaryExtendedSector)

/-- The partitions that the entries `es` of the table in `sector` describe and the sectors of the
further tables, in the order of traversal, with every table read from its own sector. -/
inductive Describes (block : Block) : Nat → Nat → List Entry → List Described → List Nat → Prop
  | nil {sector primary : Nat} : Describes block sector primary [] [] []
  | empty {sector primary : Nat} {e : Entry} {es : List Entry} {ds : List Described}
      {ts : List Nat} :
      e.isEmpty = true → Describes block sector primary es ds ts →
      Describes block sector primary (e :: es) ds ts
  | extended {sector primary : Nat} {e : Entry} {es : List Entry} {inner ds : List Described}
      {within ts : List Nat} :
      e.isEmpty = false → e.isExtended = true →
      (e.designates sector primary).1 < block.size →
      signature (block.sector (e.designates sector primary).1) = 0xaa55 →
      Describes block (e.designates sector primary).1 (e.designates sector primary).2
        (partitions (block.sector (e.designates sector primary).1)) inner within →
      Describes block sector primary es ds ts →
      Describes block sector primary (e :: es) (inner ++ ds)
        ((e.designates sector primary).1 :: within ++ ts)
  | partition {sector primary : Nat} {e : Entry} {es : List Entry} {ds : List Described}
      {ts : List Nat} :
      e.isEmpty = false → e.isExtended = false → Describes block sector primary es ds ts →
      Describes block sector primary (e :: es) (⟨e.type, e.offset + sector, e.size⟩ :: ds) ts

/-- The boot record and the chain of extended tables, in the sectors `ts`, are well formed and
describe `ds`. -/
structure WellFormed (block : Block) (ds : List Described) (ts : List Nat) : Prop where
  nonempty : 0 < block.size
  signed : signature (block.sector 0) = 0xaa55
  describes : Describes block 0 0 (partitions (block.sector 0)) ds ts

/-- Partition number `nr` as it is to be registered, if it fits in the device. -/
def Described.registered (block : Block) (d : Described) (nr : Nat) : Option Registered :=
  if d.start + d.size ≤ block.size then
    some ⟨nr, d.partType, blockType d.partType, d.start, d.size⟩
  else none

/-- What is to be registered, the numbers starting at `nr`. -/
def registrations (block : Block) (nr : Nat) : List Described → List Registered
  | [] => []
  | d :: ds => (d.registered block nr).toList ++ registrations block (nr + 1) ds

theorem foundPartition_registered (block : Block) (partType : UInt8) {start size : Nat} (nr : Nat)
    (scan : Scan) (startWord : start < 2 ^ 32) (nonempty : 0 < size) (sizeWord : size < 2 ^ 32) :
    (foundPartition block partType start size nr scan).registered =
      scan.registered ++ ((Described.mk partType start size).registered block nr).toList ∧
    (foundPartition block partType start size nr scan).partNr = scan.partNr ∧
    (foundPartition block partType start size nr scan).tables = scan.tables := by
  have bounded := block.bounded
  unfold foundPartition Described.registered
  dsimp only
  by_cases hf : start + size ≤ block.size
  · have hs : (start + size) % 2 ^ 32 = start + size := Nat.mod_eq_of_lt (by omega)
    rw [if_pos hf, if_neg (by omega), hs, if_neg (by omega)]
    exact ⟨rfl, rfl, rfl⟩
  · rw [if_neg hf]
    split
    · simp [Scan.print]
    · rw [if_pos (by omega)]
      simp [Scan.print]

/-- Without extended entries the loop registers what the entries describe. -/
theorem foldlM_registered {ds : List Described} {ts : List Nat}
    (describes : Describes block 0 0 es ds ts)
    (words : ∀ e ∈ es, e.offset < 2 ^ 32 ∧ e.size < 2 ^ 32)
    (hp : ∀ e ∈ es, e.isEmpty = false → e.isExtended = false) (scan : Scan) :
    ∃ scan', (∀ descend, es.foldlM (readEntry block descend 0 0) scan = some scan') ∧
      scan'.registered = scan.registered ++ registrations block (scan.partNr + 1) ds ∧
      scan'.tables = scan.tables ++ ts := by
  induction es generalizing ds scan with
  | nil =>
    cases describes
    exact ⟨scan, fun _ => rfl, by simp [registrations]⟩
  | cons e es ih =>
    have words' := fun x mem => words x (mem_cons_of_mem e mem)
    have plain' := fun x mem => hp x (mem_cons_of_mem e mem)
    cases describes with
    | empty isEmpty rest =>
      obtain ⟨scan', runs, value⟩ := ih rest words' plain' scan
      refine ⟨scan', fun descend => ?_, value⟩
      rw [foldlM_cons, readEntry, if_pos isEmpty]
      exact runs descend
    | extended nonempty isExtended =>
      exact absurd (hp e (.head _) nonempty) (by simp [isExtended])
    | partition nonempty notExtended rest =>
      obtain ⟨offset, size⟩ := words e (.head _)
      have pos : 0 < e.size := by
        simp [Entry.isEmpty] at nonempty
        omega
      obtain ⟨registered, number, tables⟩ :=
        foundPartition_registered block e.type (scan.partNr + 1)
        { scan with partNr := scan.partNr + 1 } offset pos size
      obtain ⟨scan', runs, value, read⟩ :=
        ih rest words' plain' (foundPartition block e.type e.offset
        e.size (scan.partNr + 1) { scan with partNr := scan.partNr + 1 })
      refine ⟨scan', fun descend => ?_, ?_, read.trans (congrArg (· ++ ts) tables)⟩
      · rw [foldlM_cons, readEntry, if_neg (by simp [nonempty]), if_neg (by simp [notExtended]),
          Nat.add_zero, Nat.mod_eq_of_lt offset]
        exact runs descend
      · rw [value, registered, number, append_assoc]
        rfl

theorem partitions_words (pt : Bytes) : ∀ e ∈ partitions pt, e.offset < 2 ^ 32 ∧
    e.size < 2 ^ 32 := by
  intro e mem
  obtain ⟨i, _, rfl⟩ := mem_map.mp mem
  exact ⟨get32_lt .., get32_lt ..⟩

/-- No chain that comes to an end leads back to the boot record. -/
theorem Describes.offset_ne_zero {sector primary : Nat} {ds : List Described} {ts : List Nat}
    (describes : Describes block sector primary es ds ts) (boot : sector = 0)
    (mem : e ∈ es) (again : e ∈ partitions (block.sector 0)) (nonempty : e.isEmpty = false)
    (extended : e.isExtended = true) : e.offset ≠ 0 := by
  induction describes with
  | nil => cases mem
  | empty isEmpty _ ih =>
    rcases mem_cons.mp mem with rfl | later
    · simp [nonempty] at isEmpty
    · exact ih boot later
  | @extended sector primary first _ _ _ _ _ _ _ _ _ _ _ inner rest =>
    rcases mem_cons.mp mem with rfl | later
    · -- the table at sector 0 would be met again inside itself
      intro zero
      have back : (e.designates sector primary).1 = 0 := by simp [Entry.designates, boot, zero]
      exact inner back (back ▸ again) zero
    · exact rest boot later
  | partition _ notExtended _ ih =>
    rcases mem_cons.mp mem with rfl | later
    · simp [extended] at notExtended
    · exact ih boot later

theorem Describes.offset_mem {primary : Nat} {ds : List Described} {ts : List Nat}
    (describes : Describes block 0 primary es ds ts) (mem : e ∈ es) (nonempty : e.isEmpty = false)
    (extended : e.isExtended = true) : e.offset ∈ ts := by
  induction es generalizing ds ts with
  | nil => cases mem
  | cons first es ih =>
    cases describes with
    | empty isEmpty rest =>
      rcases mem_cons.mp mem with rfl | later
      · simp [nonempty] at isEmpty
      · exact ih rest later
    | extended _ _ _ _ _ rest =>
      rcases mem_cons.mp mem with rfl | later
      · exact .head _
      · exact mem_append_right _ (ih rest later)
    | partition _ notExtended rest =>
      rcases mem_cons.mp mem with rfl | later
      · simp [extended] at notExtended
      · exact ih rest later

theorem foldlM_tables (keeps : ∀ e scan scan', f scan e = some scan' → (∀ t ∈ scan.tables, t = 0) →
      ∀ t ∈ scan'.tables, t = 0) {scan scan' : Scan} (ran : es.foldlM f scan = some scan')
    (was : ∀ t ∈ scan.tables, t = 0) : ∀ t ∈ scan'.tables, t = 0 := by
  induction es generalizing scan with
  | nil =>
    cases ran
    exact was
  | cons e es ih =>
    rw [foldlM_cons] at ran
    obtain ⟨scan1, first, rest⟩ := Option.bind_eq_some_iff.mp ran
    exact ih rest (keeps e scan scan1 first was)

/-- Whatever table is asked for, sector 0 is read. -/
theorem readPartitionTable_tables (depth : Nat) : ∀ (sector primary : Nat) (scan scan' : Scan),
    readPartitionTable block depth sector primary scan = some scan' →
    (∀ t ∈ scan.tables, t = 0) → ∀ t ∈ scan'.tables, t = 0 := by
  induction depth with
  | zero => exact fun _ _ _ _ ran => nomatch ran
  | succ depth ih =>
    intro sector primary scan scan' ran was
    have read : ∀ t ∈ (blockRead block 0 scan).2.tables, t = 0 := by
      intro t mem
      rcases mem_append.mp mem with old | new
      · exact was t old
      · exact mem_singleton.mp new
    unfold readPartitionTable at ran
    split at ran
    · cases ran
      exact was
    dsimp only at ran
    split at ran
    · cases ran
      exact read
    refine foldlM_tables (fun e scan scan' entry was => ?_) ran read
    unfold readEntry at entry
    split_ifs at entry
    · cases entry
      exact was
    · exact ih _ _ _ _ entry was
    · exact ih _ _ _ _ entry was
    · cases entry
      unfold foundPartition
      split_ifs <;> exact was

/-- Exactly the partitions that the tables describe and that fit are registered, numbered in order,
with every table read from its own sector, just if the boot record lists no extended partition. -/
theorem primary_partitions_registered {block : Block} {ds : List Described} {ts : List Nat}
    (wellFormed : WellFormed block ds ts) :
    (∃ depth scan, partitionScan block depth = some scan ∧
      scan.registered = registrations block 1 ds ∧ scan.tables = 0 :: ts) ↔
      ∀ e ∈ partitions (block.sector 0), e.isEmpty = false → e.isExtended = false := by
  constructor
  · rintro ⟨depth, scan, ran, -, tables⟩ e mem nonempty
    by_contra extended
    rw [Bool.not_eq_false] at extended
    apply wellFormed.describes.offset_ne_zero rfl mem mem nonempty extended
    obtain ⟨scan1, read, rfl⟩ := Option.map_eq_some_iff.mp ran
    apply readPartitionTable_tables depth 0 0 {} scan1 read nofun
    have listed := wellFormed.describes.offset_mem mem nonempty extended
    have same : scan1.tables = 0 :: ts := by
      rw [← tables]
      split <;> rfl
    exact same ▸ .tail _ listed
  · intro plain
    have words := partitions_words (block.sector 0)
    obtain ⟨scan, runs, registered, tables⟩ := foldlM_registered wellFormed.describes words plain
      (blockRead block 0 {}).2
    have table : readPartitionTable block 1 0 0 {} = some scan := by
      rw [readPartitionTable, if_neg (by have := wellFormed.nonempty; omega)]
      dsimp only
      rw [if_neg (by simp [blockRead, wellFormed.signed])]
      exact runs _
    refine ⟨1, _, congrArg (Option.map _) table, ?_⟩
    dsimp only
    split <;> exact ⟨registered, tables⟩

/-- Two primary partitions, the second of which does not fit. -/
def twoPrimary : Block :=
  ⟨100, fun _ => tableOf [⟨0x21, 10, 30⟩, ⟨0x20, 50, 51⟩], by decide⟩

theorem emptyEntries (block : Block) (sector primary n : Nat) :
    Describes block sector primary (replicate n ⟨0, 0, 0⟩) [] [] := by
  induction n with
  | zero => exact .nil
  | succ n ih => exact .empty rfl ih

theorem twoPrimary_wellFormed : WellFormed twoPrimary [⟨0x21, 10, 30⟩, ⟨0x20, 50, 51⟩] [] := by
  have entries : partitions (twoPrimary.sector 0) =
      ⟨0x21, 10, 30⟩ :: ⟨0x20, 50, 51⟩ :: replicate 2 ⟨0, 0, 0⟩ := by decide
  refine ⟨by decide, by decide, ?_⟩
  rw [entries]
  exact .partition rfl rfl (.partition rfl rfl (emptyEntries ..))

theorem primary_partitions_registered_two :
    ∃ depth scan, partitionScan twoPrimary depth = some scan ∧
      scan.registered = [⟨1, 0x21, .filesys, 10, 30⟩] ∧ scan.tables = [0] :=
  (primary_partitions_registered twoPrimary_wellFormed).mpr (by decide)

/-- An extended partition from sector 6 on, whose table describes one logical partition. -/
def oneLogical : Block :=
  ⟨10, fun sector => tableOf (if sector = 6 then [⟨0x83, 1, 2⟩] else [⟨0x05, 6, 4⟩]), by decide⟩

theorem oneLogical_wellFormed : WellFormed oneLogical [⟨0x83, 7, 2⟩] [6] := by
  have bootRecord : partitions (oneLogical.sector 0) =
      ⟨0x05, 6, 4⟩ :: replicate 3 ⟨0, 0, 0⟩ := by decide
  have extendedTable : partitions (oneLogical.sector 6) =
      ⟨0x83, 1, 2⟩ :: replicate 3 ⟨0, 0, 0⟩ := by decide
  have inner : Describes oneLogical 6 6 (partitions (oneLogical.sector 6)) [⟨0x83, 7, 2⟩] [] := by
    rw [extendedTable]
    exact .partition rfl rfl (emptyEntries ..)
  have chain : Describes oneLogical 0 0 (partitions (oneLogical.sector 0)) ([⟨0x83, 7, 2⟩] ++ [])
      (6 :: [] ++ []) := by
    rw [bootRecord]
    exact .extended rfl rfl (by decide) (by decide) inner (emptyEntries ..)
  exact ⟨by decide, by decide, chain⟩

/-- The logical partition is not found: sector 0 is read again in place of its table. -/
theorem logical_partition_missed :
    WellFormed oneLogical [⟨0x83, 7, 2⟩] [6] ∧
      registrations oneLogical 1 [⟨0x83, 7, 2⟩] = [⟨1, 0x83, .foreign, 7, 2⟩] ∧
      (partitionScan oneLogical 3).map Scan.registered = some [] :=
  ⟨oneLogical_wellFormed, by decide, by decide⟩

end Pintos.Partition
