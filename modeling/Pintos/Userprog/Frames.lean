import Pintos.Userprog.Load
import Pintos.Userprog.PageRelease

/-!
# The pages of a process

What a process has obtained of the page allocator and not yet given back: pages it works on, its
page directory with the page tables, and the frames these map. The contents of frames stay as they
are while other pages come and go.
-/

namespace Pintos.Userprog

open LittleEndian Prog Paging Filesys Function List

variable {r r' r'' r0 : Ram} {pd page k i p vaddr : Nat}
  {tables tables' tables'' frames frames' frames'' : Nat → Option Nat}
  {others others' held : List Nat} {b : Bytes}

/-! ### Bytes -/

theorem put32_get32 (b : Bytes) (place : Nat) (lt : i < 4) :
    put32 (get32 b place) i = b (place + i) := by
  have h0 := (b place).toNat_lt
  have h1 := (b (place + 1)).toNat_lt
  have h2 := (b (place + 2)).toNat_lt
  have h3 := (b (place + 3)).toNat_lt
  obtain rfl | rfl | rfl | rfl : i = 0 ∨ i = 1 ∨ i = 2 ∨ i = 3 := by omega
  all_goals
    apply UInt8.toNat_inj.mp
    simp only [put32, get32, UInt8.toNat_ofNat', Nat.add_zero]
    omega

def withPage (r : Ram) (page : Nat) (b : Bytes) : Ram :=
  { r with word := fun a => if pgNo a = pgNo page then get32 b (pgOfs a) else r.word a }

@[simp] theorem wp_storePage {Q : Unit → Ram → Prop} :
    Wp (storePage page b) Q r ↔ Q () (withPage r page b) := by
  unfold storePage
  simp only [wp_bind, wp_get, wp_set]
  rfl

theorem withPage_word (ha : p % 4096 = 0) (aligned' : page % 4096 = 0) (differs : p ≠ page)
    (hi : i < 1024) : (withPage r page b).word (p + 4 * i) = r.word (p + 4 * i) := by
  have ne : pgNo (p + 4 * i) ≠ pgNo page := by
    rw [pgNo_slot ha hi, pgNo_eq]
    omega
  exact if_neg ne

theorem ramBytes_withPage (ha : page % 4096 = 0) (hi : i < 4096) :
    ramBytes (withPage r page b) page i = b i := by
  have h : pgNo (page + 4 * (i / 4)) = pgNo page := by
    rw [pgNo_slot ha (by omega), pgNo_eq]
  have place : pgOfs (page + 4 * (i / 4)) = 4 * (i / 4) := by
    rw [pgOfs_eq]
    omega
  show put32 (if pgNo (page + 4 * (i / 4)) = pgNo page then get32 b (pgOfs (page + 4 * (i / 4)))
    else _) _ = _
  rw [if_pos h, place, put32_get32 b _ (Nat.mod_lt i (by decide)), Nat.div_add_mod]

theorem ramBytes_congr (words : ∀ j < 1024, r'.word (p + 4 * j) = r.word (p + 4 * j))
    (hi : i < 4096) : ramBytes r' p i = ramBytes r p i := by
  unfold ramBytes
  rw [words (i / 4) (by omega)]

/-! ### The ledger -/

/-- Since `r0`, exactly these pages have been obtained and not been freed again. -/
@[grind cases] structure Ledger (r0 r : Ram) (held : List Nat) : Prop where
  balance : ∃ taken freed, r.obtained = taken ++ r0.obtained ∧ r.released = freed ++ r0.released ∧
    taken.Perm (freed ++ held)
  nodup : held.Nodup
  used : ∀ p ∈ held, r.IsPage p ∧ p ∈ r.outstanding

namespace Ledger

theorem refl (r : Ram) : Ledger r r [] := ⟨⟨[], [], rfl, rfl, .refl _⟩, nodup_nil, nofun⟩

theorem perm {held' : List Nat} (ledger : Ledger r0 r held) (eq : held.Perm held') :
    Ledger r0 r held' := by
  constructor <;> grind [update_apply]

/-- The contents of memory do not count. -/
theorem congr (ledger : Ledger r0 r held) (ram : r'.initRamPages = r.initRamPages)
    (outstanding : r'.outstanding = r.outstanding) (obtained : r'.obtained = r.obtained)
    (released : r'.released = r.released) : Ledger r0 r' held := by
  refine ⟨?_, ledger.nodup, ?_⟩
  · rw [obtained, released]
    exact ledger.balance
  · unfold Ram.IsPage
    rw [ram, outstanding]
    exact ledger.used

/-- New pages have been obtained. -/
theorem obtain_ {new : List Nat} (ledger : Ledger r0 r held)
    (ram : r'.initRamPages = r.initRamPages)
    (outstanding : r'.outstanding = new ++ r.outstanding)
    (obtained : r'.obtained = new ++ r.obtained)
    (released : r'.released = r.released) (nodup : new.Nodup) (hp : ∀ p ∈ new, r.IsPage p)
    (hf : ∀ p ∈ new, p ∉ r.outstanding) : Ledger r0 r' (new ++ held) := by
  obtain ⟨⟨taken, freed, got, gone, balance⟩, distinct, used⟩ := ledger
  constructor
  case balance => grind
  case nodup => grind
  case used =>
    unfold Ram.IsPage
    rw [ram, outstanding]
    intro p mem
    rcases mem_append.mp mem with hi | hi
    · exact ⟨hp p hi, mem_append_left _ hi⟩
    · exact ⟨(used p hi).1, mem_append_right _ (used p hi).2⟩

theorem take (ledger : Ledger r0 r held) (hp : r.IsPage page) (free : page ∉ r.outstanding) :
    Ledger r0 (r.answered.take page) (page :: held) := by
  apply @obtain_ r (r.answered.take page) r0 held [page] ledger rfl rfl rfl rfl
    (nodup_singleton page)
  · exact fun _ mem => mem_singleton.mp mem ▸ hp
  · exact fun _ mem => mem_singleton.mp mem ▸ free

theorem drop {value : Nat} (ledger : Ledger r0 r held) (mem : page ∈ held) :
    Ledger r0 ((r.fill page value).drop page) (held.erase page) := by
  obtain ⟨⟨taken, freed, got, gone, balance⟩, distinct, used⟩ := ledger
  constructor
  case balance =>
    refine ⟨taken, page :: freed, got, congrArg (page :: ·) gone, balance.trans ?_⟩
    exact ((perm_cons_erase mem).append_left freed).trans perm_middle
  case nodup => exact distinct.erase page
  case used =>
    intro p hi
    obtain ⟨ne, hi⟩ := distinct.mem_erase_iff.mp hi
    exact ⟨(used p hi).1, (mem_erase_of_ne ne).mpr (used p hi).2⟩

end Ledger

/-! ### What a process holds -/

/-- The mappings there were are there, and so are the contents of their frames. The kernel's half
is as it was. -/
@[grind cases] structure Keeps (r : Ram) (tables frames : Nat → Option Nat) (r' : Ram)
    (tables' frames' : Nat → Option Nat) : Prop where
  frame : ∀ u p, frames u = some p → frames' u = some p ∧ ∀ i < 4096, ramBytes r' p i =
    ramBytes r p i
  kernel : ∀ i, pdNo physBase ≤ i → tables' i = tables i
  spares : SparesKernel r r' tables

/-- Memory has not changed. -/
theorem Keeps.of_words (words : r'.word = r.word) : Keeps r tables frames r' tables frames := by
  refine ⟨fun u p is => ⟨is, fun i _ => ?_⟩, fun _ _ => rfl, fun _ _ _ _ _ _ => by rw [words]⟩
  unfold ramBytes
  rw [words]

theorem Keeps.trans (first : Keeps r tables frames r' tables' frames')
    (second : Keeps r' tables' frames' r'' tables'' frames'') :
    Keeps r tables frames r'' tables'' frames'' := by
  refine ⟨fun u p is => ?_, fun i upper => (second.kernel i upper).trans (first.kernel i upper), ?_⟩
  · grind
  · intro i t upper is j hi
    have is' : tables' i = some t := (first.kernel i upper).trans is
    exact (second.spares i t upper is' j hi).trans (first.spares i t upper is j hi)

/-- The process holds the directory, its page tables and frames, and `others`. -/
structure Backed (r0 : Ram) (others : List Nat) (r : Ram) (pd : Nat)
    (tables frames : Nat → Option Nat) :
    Prop where
  maps : Maps r pd tables frames
  own : pd ≠ r.initPageDir
  owned : Owned r pd tables frames
  ledger : Ledger r0 r (others ++ pagesIn pd tables frames)
  apart : ∀ p ∈ others, p ≠ pd ∧ ∀ i, tables i ≠ some p

/-- Pages that were worked on have become frames. -/
@[grind cases] structure Moves (others : List Nat) (frames : Nat → Option Nat) (others' : List Nat)
    (frames' : Nat → Option Nat) : Prop where
  nodup : others'.Nodup
  stays : ∀ p ∈ others', p ∈ others ∧ ∀ u, frames' u ≠ some p
  goes : ∀ p ∈ others, p ∈ others' ∨ ∃ u, frames' u = some p
  keeps : ∀ u p, frames u = some p → frames' u = some p
  origin : ∀ u p, frames' u = some p → frames u = some p ∨ p ∈ others
  once : ∀ u v p, frames' u = some p → frames' v = some p → u = v

namespace Backed

section
variable (hb : Backed r0 others r pd tables frames)
include hb

theorem isPage (mem : page ∈ others) : r.IsPage page :=
  (hb.ledger.used page (mem_append_left _ mem)).1

/-- A page that is worked on is not mapped. -/
theorem unmapped (mem : page ∈ others) (u : Nat) : frames u ≠ some page := by
  intro mapped
  have hi := (mem_pagesIn hb.maps).mpr (.inl ⟨u, mapped⟩)
  exact (nodup_append.mp hb.ledger.nodup).2.2 page mem page hi rfl

theorem frame_page {u : Nat} (is : frames u = some p) : p % 4096 = 0 :=
  (hb.maps.frame u p is).2.1.aligned

/-- Pages other than `page` have kept their contents. -/
theorem keeps (mem : page ∈ others)
    (words : ∀ p i, p % 4096 = 0 → p ≠ page → i < 1024 → r'.word (p + 4 * i) = r.word (p + 4 * i)) :
    Keeps r tables frames r' tables frames := by
  constructor
  case frame =>
    intro u p is
    refine ⟨is, fun i hi => ramBytes_congr (fun j lt => ?_) hi⟩
    apply words p j (hb.frame_page is) _ lt
    rintro rfl
    exact hb.unmapped mem u is
  case kernel => exact fun _ _ => rfl
  case spares =>
    intro i t _ is j hi
    apply words t j (hb.maps.table i t is).2.1.aligned _ hi
    rintro rfl
    exact (hb.apart t mem).2 i is

/-- Memory changes in a page that is worked on. -/
theorem alter (mem : page ∈ others)
    (words : ∀ p i, p % 4096 = 0 → p ≠ page → i < 1024 → r'.word (p + 4 * i) = r.word (p + 4 * i))
    (ram : r'.initRamPages = r.initRamPages) (dir : r'.initPageDir = r.initPageDir)
    (outstanding : r'.outstanding = r.outstanding) (obtained : r'.obtained = r.obtained)
    (released : r'.released = r.released) : Backed r0 others r' pd tables frames := by
  obtain ⟨ne, outside⟩ := hb.apart page mem
  constructor
  case maps =>
    apply hb.maps.keep ram fun p _ used => outstanding ▸ used
    rintro p (rfl | ⟨i, is⟩) j hi
    · exact words p j hb.maps.directory.aligned ne.symm hi
    · apply words p j (hb.maps.table i p is).2.1.aligned _ hi
      rintro rfl
      exact outside i is
  case own => exact dir ▸ hb.own
  case owned =>
    refine ⟨fun u p is => ?_, hb.owned.apart, hb.owned.once⟩
    rw [outstanding]
    exact hb.owned.used u p is
  case ledger => exact hb.ledger.congr ram outstanding obtained released
  case apart => exact hb.apart

theorem store (mem : page ∈ others) (b : Bytes) :
    Backed r0 others (withPage r page b) pd tables frames ∧ Keeps r tables frames
      (withPage r page b) tables frames := by
  have words : ∀ p i, p % 4096 = 0 → p ≠ page → i < 1024 →
      (withPage r page b).word (p + 4 * i) = r.word (p + 4 * i) :=
    fun p i ha differs hi => withPage_word ha (hb.isPage mem).aligned differs hi
  exact ⟨hb.alter mem words rfl rfl rfl rfl rfl, hb.keeps mem words⟩

theorem answered : Backed r0 others r.answered pd tables frames where
  maps := hb.maps.keep rfl (fun _ _ used => used) fun _ _ _ _ => rfl
  own := hb.own
  owned := ⟨hb.owned.used, hb.owned.apart, hb.owned.once⟩
  ledger := hb.ledger.congr rfl rfl rfl rfl
  apart := hb.apart

theorem take (hp : r.IsPage page)
    (free : page ∉ r.outstanding) : Backed r0 (page :: others) (r.answered.take page)
    pd tables frames where
  maps := hb.maps.keep rfl (fun _ _ used => mem_cons_of_mem page used) fun _ _ _ _ => rfl
  own := hb.own
  owned := ⟨fun u p is => mem_cons_of_mem page (hb.owned.used u p is), hb.owned.apart,
    hb.owned.once⟩
  ledger := hb.ledger.take hp free
  apart p mem := by
    cases mem with
    | head =>
      obtain ⟨ne, outside⟩ := hb.maps.known free
      exact ⟨ne, fun i is => outside i page is rfl⟩
    | tail _ mem => exact hb.apart p mem

end

theorem fill_word_ne {value : Nat} (ha : p % 4096 = 0) (aligned' : page % 4096 = 0)
    (differs : p ≠ page) (hi : i < 1024) :
    (r.fill page value).word (p + 4 * i) = r.word (p + 4 * i) := by
  have ne : pgNo (p + 4 * i) ≠ pgNo page := by
    rw [pgNo_slot ha hi, pgNo_eq]
    omega
  exact if_neg ne

/-- A page is obtained, with zeros in it or as it was. -/
theorem wp_palloc {zero : Bool} {Q : Option Nat → Ram → Prop}
    (hb : Backed r0 others r pd tables frames)
    (fails : ∀ r', Backed r0 others r' pd tables frames → Keeps r tables frames r' tables frames →
      Q none r')
    (gives : ∀ page r', Backed r0 (page :: others) r' pd tables frames →
      Keeps r tables frames r' tables frames → Q (some page) r') : Wp (pallocGetPage zero) Q r := by
  apply wp_pallocGetPage
  · exact fails _ hb.answered (.of_words rfl)
  · intro page hp free
    have taken := hb.take hp free
    have eq : Keeps r tables frames (r.answered.take page) tables frames := .of_words rfl
    cases zero with
    | false => exact gives page _ taken eq
    | true =>
      have words : ∀ p i, p % 4096 = 0 → p ≠ page → i < 1024 →
          ((r.answered.take page).fill page 0).word (p + 4 * i) = (r.answered.take page).word
            (p + 4 * i) :=
        fun p i ha differs hi => fill_word_ne ha hp.aligned differs hi
      apply gives page
      · exact taken.alter (.head _) words rfl rfl rfl rfl rfl
      · exact eq.trans (taken.keeps (.head _) words)

theorem wp_free (hb : Backed r0 others r pd tables frames) (mem : page ∈ others) :
    Wp (pallocFreePage page) (fun _ r' => Backed r0 (others.erase page) r' pd tables frames ∧
      Keeps r tables frames r' tables frames) r := by
  have hp := hb.isPage mem
  have used := (hb.ledger.used page (mem_append_left _ mem)).2
  obtain ⟨ne, outside⟩ := hb.apart page mem
  have words : ∀ p i, p % 4096 = 0 → p ≠ page → i < 1024 →
      (r.fill page 0xcccccccc).word (p + 4 * i) = r.word (p + 4 * i) :=
    fun p i ha differs hi => fill_word_ne ha hp.aligned differs hi
  have filled := hb.alter mem words rfl rfl rfl rfl rfl
  apply wp_pallocFreePage hp.1 used
  refine ⟨?_, hb.keeps mem words⟩
  constructor
  case maps =>
    refine filled.maps.keep rfl ?_ fun _ _ _ _ => rfl
    rintro p (rfl | ⟨i, is⟩) used
    · exact (mem_erase_of_ne ne.symm).mpr used
    · refine (mem_erase_of_ne ?_).mpr used
      rintro rfl
      exact outside i is
  case own => exact hb.own
  case owned =>
    refine ⟨fun u p is => ?_, hb.owned.apart, hb.owned.once⟩
    refine (mem_erase_of_ne ?_).mpr (hb.owned.used u p is)
    rintro rfl
    exact hb.unmapped mem u is
  case ledger =>
    have dropped : Ledger r0 ((r.fill page 0xcccccccc).drop page) _ :=
      hb.ledger.drop (mem_append_left _ mem)
    rwa [erase_append_left _ mem] at dropped
  case apart => exact fun p hi => hb.apart p (mem_of_mem_erase hi)

/-- No page is held twice. -/
theorem nodup_held (hm : Maps r pd tables frames) (owned : Owned r pd tables frames)
    (nodup : others.Nodup) (ne : ∀ p ∈ others, p ≠ pd ∧ ∀ i, tables i ≠ some p)
    (unmapped : ∀ p ∈ others, ∀ u, frames u ≠ some p) :
    (others ++ pagesIn pd tables frames).Nodup := by
  apply nodup_append.mpr
  refine ⟨nodup, pagesIn_nodup hm owned, fun p mem q hi eq => ?_⟩
  subst eq
  rcases (mem_pagesIn hm).mp hi with ⟨u, is⟩ | ⟨i, _, is⟩ | is
  · exact unmapped p mem u is
  · exact (ne p mem).2 i is
  · exact (ne p mem).1 is

section
variable (hb : Backed r0 others r pd tables frames)
include hb

/-- Page tables have been added. -/
theorem grow (moves : Moves others frames others' frames') (grows : Grows r r' pd tables tables')
    (spares : SparesKernel r r' tables) (maps : Maps r' pd tables' frames') :
    Backed r0 others' r' pd tables' frames' ∧ Keeps r tables frames r' tables' frames' := by
  obtain ⟨new, obtained, outstanding, nodup, created⟩ := grows.obtained
  have hf : ∀ p ∈ new, p ∉ r.outstanding := by grind
  -- a table is an old one or a new page
  have tables_cases : ∀ i p, tables' i = some p → tables i = some p ∨ p ∈ new := by
    intro i p is
    cases before : tables i with
    | none => exact .inr ((created p).mpr ⟨i, before, is⟩)
    | some t =>
      rw [grows.keeps i t before] at is
      exact .inl is
  have pages : ∀ p, r'.IsPage p ↔ r.IsPage p := by
    unfold Ram.IsPage
    rw [grows.initRamPages]
    exact fun _ => Iff.rfl
  -- a page in use that was no table is none now
  have apart_of : ∀ p ∈ r.outstanding, (∀ i, tables i ≠ some p) → ∀ i, tables' i ≠ some p := by
    grind
  have used : ∀ p ∈ others, p ∈ r.outstanding :=
    fun p mem => (hb.ledger.used p (mem_append_left _ mem)).2
  have ha : ∀ p ∈ others, p ≠ pd ∧ ∀ i, tables' i ≠ some p := by
    intro p mem
    obtain ⟨ne, outside⟩ := hb.apart p mem
    exact ⟨ne, apart_of p (used p mem) outside⟩
  have owned : Owned r' pd tables' frames' := by
    refine ⟨fun u p is => ?_, fun u p is => ?_, moves.once⟩
    · rcases moves.origin u p is with old | mem
      · exact grows.outstanding p (hb.owned.used u p old)
      · exact grows.outstanding p (used p mem)
    · rcases moves.origin u p is with old | mem
      · obtain ⟨ne, outside⟩ := hb.owned.apart u p old
        exact ⟨ne, apart_of p (hb.owned.used u p old) outside⟩
      · exact ha p mem
  have apart' : ∀ p ∈ others', p ≠ pd ∧ ∀ i, tables' i ≠ some p :=
    fun p mem => ha p (moves.stays p mem).1
  refine ⟨⟨maps, grows.initPageDir ▸ hb.own, owned, ?_, apart'⟩,
    ⟨fun u p is => ⟨moves.keeps u p is, ?_⟩, grows.kernel, spares⟩⟩
  · have hp : ∀ p ∈ new, r.IsPage p := by
      intro p mem
      obtain ⟨i, _, is⟩ := (created p).mp mem
      exact (pages p).mp (maps.table i p is).2.1
    have ledger :=
      hb.ledger.obtain_ grows.initRamPages outstanding obtained grows.released nodup hp hf
    apply ledger.perm
    apply (perm_ext_iff_of_nodup ledger.nodup _).mpr
    · intro p
      have table : (∃ i < pdNo physBase, tables' i = some p) ↔
          p ∈ new ∨ ∃ i < pdNo physBase, tables i = some p := by
        constructor
        · rintro ⟨i, lower, is⟩
          exact (tables_cases i p is).symm.imp id fun old => ⟨i, lower, old⟩
        · rintro (hm | ⟨i, lower, is⟩)
          · obtain ⟨i, absent, is⟩ := (created p).mp hm
            refine ⟨i, ?_, is⟩
            by_contra upper
            rw [grows.kernel i (by omega), absent] at is
            cases is
          · exact ⟨i, lower, grows.keeps i p is⟩
      have frame : (p ∈ others ∨ ∃ u, frames u = some p) ↔
        (p ∈ others' ∨ ∃ u, frames' u = some p) := by
        constructor
        · rintro (mem | ⟨u, is⟩)
          · exact moves.goes p mem
          · exact .inr ⟨u, moves.keeps u p is⟩
        · rintro (mem | ⟨u, is⟩)
          · exact .inl (moves.stays p mem).1
          · exact (moves.origin u p is).symm.imp id fun old => ⟨u, old⟩
      simp only [mem_append, mem_pagesIn hb.maps, mem_pagesIn maps, table]
      rw [← or_assoc (a := p ∈ others'), ← frame]
      simp only [or_assoc, or_left_comm]
    · exact nodup_held maps owned moves.nodup apart' fun p mem => (moves.stays p mem).2
  · intro i hi
    refine ramBytes_congr (fun j lt => ?_) hi
    exact grows.others p (hb.maps.frame u p is).2.1 (hb.owned.used u p is)
      (hb.owned.apart u p is).1 (hb.owned.apart u p is).2 j lt

theorem nodup_others : others.Nodup :=
  (nodup_append.mp hb.ledger.nodup).1

theorem unmoved : Moves others frames others frames where
  nodup := hb.nodup_others
  stays _ mem := ⟨mem, hb.unmapped mem⟩
  goes _ := .inl
  keeps _ _ := id
  origin _ _ := .inl
  once := hb.owned.once

theorem moved (mem : k ∈ others) {u : Nat}
    (free : frames u = none) : Moves others frames (others.erase k) (update frames u (some k)) where
  nodup := hb.nodup_others.erase k
  stays p hi := by
    obtain ⟨ne, hi⟩ := hb.nodup_others.mem_erase_iff.mp hi
    refine ⟨hi, fun v is => ?_⟩
    rw [update_apply] at is
    split at is
    · exact ne (Option.some.inj is).symm
    · exact hb.unmapped hi v is
  goes p hi := by
    by_cases eq : p = k
    · exact .inr ⟨u, by rw [update_self, eq]⟩
    · exact .inl ((mem_erase_of_ne eq).mpr hi)
  keeps v p is := by
    rw [update_of_ne _ _ _]
    · exact is
    · rintro rfl
      rw [free] at is
      cases is
  origin v p is := by
    rw [update_apply] at is
    split at is
    · exact .inr (Option.some.inj is ▸ mem)
    · exact .inl is
  once v w p is is' := by
    rw [update_apply] at is is'
    split at is <;> split at is' <;> rename_i first second
    · exact first.trans second.symm
    · exact absurd is' (hb.unmapped (Option.some.inj is ▸ mem) w)
    · exact absurd is (hb.unmapped (Option.some.inj is' ▸ mem) v)
    · exact hb.owned.once v w p is is'

theorem wp_installPage (mem : k ∈ others) {upage : Nat}
    (ha : pgOfs upage = 0) (user : isUserVaddr upage) (hw : Bool) :
    Wp (installPage pd upage k hw) (fun done r' => ∃ tables', if done then
        frames (pgNo upage) = none ∧
        Backed r0 (others.erase k) r' pd tables' (update frames (pgNo upage) (some k)) ∧
        Keeps r tables frames r' tables' (update frames (pgNo upage) (some k)) ∧
        ∀ i < 4096, ramBytes r' k i = ramBytes r k i
      else Backed r0 others r' pd tables' frames ∧ Keeps r tables frames r' tables' frames) r := by
  simp only [installPage, wp_bind, hb.maps.wp_pagedirGetPage user]
  cases free : frames (pgNo upage) with
  | some p =>
    rw [Option.map_some, wp_pure]
    exact ⟨tables, hb, .of_words rfl⟩
  | none =>
    rw [Option.map_none]
    have runs : Runs _ (pagedirSetPage pd upage k hw) _ r := hb.maps.runs_pagedirSetPage hb.own
    apply (runs.wp ⟨ha, user, hb.isPage mem, free⟩).mono
    rintro done r' ⟨tables', hm, grows, spares⟩
    refine ⟨tables', ?_⟩
    cases done with
    | true =>
      obtain ⟨backed', keeps⟩ := hb.grow (hb.moved mem free) grows spares hm
      obtain ⟨ne, outside⟩ := hb.apart k mem
      obtain ⟨hp, used⟩ := hb.ledger.used k (mem_append_left _ mem)
      exact ⟨rfl, backed', keeps, fun i hi => ramBytes_congr
        (fun j lt => grows.others k hp used ne outside j lt) hi⟩
    | false => exact hb.grow hb.unmoved grows spares hm

end

end Backed

/-! ### What the processor sees -/

/-- The kernel's address for what is at `vaddr`, by the page directory and a page table. -/
def translate (r : Ram) (pd vaddr : Nat) : Option Nat :=
  let pde := r.word (pd + 4 * pdNo vaddr)
  if pde &&& pteP = 0 then none
  else
    let pte := r.word ((pde &&& pteAddr) + physBase + 4 * ptNo vaddr)
    if pte &&& pteP = 0 then none else some ((pte &&& pteAddr) + physBase + pgOfs vaddr)

def userByte (r : Ram) (pd vaddr : Nat) : Option UInt8 :=
  (translate r pd vaddr).map fun k => put32 (r.word (k - k % 4)) (k % 4)

theorem Maps.translate_none (hm : Maps r pd tables frames) (hf : vaddr < 2 ^ 32)
    (ha : tables (pdNo vaddr) = none) : translate r pd vaddr = none := by
  have pde := hm.pde _ (pdNo_lt hf)
  rw [ha, Option.elim_none] at pde
  unfold translate
  rw [pde]
  rfl

theorem Maps.translate_some (hm : Maps r pd tables frames) {t : Nat} (hf : vaddr < 2 ^ 32)
    (is : tables (pdNo vaddr) = some t) :
    translate r pd vaddr = (if r.word (t + 4 * ptNo vaddr) &&& pteP = 0 then none
      else some ((r.word (t + 4 * ptNo vaddr) &&& pteAddr) + physBase + pgOfs vaddr)) := by
  have pde := hm.pde _ (pdNo_lt hf)
  rw [is, Option.elim_some] at pde
  have hp := (hm.table _ t is).2.1
  have address := hp.pde_address hm.small
  have kernel : physBase ≤ t := hp.2.1
  unfold translate
  simp only [pde, pdeValue_present, if_false, address, Nat.sub_add_cancel kernel]

theorem Maps.translate_user (hm : Maps r pd tables frames) (user : isUserVaddr vaddr) :
    translate r pd vaddr = (frames (pgNo vaddr)).map (· + pgOfs vaddr) := by
  cases is : tables (pdNo vaddr) with
  | none => rw [hm.translate_none (user_fits user) is, hm.frames_none is, Option.map_none]
  | some t =>
    have entry := hm.entry_at user is
    rw [hm.translate_some (user_fits user) is]
    cases mapped : frames (pgNo vaddr) with
    | none =>
      rw [mapped] at entry
      exact if_pos entry
    | some kpage =>
      rw [mapped] at entry
      obtain ⟨present, address⟩ := entry
      have kernel : physBase ≤ kpage := (hm.frame _ kpage mapped).2.1.2.1
      rw [if_neg present, address, Nat.sub_add_cancel kernel, Option.map_some]

theorem Maps.userByte_eq (hm : Maps r pd tables frames) (user : isUserVaddr vaddr) :
    userByte r pd vaddr = (frames (pgNo vaddr)).map fun p => ramBytes r p (pgOfs vaddr) := by
  unfold userByte
  rw [hm.translate_user user, Option.map_map]
  cases mapped : frames (pgNo vaddr) with
  | none => rfl
  | some p =>
    have ha := (hm.frame _ p mapped).2.1.aligned
    have place : p + pgOfs vaddr - pgOfs vaddr % 4 = p + 4 * (pgOfs vaddr / 4) := by omega
    have rest : (p + pgOfs vaddr) % 4 = pgOfs vaddr % 4 := by omega
    simp only [Option.map_some, comp, ramBytes, rest, place]

/-- Addresses of the kernel mean what they meant. -/
theorem Keeps.translate_kernel (keeps : Keeps r tables frames r' tables' frames')
    (hm : Maps r pd tables frames) (maps' : Maps r' pd tables' frames')
    (hf : vaddr < 2 ^ 32) (kernel : ¬ isUserVaddr vaddr) :
    translate r' pd vaddr = translate r pd vaddr := by
  have upper : pdNo physBase ≤ pdNo vaddr := by
    by_contra lower
    exact kernel (user_of_pdNo (by omega))
  have eq := keeps.kernel _ upper
  cases is : tables (pdNo vaddr) with
  | none => rw [hm.translate_none hf is, maps'.translate_none hf (eq.trans is)]
  | some t =>
    rw [hm.translate_some hf is, maps'.translate_some hf (eq.trans is),
      keeps.spares _ t upper is _ (ptNo_lt vaddr)]

theorem Keeps.userByte_eq (keeps : Keeps r tables frames r' tables' frames')
    (hm : Maps r pd tables frames) (maps' : Maps r' pd tables' frames')
    (user : isUserVaddr vaddr) (mapped : translate r pd vaddr ≠ none) :
    translate r' pd vaddr = translate r pd vaddr ∧ userByte r' pd vaddr = userByte r pd vaddr := by
  rw [hm.translate_user user] at mapped ⊢
  rw [maps'.translate_user user, hm.userByte_eq user, maps'.userByte_eq user]
  cases is : frames (pgNo vaddr) with
  | none =>
    rw [is] at mapped
    exact absurd rfl mapped
  | some p =>
    obtain ⟨is', bytes⟩ := keeps.frame _ p is
    have hi : pgOfs vaddr < 4096 := by
      rw [pgOfs_eq]
      omega
    rw [is']
    simp only [Option.map_some, bytes _ hi, and_self]

end Pintos.Userprog
