import Pintos.Devices.IntqWaits

/-!
# An interrupt queue is first in, first out

From `tail` up to `head` stand the bytes that were put and not returned yet, oldest first.
-/

namespace Pintos.Devices

open Machine List

/-- The queue holds these bytes, oldest first. -/
structure Stores (q : Intq) (bytes : List UInt8) : Prop where
  few : bytes.length < intqBufsize
  tail : q.tail < intqBufsize
  head : q.head = (q.tail + bytes.length) % intqBufsize
  byte : ∀ (i : Nat) (h : i < bytes.length), q.buf ((q.tail + i) % intqBufsize) = bytes[i]

def Op.returns (q : Intq) : Op → List UInt8
  | .getc => [q.buf q.tail]
  | .putc _ => []

def Op.given : Op → List UInt8
  | .getc => []
  | .putc byte => [byte]

section
variable {q : Intq} {bytes : List UInt8} (stores : Stores q bytes)
include stores

theorem Stores.agree {q' : Intq} (eq : (q'.buf, q'.head, q'.tail) = (q.buf, q.head, q.tail)) :
    Stores q' bytes := by
  simp only [Prod.mk.injEq] at eq
  obtain ⟨buf, head, tail⟩ := eq
  constructor
  · exact stores.few
  · rw [tail]; exact stores.tail
  · rw [head, tail]; exact stores.head
  · rw [buf, tail]; exact stores.byte

theorem Stores.empty_iff : q.empty = true ↔ bytes.length = 0 := by
  obtain ⟨few, tail, head, -⟩ := stores
  unfold Intq.empty intqBufsize at *
  rw [decide_eq_true_eq]
  omega

theorem Stores.full_iff : q.full = true ↔ bytes.length = intqBufsize - 1 := by
  obtain ⟨few, tail, head, -⟩ := stores
  unfold Intq.full next intqBufsize at *
  rw [decide_eq_true_eq]
  omega

/-- An operation that need not wait takes the oldest byte, or puts one where none is stored. -/
theorem Stores.move {op : Op} (may : q.blocks op.waiter = false) :
    ∃ rest, bytes ++ op.given = op.returns q ++ rest ∧ Stores (q.move op) rest := by
  have full := stores.full_iff
  have empty := stores.empty_iff
  obtain ⟨few, tail, head, byte⟩ := stores
  cases op with
  | getc =>
    have may : q.empty = false := may
    cases bytes with
    | nil => simp [may] at empty
    | cons b rest =>
      have oldest := byte 0 (by simp)
      rw [Nat.add_zero, Nat.mod_eq_of_lt tail] at oldest
      refine ⟨rest, by simp [Op.given, Op.returns, oldest], ?_⟩
      simp only [Intq.move, next, length_cons] at few head ⊢
      refine ⟨by omega, Nat.mod_lt _ (by decide), ?_, fun i hi => ?_⟩
      · rw [head, Nat.mod_add_mod]
        congr 1
        omega
      · have later := byte (i + 1) (by simpa using hi)
        rwa [Nat.mod_add_mod, Nat.add_assoc, Nat.add_comm 1 i]
  | putc b =>
    have may : q.full = false := may
    rw [may] at full
    have room : bytes.length + 1 < intqBufsize := by simp at full; omega
    refine ⟨bytes ++ [b], rfl, ?_⟩
    simp only [Intq.move, next]
    refine ⟨by simpa using room, tail, ?_, fun i hi => ?_⟩
    · rw [head, Nat.mod_add_mod, length_append, length_singleton, Nat.add_assoc]
    · show Function.update q.buf q.head b _ = _
      rw [Function.update_apply]
      rw [length_append, length_singleton] at hi
      by_cases last : i = bytes.length
      · simp [head, last]
      · have ne : (q.tail + i) % intqBufsize ≠ q.head := by unfold intqBufsize at *; omega
        have within : i < bytes.length := by omega
        rw [if_neg ne, byte i within, getElem_append_left within]

end

namespace Monitor

/-- The operation whose access to the buffer the event is. -/
def access (s : Monitor) : IntqEvent → Option Op
  | .handler op => some op
  | .statement _ _ => s.running.bind fun t => match s.pc t with
    | .move op => some op
    | _ => none
  | _ => none

def puts (s : Monitor) (e : IntqEvent) : List UInt8 := (s.access e).elim [] Op.given

/-- The step is the access of `op` to the buffer, or none. -/
def Accesses (s s' : Monitor) : Option Op → Prop
  | none => (s'.q.buf, s'.q.head, s'.q.tail, s'.returned) =
      (s.q.buf, s.q.head, s.q.tail, s.returned)
  | some op => s.q.blocks op.waiter = false ∧ (s'.q.buf, s'.q.head, s'.q.tail, s'.returned) =
      ((s.q.move op).buf, (s.q.move op).head, (s.q.move op).tail, op.returns s.q ++ s.returned)

variable {s s' : Monitor}

theorem threadUnblock_returned (s : Monitor) (t : ThreadPtr) :
    (s.threadUnblock t).returned = s.returned := by
  unfold threadUnblock
  split <;> rfl

theorem move_accesses {op : Op} (may : s.q.blocks op.waiter = false) :
    Accesses s (s.move op) (some op) := by
  refine ⟨may, ?_⟩
  unfold move signal
  dsimp only
  split
  · cases op <;> rfl
  · split
    · cases op <;> rfl
    · simp only [threadUnblock_returned, Intq.setWaiter]
      cases op <;> rfl

theorem step_accesses {e : IntqEvent} (sane : Sane s) (ran : s.step e = some s') :
    Accesses s s' (s.access e) := by
  unfold step at ran
  split_ifs at ran
  cases e with
  | call t op | dispatch t =>
    dsimp only at ran
    split_ifs at ran
    cases ran
    rfl
  | handler op =>
    dsimp only at ran
    split_ifs at ran with may
    cases ran
    exact move_accesses may.2
  | statement wake yields =>
    obtain ⟨t, runs, ran⟩ := Option.bind_eq_some_iff.mp ran
    have none : (∀ op, s.pc t ≠ .move op) → s.access (.statement wake yields) = none := by
      simp +contextual [access, runs]
    unfold statement at ran
    split at ran
    · cases ran
    · cases ran
      rw [none (by simp_all)]
      rfl
    · rw [none (by simp_all)]
      cases ran
      unfold lockAcquire
      split_ifs <;> rfl
    · rw [none (by simp_all)]
      cases ran
      unfold wait
      split_ifs <;> rfl
    · rename_i h
      rw [none (by simp [h])]
      unfold lockRelease at ran
      rw [if_pos ((sane.holder t).mpr (h ▸ rfl))] at ran
      obtain ⟨s1, upped, rfl⟩ := Option.map_eq_some_iff.mp ran
      unfold semaUp at upped
      split at upped
      · cases upped
        rfl
      · split_ifs at upped
        cases upped
        simp only [Accesses, threadUnblock_returned]
        rfl
    · rename_i op h
      have some : s.access (.statement wake yields) = some op := by simp [access, runs, h]
      rw [some]
      cases ran
      exact move_accesses (s := s.goto t .outside) (sane.moves t op h)

/-- What was given to `intq_putc`, newest first, has been returned or is stored. -/
def Fifo (given : List UInt8) (s : Monitor) : Prop :=
  ∃ bytes, given.reverse = s.returned.reverse ++ bytes ∧ Stores s.q bytes

theorem Fifo.step {e : IntqEvent} {given : List UInt8} (sane : Sane s) (fifo : Fifo given s)
    (ran : s.step e = some s') : Fifo (s.puts e ++ given) s' := by
  obtain ⟨bytes, all, stores⟩ := fifo
  have accesses := step_accesses sane ran
  unfold puts
  cases h : s.access e with
  | none =>
    rw [h] at accesses
    simp only [Accesses, Prod.mk.injEq] at accesses
    obtain ⟨buf, head, tail, returned⟩ := accesses
    exact ⟨bytes, by rw [returned]; exact all, stores.agree (by rw [buf, head, tail])⟩
  | some op =>
    rw [h] at accesses
    obtain ⟨may, view⟩ := accesses
    simp only [Prod.mk.injEq] at view
    obtain ⟨buf, head, tail, returned⟩ := view
    obtain ⟨rest, hm, stores'⟩ := stores.move may
    refine ⟨rest, ?_, stores'.agree (by rw [buf, head, tail])⟩
    have one : op.given.reverse = op.given ∧ (op.returns s.q).reverse = op.returns s.q := by
      cases op <;> exact ⟨rfl, rfl⟩
    rw [returned, Option.elim_some, reverse_append, reverse_append, one.1, one.2, all,
      append_assoc, hm, append_assoc]

/-- In every run, what `intq_getc` has returned and then what is stored is what `intq_putc` was
given, in that order. -/
theorem interrupt_queue_fifo {buf : Nat → UInt8} {history : List IntqEvent}
    (run : Run step Free (init buf) history s) : ∃ bytes,
      (log step puts (init buf) history).reverse = s.returned.reverse ++ bytes ∧ Stores s.q bytes ∧
      bytes.length ≤ intqBufsize - 1 ∧ (s.q.full = true ↔ bytes.length = intqBufsize - 1) ∧
      (s.q.empty = true ↔ bytes.length = 0) := by
  have hr : Sane s ∧ Fifo (log step puts (init buf) history) s := by
    apply run.log_invariant (I := fun given s => Sane s ∧ Fifo given s)
    · exact ⟨sane_init buf, [], rfl, by decide, Nat.zero_lt_succ _, rfl, nofun⟩
    · exact fun _ _ _ _ inv _ ran => ⟨(inv.1.step ran).1, inv.2.step inv.1 ran⟩
  obtain ⟨-, bytes, all, stores⟩ := hr
  exact ⟨bytes, all, stores, Nat.le_pred_of_lt stores.few, stores.full_iff, stores.empty_iff⟩

theorem interrupt_queue_fifo_inTurn : ∃ s bytes, Run step Free (init fun _ => 0) inTurn.reverse s ∧
    (log step puts (init fun _ => 0) inTurn.reverse).reverse = s.returned.reverse ++ bytes := by
  have seen : (runs step Free (init fun _ => 0) inTurn).isSome = true := by decide +kernel
  obtain ⟨s, ran⟩ := Option.isSome_iff_exists.mp seen
  obtain ⟨bytes, all, _⟩ := interrupt_queue_fifo (runs_run ran)
  exact ⟨s, bytes, runs_run ran, all⟩

end Monitor

end Pintos.Devices
