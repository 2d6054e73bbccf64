import HyperCore.Lib.Trace
import HyperCore.Log

/-!
# The ring of `log.c` as a queue

One slot of the ring stays free, so that `head == tail` means that it is empty; a write into a full ring
moves the reader's index. Under every order of writes and reads the ring is the queue of
`LOG_BUF_SIZE - 1` characters that drops its oldest one (`ring_refines`).
-/

namespace HyperCore.Log

open RingFifo Trace

/-- A call of the ring's functions. -/
inductive RingCall
  | write (ch : BitVec 8)
  | read

/-- The ring; a write has no answer. -/
def ringCall (b : LogBuf) : RingCall → Option (BitVec 8) × LogBuf
  | .write ch => (none, bufWrite b ch)
  | .read => (some (bufRead b).1, (bufRead b).2)

/-- The queue; the answer of an empty one is 0. -/
def queueCall (q : DropQueue (BitVec 8)) : RingCall → Option (BitVec 8) × DropQueue (BitVec 8)
  | .write ch => (none, q.write capacity ch)
  | .read => (some (q.read.1.getD 0), q.read.2)

/-- The characters that are written. -/
def written : List RingCall → List (BitVec 8)
  | [] => []
  | .write ch :: calls => ch :: written calls
  | .read :: calls => written calls

/-- The ring holds the queue. -/
structure Represents (b : LogBuf) (q : DropQueue (BitVec 8)) : Prop where
  head : b.head < logBufSize
  tail : b.tail < logBufSize
  items : b.retained = q.items
  overflow : b.overflow = BitVec.ofNat 32 q.dropped
  empty : bufEmpty b = true ↔ q.items = []

section

variable {b : LogBuf} {q : DropQueue (BitVec 8)}

theorem represents_of (hitems : b.retained = q.items)
    (hover : b.overflow = BitVec.ofNat 32 q.dropped) : Represents b q := by
  refine ⟨b.head_lt, b.tail_lt, hitems, hover, ?_⟩
  rw [bufEmpty_iff, ← length_retained, List.length_eq_zero_iff, hitems]

theorem Represents.write (h : Represents b q) (ch : BitVec 8) :
    Represents (bufWrite b ch) (q.write capacity ch) := by
  have hle : b.retained.length ≤ capacity := by
    rw [length_retained]
    exact Nat.le_pred_of_lt (used_lt b)
  have hitems := bufWrite_retained b ch
  have hover := bufWrite_overflow b ch
  rw [h.items] at hle
  rw [h.items] at hitems hover
  unfold DropQueue.write
  split
  · next hfull =>
    have hno : ¬ q.items.length < capacity := Nat.not_lt.mpr (Nat.le_of_eq hfull.symm)
    have hne : q.items ≠ [] := List.ne_nil_of_length_pos (by rw [hfull]; decide)
    rw [if_neg hno] at hitems hover
    refine represents_of ?_ ?_
    · rw [hitems, List.tail_append_of_ne_nil hne]
    · rw [hover, h.overflow]
      exact (BitVec.ofNat_add _ _).symm
  · next hfull =>
    have hroom : q.items.length < capacity := Nat.lt_of_le_of_ne hle hfull
    rw [if_pos hroom] at hitems hover
    exact represents_of hitems (hover.trans h.overflow)

theorem Represents.read (h : Represents b q) :
    (bufRead b).1 = q.read.1.getD 0 ∧ Represents (bufRead b).2 q.read.2 := by
  unfold DropQueue.read
  cases hitems : q.items with
  | nil =>
    have hempty : b.head = b.tail := beq_iff_eq.mp (h.empty.mpr hitems)
    rw [bufRead, if_pos hempty]
    exact ⟨rfl, h⟩
  | cons ch rest =>
    have hempty : bufEmpty b = false := by
      rw [Bool.eq_false_iff, ne_eq, h.empty, hitems]
      exact List.cons_ne_nil ch rest
    obtain ⟨hretained, hover⟩ := bufRead_retained hempty
    rw [h.items, hitems] at hretained
    obtain ⟨hfirst, hrest⟩ := List.cons.inj hretained
    exact ⟨hfirst.symm, represents_of hrest.symm (hover.trans h.overflow)⟩

theorem Represents.call (h : Represents b q) (c : RingCall) :
    (ringCall b c).1 = (queueCall q c).1 ∧ Represents (ringCall b c).2 (queueCall q c).2 := by
  cases c with
  | write ch => exact ⟨rfl, h.write ch⟩
  | read =>
    obtain ⟨hanswer, hnext⟩ := h.read
    exact ⟨congrArg some hanswer, hnext⟩

end

theorem represents_boot : Represents bootLog.buf .empty := represents_of rfl rfl

/-- The queue is an end of what was written. -/
theorem items_suffix {q : DropQueue (BitVec 8)} {before : List (BitVec 8)} (h : q.items <:+ before)
    (calls : List RingCall) : (answers queueCall q calls).2.items <:+ before ++ written calls := by
  induction calls generalizing q before with
  | nil =>
    rw [written, List.append_nil]
    exact h
  | cons c calls ih =>
    cases c with
    | write ch =>
      rw [written, List.append_cons]
      exact ih (DropQueue.write_suffix h ch)
    | read => exact ih (DropQueue.read_suffix.trans h)

/-- After any calls the ring has answered like the queue and holds it, a read of an empty ring changes
nothing, and what the ring holds is an end of what was written. -/
theorem ring_refines (calls : List RingCall) :
    (answers ringCall bootLog.buf calls).1 = (answers queueCall .empty calls).1 ∧
      Represents (answers ringCall bootLog.buf calls).2 (answers queueCall .empty calls).2 ∧
      (answers queueCall .empty calls).2.items.length ≤ capacity ∧
      ((answers queueCall .empty calls).2.items = [] →
        bufRead (answers ringCall bootLog.buf calls).2 = (0, (answers ringCall bootLog.buf calls).2)) ∧
      (answers ringCall bootLog.buf calls).2.retained <:+ written calls := by
  have hcall (b : LogBuf) (q : DropQueue (BitVec 8)) (c : RingCall) (h : Represents b q) :=
    Represents.call h c
  obtain ⟨hanswers, hrep⟩ := answers_simulates hcall represents_boot calls
  refine ⟨hanswers, hrep, ?_, fun hempty => ?_, ?_⟩
  · rw [← hrep.items, length_retained]
    exact Nat.le_pred_of_lt (used_lt _)
  · have heq := beq_iff_eq.mp (hrep.empty.mpr hempty)
    rw [bufRead, if_pos heq]
  · rw [hrep.items]
    have hstart : DropQueue.empty.items <:+ ([] : List (BitVec 8)) := List.suffix_rfl
    exact items_suffix hstart calls

end HyperCore.Log
