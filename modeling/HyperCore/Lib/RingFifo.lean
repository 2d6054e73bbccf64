import Mathlib

/-!
# Ring buffers with a count

A FIFO kept in an array of `n` cells: the next cell to write, the next cell to read, and how many
are in use, so that a full buffer and an empty one are told apart. `toList` is the queue that it
stands for, on which a push appends and a pop takes the front.

`keepLast` is the queue that drops its oldest elements instead of refusing new ones; `DropQueue` counts
them, and is read from.

`feed` is the loop that takes elements from a source and offers each to a bounded queue, until the
source is empty or an element is refused. An element is out of the source when it is offered, so a
refused one is in neither (`feed_exact_iff`).
-/

namespace RingFifo

structure Fifo (α : Type) where
  cells : Nat → α
  head : Nat
  tail : Nat
  count : Nat

structure Wf {α : Type} (n : Nat) (r : Fifo α) : Prop where
  bound : r.count ≤ n
  tail_lt : r.tail < n
  head : r.head = (r.tail + r.count) % n

section

variable {α : Type} {n : Nat} {r : Fifo α}

def push (n : Nat) (r : Fifo α) (a : α) : Fifo α where
  cells := Function.update r.cells r.head a
  head := (r.head + 1) % n
  tail := r.tail
  count := r.count + 1

def pop (n : Nat) (r : Fifo α) : Fifo α :=
  { r with tail := (r.tail + 1) % n, count := r.count - 1 }

def clear (r : Fifo α) : Fifo α := { r with head := 0, tail := 0, count := 0 }

/-- The elements, the oldest first. -/
def toList (n : Nat) (r : Fifo α) : List α :=
  (List.range r.count).map fun i => r.cells ((r.tail + i) % n)

@[simp] theorem length_toList : (toList n r).length = r.count := by
  simp [toList]

theorem toList_eq_nil : toList n r = [] ↔ r.count = 0 := by
  rw [← List.length_eq_zero_iff, length_toList]

theorem push_wf (h : Wf n r) (hroom : r.count < n) (a : α) : Wf n (push n r a) where
  bound := hroom
  tail_lt := h.tail_lt
  head := by
    simp only [push, h.head]
    rw [Nat.mod_add_mod, Nat.add_assoc]

theorem pop_wf (h : Wf n r) (hpos : 0 < r.count) : Wf n (pop n r) where
  bound := Nat.le_trans (Nat.sub_le _ _) h.bound
  tail_lt := Nat.mod_lt _ (Nat.lt_of_le_of_lt (Nat.zero_le _) h.tail_lt)
  head := by
    simp only [pop, h.head]
    rw [Nat.mod_add_mod]
    congr 1
    omega

theorem clear_wf (hn : 0 < n) : Wf n (clear r) := ⟨Nat.zero_le n, hn, (Nat.zero_mod n).symm⟩

theorem toList_clear : toList n (clear r) = [] := rfl

/-- The cells in use are different from the next one to write. -/
theorem cell_ne (h : Wf n r) (hroom : r.count < n) {i : Nat} (hi : i < r.count) :
    (r.tail + i) % n ≠ r.head := by
  rw [h.head]
  intro heq
  have hmod : i ≡ r.count [MOD n] := Nat.ModEq.add_left_cancel' r.tail heq
  exact Nat.ne_of_lt hi (hmod.eq_of_lt_of_lt (Nat.lt_trans hi hroom) hroom)

theorem toList_push (h : Wf n r) (hroom : r.count < n) (a : α) :
    toList n (push n r a) = toList n r ++ [a] := by
  have hold : ∀ i ∈ List.range r.count, Function.update r.cells r.head a ((r.tail + i) % n) =
      r.cells ((r.tail + i) % n) := fun i hi =>
    Function.update_of_ne (cell_ne h hroom (List.mem_range.mp hi)) _ _
  simp only [toList, push]
  rw [List.range_succ, List.map_append, List.map_congr_left hold, List.map_singleton, ← h.head,
    Function.update_self]

theorem toList_pop (h : Wf n r) (hpos : 0 < r.count) :
    toList n r = r.cells r.tail :: toList n (pop n r) := by
  obtain ⟨k, hk⟩ := Nat.exists_eq_succ_of_ne_zero (Nat.ne_of_gt hpos)
  simp only [toList, pop]
  rw [hk, List.range_succ_eq_map, List.map_cons, Nat.add_zero, Nat.mod_eq_of_lt h.tail_lt,
    List.map_map]
  congr 1
  refine List.map_congr_left fun i _ => ?_
  change r.cells ((r.tail + (i + 1)) % n) = _
  rw [Nat.mod_add_mod, Nat.add_assoc, Nat.add_comm 1 i]

end

/-! ## Keeping the last elements -/

section

variable {α : Type} {cap : Nat} {l : List α}

/-- The last `cap` elements. -/
def keepLast (cap : Nat) (l : List α) : List α := l.drop (l.length - cap)

@[simp] theorem length_keepLast : (keepLast cap l).length = min l.length cap := by
  rw [keepLast, List.length_drop]
  omega

theorem keepLast_of_le (h : l.length ≤ cap) : keepLast cap l = l := by
  rw [keepLast, Nat.sub_eq_zero_of_le h, List.drop_zero]

/-- What is dropped on the way makes no difference to the last elements. -/
theorem keepLast_keepLast_append (l m : List α) :
    keepLast cap (keepLast cap l ++ m) = keepLast cap (l ++ m) := by
  have hlen : (keepLast cap l ++ m).length - cap + (l.length - cap) = (l ++ m).length - cap := by
    rw [List.length_append, List.length_append, length_keepLast]
    omega
  have hinside : l.length - cap ≤ l.length := Nat.sub_le _ _
  have hcut : keepLast cap l ++ m = (l ++ m).drop (l.length - cap) := by
    rw [keepLast, List.drop_append_of_le_length hinside]
  rw [keepLast, hcut, List.drop_drop, ← hcut, Nat.add_comm, hlen, keepLast]

end

/-! ## Dropping the oldest element -/

/-- A queue with room for some number of elements that drops its oldest one to make room, and counts
those. -/
structure DropQueue (α : Type) where
  items : List α
  dropped : Nat

namespace DropQueue

variable {α : Type}

def empty : DropQueue α := ⟨[], 0⟩

/-- First the oldest element goes if the queue is full. -/
def write (cap : Nat) (q : DropQueue α) (a : α) : DropQueue α :=
  if q.items.length = cap then ⟨q.items.tail ++ [a], q.dropped + 1⟩ else ⟨q.items ++ [a], q.dropped⟩

/-- The oldest element, or none of an empty queue. -/
def read (q : DropQueue α) : Option α × DropQueue α :=
  match q.items with
  | [] => (none, q)
  | a :: rest => (some a, ⟨rest, q.dropped⟩)

variable {cap : Nat} {q : DropQueue α}

/-- The queue stays an end of what was written. -/
theorem write_suffix {written : List α} (h : q.items <:+ written) (a : α) :
    (q.write cap a).items <:+ written ++ [a] := by
  obtain ⟨front, rfl⟩ := h
  have happend (l : List α) : l ++ [a] <:+ front ++ l ++ [a] := ⟨front, by rw [List.append_assoc]⟩
  unfold write
  split
  · obtain ⟨removed, hremoved⟩ := List.tail_suffix q.items
    refine ⟨front ++ removed, ?_⟩
    rw [← List.append_assoc, List.append_assoc front, hremoved]
  · exact happend q.items

theorem read_suffix : q.read.2.items <:+ q.items := by
  unfold read
  split
  · exact List.suffix_refl _
  · next a rest hitems =>
    rw [hitems]
    exact List.suffix_cons a rest

end DropQueue

/-! ## Feeding from a source -/

section

variable {σ α : Type}

/-- Take the next element of the source and offer it to `accept`, until the source is empty or one
is refused: the state after, and what is left in the source. -/
def feed (accept : σ → α → Bool × σ) (s : σ) : List α → σ × List α
  | [] => (s, [])
  | a :: rest =>
    let r := accept s a
    if r.1 then feed accept r.2 rest else (r.2, rest)

variable {accept : σ → α → Bool × σ} {I : σ → Prop} {queue : σ → List α} {n : Nat} {s : σ}

/-- `accept` is the push of a queue with room for `n`: it takes an element iff there is room. -/
structure Bounded (accept : σ → α → Bool × σ) (I : σ → Prop) (queue : σ → List α) (n : Nat) :
    Prop where
  keeps : ∀ s a, I s → I (accept s a).2
  bound : ∀ s, I s → (queue s).length ≤ n
  took : ∀ s a, I s → (queue s).length < n →
    (accept s a).1 = true ∧ queue (accept s a).2 = queue s ++ [a]
  refused : ∀ s a, I s → (queue s).length = n →
    (accept s a).1 = false ∧ queue (accept s a).2 = queue s

/-- The queue gets the elements that it has room for, and one more is out of the source. -/
theorem feed_spec (h : Bounded accept I queue n) (hs : I s) (source : List α) :
    queue (feed accept s source).1 = queue s ++ source.take (n - (queue s).length) ∧
      (feed accept s source).2 = source.drop (n - (queue s).length + 1) := by
  induction source generalizing s with
  | nil => simp [feed]
  | cons a rest ih =>
    rw [feed]
    rcases Nat.lt_or_eq_of_le (h.bound s hs) with hroom | hfull
    · obtain ⟨htook, hqueue⟩ := h.took s a hs hroom
      obtain ⟨hlist, hleft⟩ := ih (h.keeps s a hs)
      obtain ⟨k, hk⟩ := Nat.exists_eq_succ_of_ne_zero (Nat.sub_ne_zero_of_lt hroom)
      have hk' : n - (queue s ++ [a]).length = k := by
        rw [List.length_append, List.length_singleton]
        omega
      rw [hqueue, hk'] at hlist hleft
      rw [if_pos htook, hlist, hleft, hk]
      simp
    · obtain ⟨hrefused, hqueue⟩ := h.refused s a hs hfull
      rw [if_neg (by simp [hrefused]), hqueue, hfull]
      simp

/-- What leaves the source is what arrives in the queue, exactly when there is room for all of
it. -/
theorem feed_exact_iff (h : Bounded accept I queue n) (hs : I s) (source : List α) :
    (∃ moved, source = moved ++ (feed accept s source).2 ∧
      queue (feed accept s source).1 = queue s ++ moved) ↔
    (queue s).length + source.length ≤ n := by
  obtain ⟨hlist, hleft⟩ := feed_spec h hs source
  have hbound := h.bound s hs
  rw [hlist, hleft]
  constructor
  · rintro ⟨moved, hsplit, hqueue⟩
    have hmoved : source.take (n - (queue s).length) = moved := List.append_cancel_left hqueue
    have hlen := congrArg List.length hsplit
    rw [← hmoved, List.length_append, List.length_take, List.length_drop] at hlen
    omega
  · intro hroom
    refine ⟨source, ?_, ?_⟩
    · rw [List.drop_of_length_le (by omega), List.append_nil]
    · rw [List.take_of_length_le (by omega)]

end

end RingFifo
