import Mathlib

/-!
# Byte memory with a record of what is touched

Memory is a function from offsets to bytes, and every access appends the offsets it
reads or writes to `touched`. `load` and `store` are the little-endian loops over
`n` bytes; `littleEndian` and `put` are what they compute.

`memBit` reads the memory from an offset on as one string of bits. A load of a word
is the word's bits of that string, and a store changes these bits and no others, so
whatever is packed into the string (bits, pairs, bytes) is reasoned about there.
-/

namespace ByteMem

/-- The bytes, and the offsets accessed so far. -/
structure Mem where
  bytes : Nat → BitVec 8
  touched : List Nat

abbrev MemM := StateM Mem

def loadByte (a : Nat) : MemM (BitVec 8) := fun m =>
  (m.bytes a, { m with touched := a :: m.touched })

def storeByte (a : Nat) (b : BitVec 8) : MemM Unit := fun m =>
  ((), ⟨fun x => if x = a then b else m.bytes x, a :: m.touched⟩)

/-- `for (i = 0; i < n; ++i) value |= mem[a + i] << (8 * i)` -/
def load (a : Nat) : Nat → MemM Nat
  | 0 => pure 0
  | n + 1 => do
    let value ← load a n
    let b ← loadByte (a + n)
    pure (value ||| b.toNat <<< (8 * n))

/-- `for (i = 0; i < n; ++i) mem[a + i] = value >> (8 * i)` -/
def store (a value : Nat) : Nat → MemM Unit
  | 0 => pure ()
  | n + 1 => do
    store a value n
    storeByte (a + n) (BitVec.ofNat 8 (value >>> (8 * n)))

/-! ## What the loops compute -/

/-- The number in the `n` bytes from `a` on. -/
def littleEndian (f : Nat → BitVec 8) (a : Nat) : Nat → Nat
  | 0 => 0
  | n + 1 => littleEndian f a n ||| (f (a + n)).toNat <<< (8 * n)

/-- The bytes after a store. -/
def put (f : Nat → BitVec 8) (a value n : Nat) (x : Nat) : BitVec 8 :=
  if a ≤ x ∧ x < a + n then BitVec.ofNat 8 (value >>> (8 * (x - a))) else f x

/-- The offsets of `n` bytes, the last one first. -/
def trail (a : Nat) : Nat → List Nat
  | 0 => []
  | n + 1 => (a + n) :: trail a n

@[simp] theorem mem_trail {a n x : Nat} : x ∈ trail a n ↔ a ≤ x ∧ x < a + n := by
  induction n with
  | zero => simp [trail]
  | succ n ih =>
    rw [trail, List.mem_cons, ih]
    omega

theorem load_run (a n : Nat) (m : Mem) :
    load a n m = (littleEndian m.bytes a n, { m with touched := trail a n ++ m.touched }) := by
  induction n with
  | zero => rfl
  | succ n ih =>
    change (do let b ← loadByte (a + n); pure ((load a n m).1 ||| b.toNat <<< (8 * n)) : MemM Nat)
      (load a n m).2 = _
    rw [ih]
    rfl

theorem put_succ (f : Nat → BitVec 8) (a value n : Nat) :
    (fun x => if x = a + n then BitVec.ofNat 8 (value >>> (8 * n)) else put f a value n x) =
      put f a value (n + 1) := by
  funext x
  simp only [put]
  rcases Nat.lt_trichotomy x (a + n) with hlt | rfl | hgt
  · rw [if_neg (by omega)]
    exact if_congr (by omega) rfl rfl
  · rw [if_pos rfl, if_pos (by omega), Nat.add_sub_cancel_left]
  · rw [if_neg (by omega), if_neg (by omega), if_neg (by omega)]

theorem store_run (a value n : Nat) (m : Mem) :
    store a value n m = ((), ⟨put m.bytes a value n, trail a n ++ m.touched⟩) := by
  induction n with
  | zero =>
    have hput : put m.bytes a value 0 = m.bytes := by
      funext x
      exact if_neg (by omega)
    rw [hput]
    rfl
  | succ n ih =>
    change storeByte (a + n) _ (store a value n m).2 = _
    rw [ih, ← put_succ]
    rfl

/-! ## Footprints -/

/-- `x` touches the offsets of `S` and no others, whatever the memory holds. -/
def Touches {α : Type} (x : MemM α) (S : Nat → Prop) : Prop :=
  ∀ m a, a ∈ (x m).2.touched ↔ S a ∨ a ∈ m.touched

/-- The `n` bytes from `a` on. -/
def Bytes (a n x : Nat) : Prop := a ≤ x ∧ x < a + n

namespace Touches

variable {α β : Type} {x : MemM α} {f : α → MemM β} {S : Nat → Prop}

theorem load (a n : Nat) : Touches (load a n) (Bytes a n) := by
  intro m x
  rw [load_run]
  simp [Bytes]

theorem store (a value n : Nat) : Touches (store a value n) (Bytes a n) := by
  intro m x
  rw [store_run]
  simp [Bytes]

theorem pure (v : α) : Touches (pure v) fun _ => False := by
  intro m a
  exact (or_iff_right id).symm

theorem congr {T : Nat → Prop} (hx : Touches x S) (h : ∀ a, S a ↔ T a) : Touches x T := by
  intro m a
  rw [hx, h]

/-- Two parts that touch the same offsets. -/
theorem bind (hx : Touches x S) (hf : ∀ v, Touches (f v) S) : Touches (x >>= f) S := by
  intro m a
  change a ∈ (f (x m).1 (x m).2).2.touched ↔ _
  rw [hf, hx, ← or_assoc, or_self]

/-- A continuation that touches nothing. -/
theorem map (hx : Touches x S) (hf : ∀ v, Touches (f v) fun _ => False) :
    Touches (x >>= f) S := by
  intro m a
  change a ∈ (f (x m).1 (x m).2).2.touched ↔ _
  rw [hf, hx, false_or]

end Touches

/-! ## Frames -/

/-- The bytes that are not recorded as touched keep their values. -/
def Framed {α : Type} (x : MemM α) : Prop :=
  ∀ m, ∃ log, (x m).2.touched = log ++ m.touched ∧ ∀ a, a ∉ log → (x m).2.bytes a = m.bytes a

namespace Framed

variable {α β : Type} {x : MemM α} {f : α → MemM β}

theorem load (a n : Nat) : Framed (load a n) := by
  intro m
  rw [load_run]
  exact ⟨trail a n, rfl, fun _ _ => rfl⟩

theorem store (a value n : Nat) : Framed (store a value n) := by
  intro m
  rw [store_run]
  exact ⟨trail a n, rfl, fun x hx => if_neg fun hin => hx (mem_trail.mpr hin)⟩

theorem pure (v : α) : Framed (pure v) := fun _ => ⟨[], rfl, fun _ _ => rfl⟩

theorem bind (hx : Framed x) (hf : ∀ v, Framed (f v)) : Framed (x >>= f) := by
  intro m
  obtain ⟨log, hlog, hkeep⟩ := hx m
  obtain ⟨log', hlog', hkeep'⟩ := hf (x m).1 (x m).2
  refine ⟨log' ++ log, ?_, fun a ha => ?_⟩
  · rw [List.append_assoc, ← hlog]
    exact hlog'
  · rw [List.mem_append, not_or] at ha
    exact (hkeep' a ha.1).trans (hkeep a ha.2)

end Framed

theorem Touches.frame {α : Type} {x : MemM α} {S : Nat → Prop} (hx : Touches x S) (hf : Framed x)
    (bytes : Nat → BitVec 8) {a : Nat} (ha : ¬ S a) : (x ⟨bytes, []⟩).2.bytes a = bytes a := by
  obtain ⟨log, hlog, hkeep⟩ := hf ⟨bytes, []⟩
  refine hkeep a fun hmem => ha ?_
  have htouched := hx ⟨bytes, []⟩ a
  rw [hlog] at htouched
  exact (htouched.mp (List.mem_append_left _ hmem)).resolve_right List.not_mem_nil

/-! ## Bits -/

/-- Bit `j` of the memory from `a` on. -/
def memBit (f : Nat → BitVec 8) (a j : Nat) : Bool := (f (a + j / 8)).getLsbD (j % 8)

theorem testBit_littleEndian (f : Nat → BitVec 8) (a n j : Nat) :
    (littleEndian f a n).testBit j = (decide (j < 8 * n) && memBit f a j) := by
  induction n with
  | zero => simp [littleEndian]
  | succ n ih =>
    rw [littleEndian, Nat.testBit_or, ih, Nat.testBit_shiftLeft]
    rcases Nat.lt_or_ge j (8 * n) with hlt | hge
    · rw [decide_eq_true hlt, decide_eq_false (by omega : ¬ 8 * n ≤ j),
        decide_eq_true (by omega : j < 8 * (n + 1))]
      simp
    · rw [decide_eq_false (by omega : ¬ j < 8 * n), decide_eq_true hge]
      rcases Nat.lt_or_ge j (8 * (n + 1)) with hin | hout
      · rw [decide_eq_true hin, memBit, show j / 8 = n by omega, show j % 8 = j - 8 * n by omega]
        simp [BitVec.getLsbD]
      · rw [decide_eq_false (by omega : ¬ j < 8 * (n + 1))]
        simp only [Bool.false_and, Bool.false_or, Bool.true_and]
        exact Nat.testBit_lt_two_pow (Nat.lt_of_lt_of_le (f (a + n)).isLt
          (Nat.pow_le_pow_right (by decide) (by omega)))

theorem memBit_add (f : Nat → BitVec 8) (a w j : Nat) :
    memBit f (a + 4 * w) j = memBit f a (32 * w + j) := by
  simp only [memBit]
  rw [show a + 4 * w + j / 8 = a + (32 * w + j) / 8 by omega,
    show (32 * w + j) % 8 = j % 8 by omega]

/-- The bits a store of `n` bytes writes. -/
theorem memBit_put (f : Nat → BitVec 8) (a value n j : Nat) (hj : j < 8 * n) :
    memBit (put f a value n) a j = value.testBit j := by
  rw [memBit, put, if_pos (by omega), Nat.add_sub_cancel_left]
  have hj8 : j % 8 < 8 := Nat.mod_lt _ (by decide)
  simp only [BitVec.getLsbD_ofNat, hj8, decide_true, Bool.true_and, Nat.testBit_shiftRight]
  rw [Nat.div_add_mod]

/-- The bits outside of it. -/
theorem memBit_put_apart {f : Nat → BitVec 8} {a value n b j : Nat}
    (h : ¬ (a ≤ b + j / 8 ∧ b + j / 8 < a + n)) :
    memBit (put f a value n) b j = memBit f b j := by
  rw [memBit, put, if_neg h, memBit]

/-- A load sees only its own bytes. -/
theorem littleEndian_congr {f g : Nat → BitVec 8} {a n : Nat}
    (h : ∀ x, a ≤ x → x < a + n → f x = g x) : littleEndian f a n = littleEndian g a n := by
  induction n with
  | zero => rfl
  | succ n ih =>
    rw [littleEndian, littleEndian, ih fun x hlo hhi => h x hlo (by omega),
      h (a + n) (by omega) (by omega)]

theorem littleEndian_put (f : Nat → BitVec 8) (a value n : Nat) :
    littleEndian (put f a value n) a n = value % 2 ^ (8 * n) := by
  refine Nat.eq_of_testBit_eq fun j => ?_
  rw [testBit_littleEndian, Nat.testBit_mod_two_pow]
  by_cases hj : j < 8 * n
  · rw [memBit_put f a value n j hj]
  · rw [decide_eq_false hj, Bool.false_and, Bool.false_and]

end ByteMem
