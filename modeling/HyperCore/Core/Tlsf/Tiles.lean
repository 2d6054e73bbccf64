import HyperCore.Core.Tlsf.Mapping

/-!
# The blocks of a pool

A pool is tiled by blocks. The block at address `b` with `n` bytes owns its size field at `b + 8`
and the `n` bytes after it, and the next block is at `b + 8 + n`; the field `prev_phys_block` of
that one is the last word of this one, and means something only while this one is free.

`Tiles m b prevFree l` says that the blocks of `l` lie from `b` on, with the flags in their size
fields right and the addresses at the ends of the free ones, and that the block of size zero
follows. It does not say where blocks were merged, so it holds between the steps of the
operations too. Every operation has one lemma: the tiles it makes, and the bytes it writes.
-/

namespace HyperCore.Tlsf

open ByteMem MachineInt

/-! ## Size fields -/

/-- The size field of a block of `n` bytes. -/
def sizeWord (n : Nat) (free prevFree : Bool) : SizeT :=
  BitVec.ofNat 64 n ||| (if free then blockHeaderFreeBit else 0#64) |||
    (if prevFree then blockHeaderPrevFreeBit else 0#64)

section

variable {n : Nat} {free prevFree : Bool}

theorem getLsbD_freeBit (i : Nat) : blockHeaderFreeBit.getLsbD i = decide (i = 0) := by
  rw [blockHeaderFreeBit, Segregated.getLsbD_bit]
  by_cases h : i = 0 <;> simp [h]

theorem getLsbD_prevFreeBit (i : Nat) : blockHeaderPrevFreeBit.getLsbD i = decide (i = 1) := by
  rw [blockHeaderPrevFreeBit, Segregated.getLsbD_bit]
  by_cases h : i = 1 <;> simp [h]

theorem testBit_low (h : 8 ∣ n) {i : Nat} (hi : i < 2) : n.testBit i = false := by
  obtain ⟨k, rfl⟩ := h
  rw [show 8 * k = k * 2 ^ 3 by omega, Nat.testBit_mul_two_pow, decide_eq_false (by omega),
    Bool.false_and]

theorem getLsbD_sizeWord {i : Nat} (hi : i < 64) :
    (sizeWord n free prevFree).getLsbD i =
      (n.testBit i || (free && decide (i = 0)) || (prevFree && decide (i = 1))) := by
  rw [sizeWord, BitVec.getLsbD_or, BitVec.getLsbD_or, BitVec.getLsbD_ofNat, decide_eq_true hi,
    Bool.true_and]
  cases free <;> cases prevFree <;>
    simp only [if_true, Bool.false_eq_true, if_false, BitVec.getLsbD_zero, getLsbD_freeBit,
      getLsbD_prevFreeBit, Bool.false_and, Bool.true_and]

theorem sizeWord_size (h : 8 ∣ n) (hn : n < 2 ^ 64) :
    (sizeWord n free prevFree &&& ~~~(blockHeaderFreeBit ||| blockHeaderPrevFreeBit)).toNat = n := by
  have hbits : sizeWord n free prevFree &&& ~~~(blockHeaderFreeBit ||| blockHeaderPrevFreeBit) =
      BitVec.ofNat 64 n := by
    refine BitVec.eq_of_getLsbD_eq fun i hi => ?_
    rw [BitVec.getLsbD_and, BitVec.getLsbD_not, BitVec.getLsbD_or, getLsbD_freeBit,
      getLsbD_prevFreeBit, getLsbD_sizeWord hi, BitVec.getLsbD_ofNat]
    by_cases h0 : i < 2
    · rw [testBit_low h h0]
      have : i = 0 ∨ i = 1 := by omega
      rcases this with rfl | rfl <;> simp
    · simp [hi, show i ≠ 0 by omega, show i ≠ 1 by omega]
  rw [hbits, BitVec.toNat_ofNat, Nat.mod_eq_of_lt hn]

theorem sizeWord_free (h : 8 ∣ n) :
    ((sizeWord n free prevFree &&& blockHeaderFreeBit) != 0) = free := by
  have hbits : sizeWord n free prevFree &&& blockHeaderFreeBit =
      if free then blockHeaderFreeBit else 0#64 := by
    refine BitVec.eq_of_getLsbD_eq fun i hi => ?_
    rw [BitVec.getLsbD_and, getLsbD_freeBit, getLsbD_sizeWord hi]
    by_cases h0 : i = 0
    · subst h0
      rw [testBit_low h (by decide)]
      cases free <;> simp [getLsbD_freeBit]
    · cases free <;> simp [getLsbD_freeBit, h0]
  rw [hbits]
  cases free
  · rfl
  · rfl

theorem sizeWord_prevFree (h : 8 ∣ n) :
    ((sizeWord n free prevFree &&& blockHeaderPrevFreeBit) != 0) = prevFree := by
  have hbits : sizeWord n free prevFree &&& blockHeaderPrevFreeBit =
      if prevFree then blockHeaderPrevFreeBit else 0#64 := by
    refine BitVec.eq_of_getLsbD_eq fun i hi => ?_
    rw [BitVec.getLsbD_and, getLsbD_prevFreeBit, getLsbD_sizeWord hi]
    by_cases h1 : i = 1
    · subst h1
      rw [testBit_low h (by decide)]
      cases prevFree <;> simp [getLsbD_prevFreeBit]
    · cases prevFree <;> simp [getLsbD_prevFreeBit, h1]
  rw [hbits]
  cases prevFree
  · rfl
  · rfl

theorem sizeWord_setFree : sizeWord n free prevFree ||| blockHeaderFreeBit = sizeWord n true prevFree := by
  refine BitVec.eq_of_getLsbD_eq fun i hi => ?_
  rw [BitVec.getLsbD_or, getLsbD_sizeWord hi, getLsbD_sizeWord hi, getLsbD_freeBit]
  by_cases h0 : i = 0 <;> simp [h0]

theorem sizeWord_setUsed (h : 8 ∣ n) :
    sizeWord n free prevFree &&& ~~~blockHeaderFreeBit = sizeWord n false prevFree := by
  refine BitVec.eq_of_getLsbD_eq fun i hi => ?_
  rw [BitVec.getLsbD_and, BitVec.getLsbD_not, getLsbD_sizeWord hi, getLsbD_sizeWord hi,
    getLsbD_freeBit]
  by_cases h0 : i = 0
  · subst h0
    rw [testBit_low h (by decide)]
    simp
  · simp [hi, h0]

theorem sizeWord_setPrevFree :
    sizeWord n free prevFree ||| blockHeaderPrevFreeBit = sizeWord n free true := by
  refine BitVec.eq_of_getLsbD_eq fun i hi => ?_
  rw [BitVec.getLsbD_or, getLsbD_sizeWord hi, getLsbD_sizeWord hi, getLsbD_prevFreeBit]
  by_cases h1 : i = 1 <;> simp [h1]

theorem sizeWord_setPrevUsed (h : 8 ∣ n) :
    sizeWord n free prevFree &&& ~~~blockHeaderPrevFreeBit = sizeWord n free false := by
  refine BitVec.eq_of_getLsbD_eq fun i hi => ?_
  rw [BitVec.getLsbD_and, BitVec.getLsbD_not, getLsbD_sizeWord hi, getLsbD_sizeWord hi,
    getLsbD_prevFreeBit]
  by_cases h1 : i = 1
  · subst h1
    rw [testBit_low h (by decide)]
    simp
  · simp [hi, h1]

/-- A new size leaves the two flags. -/
theorem sizeWord_setSize (h : 8 ∣ n) {size : Nat} :
    BitVec.ofNat 64 size ||| (sizeWord n free prevFree &&&
      (blockHeaderFreeBit ||| blockHeaderPrevFreeBit)) = sizeWord size free prevFree := by
  refine BitVec.eq_of_getLsbD_eq fun i hi => ?_
  rw [BitVec.getLsbD_or, BitVec.getLsbD_and, BitVec.getLsbD_or, getLsbD_sizeWord hi,
    getLsbD_sizeWord hi, getLsbD_freeBit, getLsbD_prevFreeBit, BitVec.getLsbD_ofNat]
  by_cases h0 : i < 2
  · rw [testBit_low h h0]
    have : i = 0 ∨ i = 1 := by omega
    rcases this with rfl | rfl <;> simp
  · simp [hi, show i ≠ 0 by omega, show i ≠ 1 by omega]

/-- The two flags are the two lowest bits of the number. -/
theorem sizeWord_eq (h : 8 ∣ n) :
    sizeWord n free prevFree = BitVec.ofNat 64 (n + (free.toNat + 2 * prevFree.toNat)) := by
  obtain ⟨k, rfl⟩ := h
  refine BitVec.eq_of_getLsbD_eq fun i hi => ?_
  rw [getLsbD_sizeWord hi, BitVec.getLsbD_ofNat, decide_eq_true hi, Bool.true_and]
  have hlow : ∀ b : Nat, b < 8 → (8 * k + b).testBit i =
      if i < 3 then b.testBit i else k.testBit (i - 3) := by
    intro b hb
    rw [show 8 * k + b = 2 ^ 3 * k + b from rfl]
    exact Nat.testBit_two_pow_mul_add k hb i
  rw [hlow _ (by cases free <;> cases prevFree <;> decide), ← Nat.add_zero (8 * k),
    hlow 0 (by decide)]
  by_cases h3 : i < 3
  · simp only [if_pos h3, Nat.zero_testBit, Bool.false_or]
    have : i = 0 ∨ i = 1 ∨ i = 2 := by omega
    rcases this with rfl | rfl | rfl <;> cases free <;> cases prevFree <;> decide
  · simp [if_neg h3, show i ≠ 0 by omega, show i ≠ 1 by omega]

/-- Growing a block by a sum leaves the two flags. -/
theorem sizeWord_add {k : Nat} (h : 8 ∣ n) (hk : 8 ∣ k) :
    sizeWord n free prevFree + BitVec.ofNat 64 k = sizeWord (n + k) free prevFree := by
  rw [sizeWord_eq h, sizeWord_eq (Nat.dvd_add h hk), ← BitVec.ofNat_add]
  congr 1
  omega

/-- Whatever a word holds, writing a size into it gives a size field. -/
theorem setSize_any (w : SizeT) (size : Nat) : ∃ free prevFree,
    BitVec.ofNat 64 size ||| (w &&& (blockHeaderFreeBit ||| blockHeaderPrevFreeBit)) =
      sizeWord size free prevFree := by
  refine ⟨w.getLsbD 0, w.getLsbD 1, BitVec.eq_of_getLsbD_eq fun i hi => ?_⟩
  rw [BitVec.getLsbD_or, BitVec.getLsbD_and, BitVec.getLsbD_or, getLsbD_sizeWord hi,
    getLsbD_freeBit, getLsbD_prevFreeBit, BitVec.getLsbD_ofNat]
  by_cases h0 : i = 0
  · subst h0; simp
  · by_cases h1 : i = 1
    · subst h1; simp
    · simp [hi, h0, h1]

end
/-! ## Words in memory -/

section

variable {m m' : Nat → BitVec 8} {a b v x y : Nat}

theorem word_congr (h : ∀ y, a ≤ y → y < a + 8 → m' y = m y) : word m' a = word m a :=
  littleEndian_congr h

theorem word_put (m : Nat → BitVec 8) (a : Nat) (hv : v < 2 ^ 64) : word (put m a v 8) a = v := by
  rw [word, littleEndian_put, Nat.mod_eq_of_lt hv]

theorem put_apart (h : ¬ (a ≤ y ∧ y < a + 8)) : put m a v 8 y = m y := if_neg h

theorem word_put_apart (h : x + 8 ≤ a ∨ a + 8 ≤ x) : word (put m a v 8) x = word m x :=
  word_congr fun y h1 h2 => put_apart (by omega)

end

/-- The bytes at which two memories may differ. -/
def Differ (S : Nat → Prop) (m m' : Nat → BitVec 8) : Prop := ∀ y, ¬ S y → m' y = m y

namespace Differ

variable {S T : Nat → Prop} {m m' m'' : Nat → BitVec 8}

theorem refl (m : Nat → BitVec 8) : Differ S m m := fun _ _ => rfl

theorem trans (h : Differ S m m') (h' : Differ T m' m'') : Differ (fun y => S y ∨ T y) m m'' := by
  intro y hy
  rw [not_or] at hy
  exact (h' y hy.2).trans (h y hy.1)

theorem mono (h : Differ S m m') (hST : ∀ y, S y → T y) : Differ T m m' :=
  fun y hy => h y fun hs => hy (hST y hs)

theorem put (m : Nat → BitVec 8) (a v : Nat) :
    Differ (fun y => a ≤ y ∧ y < a + 8) m (ByteMem.put m a v 8) := fun _ hy => if_neg hy

theorem word (h : Differ S m m') {a : Nat} (ha : ∀ y, a ≤ y → y < a + 8 → ¬ S y) :
    Tlsf.word m' a = Tlsf.word m a :=
  word_congr fun y h1 h2 => h y (ha y h1 h2)

end Differ

/-! ## Tiles -/

structure Blk where
  size : Nat
  free : Bool
deriving DecidableEq, Repr

/-- What a block needs to hold the fields of a free one. -/
structure Sized (x : Blk) : Prop where
  dvd : 8 ∣ x.size
  min : 24 ≤ x.size

/-- The bytes from the first block to the end. -/
def span : List Blk → Nat
  | [] => 0
  | x :: l => 8 + x.size + span l

/-- Whether the last block is free. -/
def lastFree (prevFree : Bool) : List Blk → Bool
  | [] => prevFree
  | x :: l => lastFree x.free l

/-- The size field of the block at `b`. -/
def Header (m : Nat → BitVec 8) (b : Nat) (x : Blk) (prevFree : Bool) : Prop :=
  BitVec.ofNat 64 (word m (b + 8)) = sizeWord x.size x.free prevFree

def Part (m : Nat → BitVec 8) : Nat → Bool → List Blk → Prop
  | _, _, [] => True
  | b, prevFree, x :: l =>
    Sized x ∧ Header m b x prevFree ∧ (x.free = true → word m (b + 8 + x.size) = b) ∧
      Part m (b + 8 + x.size) x.free l

/-- The block of size zero that ends a pool. -/
def sentinel : Blk := ⟨0, false⟩

def Tiles (m : Nat → BitVec 8) (b : Nat) (prevFree : Bool) (l : List Blk) : Prop :=
  Part m b prevFree l ∧ Header m (b + span l) sentinel (lastFree prevFree l)

/-- Block `y` of the list is at address `a`. -/
def At : Nat → List Blk → Nat → Blk → Prop
  | _, [], _, _ => False
  | b, x :: l, a, y => (a = b ∧ y = x) ∨ At (b + 8 + x.size) l a y

section

variable {m m' : Nat → BitVec 8} {b a a' : Nat} {prevFree : Bool} {x y y' : Blk} {l l₁ l₂ : List Blk}

@[simp] theorem span_nil : span [] = 0 := rfl
@[simp] theorem span_cons : span (x :: l) = 8 + x.size + span l := rfl

@[simp] theorem span_append : span (l₁ ++ l₂) = span l₁ + span l₂ := by
  induction l₁ with
  | nil => simp
  | cons x l₁ ih =>
    rw [List.cons_append, span_cons, span_cons, ih]
    omega

@[simp] theorem lastFree_append :
    lastFree prevFree (l₁ ++ l₂) = lastFree (lastFree prevFree l₁) l₂ := by
  induction l₁ generalizing prevFree with
  | nil => rfl
  | cons x l₁ ih => exact ih

theorem part_append : Part m b prevFree (l₁ ++ l₂) ↔
    Part m b prevFree l₁ ∧ Part m (b + span l₁) (lastFree prevFree l₁) l₂ := by
  induction l₁ generalizing b prevFree with
  | nil => exact ⟨fun h => ⟨trivial, h⟩, And.right⟩
  | cons x l₁ ih =>
    rw [List.cons_append, Part, Part, ih, span_cons, lastFree, and_assoc, and_assoc, and_assoc,
      show b + 8 + x.size + span l₁ = b + (8 + x.size + span l₁) by omega]

theorem tiles_append : Tiles m b prevFree (l₁ ++ l₂) ↔
    Part m b prevFree l₁ ∧ Tiles m (b + span l₁) (lastFree prevFree l₁) l₂ := by
  rw [Tiles, Tiles, part_append, span_append, lastFree_append, and_assoc, ← Nat.add_assoc]

theorem tiles_cons : Tiles m b prevFree (x :: l) ↔
    Sized x ∧ Header m b x prevFree ∧ (x.free = true → word m (b + 8 + x.size) = b) ∧
      Tiles m (b + 8 + x.size) x.free l := by
  rw [Tiles, Tiles, Part, span_cons, lastFree, and_assoc, and_assoc, and_assoc,
    show b + (8 + x.size + span l) = b + 8 + x.size + span l by omega]

theorem Header.congr {f : Bool} (h : Header m b x f) (hm : ∀ y, b + 8 ≤ y → y < b + 16 → m' y = m y) :
    Header m' b x f := by
  rw [Header, word_congr fun y h1 h2 => hm y h1 (by omega)]
  exact h

theorem Part.congr (h : Part m b prevFree l)
    (hm : ∀ y, b + 8 ≤ y → y < b + 8 + span l → m' y = m y) : Part m' b prevFree l := by
  induction l generalizing b prevFree with
  | nil => trivial
  | cons x l ih =>
    rw [span_cons] at hm
    obtain ⟨hsized, hhead, hfoot, hrest⟩ := h
    refine ⟨hsized, hhead.congr fun y h1 h2 => ?_, fun hfree => ?_, ih hrest fun y h1 h2 => ?_⟩
    · exact hm y h1 (by omega)
    · rw [word_congr fun y h1 h2 => hm y (by omega) (by omega)]
      exact hfoot hfree
    · exact hm y (by omega) (by omega)

theorem Tiles.congr (h : Tiles m b prevFree l)
    (hm : ∀ y, b + 8 ≤ y → y < b + span l + 16 → m' y = m y) : Tiles m' b prevFree l :=
  ⟨h.1.congr fun y h1 h2 => hm y h1 (by omega), h.2.congr fun y h1 h2 => hm y (by omega) h2⟩

/-! ## Where the blocks are -/

theorem at_append : At b (l₁ ++ l₂) a y ↔ At b l₁ a y ∨ At (b + span l₁) l₂ a y := by
  induction l₁ generalizing b with
  | nil => exact ⟨Or.inr, fun h => h.resolve_left not_false⟩
  | cons x l₁ ih =>
    rw [List.cons_append, At, At, ih, span_cons, or_assoc,
      show b + 8 + x.size + span l₁ = b + (8 + x.size + span l₁) by omega]

theorem At.bounds (h : At b l a y) : b ≤ a ∧ a + 8 + y.size ≤ b + span l := by
  induction l generalizing b with
  | nil => exact h.elim
  | cons x l ih =>
    rw [span_cons]
    rcases h with ⟨rfl, rfl⟩ | h
    · omega
    · have := ih h
      omega

theorem At.mem (h : At b l a y) : y ∈ l := by
  induction l generalizing b with
  | nil => exact h.elim
  | cons x l ih =>
    rcases h with ⟨-, rfl⟩ | h
    · exact List.mem_cons_self
    · exact List.mem_cons_of_mem _ (ih h)

/-- Two blocks are the same, or one ends before the other. -/
theorem At.apart (h : At b l a y) (h' : At b l a' y') :
    (a = a' ∧ y = y') ∨ a + 8 + y.size ≤ a' ∨ a' + 8 + y'.size ≤ a := by
  induction l generalizing b with
  | nil => exact h.elim
  | cons x l ih =>
    rcases h with ⟨rfl, rfl⟩ | h <;> rcases h' with ⟨rfl, rfl⟩ | h'
    · exact Or.inl ⟨rfl, rfl⟩
    · exact Or.inr (Or.inl h'.bounds.1)
    · exact Or.inr (Or.inr h.bounds.1)
    · exact ih h h'

theorem at_split : At b l a y ↔ ∃ l₁ l₂, l = l₁ ++ y :: l₂ ∧ a = b + span l₁ := by
  constructor
  · intro h
    induction l generalizing b with
    | nil => exact h.elim
    | cons x l ih =>
      rcases h with ⟨rfl, rfl⟩ | h
      · exact ⟨[], l, rfl, rfl⟩
      · obtain ⟨l₁, l₂, rfl, rfl⟩ := ih h
        refine ⟨x :: l₁, l₂, rfl, ?_⟩
        rw [span_cons]
        omega
  · rintro ⟨l₁, l₂, rfl, rfl⟩
    exact at_append.mpr (Or.inr (Or.inl ⟨rfl, rfl⟩))

/-- The first block, or the one of size zero that follows the last. -/
def first (l : List Blk) : Blk := l.headD sentinel

theorem Tiles.header_first (h : Tiles m b prevFree l) : Header m b (first l) prevFree := by
  cases l with
  | nil => exact h.2
  | cons x l => exact h.1.2.1

/-- Tiles whose first size field gets another `prev_free` flag. -/
theorem Tiles.flag {f : Bool} (h : Tiles m b prevFree l) (hhead : Header m' b (first l) f)
    (hm : ∀ y, b + 16 ≤ y → y < b + span l + 16 → m' y = m y) : Tiles m' b f l := by
  cases l with
  | nil => exact ⟨trivial, hhead⟩
  | cons x l =>
    rw [span_cons] at hm
    obtain ⟨hsized, -, hfoot, hrest⟩ := tiles_cons.mp h
    have hmin := hsized.min
    refine tiles_cons.mpr ⟨hsized, hhead, fun hfree => ?_, hrest.congr fun y h1 h2 => ?_⟩
    · rw [word_congr fun y h1 h2 => hm y (by omega) (by omega)]
      exact hfoot hfree
    · exact hm y (by omega) (by omega)

end

/-! ## Reading a size field -/

section

variable {h : Heap} {b : Nat} {x : Blk} {prevFree : Bool}

theorem Header.blockSize_eq (hh : Header h.bytes b x prevFree) (hd : 8 ∣ x.size)
    (hlt : x.size < 2 ^ 64) : blockSize h b = x.size := by
  rw [blockSize, Heap.size, hh, sizeWord_size hd hlt]

theorem Header.blockIsFree_eq (hh : Header h.bytes b x prevFree) (hd : 8 ∣ x.size) :
    blockIsFree h b = x.free := by
  rw [blockIsFree, Heap.size, hh, sizeWord_free hd]

theorem Header.blockIsPrevFree_eq (hh : Header h.bytes b x prevFree) (hd : 8 ∣ x.size) :
    blockIsPrevFree h b = prevFree := by
  rw [blockIsPrevFree, Heap.size, hh, sizeWord_prevFree hd]

theorem Header.blockIsLast_eq (hh : Header h.bytes b x prevFree) (hd : 8 ∣ x.size)
    (hlt : x.size < 2 ^ 64) : blockIsLast h b = (x.size == 0) := by
  rw [blockIsLast, hh.blockSize_eq hd hlt]

/-- Storing a size field. -/
theorem header_store (m : Nat → BitVec 8) (b n : Nat) (free prevFree : Bool) :
    Header (put m (b + 8) (sizeWord n free prevFree).toNat 8) b ⟨n, free⟩ prevFree := by
  rw [Header, word_put _ _ (BitVec.isLt _), BitVec.ofNat_toNat, BitVec.setWidth_eq]

@[simp] theorem bytes_setSize (h : Heap) (b : Nat) (v : SizeT) :
    h.setSize b v = { h with bytes := put h.bytes (b + 8) v.toNat 8 } := rfl

theorem Header.size_eq (hh : Header h.bytes b x prevFree) :
    h.size b = sizeWord x.size x.free prevFree := hh

theorem Header.setFree (hh : Header h.bytes b x prevFree) :
    blockSetFree h b = h.setSize b (sizeWord x.size true prevFree) := by
  rw [blockSetFree, hh.size_eq, sizeWord_setFree]

theorem Header.setUsed (hh : Header h.bytes b x prevFree) (hd : 8 ∣ x.size) :
    blockSetUsed h b = h.setSize b (sizeWord x.size false prevFree) := by
  rw [blockSetUsed, hh.size_eq, sizeWord_setUsed hd]

theorem Header.setPrevFree (hh : Header h.bytes b x prevFree) :
    blockSetPrevFree h b = h.setSize b (sizeWord x.size x.free true) := by
  rw [blockSetPrevFree, hh.size_eq, sizeWord_setPrevFree]

theorem Header.setPrevUsed (hh : Header h.bytes b x prevFree) (hd : 8 ∣ x.size) :
    blockSetPrevUsed h b = h.setSize b (sizeWord x.size x.free false) := by
  rw [blockSetPrevUsed, hh.size_eq, sizeWord_setPrevUsed hd]

theorem Header.setBlockSize (hh : Header h.bytes b x prevFree) (hd : 8 ∣ x.size) (n : Nat) :
    blockSetSize h b n = h.setSize b (sizeWord n x.free prevFree) := by
  rw [blockSetSize, hh.size_eq, sizeWord_setSize hd]

end

end HyperCore.Tlsf
