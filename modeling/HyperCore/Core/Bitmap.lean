import HyperCore.Lib.Scan
import HyperCore.Lib.MachineInt

/-!
# `bitmap.c`: bit arrays

The bit operations the page allocator and the `kmap` area are built on, with the
`SLOW_IMPL` bodies of `set_bits` and `clear_bits` that the build selects. A
bitmap is the `uint64_t` array behind its pointer, so `bm w` is word `w`; bit `n`
lives in word `n / 64` at position `n % 64`. Indices and sizes are natural
numbers: no sum formed here reaches `2 ^ 64` for a bitmap that fits in memory.

The two search functions meet the specifications of `Scan`: `findNextBit_first`
and `findNextZeroAreaOff_spec`.
-/

namespace HyperCore.Bitmap

open Scan MachineInt

/-- A `uint64_t` word. -/
abbrev Word := BitVec 64

/-- The words behind a `uint64_t *`. -/
abbrev Bitmap := Nat → Word

/-- Bit `n` of the bitmap. -/
def bit (bm : Bitmap) (n : Nat) : Bool := (bm (n / 64)).getLsbD (n % 64)

/-! ## Setting and clearing -/

/-- Replace word `w`. -/
def setWord (bm : Bitmap) (w : Nat) (v : Word) : Bitmap := fun k => if k = w then v else bm k

/-- `__set_bit`. The `int` index is converted to `uint64_t` by the division. -/
def setBit (bm : Bitmap) (n : Int) : Bitmap :=
  let u := toUInt64 n
  setWord bm (u / 64) (bm (u / 64) ||| (1#64 <<< (u % 64)))

/-- `__clear_bit`. -/
def clearBit (bm : Bitmap) (n : Int) : Bitmap :=
  let u := toUInt64 n
  setWord bm (u / 64) (bm (u / 64) &&& ~~~(1#64 <<< (u % 64)))

/-- `k` rounds of the loop body `op`, from index `i` on. -/
def forBits (op : Bitmap → Int → Bitmap) (bm : Bitmap) (i : Int) : Nat → Bitmap
  | 0 => bm
  | k + 1 => forBits op (op bm i) (i + 1) k

/-- The number of rounds of `for (int i = start; i < start + cnt; ++i)`. -/
def rounds (start cnt : Int) : Nat := (toInt32 (start + cnt) - start).toNat

/-- `set_bits` -/
def setBits (bm : Bitmap) (start cnt : Int) : Bitmap := forBits setBit bm start (rounds start cnt)

/-- `clear_bits` -/
def clearBits (bm : Bitmap) (start cnt : Int) : Bitmap :=
  forBits clearBit bm start (rounds start cnt)

/-- `init_bitmap`: the whole array is zeroed. -/
def initBitmap : Bitmap := fun _ => 0#64

/-! ## Searching -/

/-- `__ffsl`: the position of the lowest set bit (64 for zero, which no caller
passes). -/
def ffsl (w : Word) : Nat := (List.range 64).findIdx fun i => w.getLsbD i

/-- The `while (!tmp)` loop of `_find_next_bit`: `start` is the first bit index of
the word whose remaining bits are `tmp`. -/
def findNextBitLoop (addr : Bitmap) (nbits : Nat) (invert : Word) (start : Nat) (tmp : Word) :
    Nat :=
  if tmp = 0#64 then
    if start + 64 ≥ nbits then nbits
    else findNextBitLoop addr nbits invert (start + 64) (addr ((start + 64) / 64) ^^^ invert)
  else if start + ffsl tmp < nbits then start + ffsl tmp else nbits
termination_by nbits - start

/-- `_find_next_bit` -/
def findNextBitInv (addr : Bitmap) (nbits start : Nat) (invert : Word) : Nat :=
  if start ≥ nbits then nbits
  else
    findNextBitLoop addr nbits invert (start / 64 * 64)
      ((addr (start / 64) ^^^ invert) &&& (BitVec.allOnes 64 <<< (start % 64)))

/-- `find_next_bit` -/
def findNextBit (addr : Bitmap) (size offset : Nat) : Nat := findNextBitInv addr size offset 0#64

/-- `find_next_zero_bit` -/
def findNextZeroBit (map : Bitmap) (size start : Nat) : Nat :=
  findNextBitInv map size start (BitVec.allOnes 64)

/-! ## Single bits after an update -/

@[simp] theorem bit_initBitmap (n : Nat) : bit initBitmap n = false := by
  simp [bit, initBitmap]

theorem getLsbD_one_shl {i j : Nat} (hi : i < 64) :
    (1#64 <<< j).getLsbD i = decide (i = j) := by
  simp only [BitVec.getLsbD_shiftLeft, BitVec.getLsbD_one]
  rcases Nat.lt_trichotomy i j with h | h | h
  · simp [h, Nat.ne_of_lt h]
  · subst h
    simp [hi]
  · have h1 : ¬ i < j := by omega
    have h0 : i - j ≠ 0 := by omega
    simp [h1, h0, Nat.ne_of_gt h]

theorem bit_setWord (bm : Bitmap) (w m : Nat) (v : Word) :
    bit (setWord bm w v) m = if m / 64 = w then v.getLsbD (m % 64) else bit bm m := by
  by_cases h : m / 64 = w <;> simp [bit, setWord, h]

/-- Two indices share a word and a position only if they are equal. -/
theorem index_eq_iff {m n : Nat} : (m / 64 = n / 64 ∧ m % 64 = n % 64) ↔ m = n := by
  omega

theorem bit_setBit (bm : Bitmap) (n : Int) (m : Nat) :
    bit (setBit bm n) m = (decide (m = toUInt64 n) || bit bm m) := by
  have hm : m % 64 < 64 := Nat.mod_lt _ (by decide)
  simp only [setBit, bit_setWord, BitVec.getLsbD_or, getLsbD_one_shl hm]
  rw [show decide (m = toUInt64 n) = decide (m / 64 = toUInt64 n / 64 ∧ m % 64 = toUInt64 n % 64)
    from by simp only [index_eq_iff]]
  by_cases hw : m / 64 = toUInt64 n / 64
  · simp [bit, ← hw, Bool.or_comm]
  · simp [hw]

theorem bit_clearBit (bm : Bitmap) (n : Int) (m : Nat) :
    bit (clearBit bm n) m = (!decide (m = toUInt64 n) && bit bm m) := by
  have hm : m % 64 < 64 := Nat.mod_lt _ (by decide)
  simp only [clearBit, bit_setWord, BitVec.getLsbD_and, BitVec.getLsbD_not, getLsbD_one_shl hm]
  rw [show decide (m = toUInt64 n) = decide (m / 64 = toUInt64 n / 64 ∧ m % 64 = toUInt64 n % 64)
    from by simp only [index_eq_iff]]
  by_cases hw : m / 64 = toUInt64 n / 64
  · simp [bit, ← hw, hm, Bool.and_comm]
  · simp [hw]

/-- Bitmaps are equal when all their bits are. -/
theorem ext_bit {a b : Bitmap} (h : ∀ n, bit a n = bit b n) : a = b := by
  funext w
  apply BitVec.eq_of_getLsbD_eq
  intro i hi
  have hn := h (w * 64 + i)
  have h1 : (w * 64 + i) / 64 = w := by omega
  have h2 : (w * 64 + i) % 64 = i := by omega
  simpa [bit, h1, h2] using hn

/-! ## Ranges of bits after an update -/

theorem bit_forBits_setBit (k : Nat) :
    ∀ (bm : Bitmap) (s m : Nat), s + k ≤ 2 ^ 64 →
      bit (forBits setBit bm s k) m = (decide (s ≤ m ∧ m < s + k) || bit bm m) := by
  induction k with
  | zero =>
    intro bm s m _
    have hno : decide (s ≤ m ∧ m < s + 0) = false := decide_eq_false (by omega)
    rw [hno]
    rfl
  | succ k ih =>
    intro bm s m hs
    have hu : toUInt64 (s : Int) = s := toUInt64_natCast (by omega)
    have hstep : forBits setBit bm (s : Int) (k + 1) =
        forBits setBit (setBit bm (s : Int)) ((s + 1 : Nat) : Int) k := rfl
    rw [hstep, ih _ _ _ (by omega), bit_setBit, hu, ← Bool.or_assoc]
    congr 1
    rw [← Bool.decide_or]
    apply decide_eq_decide.mpr
    omega

theorem bit_forBits_clearBit (k : Nat) :
    ∀ (bm : Bitmap) (s m : Nat), s + k ≤ 2 ^ 64 →
      bit (forBits clearBit bm s k) m = (!decide (s ≤ m ∧ m < s + k) && bit bm m) := by
  induction k with
  | zero =>
    intro bm s m _
    have hno : decide (s ≤ m ∧ m < s + 0) = false := decide_eq_false (by omega)
    rw [hno]
    rfl
  | succ k ih =>
    intro bm s m hs
    have hu : toUInt64 (s : Int) = s := toUInt64_natCast (by omega)
    have hstep : forBits clearBit bm (s : Int) (k + 1) =
        forBits clearBit (clearBit bm (s : Int)) ((s + 1 : Nat) : Int) k := rfl
    rw [hstep, ih _ _ _ (by omega), bit_clearBit, hu, ← Bool.and_assoc]
    congr 1
    rw [← Bool.not_or, ← Bool.decide_or]
    congr 1
    apply decide_eq_decide.mpr
    omega

theorem rounds_eq {s c : Nat} (h : s + c < 2 ^ 31) : rounds s c = c := by
  have : toInt32 ((s : Int) + c) = (s : Int) + c := toInt32_eq (by omega) (by omega)
  simp only [rounds, this]
  omega

/-- `set_bits` sets the bits of its range and no others. -/
theorem bit_setBits (bm : Bitmap) {s c : Nat} (h : s + c < 2 ^ 31) (m : Nat) :
    bit (setBits bm s c) m = (decide (s ≤ m ∧ m < s + c) || bit bm m) := by
  rw [setBits, rounds_eq h, bit_forBits_setBit c bm s m (by omega)]

/-- `clear_bits` clears the bits of its range and no others. -/
theorem bit_clearBits (bm : Bitmap) {s c : Nat} (h : s + c < 2 ^ 31) (m : Nat) :
    bit (clearBits bm s c) m = (!decide (s ≤ m ∧ m < s + c) && bit bm m) := by
  rw [clearBits, rounds_eq h, bit_forBits_clearBit c bm s m (by omega)]

/-! ## The bit scan -/

theorem ffsl_lt {w : Word} (h : w ≠ 0#64) : ffsl w < 64 := by
  have hex : ∃ i ∈ List.range 64, w.getLsbD i = true := by
    refine Classical.byContradiction fun hno => h ?_
    apply BitVec.eq_of_getLsbD_eq
    intro i hi
    have : ¬ w.getLsbD i = true := fun hb => hno ⟨i, List.mem_range.mpr hi, hb⟩
    simpa using this
  have := List.findIdx_lt_length_of_exists hex
  simpa [ffsl] using this

theorem getLsbD_ffsl {w : Word} (h : w ≠ 0#64) : w.getLsbD (ffsl w) = true := by
  have hlt := ffsl_lt h
  have hlen : (List.range 64).findIdx (fun i => w.getLsbD i) < (List.range 64).length := by
    simpa [ffsl] using hlt
  simpa [ffsl] using List.findIdx_getElem (w := hlen)

theorem getLsbD_of_lt_ffsl {w : Word} {i : Nat} (h : i < ffsl w) : w.getLsbD i = false := by
  simpa using List.not_of_lt_findIdx h

/-- The bits still to be scanned when the loop holds `tmp` for the word at `start`. -/
def pendingBit (addr : Bitmap) (invert : Word) (start : Nat) (tmp : Word) (i : Nat) : Prop :=
  (if i < start + 64 then tmp.getLsbD (i - start)
    else (addr (i / 64) ^^^ invert).getLsbD (i % 64)) = true

/-- An index past the word at `start` stays pending when the loop goes on to the next word. -/
theorem pendingBit_next (addr : Bitmap) (invert : Word) {tmp : Word} {start i : Nat} (ha : start % 64 = 0)
    (hlo : start + 64 ≤ i) :
    pendingBit addr invert start tmp i ↔
      pendingBit addr invert (start + 64) (addr ((start + 64) / 64) ^^^ invert) i := by
  have h1 : ¬ i < start + 64 := Nat.not_lt.mpr hlo
  unfold pendingBit
  by_cases h2 : i < start + 64 + 64
  · have hd : i / 64 = (start + 64) / 64 := by omega
    have hm : i % 64 = i - (start + 64) := by omega
    simp [h1, h2, hd, hm]
  · simp [h1, h2]

theorem findNextBitLoop_first (addr : Bitmap) (nbits : Nat) (invert : Word) (start : Nat)
    (tmp : Word) (ha : start % 64 = 0) :
    First (pendingBit addr invert start tmp) start nbits
      (findNextBitLoop addr nbits invert start tmp) := by
  fun_induction findNextBitLoop addr nbits invert start tmp with
  | case1 start hge =>
    refine First.miss fun i hlo hi => ?_
    have : i < start + 64 := by omega
    simp [pendingBit, this]
  | case2 start hlt ih =>
    refine First.skip (show start ≤ start + 64 by omega) (fun i hlo hi => ?_) ?_
    · simp [pendingBit, hi]
    · exact First.congr (fun i hlo _ => (pendingBit_next addr invert ha hlo).symm)
        (ih (by omega))
  | case3 start tmp hne hlt =>
    have h64 := ffsl_lt hne
    refine First.hit (by omega) hlt (fun i hlo hi => ?_) ?_
    · have h1 : i < start + 64 := by omega
      have h2 := getLsbD_of_lt_ffsl (w := tmp) (i := i - start) (by omega)
      simp [pendingBit, h1, h2]
    · have h1 := getLsbD_ffsl hne
      simp [pendingBit, h64, h1]
  | case4 start tmp hne hge =>
    have h64 := ffsl_lt hne
    refine First.miss fun i hlo hi => ?_
    have h1 : i < start + 64 := by omega
    have h2 := getLsbD_of_lt_ffsl (w := tmp) (i := i - start) (by omega)
    simp [pendingBit, h1, h2]

/-- The mask hides the bits of the first word that lie below `start`. -/
theorem pendingBit_masked (addr : Bitmap) (invert : Word) {start i : Nat}
    (hlo : start / 64 * 64 ≤ i) :
    pendingBit addr invert (start / 64 * 64)
        ((addr (start / 64) ^^^ invert) &&& (BitVec.allOnes 64 <<< (start % 64))) i ↔
      start ≤ i ∧ (addr (i / 64) ^^^ invert).getLsbD (i % 64) = true := by
  by_cases hw : i < start / 64 * 64 + 64
  · have hd : i / 64 = start / 64 := by omega
    have hm : i - start / 64 * 64 = i % 64 := by omega
    have h64 : i % 64 < 64 := Nat.mod_lt _ (by decide)
    have hs : i % 64 < start % 64 ↔ i < start := by omega
    simp only [pendingBit, hw, if_true, hm, hd, BitVec.getLsbD_and, BitVec.getLsbD_shiftLeft,
      BitVec.getLsbD_allOnes]
    by_cases hlt : i < start
    · have h1 := hs.mpr hlt
      simp [h1, Nat.not_le_of_lt hlt]
    · have h1 : ¬ i % 64 < start % 64 := fun hc => hlt (hs.mp hc)
      have h2 : i % 64 - start % 64 < 64 := by omega
      have h3 : start ≤ i := by omega
      simp [h1, h2, h64, h3]
  · have h3 : start ≤ i := by omega
    simp [pendingBit, hw, h3]

/-- `_find_next_bit` returns the first index whose bit, inverted or not, is set. -/
theorem findNextBitInv_first (addr : Bitmap) (nbits start : Nat) (invert : Word) :
    First (fun i => (addr (i / 64) ^^^ invert).getLsbD (i % 64) = true) start nbits
      (findNextBitInv addr nbits start invert) := by
  unfold findNextBitInv
  split
  · next h => exact First.empty h
  · next h =>
    refine First.of_restrict (show start / 64 * 64 ≤ start by omega) ?_
    exact First.congr (fun i hlo _ => pendingBit_masked addr invert hlo)
      (findNextBitLoop_first addr nbits invert _ _ (by omega))

/-- `find_next_bit` finds the first set bit. -/
theorem findNextBit_first (addr : Bitmap) (size offset : Nat) :
    First (fun i => bit addr i = true) offset size (findNextBit addr size offset) := by
  refine First.congr (fun i _ _ => ?_) (findNextBitInv_first addr size offset 0#64)
  simp [bit]

/-- `find_next_zero_bit` finds the first clear bit. -/
theorem findNextZeroBit_first (map : Bitmap) (size start : Nat) :
    First (fun i => ¬ bit map i = true) start size (findNextZeroBit map size start) := by
  refine First.congr (fun i _ _ => ?_) (findNextBitInv_first map size start (BitVec.allOnes 64))
  have h64 : i % 64 < 64 := Nat.mod_lt _ (by decide)
  rw [BitVec.getLsbD_xor, BitVec.getLsbD_allOnes]
  simp [bit, h64]

/-! ## The area search -/

/-- `ALIGN_MASK`: `(v + m) & ~m`, where `x & ~m` is `x - (x & m)`. -/
def alignMask (v m : Nat) : Nat := (v + m) - ((v + m) &&& m)

theorem le_alignMask (v m : Nat) : v ≤ alignMask v m := by
  have : (v + m) &&& m ≤ m := Nat.and_le_right
  unfold alignMask
  omega

/-- With a mask `2 ^ k - 1`, `ALIGN_MASK` rounds up to a multiple of `2 ^ k`. -/
theorem alignMask_alignUp (k off i : Nat) :
    AlignUp (2 ^ k) off i (alignMask (i + off) (2 ^ k - 1) - off) := by
  have hpos : 0 < 2 ^ k := Nat.two_pow_pos k
  have hle := le_alignMask (i + off) (2 ^ k - 1)
  have hval : alignMask (i + off) (2 ^ k - 1) = 2 ^ k * ((i + off + (2 ^ k - 1)) / 2 ^ k) := by
    rw [alignMask, Nat.and_two_pow_sub_one_eq_mod]
    have := Nat.div_add_mod (i + off + (2 ^ k - 1)) (2 ^ k)
    omega
  have hback : alignMask (i + off) (2 ^ k - 1) - off + off = alignMask (i + off) (2 ^ k - 1) := by
    omega
  refine ⟨by omega, ?_, fun j hj hd => ?_⟩
  · rw [hback, hval]
    exact Nat.dvd_mul_right _ _
  · obtain ⟨t, ht⟩ := hd
    have hdiv : (i + off + (2 ^ k - 1)) / 2 ^ k ≤ t := by
      apply Nat.le_of_lt_succ
      apply Nat.div_lt_of_lt_mul
      rw [Nat.mul_succ]
      omega
    have : alignMask (i + off) (2 ^ k - 1) ≤ j + off := by
      rw [hval, ht]
      exact Nat.mul_le_mul_left _ hdiv
    omega

/-- `bitmap_find_next_zero_area_off`, one `again:` round per call. -/
def findNextZeroAreaOff (map : Bitmap) (size start nr alignM alignOff : Nat) : Nat :=
  let index := alignMask (findNextZeroBit map size start + alignOff) alignM - alignOff
  let fin := index + nr
  if fin > size then fin
  else
    let i := findNextBit map fin index
    if i < fin then findNextZeroAreaOff map size (i + 1) nr alignM alignOff else index
termination_by size - start
decreasing_by
  -- the hit lies at or beyond the candidate block, and the block at or beyond `start`
  have hz := findNextZeroBit_first map size start
  have ha := le_alignMask (findNextZeroBit map size start + alignOff) alignM
  have hi := (findNextBit_first map fin index).lo_le ‹_›
  have hzlt : findNextZeroBit map size start < size := by omega
  have hlo := hz.lo_le hzlt
  show size - (findNextBit map fin index + 1) < size - start
  omega

/-- `bitmap_find_next_zero_area` -/
def findNextZeroArea (map : Bitmap) (size start nr alignM : Nat) : Nat :=
  findNextZeroAreaOff map size start nr alignM 0

/-- The area search finds the first aligned block of clear bits, and answers with
an index past the end exactly when there is none. -/
theorem findNextZeroAreaOff_spec (map : Bitmap) (size start : Nat) {nr : Nat} (k off : Nat)
    (hnr : 0 < nr) :
    FirstFit (fun i => bit map i = true) size nr (2 ^ k) off start
        (findNextZeroAreaOff map size start nr (2 ^ k - 1) off) ∨
      size < findNextZeroAreaOff map size start nr (2 ^ k - 1) off ∧
        ∀ j, start ≤ j → ¬ Fits (fun i => bit map i = true) size nr (2 ^ k) off j := by
  fun_induction findNextZeroAreaOff map size start nr (2 ^ k - 1) off with
  | case1 start index fin hfin =>
    refine .inr ⟨hfin, fun j hj hf => ?_⟩
    have hge := fits_ge_aligned hnr (findNextZeroBit_first map size start)
      (alignMask_alignUp k off _) hj hf
    have := hf.inside
    omega
  | case2 start index fin hfin i hi ih =>
    have hz := findNextZeroBit_first map size start
    have hup := alignMask_alignUp k off (findNextZeroBit map size start)
    have hhit := findNextBit_first map fin index
    have hstart : start ≤ i + 1 := by
      have h1 := hz.lo_le (by have := hup.le; omega)
      have h2 := hhit.lo_le hi
      have := hup.le
      omega
    -- every start up to the used bit `i` is ruled out, so the next round may begin after it
    have hskip : ∀ j, start ≤ j → Fits (fun i => bit map i = true) size nr (2 ^ k) off j →
        i + 1 ≤ j := fun j hj hf =>
      fits_gt_used (hhit.here hi) hi (fits_ge_aligned hnr hz hup hj hf) hf
    rcases ih with hff | ⟨hlt, hno⟩
    · exact .inl ⟨hff.fits, Nat.le_trans hstart hff.start_le,
        fun j hj hf => hff.least j (hskip j hj hf) hf⟩
    · exact .inr ⟨hlt, fun j hj hf => hno j (hskip j hj hf) hf⟩
  | case3 start index fin hfin i hi =>
    have hz := findNextZeroBit_first map size start
    have hup := alignMask_alignUp k off (findNextZeroBit map size start)
    have hhit := findNextBit_first map fin index
    have hend : findNextBit map fin index = fin := Nat.le_antisymm hhit.le_hi (by omega)
    refine .inl ⟨⟨hup.aligned, by omega, fun j hj hlt => ?_⟩, ?_, fun j hj hf => ?_⟩
    · exact hhit.before j hj (by omega)
    · have h1 := hz.lo_le (by have := hup.le; omega)
      exact Nat.le_trans h1 hup.le
    · exact fits_ge_aligned hnr hz hup hj hf

end HyperCore.Bitmap
