import HyperCore.Core.Bitmap

/-!
# `set_bits` and `clear_bits`, a word at a time

The bodies that `bitmap.c` has without `SLOW_IMPL`. Both go over the words of the range with a mask: the
bits from the start on in the first word, all bits in the words after it, and the bits below the end in the
last one. Two things are missed. An end on a word boundary has the mask 0, so the last word is left out. And
only `set_bits` rounds the start down, so `clear_bits` may count one word too few.

`words_agree_iff`: they do what the loops over single bits do exactly where the bits they miss are as they
should be.
-/

namespace HyperCore.Bitmap.Words

open MachineInt

/-! ## The code -/

/-- `~0ul` -/
def ones : Word := BitVec.allOnes 64

/-- The loop over the words, and the last word; `op` puts a mask into a word. Starts and counts are from 0
on. Where the `int` sum `start + 64` wraps it is not below `end` in either reading: `end` fits an `int`,
and a negative sum is converted to `uint64_t`. -/
def fillWords (op : Word → Word → Word) (fin : Nat) (bitmap : Bitmap) (start : Nat) (mask : Word) : Bitmap :=
  if start + 64 < fin then
    fillWords op fin (setWord bitmap (start / 64) (op (bitmap (start / 64)) mask)) (start + 64) ones
  else if start < fin then
    setWord bitmap (start / 64) (op (bitmap (start / 64)) (mask &&& ~~~(ones <<< (fin % 64))))
  else bitmap
termination_by fin - start

/-- `set_bits` -/
def setBits (bitmap : Bitmap) (start cnt : Nat) : Bitmap :=
  fillWords (fun word mask => word ||| mask) (start + cnt) bitmap (start / 64 * 64)
    (ones <<< (start % 64))

/-- `clear_bits` -/
def clearBits (bitmap : Bitmap) (start cnt : Nat) : Bitmap :=
  fillWords (fun word mask => word &&& ~~~mask) (start + cnt) bitmap start (ones <<< (start % 64))

/-! ## The bits of a word under a mask -/

section

variable {op : Word → Word → Word} {value : Bool} {bitmap : Bitmap} {fin start low m : Nat}

/-- `op` gives the bits of the mask this value, and keeps the others. -/
def Puts (op : Word → Word → Word) (value : Bool) : Prop :=
  ∀ word mask i, i < 64 → (op word mask).getLsbD i = if mask.getLsbD i then value else word.getLsbD i

theorem puts_or : Puts (fun word mask => word ||| mask) true := by
  intro word mask i _
  rw [BitVec.getLsbD_or]
  cases mask.getLsbD i <;> simp

theorem puts_andNot : Puts (fun word mask => word &&& ~~~mask) false := by
  intro word mask i hi
  rw [BitVec.getLsbD_and, BitVec.getLsbD_not, decide_eq_true hi]
  cases mask.getLsbD i <;> simp

theorem getLsbD_from {i : Nat} (hi : i < 64) : (ones <<< low).getLsbD i = decide (low ≤ i) := by
  rw [BitVec.getLsbD_shiftLeft, ones, BitVec.getLsbD_allOnes]
  have hsub : i - low < 64 := Nat.lt_of_le_of_lt (Nat.sub_le i low) hi
  simp only [hi, hsub, decide_true, Bool.true_and, Bool.and_true, ← decide_not, Nat.not_lt]

/-- The mask of the last word. -/
theorem getLsbD_between {i high : Nat} (hi : i < 64) :
    (ones <<< low &&& ~~~(ones <<< high)).getLsbD i = decide (low ≤ i ∧ i < high) := by
  rw [BitVec.getLsbD_and, BitVec.getLsbD_not, getLsbD_from hi, getLsbD_from hi, decide_eq_true hi,
    Bool.true_and, ← decide_not, ← Bool.decide_and]
  simp only [Nat.not_le]

/-- A bit after a mask with the bits `P` was put into a word. -/
theorem bit_put {P : Nat → Prop} [DecidablePred P] (hop : Puts op value) (w : Nat) {mask : Word}
    (hmask : ∀ i, i < 64 → mask.getLsbD i = decide (P i)) :
    bit (setWord bitmap w (op (bitmap w) mask)) m =
      if m / 64 = w ∧ P (m % 64) then value else bit bitmap m := by
  have hm : m % 64 < 64 := Nat.mod_lt m (by decide)
  rw [bit_setWord]
  split
  · next hw =>
    rw [hop _ _ _ hm, hmask _ hm, ← hw]
    simp [bit]
  · next hw => rw [if_neg fun h => hw h.1]

/-! ## The loop -/

/-- It gives the value to the bits from `low` on in its first word up to the bits below the end in its
last. -/
theorem bit_fillWords (hop : Puts op value) (hlow : low ≤ 64) (hs : start < fin) :
    bit (fillWords op fin bitmap start (ones <<< low)) m =
      if 64 * (start / 64) + low ≤ m ∧ m < 64 * (start / 64 + (fin - start - 1) / 64) + fin % 64 then value
      else bit bitmap m := by
  induction hk : fin - start using Nat.strong_induction_on generalizing bitmap start low with
  | _ k ih =>
    rw [fillWords]
    by_cases hmore : start + 64 < fin
    · -- the first word is done, the rest starts at the next one
      have hrest (bitmap : Bitmap) : bit (fillWords op fin bitmap (start + 64) (ones <<< 0)) m = _ :=
        ih (fin - (start + 64)) (by omega) (Nat.zero_le 64) hmore rfl
      rw [BitVec.shiftLeft_zero] at hrest
      rw [if_pos hmore, hrest, bit_put hop _ fun i hi => getLsbD_from hi, ← ite_or]
      refine if_congr ?_ rfl rfl
      omega
    · have hword : (fin - start - 1) / 64 = 0 := by omega
      rw [if_neg hmore, if_pos hs, bit_put hop _ fun i hi => getLsbD_between hi]
      refine if_congr ?_ rfl rfl
      omega

end

/-! ## Against the loops over single bits -/

section

variable {bitmap a b : Bitmap} {value : Bool} {start cnt stop fin : Nat}

/-- The range from `start` to `fin` has the value, and nothing else is changed. -/
def Filled (bitmap : Bitmap) (value : Bool) (start fin : Nat) (a : Bitmap) : Prop :=
  ∀ m, bit a m = if start ≤ m ∧ m < fin then value else bit bitmap m

/-- A range that is filled only in part is right where the rest had the value before. -/
theorem filled_eq_iff (ha : Filled bitmap value start stop a) (hb : Filled bitmap value start fin b)
    (hle : stop ≤ fin) : a = b ↔ ∀ m, start ≤ m → stop ≤ m → m < fin → bit bitmap m = value := by
  constructor
  · rintro rfl m hlo hrest hhi
    have hm := (ha m).symm.trans (hb m)
    rwa [if_neg fun h => absurd h.2 (Nat.not_lt.mpr hrest), if_pos ⟨hlo, hhi⟩] at hm
  · intro h
    refine ext_bit fun m => ?_
    rw [ha, hb]
    by_cases hin : start ≤ m ∧ m < fin
    · rw [if_pos hin]
      split
      · rfl
      · next hout => exact h m hin.1 (Nat.le_of_not_lt fun hlt => hout ⟨hin.1, hlt⟩) hin.2
    · rw [if_neg hin, if_neg fun h => hin ⟨h.1, Nat.lt_of_lt_of_le h.2 hle⟩]

theorem setBits_filled (bitmap : Bitmap) (h : start + cnt < 2 ^ 31) :
    Filled bitmap true start (start + cnt) (Bitmap.setBits bitmap start cnt) := by
  intro m
  rw [bit_setBits bitmap h]
  split
  · next hin => rw [decide_eq_true hin, Bool.true_or]
  · next hout => rw [decide_eq_false hout, Bool.false_or]

theorem clearBits_filled (bitmap : Bitmap) (h : start + cnt < 2 ^ 31) :
    Filled bitmap false start (start + cnt) (Bitmap.clearBits bitmap start cnt) := by
  intro m
  rw [bit_clearBits bitmap h]
  split
  · next hin => rw [decide_eq_true hin, Bool.not_true, Bool.false_and]
  · next hout => rw [decide_eq_false hout, Bool.not_false, Bool.true_and]

/-- Where the words of `set_bits` end. -/
def setStop (start cnt : Nat) : Nat := 64 * ((start + cnt - 1) / 64) + (start + cnt) % 64

/-- Where the words of `clear_bits` end. -/
def clearStop (start cnt : Nat) : Nat := 64 * (start / 64 + (cnt - 1) / 64) + (start + cnt) % 64

theorem setBits_words (bitmap : Bitmap) (start cnt : Nat) :
    Filled bitmap true start (setStop start cnt) (setBits bitmap start cnt) := by
  intro m
  unfold setBits setStop
  by_cases hs : start / 64 * 64 < start + cnt
  · rw [bit_fillWords puts_or (Nat.le_of_lt (Nat.mod_lt start (by decide))) hs]
    refine if_congr ?_ rfl rfl
    omega
  · rw [fillWords, if_neg (by omega), if_neg hs, if_neg (by omega)]

theorem clearBits_words (bitmap : Bitmap) (start cnt : Nat) :
    Filled bitmap false start (clearStop start cnt) (clearBits bitmap start cnt) := by
  intro m
  unfold clearBits clearStop
  by_cases hs : start < start + cnt
  · rw [bit_fillWords puts_andNot (Nat.le_of_lt (Nat.mod_lt start (by decide))) hs]
    refine if_congr ?_ rfl rfl
    omega
  · rw [fillWords, if_neg (by omega), if_neg hs, if_neg (by omega)]

theorem setStop_le (start cnt : Nat) : setStop start cnt ≤ start + cnt := by
  unfold setStop
  omega

theorem clearStop_le (start cnt : Nat) : clearStop start cnt ≤ start + cnt := by
  unfold clearStop
  omega

/-- `set_bits` misses nothing that was not set: the range ends inside a word, or its bits in the last word
were set. -/
def SetReady (bitmap : Bitmap) (start cnt : Nat) : Prop :=
  (start + cnt) % 64 = 0 → ∀ m, start ≤ m → start + cnt ≤ m + 64 → m < start + cnt → bit bitmap m = true

/-- `clear_bits` misses nothing that was not clear: it reaches the last word and the range ends inside that,
or the bits of the range from `clearStop` on were clear. -/
def ClearReady (bitmap : Bitmap) (start cnt : Nat) : Prop :=
  63 ≤ start % 64 + (cnt - 1) % 64 → ∀ m, start ≤ m → clearStop start cnt ≤ m → m < start + cnt →
    bit bitmap m = false

theorem setBits_eq_iff (bitmap : Bitmap) (h : start + cnt < 2 ^ 31) :
    setBits bitmap start cnt = Bitmap.setBits bitmap start cnt ↔ SetReady bitmap start cnt := by
  rw [filled_eq_iff (setBits_words bitmap start cnt) (setBits_filled bitmap h) (setStop_le start cnt)]
  unfold SetReady setStop
  constructor
  · exact fun hall hend m hlo hlast hhi => hall m hlo (by omega) hhi
  · exact fun hready m hlo hstop hhi => hready (by omega) m hlo (by omega) hhi

theorem clearBits_eq_iff (bitmap : Bitmap) (h : start + cnt < 2 ^ 31) :
    clearBits bitmap start cnt = Bitmap.clearBits bitmap start cnt ↔ ClearReady bitmap start cnt := by
  rw [filled_eq_iff (clearBits_words bitmap start cnt) (clearBits_filled bitmap h)
    (clearStop_le start cnt)]
  constructor
  · exact fun hall _ => hall
  · refine fun hready m hlo hstop hhi => hready ?_ m hlo hstop hhi
    unfold clearStop at hstop
    omega

/-- The two versions make the same bitmap of a range exactly where what the fast ones miss was as it should
be. -/
theorem words_agree_iff (bitmap : Bitmap) (start cnt : Nat) (h : start + cnt < 2 ^ 31) :
    (setBits bitmap start cnt = Bitmap.setBits bitmap start cnt ∧
        clearBits bitmap start cnt = Bitmap.clearBits bitmap start cnt) ↔
      SetReady bitmap start cnt ∧ ClearReady bitmap start cnt :=
  and_congr (setBits_eq_iff bitmap h) (clearBits_eq_iff bitmap h)

/-- A range over three words. -/
theorem words_agree_span : setBits initBitmap 3 130 = Bitmap.setBits initBitmap 3 130 ∧
    clearBits initBitmap 3 130 = Bitmap.clearBits initBitmap 3 130 :=
  (words_agree_iff initBitmap 3 130 (by decide)).mpr
    ⟨fun h => absurd h (by decide), fun h => absurd h (by decide)⟩

/-- Setting a whole word sets nothing; clearing across a word boundary clears nothing. -/
theorem words_agree_fails : setBits initBitmap 0 64 ≠ Bitmap.setBits initBitmap 0 64 ∧
    clearBits (fun _ => ones) 60 10 ≠ Bitmap.clearBits (fun _ => ones) 60 10 := by
  constructor
  · intro h
    have hready : SetReady initBitmap 0 64 := (setBits_eq_iff initBitmap (by decide)).mp h
    have hbit := hready rfl 0 (by decide) (by decide) (by decide)
    exact absurd hbit (by decide)
  · intro h
    have hready : ClearReady (fun _ => ones) 60 10 := (clearBits_eq_iff _ (by decide)).mp h
    have hbit := hready (by decide) 60 (by decide) (by decide) (by decide)
    exact absurd hbit (by decide)

end

end HyperCore.Bitmap.Words
