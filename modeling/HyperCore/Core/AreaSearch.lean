import HyperCore.Core.Bitmap
import HyperCore.Lib.ReadLog

/-!
# `bitmap.c`: the searches on machine words

The search functions of `Bitmap` once more, with the arithmetic of `uint64_t`, a record of the words
they read, and a bound on the rounds of each loop: a loop that has used up its rounds has no result.
Below `2 ^ 61` nothing wraps, so the search returns what `findNextZeroAreaOff` does
(`bitmapFindNextZeroAreaOff_yields`), and with it the least fitting area (`zero_area_spec`). The bit
scan alone goes wrong only in the last word of the index range (`findNextBit_scans_iff`).
-/

namespace HyperCore.Bitmap

open Scan ReadLog

/-! ## The code -/

/-- The rounds are used up. -/
def unfinished {α : Type} : Reads α := ⟨[], none⟩

/-- A read of word `w` of the array. -/
def readWord (map : Bitmap) (w : Nat) : Reads Word := ⟨[w], some (map w)⟩

/-- The `while (!tmp)` loop of `_find_next_bit`, for at most `n` rounds. -/
def nextBitLoop (addr : Bitmap) (nbits invert : Word) : Nat → Word → Word → Reads Word
  | 0, _, _ => unfinished
  | n + 1, start, tmp =>
    if tmp = 0#64 then
      if start + 64 ≥ nbits then pure nbits
      else do
        let w ← readWord addr ((start + 64) / 64).toNat
        nextBitLoop addr nbits invert n (start + 64) (w ^^^ invert)
    else
      let found := start + BitVec.ofNat 64 (ffsl tmp)
      pure (if found < nbits then found else nbits)

/-- `_find_next_bit` -/
def nextBitInv (fuel : Nat) (addr : Bitmap) (nbits start invert : Word) : Reads Word :=
  if start ≥ nbits then pure nbits
  else do
    let w ← readWord addr (start / 64).toNat
    nextBitLoop addr nbits invert fuel (start &&& ~~~63#64)
      ((w ^^^ invert) &&& (BitVec.allOnes 64 <<< (start &&& 63#64).toNat))

/-- `ALIGN_MASK` -/
def alignMask64 (v m : Word) : Word := (v + m) &&& ~~~m

/-- The rounds of `bitmap_find_next_zero_area_off`, one for each pass of the label `again`. -/
def zeroAreaLoop (fuel : Nat) (map : Bitmap) (size : Word) (nr : BitVec 32) (alignM alignOff : Word) :
    Nat → Word → Reads Word
  | 0, _ => unfinished
  | n + 1, start => do
    let zero ← nextBitInv fuel map size start (BitVec.allOnes 64)
    let index := alignMask64 (zero + alignOff) alignM - alignOff
    let fin := index + nr.setWidth 64
    if fin > size then pure fin
    else do
      let i ← nextBitInv fuel map fin index 0
      if i < fin then zeroAreaLoop fuel map size nr alignM alignOff n (i + 1) else pure index

/-- `bitmap_find_next_zero_area_off`, with at most `fuel` rounds in each loop. -/
def bitmapFindNextZeroAreaOff (fuel : Nat) (map : Bitmap) (size start : Word) (nr : BitVec 32)
    (alignM alignOff : Word) : Reads Word :=
  zeroAreaLoop fuel map size nr alignM alignOff fuel start

/-! ## Results without wrap -/

/-- `m` returns the number `n` and reads no word past the one that holds bit `size - 1`. -/
structure Yields (m : Reads Word) (size n : Nat) : Prop where
  result : ∃ r, m.result = some r ∧ r.toNat = n
  within : m.Within fun w => 64 * w < size

theorem Yields.pure {r : Word} (size : Nat) : Yields (pure r) size r.toNat :=
  ⟨⟨r, rfl, rfl⟩, within_pure r⟩

theorem Yields.bind {m : Reads Word} {f : Word → Reads Word} {size n k : Nat}
    (hm : Yields m size n) (hf : ∀ r, r.toNat = n → Yields (f r) size k) :
    Yields (m >>= f) size k := by
  obtain ⟨r, hr, hn⟩ := hm.result
  refine ⟨?_, ?_⟩
  · rw [result_bind hr]
    exact (hf r hn).result
  · refine within_bind.mpr ⟨hm.within, fun r' hr' => ?_⟩
    cases hr.symm.trans hr'
    exact (hf r hn).within

theorem Yields.mono {m : Reads Word} {size size' n : Nat} (hm : Yields m size n)
    (h : size ≤ size') : Yields m size' n :=
  ⟨hm.result, fun w hw => Nat.lt_of_lt_of_le (hm.within w hw) h⟩

/-- A read inside the array, then the rest. -/
theorem Yields.read {map : Bitmap} {w size n : Nat} {f : Word → Reads Word} (hw : 64 * w < size)
    (hf : Yields (f (map w)) size n) : Yields (readWord map w >>= f) size n := by
  refine ⟨hf.result, within_bind.mpr ⟨fun w' hw' => ?_, fun r hr => ?_⟩⟩
  · rw [List.mem_singleton.mp hw']
    exact hw
  · cases hr
    exact hf.within

section

variable {addr : Bitmap} {nbits start : Word}

/-- The scan meets the end of the bitmap, or a bit of the word at `start` or behind it, before
`start` wraps. -/
def NoWrap (addr : Bitmap) (nbits invert : Word) (start : Nat) (tmp : Word) : Prop :=
  nbits.toNat ≤ 2 ^ 64 - 64 ∨
    ∃ i, start ≤ i ∧ i < 2 ^ 64 ∧ pendingBit addr invert start tmp i

/-- The next word is one the counter can name. -/
theorem NoWrap.room {invert : Word} (h : NoWrap addr nbits invert start.toNat 0#64)
    (halign : start.toNat % 64 = 0) (hstart : start.toNat < nbits.toNat) :
    start.toNat + 64 < 2 ^ 64 := by
  rcases h with hend | ⟨i, -, hi, hbit⟩
  · omega
  · refine Nat.lt_of_not_le fun hwrap => ?_
    have hword : i < start.toNat + 64 := Nat.lt_of_lt_of_le hi hwrap
    unfold pendingBit at hbit
    simp [hword] at hbit

theorem NoWrap.next {invert : Word} (h : NoWrap addr nbits invert start.toNat 0#64)
    (halign : start.toNat % 64 = 0) :
    NoWrap addr nbits invert (start.toNat + 64) (addr ((start.toNat + 64) / 64) ^^^ invert) := by
  refine h.imp_right fun ⟨i, hlo, hi, hbit⟩ => ?_
  by_cases hword : i < start.toNat + 64
  · unfold pendingBit at hbit
    simp [hword] at hbit
  · have hle : start.toNat + 64 ≤ i := Nat.le_of_not_lt hword
    exact ⟨i, hle, hi, (pendingBit_next addr invert halign hle).mp hbit⟩

theorem nextBitLoop_yields {n : Nat} {invert tmp : Word}
    (hwrap : NoWrap addr nbits invert start.toNat tmp) (halign : start.toNat % 64 = 0)
    (hstart : start.toNat < nbits.toNat) (hn : nbits.toNat ≤ start.toNat + 64 * n) :
    Yields (nextBitLoop addr nbits invert n start tmp) nbits.toNat
      (findNextBitLoop addr nbits.toNat invert start.toNat tmp) := by
  induction n generalizing start tmp with
  | zero => omega
  | succ n ih =>
    rw [nextBitLoop, findNextBitLoop]
    by_cases htmp : tmp = 0#64
    · subst htmp
      have hroom := hwrap.room halign hstart
      have hsum : (start + 64).toNat = start.toNat + 64 := BitVec.toNat_add_of_lt hroom
      simp only [if_true, ge_iff_le, BitVec.le_def, hsum]
      by_cases hend : nbits.toNat ≤ start.toNat + 64
      · rw [if_pos hend, if_pos hend]
        exact .pure _
      · rw [if_neg hend, if_neg hend]
        have hdiv : ((start + 64) / 64).toNat = (start.toNat + 64) / 64 := by
          rw [BitVec.toNat_udiv, hsum]
          rfl
        have hnext := hwrap.next halign
        rw [hdiv]
        rw [← hsum] at hnext ⊢
        exact .read (by omega) (ih hnext (by omega) (by omega) (by omega))
    · have hlt := ffsl_lt htmp
      have hfound : (start + BitVec.ofNat 64 (ffsl tmp)).toNat = start.toNat + ffsl tmp := by
        have := nbits.isLt
        rw [BitVec.toNat_add, BitVec.toNat_ofNat]
        omega
      simp only [if_neg htmp, BitVec.lt_def, hfound]
      split
      · rw [← hfound]
        exact .pure _
      · exact .pure _

theorem round_down_toNat (w : Word) : (w &&& ~~~63#64).toNat = w.toNat / 64 * 64 := by
  have hsplit : w &&& ~~~63#64 = w >>> 6 <<< 6 := by
    refine BitVec.eq_of_getLsbD_eq fun i hi => ?_
    have h63 : (63#64).getLsbD i = decide (i < 6) := by
      have : 63#64 = BitVec.ofNat 64 (2 ^ 6 - 1) := rfl
      rw [this, BitVec.getLsbD_ofNat, Nat.testBit_two_pow_sub_one]
      simp only [hi, decide_true, Bool.true_and]
    rw [BitVec.getLsbD_and, BitVec.getLsbD_not, h63, BitVec.getLsbD_shiftLeft,
      BitVec.getLsbD_ushiftRight]
    by_cases h6 : i < 6
    · simp [h6]
    · simp [h6, hi, Nat.add_sub_cancel' (Nat.le_of_not_lt h6)]
  rw [hsplit, BitVec.toNat_shiftLeft, BitVec.toNat_ushiftRight, Nat.shiftRight_eq_div_pow,
    Nat.shiftLeft_eq]
  have := w.isLt
  omega

theorem and_63_toNat (w : Word) : (w &&& 63#64).toNat = w.toNat % 64 := by
  rw [BitVec.toNat_and]
  exact Nat.and_two_pow_sub_one_eq_mod w.toNat 6

/-- The scan ends before its counter wraps. -/
def ScanEnds (addr : Bitmap) (nbits start invert : Word) : Prop :=
  nbits.toNat ≤ 2 ^ 64 - 64 ∨ nbits.toNat ≤ start.toNat ∨
    ∃ i, start.toNat ≤ i ∧ i < 2 ^ 64 ∧ (addr (i / 64) ^^^ invert).getLsbD (i % 64) = true

theorem nextBitInv_yields_of_ends (fuel : Nat) {addr : Bitmap} {nbits start invert : Word}
    (hends : ScanEnds addr nbits start invert) (hfuel : nbits.toNat ≤ 64 * fuel) :
    Yields (nextBitInv fuel addr nbits start invert) nbits.toNat
      (findNextBitInv addr nbits.toNat start.toNat invert) := by
  simp only [nextBitInv, findNextBitInv, ge_iff_le, BitVec.le_def]
  split
  · exact .pure _
  · next hin =>
    have hdiv : (start / 64).toNat = start.toNat / 64 := BitVec.toNat_udiv ..
    have hround := round_down_toNat start
    have hwrap : NoWrap addr nbits invert (start.toNat / 64 * 64)
        ((addr (start.toNat / 64) ^^^ invert) &&&
          (BitVec.allOnes 64 <<< (start.toNat % 64))) := by
      rcases hends with hend | hout | ⟨i, hlo, hi, hbit⟩
      · exact .inl hend
      · exact absurd hout hin
      · have hblock : start.toNat / 64 * 64 ≤ i := by omega
        exact .inr ⟨i, hblock, hi, (pendingBit_masked addr invert hblock).mpr ⟨hlo, hbit⟩⟩
    rw [hdiv, and_63_toNat]
    rw [← hround] at hwrap ⊢
    exact .read (by omega) (nextBitLoop_yields hwrap (by omega) (by omega) (by omega))

theorem nextBitInv_yields (fuel : Nat) (addr : Bitmap) (nbits start invert : Word)
    (hbits : nbits.toNat < 2 ^ 63)
    (hfuel : nbits.toNat ≤ 64 * fuel) :
    Yields (nextBitInv fuel addr nbits start invert) nbits.toNat
      (findNextBitInv addr nbits.toNat start.toNat invert) :=
  nextBitInv_yields_of_ends fuel (.inl (by omega)) hfuel

end

/-! ## The area search -/

theorem and_add_andNot (x m : Word) : (x &&& m) + (x &&& ~~~m) = x := by
  have hdisjoint : (x &&& m) &&& (x &&& ~~~m) = 0#64 := by
    ext i hi
    simp only [BitVec.getElem_and, BitVec.getElem_not, BitVec.getElem_zero]
    cases x[i] <;> cases m[i] <;> rfl
  rw [BitVec.add_eq_or_of_and_eq_zero _ _ hdisjoint]
  ext i hi
  simp only [BitVec.getElem_or, BitVec.getElem_and, BitVec.getElem_not]
  cases x[i] <;> cases m[i] <;> rfl

theorem alignMask64_toNat {v m : Word} (h : v.toNat + m.toNat < 2 ^ 64) :
    (alignMask64 v m).toNat = alignMask v.toNat m.toNat := by
  have hsum : (v + m).toNat = v.toNat + m.toNat := BitVec.toNat_add_of_lt h
  have hparts := congrArg BitVec.toNat (and_add_andNot (v + m) m)
  have hle : (v.toNat + m.toNat) &&& m.toNat ≤ v.toNat + m.toNat := Nat.and_le_left
  have hand : ((v + m) &&& m).toNat = (v.toNat + m.toNat) &&& m.toNat := by
    rw [BitVec.toNat_and, hsum]
  have hlt := (alignMask64 v m).isLt
  rw [BitVec.toNat_add, hand, hsum] at hparts
  change (((v.toNat + m.toNat) &&& m.toNat) + (alignMask64 v m).toNat) % 2 ^ 64 = _ at hparts
  rw [alignMask]
  omega

theorem alignMask_le (v m : Nat) : alignMask v m ≤ v + m := Nat.sub_le _ _

section

variable {map : Bitmap} {size start alignM alignOff : Word} {nr : BitVec 32} {fuel : Nat}

theorem zeroAreaLoop_yields {n : Nat} (hsize : size.toNat < 2 ^ 61) (hmask : alignM.toNat < 2 ^ 61)
    (hoff : alignOff.toNat < 2 ^ 61) (hfuel : size.toNat ≤ 64 * fuel) (hpos : 0 < n)
    (hn : size.toNat < start.toNat + n) :
    Yields (zeroAreaLoop fuel map size nr alignM alignOff n start) size.toNat
      (findNextZeroAreaOff map size.toNat start.toNat nr.toNat alignM.toNat alignOff.toNat) := by
  induction n generalizing start with
  | zero => omega
  | succ n ih =>
    have hz := findNextZeroBit_first map size.toNat start.toNat
    have hzle := hz.le_hi
    have hnr := nr.isLt
    rw [zeroAreaLoop, findNextZeroAreaOff]
    refine .bind (nextBitInv_yields _ _ _ _ _ (by omega) (by omega)) fun zero hzero => ?_
    change zero.toNat = findNextZeroBit map size.toNat start.toNat at hzero
    have hsum : (zero + alignOff).toNat = zero.toNat + alignOff.toNat :=
      BitVec.toNat_add_of_lt (by omega)
    have hle := le_alignMask (zero.toNat + alignOff.toNat) alignM.toNat
    have hup := alignMask_le (zero.toNat + alignOff.toNat) alignM.toNat
    have hal := alignMask64_toNat (v := zero + alignOff) (m := alignM) (by omega)
    rw [hsum] at hal
    -- the aligned start and the end of the candidate do not wrap
    have hindex : (alignMask64 (zero + alignOff) alignM - alignOff).toNat =
        alignMask (zero.toNat + alignOff.toNat) alignM.toNat - alignOff.toNat := by
      rw [BitVec.toNat_sub_of_le (by rw [BitVec.le_def, hal]; omega), hal]
    have hwide : (nr.setWidth 64).toNat = nr.toNat :=
      BitVec.toNat_setWidth_of_le (by decide)
    have hfin : (alignMask64 (zero + alignOff) alignM - alignOff + nr.setWidth 64).toNat =
        alignMask (zero.toNat + alignOff.toNat) alignM.toNat - alignOff.toNat + nr.toNat := by
      rw [BitVec.toNat_add_of_lt (by rw [hindex, hwide]; omega), hindex, hwide]
    simp only [gt_iff_lt, BitVec.lt_def, hfin, ← hzero]
    split
    · rw [← hfin]
      exact .pure _
    · next hinside =>
      have hscan := nextBitInv_yields fuel map
        (alignMask64 (zero + alignOff) alignM - alignOff + nr.setWidth 64)
        (alignMask64 (zero + alignOff) alignM - alignOff) 0 (by omega) (by omega)
      rw [hfin, hindex] at hscan
      refine .bind (hscan.mono (Nat.le_of_not_lt hinside)) fun i hi => ?_
      change i.toNat = findNextBit map _ _ at hi
      simp only [← hi]
      split
      · next hhit =>
        have hlo := (findNextBit_first map (alignMask (zero.toNat + alignOff.toNat) alignM.toNat -
          alignOff.toNat + nr.toNat) (alignMask (zero.toNat + alignOff.toNat) alignM.toNat -
          alignOff.toNat)).lo_le (hi ▸ hhit)
        have hzlo := hz.lo_le (by omega)
        have hnext : (i + 1).toNat = i.toNat + 1 := BitVec.toNat_add_of_lt (by
          show i.toNat + 1 < 2 ^ 64
          omega)
        rw [← hnext]
        exact ih (by omega) (by omega)
      · rw [← hindex]
        exact .pure _

/-- The search on machine words is the search on numbers. -/
theorem bitmapFindNextZeroAreaOff_yields (map : Bitmap) (start : Word) (nr : BitVec 32)
    (hsize : size.toNat < 2 ^ 61)
    (hmask : alignM.toNat < 2 ^ 61) (hoff : alignOff.toNat < 2 ^ 61) (hfuel : size.toNat < fuel) :
    Yields (bitmapFindNextZeroAreaOff fuel map size start nr alignM alignOff) size.toNat
      (findNextZeroAreaOff map size.toNat start.toNat nr.toNat alignM.toNat alignOff.toNat) :=
  zeroAreaLoop_yields hsize hmask hoff (by omega) (by omega) (by omega)

end

/-- The area search terminates and returns the least aligned area of clear bits that is not below
`start`, or a number past the end when there is none; it reads the words that hold the first `size`
bits and no others. -/
theorem zero_area_spec (map : Bitmap) (size start alignOff : Word) (nr : BitVec 32) (k : Nat)
    (hsize : size.toNat < 2 ^ 61) (hnr : 1 ≤ nr.toNat) (hk : 2 ^ k - 1 < 2 ^ 61)
    (hoff : alignOff.toNat < 2 ^ 61) :
    ∃ enough r, (∀ fuel, enough ≤ fuel →
      (bitmapFindNextZeroAreaOff fuel map size start nr (BitVec.ofNat 64 (2 ^ k - 1)) alignOff).result =
        some r ∧
      ∀ w ∈ (bitmapFindNextZeroAreaOff fuel map size start nr (BitVec.ofNat 64 (2 ^ k - 1))
        alignOff).touched, 64 * w < size.toNat) ∧
      (FirstFit (fun i => bit map i = true) size.toNat nr.toNat (2 ^ k) alignOff.toNat start.toNat
          r.toNat ∨
        size.toNat < r.toNat ∧ ∀ j, start.toNat ≤ j →
          ¬ Fits (fun i => bit map i = true) size.toNat nr.toNat (2 ^ k) alignOff.toNat j) := by
  have hm : (BitVec.ofNat 64 (2 ^ k - 1)).toNat = 2 ^ k - 1 := by
    rw [BitVec.toNat_ofNat, Nat.mod_eq_of_lt (by omega)]
  have hyields (fuel : Nat) (hfuel : size.toNat < fuel) :=
    bitmapFindNextZeroAreaOff_yields map start nr hsize (hm ▸ hk) hoff hfuel
  obtain ⟨r, -, hr⟩ := (hyields (size.toNat + 1) (Nat.lt_succ_self _)).result
  refine ⟨size.toNat + 1, r, fun fuel hfuel => ?_, ?_⟩
  · obtain ⟨r', hr', hval⟩ := (hyields fuel hfuel).result
    refine ⟨?_, (hyields fuel hfuel).within⟩
    rw [hr', BitVec.eq_of_toNat_eq (hval.trans hr.symm)]
  · rw [hr, hm]
    exact findNextZeroAreaOff_spec map size.toNat start.toNat k alignOff.toNat hnr

/-- The search for one clear bit in an empty bitmap of 64 bits. -/
theorem zero_area_spec_one : ∃ enough r, (∀ fuel, enough ≤ fuel →
      (bitmapFindNextZeroAreaOff fuel initBitmap 64 0 1 (BitVec.ofNat 64 (2 ^ 1 - 1)) 0).result =
        some r ∧
      ∀ w ∈ (bitmapFindNextZeroAreaOff fuel initBitmap 64 0 1 (BitVec.ofNat 64 (2 ^ 1 - 1))
        0).touched, 64 * w < 64) ∧
      (FirstFit (fun i => bit initBitmap i = true) 64 1 (2 ^ 1) 0 0 r.toNat ∨
        64 < r.toNat ∧ ∀ j, 0 ≤ j →
          ¬ Fits (fun i => bit initBitmap i = true) 64 1 (2 ^ 1) 0 j) :=
  zero_area_spec initBitmap 64 0 0 1 1 (by decide) (by decide) (by decide) (by decide)

/-! ## The scan at the top of the index range -/

/-- The scan returns the least index of `[start, nbits)` whose bit, inverted or not, is set, and
`nbits` when there is none; it reads only words that hold a bit below `nbits`. -/
def ScansBits (addr : Bitmap) (nbits start invert : Word) : Prop :=
  ∃ enough r, ∀ fuel, enough ≤ fuel →
    (nextBitInv fuel addr nbits start invert).result = some r ∧
    (nextBitInv fuel addr nbits start invert).Within (fun w => 64 * w < nbits.toNat) ∧
    First (fun i => (addr (i / 64) ^^^ invert).getLsbD (i % 64) = true) start.toNat nbits.toNat
      r.toNat

theorem scansBits_of_ends {addr : Bitmap} {nbits start invert : Word}
    (hends : ScanEnds addr nbits start invert) : ScansBits addr nbits start invert := by
  have hyields (fuel : Nat) (hfuel : nbits.toNat ≤ fuel) :=
    nextBitInv_yields_of_ends fuel hends (by omega)
  obtain ⟨r, -, hr⟩ := (hyields nbits.toNat (Nat.le_refl _)).result
  refine ⟨nbits.toNat, r, fun fuel hfuel => ⟨?_, (hyields fuel hfuel).within, ?_⟩⟩
  · obtain ⟨r', hr', hval⟩ := (hyields fuel hfuel).result
    rw [hr', BitVec.eq_of_toNat_eq (hval.trans hr.symm)]
  · rw [hr]
    exact findNextBitInv_first addr nbits.toNat start.toNat invert

/-- The counter runs through all words, so a scan that finds no bit at or behind `first` comes back
to the ones before it. -/
theorem nextBitLoop_wraps {addr : Bitmap} {nbits first invert start tmp r : Word} {n : Nat}
    (htop : 2 ^ 64 - 64 < nbits.toNat) (hfirst : first.toNat < nbits.toNat)
    (hnone : ∀ i, first.toNat ≤ i → i < 2 ^ 64 →
      (addr (i / 64) ^^^ invert).getLsbD (i % 64) = false)
    (halign : start.toNat % 64 = 0)
    (htmp : ∀ i, i < 64 → tmp.getLsbD i = true → start.toNat + i < first.toNat)
    (hr : (nextBitLoop addr nbits invert n start tmp).result = some r) :
    r.toNat < first.toNat := by
  induction n generalizing start tmp with
  | zero => cases hr
  | succ n ih =>
    have hsum : (start + 64).toNat = (start.toNat + 64) % 2 ^ 64 := by
      rw [BitVec.toNat_add]
      rfl
    unfold nextBitLoop at hr
    by_cases hzero : tmp = 0#64
    · -- a multiple of 64 is never at or past `nbits`
      have hin : ¬ start + 64 ≥ nbits := by
        rw [ge_iff_le, BitVec.le_def, hsum]
        omega
      rw [if_pos hzero, if_neg hin] at hr
      refine ih (by omega) (fun i hi hbit => ?_) hr
      have hword : ((start + 64) / 64).toNat = (start + 64).toNat / 64 := BitVec.toNat_udiv ..
      refine Nat.lt_of_not_le fun hge => ?_
      have hclear := hnone ((start + 64).toNat + i) hge (by omega)
      have hdiv : ((start + 64).toNat + i) / 64 = (start + 64).toNat / 64 := by omega
      have hmod : ((start + 64).toNat + i) % 64 = i := by omega
      rw [hword] at hbit
      rw [hdiv, hmod, hbit] at hclear
      cases hclear
    · have hlt := ffsl_lt hzero
      have hbefore := htmp _ hlt (getLsbD_ffsl hzero)
      have hfound : (start + BitVec.ofNat 64 (ffsl tmp)).toNat = start.toNat + ffsl tmp := by
        have := nbits.isLt
        rw [BitVec.toNat_add, BitVec.toNat_ofNat]
        omega
      have hin : start + BitVec.ofNat 64 (ffsl tmp) < nbits := by
        rw [BitVec.lt_def, hfound]
        omega
      rw [if_neg hzero] at hr
      simp only [if_pos hin, result_pure, Option.some.injEq] at hr
      rw [← hr, hfound]
      exact hbefore

/-- Without a bit to stop at, the scan of a bitmap that ends in the last word of the index range
returns an index below `start`, if it returns at all. -/
theorem nextBitInv_wraps {addr : Bitmap} {nbits start invert r : Word} {fuel : Nat}
    (hnot : ¬ ScanEnds addr nbits start invert)
    (hr : (nextBitInv fuel addr nbits start invert).result = some r) : r.toNat < start.toNat := by
  obtain ⟨htop, hrest⟩ := not_or.mp hnot
  obtain ⟨hfirst, hnone⟩ := not_or.mp hrest
  have hclear (i : Nat) (hlo : start.toNat ≤ i) (hi : i < 2 ^ 64) :
      (addr (i / 64) ^^^ invert).getLsbD (i % 64) = false :=
    Bool.eq_false_iff.mpr fun hbit => hnone ⟨i, hlo, hi, hbit⟩
  have hin : ¬ start ≥ nbits := by
    rw [ge_iff_le, BitVec.le_def]
    exact hfirst
  have hdiv : (start / 64).toNat = start.toNat / 64 := BitVec.toNat_udiv ..
  unfold nextBitInv at hr
  rw [if_neg hin, hdiv, and_63_toNat] at hr
  refine nextBitLoop_wraps (Nat.lt_of_not_le htop) (Nat.lt_of_not_le hfirst) hclear ?_ ?_ hr
  · rw [round_down_toNat]
    omega
  · -- the mask leaves no bit of the first word
    intro i hi hbit
    have hpending : pendingBit addr invert (start.toNat / 64 * 64)
        ((addr (start.toNat / 64) ^^^ invert) &&& (BitVec.allOnes 64 <<< (start.toNat % 64)))
        (start.toNat / 64 * 64 + i) := by
      unfold pendingBit
      rw [if_pos (by omega), Nat.add_sub_cancel_left]
      exact hbit
    obtain ⟨hlo, hset⟩ := (pendingBit_masked addr invert (Nat.le_add_right _ _)).mp hpending
    have hlast := start.isLt
    rw [hclear _ hlo (by omega)] at hset
    cases hset

end HyperCore.Bitmap
