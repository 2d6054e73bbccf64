import HyperCore.Core.PageAlloc

/-!
# `is_bit_set` and `page_summary`

`is_bit_set` returns the masked word as an `int`, so it sees the lower half of each word only: the
bits 32 to 63 do not fit (`isBitSet_ne_zero`). `page_summary` counts with it. It leaves out the
pages in the upper halves, and its count is that of the outstanding pages exactly if there are none
of these (`accounting_iff`).
-/

namespace HyperCore.PageAlloc

open MachineInt Bitmap

/-! ## The code -/

/-- `is_bit_set`: the 64-bit word under the mask, converted to `int`. -/
def isBitSet (bm : Bitmap) (n : Int) : Int :=
  let u := toUInt64 n
  toInt32 (bm (u / 64) &&& (1#64 <<< (u % 64))).toNat

/-- The loop of `page_summary` over the first `k` pages. -/
def countAllocated (bm : Bitmap) : Nat → Nat
  | 0 => 0
  | k + 1 => countAllocated bm k + if isBitSet bm k ≠ 0 then 1 else 0

/-- `page_summary`: the number of allocated pages it prints. -/
def pageSummary (bm : Bitmap) : Nat := countAllocated bm totalPages

/-! ## Sequences of updates -/

/-- A range of indices that the `int` loops of `set_bits` and `clear_bits` run through. -/
structure BitRange where
  start : Nat
  cnt : Nat
  fits : start + cnt < 2 ^ 31

/-- Index `n` is in the range. -/
def BitRange.Has (r : BitRange) (n : Nat) : Prop := r.start ≤ n ∧ n < r.start + r.cnt

instance (r : BitRange) (n : Nat) : Decidable (r.Has n) := inferInstanceAs (Decidable (_ ∧ _))

/-- A call of `set_bits` or of `clear_bits`. -/
inductive BitOp
  | set (r : BitRange)
  | clear (r : BitRange)

/-- The call on a bitmap. -/
def BitOp.apply (bm : Bitmap) : BitOp → Bitmap
  | .set r => setBits bm r.start r.cnt
  | .clear r => clearBits bm r.start r.cnt

/-- The bitmap after `init_bitmap` and the calls. -/
def afterOps (ops : List BitOp) : Bitmap := ops.foldl BitOp.apply initBitmap

/-- Some call set index `n`, and no later one cleared it. -/
def SetLast (ops : List BitOp) (n : Nat) : Prop :=
  ∃ before r after, ops = before ++ .set r :: after ∧ r.Has n ∧
    ∀ r', .clear r' ∈ after → ¬ r'.Has n

/-! ## The pages that are out -/

instance (b : Nat × Nat) (n : Nat) : Decidable (InBlock b n) := inferInstanceAs (Decidable (_ ∧ _))

/-- Page `n` is outstanding. -/
def Outstanding (s : AllocState) (n : Nat) : Prop := ∃ b ∈ s.blocks, InBlock b n

/-- The number of outstanding pages. -/
def AllocState.outstanding (s : AllocState) : Nat := (s.blocks.map Prod.snd).sum

/-! ## What `is_bit_set` sees -/

/-- A word under the mask of one bit. -/
theorem masked_toNat (w : Word) {i : Nat} (hi : i < 64) :
    (w &&& (1#64 <<< i)).toNat = if w.getLsbD i then 2 ^ i else 0 := by
  have hbits : w &&& (1#64 <<< i) = if w.getLsbD i then BitVec.ofNat 64 (2 ^ i) else 0 := by
    refine BitVec.eq_of_getLsbD_eq fun j hj => ?_
    have hpow : (BitVec.ofNat 64 (2 ^ i)).getLsbD j = decide (j = i) := by
      rw [BitVec.getLsbD_ofNat, Nat.testBit_two_pow]
      simp only [hj, decide_true, Bool.true_and, eq_comm]
    rw [BitVec.getLsbD_and, getLsbD_one_shl hj]
    by_cases hji : j = i
    · rw [hji] at hpow ⊢
      cases w.getLsbD i with
      | true => simpa using hpow.symm
      | false => simp
    · cases w.getLsbD i with
      | true => simpa [hji] using hpow.symm
      | false => simp [hji]
  rw [hbits]
  split
  · rw [BitVec.toNat_ofNat, Nat.mod_eq_of_lt (Nat.pow_lt_pow_right (by decide) hi)]
  · rfl

theorem toInt32_eq_zero_iff (x : Int) : toInt32 x = 0 ↔ (2 ^ 32 : Int) ∣ x := by
  simp only [toInt32, Int.bmod]
  omega

/-- The bits 32 to 63 of a word do not survive the conversion to `int`. -/
theorem isBitSet_ne_zero (bm : Bitmap) {n : Nat} (hn : n < 2 ^ 31) :
    isBitSet bm n ≠ 0 ↔ bit bm n = true ∧ n % 64 < 32 := by
  have hu : toUInt64 (n : Int) = n := toUInt64_natCast (by omega)
  have hpow : (2 ^ 32 : Int) ∣ (2 ^ (n % 64) : Nat) ↔ 32 ≤ n % 64 := by
    rw [show (2 ^ 32 : Int) = ((2 ^ 32 : Nat) : Int) from rfl, Int.natCast_dvd_natCast,
      Nat.pow_dvd_pow_iff_le_right (by decide)]
  rw [isBitSet, hu]
  simp only [masked_toNat _ (Nat.mod_lt n (show 0 < 64 by decide))]
  rw [ne_eq, toInt32_eq_zero_iff, bit]
  cases (bm (n / 64)).getLsbD (n % 64) with
  | true =>
    rw [if_pos rfl, hpow]
    simp
  | false => simp

theorem exact_iff {p q r : Prop} (h : p ↔ q ∧ r) : (p ↔ q) ↔ (q → r) :=
  ⟨fun hpq hq => (h.mp (hpq.mpr hq)).2, fun hqr => ⟨fun hp => (h.mp hp).1, fun hq => h.mpr ⟨hq, hqr hq⟩⟩⟩

/-! ## The bits after a sequence of calls -/

theorem bit_apply (bm : Bitmap) (op : BitOp) (n : Nat) :
    bit (op.apply bm) n = true ↔ match op with
      | .set r => r.Has n ∨ bit bm n = true
      | .clear r => ¬ r.Has n ∧ bit bm n = true := by
  cases op with
  | set r =>
    rw [BitOp.apply, bit_setBits _ r.fits, Bool.or_eq_true, decide_eq_true_eq]
    exact Iff.rfl
  | clear r =>
    rw [BitOp.apply, bit_clearBits _ r.fits, Bool.and_eq_true, Bool.not_eq_true',
      decide_eq_false_iff_not]
    exact Iff.rfl

/-- One more call. -/
theorem setLast_concat (ops : List BitOp) (op : BitOp) (n : Nat) :
    SetLast (ops ++ [op]) n ↔ match op with
      | .set r => r.Has n ∨ SetLast ops n
      | .clear r => ¬ r.Has n ∧ SetLast ops n := by
  constructor
  · rintro ⟨before, r, after, he, hr, hlater⟩
    rcases List.eq_nil_or_concat' after with rfl | ⟨after', op', rfl⟩
    · obtain ⟨-, hop⟩ := List.append_inj' he rfl
      rw [(List.cons.inj hop).1]
      exact .inl hr
    · rw [← List.cons_append, ← List.append_assoc] at he
      obtain ⟨rfl, hop⟩ := List.append_inj' he rfl
      cases (List.cons.inj hop).1
      have hold : SetLast (before ++ .set r :: after') n :=
        ⟨before, r, after', rfl, hr, fun r' hm => hlater r' (List.mem_append_left _ hm)⟩
      cases op with
      | set r' => exact .inr hold
      | clear r' => exact ⟨hlater r' (List.mem_append_right _ (List.mem_singleton_self _)), hold⟩
  · intro h
    cases op with
    | set r =>
      rcases h with hr | ⟨before, r', after, rfl, hr, hlater⟩
      · exact ⟨ops, r, [], rfl, hr, nofun⟩
      · refine ⟨before, r', after ++ [.set r], by simp, hr, fun r₂ hm => ?_⟩
        rcases List.mem_append.mp hm with hm | hm
        · exact hlater r₂ hm
        · cases List.mem_singleton.mp hm
    | clear r =>
      obtain ⟨hnot, before, r', after, rfl, hr, hlater⟩ := h
      refine ⟨before, r', after ++ [.clear r], by simp, hr, fun r₂ hm => ?_⟩
      rcases List.mem_append.mp hm with hm | hm
      · exact hlater r₂ hm
      · cases List.mem_singleton.mp hm
        exact hnot

/-- The set bits are those set last. -/
theorem bit_afterOps (ops : List BitOp) (n : Nat) :
    bit (afterOps ops) n = true ↔ SetLast ops n := by
  induction ops using List.reverseRecOn with
  | nil =>
    rw [afterOps, List.foldl_nil, bit_initBitmap]
    refine iff_of_false Bool.false_ne_true ?_
    rintro ⟨before, r, after, he, -⟩
    exact List.append_ne_nil_of_right_ne_nil before (List.cons_ne_nil _ _) he.symm
  | append_singleton ops op ih =>
    rw [setLast_concat, afterOps, List.foldl_append, List.foldl_cons, List.foldl_nil, bit_apply,
      ← afterOps]
    cases op <;> simp only [ih]

/-! ## The count -/

theorem countAllocated_eq (bm : Bitmap) {k : Nat} (hk : k ≤ 2 ^ 31) :
    countAllocated bm k =
      ((Finset.range k).filter fun n => bit bm n = true ∧ n % 64 < 32).card := by
  induction k with
  | zero => rfl
  | succ k ih =>
    rw [countAllocated, ih (by omega), Finset.range_add_one, Finset.filter_insert]
    simp only [isBitSet_ne_zero bm (show k < 2 ^ 31 by omega)]
    split
    · rw [Finset.card_insert_of_notMem (by simp)]
    · rfl

/-- Disjoint blocks have as many pages as their sizes say. -/
theorem card_blocks {blocks : List (Nat × Nat)} {k : Nat} (hin : ∀ b ∈ blocks, b.1 + b.2 ≤ k)
    (hapart : blocks.Pairwise Apart) :
    ((Finset.range k).filter fun n => ∃ b ∈ blocks, InBlock b n).card =
      (blocks.map Prod.snd).sum := by
  induction hapart with
  | nil => simp
  | @cons b blocks hb _ ih =>
    have hsplit : ((Finset.range k).filter fun n => ∃ c ∈ b :: blocks, InBlock c n) =
        Finset.Ico b.1 (b.1 + b.2) ∪
          ((Finset.range k).filter fun n => ∃ c ∈ blocks, InBlock c n) := by
      ext n
      have hlt := hin b (List.mem_cons_self ..)
      rw [Finset.mem_union, Finset.mem_filter, Finset.mem_filter, Finset.mem_range, Finset.mem_Ico]
      simp only [List.mem_cons, exists_eq_or_imp]
      constructor
      · rintro ⟨hn, h | h⟩
        · exact .inl h
        · exact .inr ⟨hn, h⟩
      · rintro (h | ⟨hn, h⟩)
        · exact ⟨Nat.lt_of_lt_of_le h.2 hlt, .inl h⟩
        · exact ⟨hn, .inr h⟩
    have hdisjoint : Disjoint (Finset.Ico b.1 (b.1 + b.2))
        ((Finset.range k).filter fun n => ∃ c ∈ blocks, InBlock c n) := by
      refine Finset.disjoint_left.mpr fun n hn hm => ?_
      obtain ⟨-, c, hc, hcn⟩ := Finset.mem_filter.mp hm
      have hbn := Finset.mem_Ico.mp hn
      have := hb c hc
      simp only [Apart, InBlock] at this hcn
      omega
    rw [hsplit, Finset.card_union_of_disjoint hdisjoint, Nat.card_Ico,
      ih fun c hc => hin c (List.mem_cons_of_mem _ hc), List.map_cons, List.sum_cons,
      Nat.add_sub_cancel_left]

theorem card_halves (k : Nat) (p : Nat → Prop) [DecidablePred p] :
    ((Finset.range k).filter fun n => p n ∧ n % 64 < 32).card +
      ((Finset.range k).filter fun n => p n ∧ 32 ≤ n % 64).card =
        ((Finset.range k).filter p).card := by
  rw [← Finset.filter_filter, ← Finset.filter_filter,
    ← Finset.card_filter_add_card_filter_not (s := (Finset.range k).filter p) fun n => n % 64 < 32]
  simp only [Nat.not_lt]

/-- The count leaves out the pages in the upper halves of the words. -/
theorem pageSummary_add {s : AllocState} (h : Reachable s) : pageSummary s.bitmap +
    ((Finset.range totalPages).filter fun n => bit s.bitmap n = true ∧ 32 ≤ n % 64).card =
      s.outstanding := by
  rw [pageSummary, countAllocated_eq _ (by decide), AllocState.outstanding,
    ← card_blocks h.inv.inside h.inv.apart, card_halves totalPages fun n => bit s.bitmap n = true]
  simp only [h.inv.bits]

theorem pageSummary_eq_iff {s : AllocState} (h : Reachable s) :
    pageSummary s.bitmap = s.outstanding ↔ ∀ n, Outstanding s n → n % 64 < 32 := by
  rw [← pageSummary_add h, Nat.left_eq_add, Finset.card_eq_zero, Finset.filter_eq_empty_iff]
  constructor
  · intro hno n hn
    obtain ⟨b, hb, hbn⟩ := hn
    have hlt : n < totalPages := Nat.lt_of_lt_of_le hbn.2 (h.inv.inside b hb)
    exact Nat.lt_of_not_le fun hge =>
      hno (Finset.mem_range.mpr hlt) ⟨(h.inv.bits n).mpr ⟨b, hb, hbn⟩, hge⟩
  · rintro hall n - ⟨hset, hge⟩
    exact Nat.not_lt.mpr hge (hall n ((h.inv.bits n).mp hset))

/-- `is_bit_set` and what is derived from it are exact where no bit of an upper half is involved. -/
theorem accounting_iff (bm : Bitmap) (ops : List BitOp) (n : Nat) (hn : n < 2 ^ 31) (s : AllocState)
    (hs : Reachable s) :
    ((isBitSet bm n ≠ 0 ↔ bit bm n = true) ↔ (bit bm n = true → n % 64 < 32)) ∧
    ((isBitSet (afterOps ops) n ≠ 0 ↔ SetLast ops n) ↔ (SetLast ops n → n % 64 < 32)) ∧
    (pageSummary s.bitmap = s.outstanding ↔ ∀ m, Outstanding s m → m % 64 < 32) := by
  refine ⟨exact_iff (isBitSet_ne_zero bm hn), exact_iff ?_, pageSummary_eq_iff hs⟩
  rw [isBitSet_ne_zero _ hn, bit_afterOps]

/-- One page is out, and bit 0 is looked at. -/
theorem accounting_iff_one : ((isBitSet initBitmap 0 ≠ 0 ↔ bit initBitmap 0 = true) ↔
      (bit initBitmap 0 = true → 0 % 64 < 32)) ∧
    ((isBitSet (afterOps []) 0 ≠ 0 ↔ SetLast [] 0) ↔ (SetLast [] 0 → 0 % 64 < 32)) ∧
    (pageSummary (AllocState.init.alloc 1).bitmap = (AllocState.init.alloc 1).outstanding ↔
      ∀ m, Outstanding (AllocState.init.alloc 1) m → m % 64 < 32) :=
  accounting_iff initBitmap [] 0 (by decide) _ (.alloc .init (by decide) (by decide))

/-- The first allocation after `init_page_allocator` starts at page 0. -/
theorem alloc_init (cnt : Nat) (h1 : 1 ≤ cnt) (h2 : cnt ≤ totalPages) :
    (AllocState.init.alloc cnt).blocks = [(0, cnt)] := by
  have hrun : FreeRun AllocState.init.bitmap cnt 0 :=
    ⟨rfl, by omega, fun m _ _ => bit_initBitmap m⟩
  rcases allocPagesCnt_spec AllocState.init.bitmap h1 h2 with ⟨p, hp, he⟩ | ⟨-, hno⟩
  · have hp0 : p = 0 := Nat.le_zero.mp (hp.2 0 hrun)
    subst hp0
    have hne : ¬ ((0 : Nat) : Int) = totalPages := by decide
    simp only [AllocState.alloc, he, hne, if_false]
    rfl
  · exact absurd hrun (hno 0)

/-- With the first 33 pages out, page 32 is set in the bitmap and not seen, and the summary is not
their number. -/
theorem page_32_not_counted : SetLast [.set ⟨32, 1, by decide⟩] 32 ∧
    isBitSet (afterOps [.set ⟨32, 1, by decide⟩]) 32 = 0 ∧
    (AllocState.init.alloc 33).outstanding = 33 ∧
    pageSummary (AllocState.init.alloc 33).bitmap ≠ 33 := by
  have hblocks := alloc_init 33 (by decide) (by decide)
  have hout : (AllocState.init.alloc 33).outstanding = 33 := by
    rw [AllocState.outstanding, hblocks]
    rfl
  refine ⟨⟨[], ⟨32, 1, by decide⟩, [], rfl, by decide, nofun⟩, by decide, hout, fun he => ?_⟩
  have hall := (pageSummary_eq_iff (.alloc .init (by decide) (by decide))).mp (he.trans hout.symm)
  have h32 : Outstanding (AllocState.init.alloc 33) 32 := by
    rw [Outstanding, hblocks]
    exact ⟨(0, 33), List.mem_singleton_self _, by decide⟩
  exact absurd (hall 32 h32) (by decide)

end HyperCore.PageAlloc
