import HyperCore.Core.Tlsf.Tiles

/-!
# Marking, splitting and absorbing blocks

What the operations on single blocks make of the tiles from the block on, and which bytes they
write. Whatever lies before the block is not mentioned: no such byte is written.
-/

namespace HyperCore.Tlsf

open ByteMem MachineInt

theorem tlsfAssert_true {p : Prop} [Decidable p] (h : p) : tlsfAssert p = some () := if_pos h

/-- The bytes `[a, a + n)`. -/
def Within (a n y : Nat) : Prop := a ≤ y ∧ y < a + n

section

variable {h : Heap} {c n : Nat} {prevFree : Bool} {x y : Blk} {l : List Blk}

theorem offsetToBlock_eq (hlt : c + 8 + n < 2 ^ 64) :
    offsetToBlock (blockToPtr c) ((n : Int) - blockHeaderOverhead) = c + 8 + n := by
  simp only [offsetToBlock, blockToPtr, blockStartOffset, blockHeaderOverhead, toUInt64]
  omega

theorem Header.blockNext_eq (hh : Header h.bytes c x prevFree) (hd : 8 ∣ x.size) (h0 : 0 < x.size)
    (hlt : c + 8 + x.size < 2 ^ 64) : blockNext h c = some (c + 8 + x.size) := by
  have hlast : ¬ blockIsLast h c = true := by
    rw [hh.blockIsLast_eq hd (by omega), beq_iff_eq]
    omega
  rw [blockNext, hh.blockSize_eq hd (by omega), offsetToBlock_eq hlt, tlsfAssert_true hlast]
  rfl

theorem Header.blockLinkNext_eq (hh : Header h.bytes c x prevFree) (hd : 8 ∣ x.size)
    (h0 : 0 < x.size) (hlt : c + 8 + x.size < 2 ^ 64) :
    blockLinkNext h c =
      some ({ h with bytes := put h.bytes (c + 8 + x.size) c 8 }, c + 8 + x.size) := by
  rw [blockLinkNext, hh.blockNext_eq hd h0 hlt]
  rfl

theorem Tiles.first_dvd (ht : Tiles h.bytes c prevFree l) : 8 ∣ (first l).size := by
  cases l with
  | nil => exact Nat.dvd_zero 8
  | cons x l => exact (tiles_cons.mp ht).1.dvd

theorem blockMarkAsFree_spec {f : Bool} (hsized : Sized x) (hhead : Header h.bytes c x prevFree)
    (hrest : Tiles h.bytes (c + 8 + x.size) f l) (hlt : c + span (x :: l) + 16 ≤ 2 ^ 64) :
    ∃ m, blockMarkAsFree h c = some { h with bytes := m } ∧
      Tiles m c prevFree (⟨x.size, true⟩ :: l) ∧
      Differ (fun y => Within (c + 8) 8 y ∨ Within (c + 8 + x.size) 16 y) h.bytes m := by
  have hmin := hsized.min
  rw [span_cons] at hlt
  obtain ⟨d, hd⟩ : ∃ d, d = c + 8 + x.size := ⟨_, rfl⟩
  rw [← hd] at hrest
  obtain ⟨m₁, hm₁⟩ : ∃ m, m = put h.bytes d c 8 := ⟨_, rfl⟩
  obtain ⟨m₂, hm₂⟩ : ∃ m, m = put m₁ (d + 8) (sizeWord (first l).size (first l).free true).toNat 8 :=
    ⟨_, rfl⟩
  obtain ⟨m₃, hm₃⟩ : ∃ m, m = put m₂ (c + 8) (sizeWord x.size true prevFree).toNat 8 := ⟨_, rfl⟩
  have hput₁ : ∀ y, ¬ (d ≤ y ∧ y < d + 8) → m₁ y = h.bytes y := fun y hy => hm₁ ▸ put_apart hy
  have hput₂ : ∀ y, ¬ (d + 8 ≤ y ∧ y < d + 16) → m₂ y = m₁ y := fun y hy => hm₂ ▸ put_apart hy
  have hput₃ : ∀ y, ¬ (c + 8 ≤ y ∧ y < c + 16) → m₃ y = m₂ y := fun y hy => hm₃ ▸ put_apart hy
  have hhead₁ : Header m₁ d (first l) f :=
    hrest.header_first.congr fun y h1 h2 => hput₁ y (by omega)
  have hhead₂ : Header m₂ c x prevFree :=
    hhead.congr fun y h1 h2 => (hput₂ y (by omega)).trans (hput₁ y (by omega))
  refine ⟨m₃, ?_, tiles_cons.mpr ⟨⟨hsized.dvd, hsized.min⟩, ?_, fun _ => ?_, ?_⟩, ?_⟩
  · rw [blockMarkAsFree, hhead.blockLinkNext_eq hsized.dvd (by omega) (by omega), ← hd, ← hm₁]
    change some (blockSetFree (blockSetPrevFree { h with bytes := m₁ } d) c) = _
    rw [Header.setPrevFree (h := { h with bytes := m₁ }) hhead₁]
    change some (blockSetFree { h with bytes := put m₁ (d + 8) _ 8 } c) = _
    rw [← hm₂, Header.setFree (h := { h with bytes := m₂ }) hhead₂, hm₃]
    rfl
  · exact hm₃ ▸ header_store m₂ c x.size true prevFree
  · change word m₃ (c + 8 + x.size) = c
    rw [← hd, hm₃, word_put_apart (by omega), hm₂, word_put_apart (by omega), hm₁,
      word_put _ _ (by omega)]
  · change Tiles m₃ (c + 8 + x.size) true l
    rw [← hd]
    refine hrest.flag ?_ fun y h1 h2 => ?_
    · have hflag : Header m₂ d (first l) true := hm₂ ▸ header_store m₁ d _ _ true
      exact hflag.congr fun y h1 h2 => hput₃ y (by omega)
    · rw [hput₃ y (by omega), hput₂ y (by omega), hput₁ y (by omega)]
  · intro y hy
    simp only [Within, not_or] at hy
    rw [hput₃ y (by omega), hput₂ y (by omega), hput₁ y (by omega)]

theorem blockMarkAsUsed_spec {f : Bool} (hsized : Sized x) (hhead : Header h.bytes c x prevFree)
    (hrest : Tiles h.bytes (c + 8 + x.size) f l) (hlt : c + span (x :: l) + 16 ≤ 2 ^ 64) :
    ∃ m, blockMarkAsUsed h c = some { h with bytes := m } ∧
      Tiles m c prevFree (⟨x.size, false⟩ :: l) ∧
      Differ (fun y => Within (c + 8) 8 y ∨ Within (c + 16 + x.size) 8 y) h.bytes m := by
  have hmin := hsized.min
  rw [span_cons] at hlt
  obtain ⟨d, hd⟩ : ∃ d, d = c + 8 + x.size := ⟨_, rfl⟩
  rw [← hd] at hrest
  obtain ⟨m₁, hm₁⟩ : ∃ m,
    m = put h.bytes (d + 8) (sizeWord (first l).size (first l).free false).toNat 8 := ⟨_, rfl⟩
  obtain ⟨m₂, hm₂⟩ : ∃ m, m = put m₁ (c + 8) (sizeWord x.size false prevFree).toNat 8 := ⟨_, rfl⟩
  have hput₁ : ∀ y, ¬ (d + 8 ≤ y ∧ y < d + 16) → m₁ y = h.bytes y :=
    fun y hy => hm₁ ▸ put_apart hy
  have hput₂ : ∀ y, ¬ (c + 8 ≤ y ∧ y < c + 16) → m₂ y = m₁ y := fun y hy => hm₂ ▸ put_apart hy
  have hhead₁ : Header m₁ c x prevFree := hhead.congr fun y h1 h2 => hput₁ y (by omega)
  refine ⟨m₂, ?_, tiles_cons.mpr ⟨⟨hsized.dvd, hsized.min⟩, ?_, fun hfree => ?_, ?_⟩, ?_⟩
  · rw [blockMarkAsUsed, hhead.blockNext_eq hsized.dvd (by omega) (by omega), ← hd]
    change some (blockSetUsed (blockSetPrevUsed h d) c) = _
    rw [Header.setPrevUsed hrest.header_first hrest.first_dvd]
    change some (blockSetUsed { h with bytes := put h.bytes (d + 8) _ 8 } c) = _
    rw [← hm₁, Header.setUsed (h := { h with bytes := m₁ }) hhead₁ hsized.dvd, hm₂]
    rfl
  · exact hm₂ ▸ header_store m₁ c x.size false prevFree
  · cases hfree
  · change Tiles m₂ (c + 8 + x.size) false l
    rw [← hd]
    refine hrest.flag ?_ fun y h1 h2 => ?_
    · have hflag : Header m₁ d (first l) false := hm₁ ▸ header_store h.bytes d _ _ false
      exact hflag.congr fun y h1 h2 => hput₂ y (by omega)
    · rw [hput₂ y (by omega), hput₁ y (by omega)]
  · intro y hy
    simp only [Within, not_or] at hy
    rw [hput₂ y (by omega), hput₁ y (by omega)]

/-- `block_set_prev_free` on the first of the tiles. -/
theorem Tiles.setPrevFree (ht : Tiles h.bytes c prevFree l) :
    ∃ m, blockSetPrevFree h c = { h with bytes := m } ∧ Tiles m c true l ∧
      Differ (Within (c + 8) 8) h.bytes m := by
  refine ⟨put h.bytes (c + 8) (sizeWord (first l).size (first l).free true).toNat 8,
    ?_, ?_, fun y hy => put_apart hy⟩
  · rw [Header.setPrevFree ht.header_first]
    rfl
  · exact ht.flag (header_store h.bytes c _ _ true) fun y h1 h2 => put_apart (by omega)

/-- `block_set_prev_used` on the first of the tiles. -/
theorem Tiles.setPrevUsed (ht : Tiles h.bytes c prevFree l) :
    ∃ m, blockSetPrevUsed h c = { h with bytes := m } ∧ Tiles m c false l ∧
      Differ (Within (c + 8) 8) h.bytes m := by
  refine ⟨put h.bytes (c + 8) (sizeWord (first l).size (first l).free false).toNat 8,
    ?_, ?_, fun y hy => put_apart hy⟩
  · rw [Header.setPrevUsed ht.header_first ht.first_dvd]
    rfl
  · exact ht.flag (header_store h.bytes c _ _ false) fun y h1 h2 => put_apart (by omega)

/-! ## Alignment -/

theorem toNat_and_not_mask (v : SizeT) {k : Nat} (hk : k ≤ 63) :
    (v &&& ~~~(BitVec.ofNat 64 (2 ^ k) - 1)).toNat = v.toNat / 2 ^ k * 2 ^ k := by
  have hlt : 2 ^ k < 2 ^ 64 := Nat.pow_lt_pow_right (by decide) (by omega)
  have hpos : 0 < 2 ^ k := Nat.two_pow_pos k
  have hmask : BitVec.ofNat 64 (2 ^ k) - 1 = BitVec.ofNat 64 (2 ^ k - 1) := by
    refine BitVec.eq_of_toNat_eq ?_
    have hone : (1 : SizeT).toNat = 1 := rfl
    rw [BitVec.toNat_sub, BitVec.toNat_ofNat, BitVec.toNat_ofNat, hone]
    omega
  refine Nat.eq_of_testBit_eq fun i => ?_
  rw [hmask, Nat.testBit_mul_two_pow, Nat.testBit_div_two_pow, BitVec.testBit_toNat,
    BitVec.getLsbD_and, BitVec.getLsbD_not, BitVec.getLsbD_ofNat, Nat.testBit_two_pow_sub_one]
  rcases Nat.lt_or_ge i 64 with hi | hi
  · rcases Nat.lt_or_ge i k with hki | hki
    · simp only [decide_eq_true hi, decide_eq_true hki, decide_eq_false (Nat.not_le.mpr hki),
        Bool.and_self, Bool.not_true, Bool.and_false, Bool.false_and]
    · rw [Nat.sub_add_cancel hki, BitVec.testBit_toNat]
      simp only [decide_eq_true hi, decide_eq_false (Nat.not_lt.mpr hki), decide_eq_true hki,
        Bool.and_false, Bool.not_false, Bool.and_true, Bool.true_and]
  · rw [Nat.sub_add_cancel (by omega), BitVec.testBit_toNat, BitVec.getLsbD_of_ge _ _ hi,
      Bool.false_and, Bool.and_false]

theorem alignSize_eq : BitVec.ofNat 64 alignSize = BitVec.ofNat 64 (2 ^ 3) := rfl

theorem pow_two_mask {k : Nat} (hk : k ≤ 63) :
    BitVec.ofNat 64 (2 ^ k) &&& (BitVec.ofNat 64 (2 ^ k) - 1) = 0 := by
  have hz := toNat_and_not_mask (BitVec.ofNat 64 (2 ^ k)) hk
  have hlt : 2 ^ k < 2 ^ 64 := Nat.pow_lt_pow_right (by decide) (by omega)
  rw [BitVec.toNat_ofNat, Nat.mod_eq_of_lt hlt, Nat.div_self (Nat.two_pow_pos k), Nat.one_mul] at hz
  have heq : BitVec.ofNat 64 (2 ^ k) &&& ~~~(BitVec.ofNat 64 (2 ^ k) - 1) =
      BitVec.ofNat 64 (2 ^ k) := by
    refine BitVec.eq_of_toNat_eq ?_
    rw [hz, BitVec.toNat_ofNat, Nat.mod_eq_of_lt hlt]
  rw [← heq, BitVec.and_assoc]
  refine BitVec.eq_of_getLsbD_eq fun i hi => ?_
  rw [heq]
  simp [hi]

theorem alignPtr_eight (ha : n < 2 ^ 64) (hd : 8 ∣ n) :
    alignPtr n (BitVec.ofNat 64 alignSize) = some n := by
  rw [alignPtr, alignSize_eq, tlsfAssert_true (pow_two_mask (by decide))]
  change some (BitVec.toNat _) = _
  rw [toNat_and_not_mask _ (by decide), BitVec.toNat_add, BitVec.toNat_ofNat,
    Nat.mod_eq_of_lt ha]
  have hseven : (BitVec.ofNat 64 (2 ^ 3) - 1).toNat = 7 := by decide
  congr 1
  rw [hseven]
  omega

end

section

variable {h : Heap} {c n : Nat} {prevFree : Bool} {x y : Blk} {l : List Blk}

/-! ## Splitting -/

/-- The size of a block that was never one: the flags in its size field may be anything. -/
theorem blockSetSize_any (h : Heap) (c n : Nat) : ∃ free prevFree,
    blockSetSize h c n = h.setSize c (sizeWord n free prevFree) := by
  obtain ⟨free, prevFree, hw⟩ := setSize_any (h.size c) n
  exact ⟨free, prevFree, by rw [blockSetSize, hw]⟩

/-- The second half of a split is free; the flag for the first half in it is left open. -/
theorem blockSplit_spec (ht : Tiles h.bytes c prevFree (x :: l)) (hn : Sized ⟨n, x.free⟩)
    (hfit : 32 + n ≤ x.size) (hc : 8 ∣ c) (hlt : c + span (x :: l) + 16 ≤ 2 ^ 64) :
    ∃ m f, blockSplit h c n = some ({ h with bytes := m }, c + 8 + n) ∧
      Header m c ⟨n, x.free⟩ prevFree ∧ Tiles m (c + 8 + n) f (⟨x.size - (n + 8), true⟩ :: l) ∧
      Differ (fun y => Within (c + 8) 8 y ∨ Within (c + 16 + n) 8 y ∨ Within (c + 8 + x.size) 16 y)
        h.bytes m := by
  obtain ⟨hsized, hhead, -, hrest⟩ := tiles_cons.mp ht
  rw [span_cons] at hlt
  obtain ⟨hn8, hmin⟩ := hn
  simp only at hn8 hmin
  obtain ⟨r, hr⟩ : ∃ r, r = c + 8 + n := ⟨_, rfl⟩
  obtain ⟨k, hk⟩ : ∃ k, k = x.size - (n + 8) := ⟨_, rfl⟩
  have hx8 := hsized.dvd
  have hk8 : 8 ∣ k := by omega
  obtain ⟨free, f, hset⟩ := blockSetSize_any h r k
  obtain ⟨m₁, hm₁⟩ : ∃ m, m = put h.bytes (r + 8) (sizeWord k free f).toNat 8 := ⟨_, rfl⟩
  obtain ⟨m₂, hm₂⟩ : ∃ m, m = put m₁ (c + 8) (sizeWord n x.free prevFree).toNat 8 := ⟨_, rfl⟩
  have hput₁ : ∀ y, ¬ (r + 8 ≤ y ∧ y < r + 16) → m₁ y = h.bytes y := fun y hy => hm₁ ▸ put_apart hy
  have hput₂ : ∀ y, ¬ (c + 8 ≤ y ∧ y < c + 16) → m₂ y = m₁ y := fun y hy => hm₂ ▸ put_apart hy
  have hrem₁ : Header m₁ r ⟨k, free⟩ f := hm₁ ▸ header_store h.bytes r k free f
  have hhead₁ : Header m₁ c x prevFree := hhead.congr fun y h1 h2 => hput₁ y (by omega)
  have hrem₂ : Header m₂ r ⟨k, free⟩ f := hrem₁.congr fun y h1 h2 => hput₂ y (by omega)
  have hnew : Header m₂ c ⟨n, x.free⟩ prevFree := hm₂ ▸ header_store m₁ c n x.free prevFree
  have hrest₂ : Tiles m₂ (r + 8 + k) x.free l := by
    rw [show r + 8 + k = c + 8 + x.size by omega]
    exact hrest.congr fun y h1 h2 => (hput₂ y (by omega)).trans (hput₁ y (by omega))
  obtain ⟨m, hmark, htiles, hdiff⟩ := blockMarkAsFree_spec (h := { h with bytes := m₂ })
    ⟨hk8, by change 24 ≤ k; omega⟩ hrem₂ hrest₂
    (by simp only [span_cons]; omega)
  refine ⟨m, f, ?_, ?_, hr ▸ hk ▸ htiles, fun y hy => ?_⟩
  · have hr' : offsetToBlock (blockToPtr c) ((n : Int) - blockHeaderOverhead) = r := by
      rw [offsetToBlock_eq (by omega), hr]
    have hk' : toUInt64 ((x.size : Int) - (n + blockHeaderOverhead : Nat)) = k := by
      simp only [toUInt64, blockHeaderOverhead]
      omega
    have halign : alignPtr (blockToPtr r) (BitVec.ofNat 64 alignSize) = some (blockToPtr r) := by
      refine alignPtr_eight ?_ ?_ <;> simp only [blockToPtr, blockStartOffset] <;> omega
    have hsum : x.size = k + n + blockHeaderOverhead := by
      simp only [blockHeaderOverhead]
      omega
    have hsize₁ : blockSize { h with bytes := m₁ } r = k :=
      Header.blockSize_eq (h := { h with bytes := m₁ }) hrem₁ hk8 (by change k < _; omega)
    simp only [blockSplit, hhead.blockSize_eq hx8 (by omega), hr', hk', halign, Option.bind_eq_bind,
      Option.bind_some]
    rw [tlsfAssert_true trivial, tlsfAssert_true hsum, hset]
    change (do
      tlsfAssert (blockSize { h with bytes := put h.bytes (r + 8) _ 8 } r ≥ blockSizeMin)
      let h ← blockMarkAsFree (blockSetSize { h with bytes := put h.bytes (r + 8) _ 8 } c n) r
      pure (h, r)) = _
    rw [← hm₁, hsize₁, tlsfAssert_true (show k ≥ blockSizeMin by change 24 ≤ k; omega),
      Header.setBlockSize (h := { h with bytes := m₁ }) hhead₁ hx8 n]
    change (do
      let h ← blockMarkAsFree { h with bytes := put m₁ (c + 8) _ 8 } r
      pure (h, r)) = _
    rw [← hm₂, hmark, ← hr]
    rfl
  · refine hnew.congr fun y h1 h2 => hdiff y ?_
    simp only [Within]
    omega
  · simp only [Within, not_or] at hy
    rw [hdiff y (by simp only [Within]; omega)]
    change m₂ y = _
    rw [hput₂ y (by omega), hput₁ y (by omega)]

/-! ## Absorbing -/

/-- A block grows over its successor. Of the tiles after both, only the link back changes. -/
theorem blockAbsorb_spec {f g : Bool} (hx : Sized x) (hhead : Header h.bytes c x prevFree)
    (hy : Sized y) (hheady : Header h.bytes (c + 8 + x.size) y f)
    (hrest : Tiles h.bytes (c + 8 + x.size + 8 + y.size) g l)
    (hlt : c + span (x :: y :: l) + 16 ≤ 2 ^ 64) :
    ∃ m, blockAbsorb h c (c + 8 + x.size) = some ({ h with bytes := m }, c) ∧
      Header m c ⟨x.size + 8 + y.size, x.free⟩ prevFree ∧
      word m (c + 8 + x.size + 8 + y.size) = c ∧
      Tiles m (c + 8 + x.size + 8 + y.size) g l ∧
      Differ (fun z => Within (c + 8) 8 z ∨ Within (c + 8 + x.size + 8 + y.size) 8 z) h.bytes m := by
  rw [span_cons, span_cons] at hlt
  have hxmin := hx.min
  have hymin := hy.min
  have hx8 := hx.dvd
  have hy8 := hy.dvd
  obtain ⟨k, hk⟩ : ∃ k, k = x.size + 8 + y.size := ⟨_, rfl⟩
  obtain ⟨e, he⟩ : ∃ e, e = c + 8 + x.size + 8 + y.size := ⟨_, rfl⟩
  obtain ⟨m₁, hm₁⟩ : ∃ m, m = put h.bytes (c + 8) (sizeWord k x.free prevFree).toNat 8 := ⟨_, rfl⟩
  obtain ⟨m₂, hm₂⟩ : ∃ m, m = put m₁ e c 8 := ⟨_, rfl⟩
  have hput₁ : ∀ z, ¬ (c + 8 ≤ z ∧ z < c + 16) → m₁ z = h.bytes z := fun z hz => hm₁ ▸ put_apart hz
  have hput₂ : ∀ z, ¬ (e ≤ z ∧ z < e + 8) → m₂ z = m₁ z := fun z hz => hm₂ ▸ put_apart hz
  have hnew : Header m₁ c ⟨k, x.free⟩ prevFree := hm₁ ▸ header_store h.bytes c k x.free prevFree
  rw [← he] at hrest ⊢
  rw [← hk]
  refine ⟨m₂, ?_, hnew.congr fun z h1 h2 => hput₂ z (by omega), ?_, ?_, fun z hz => ?_⟩
  · have hlast : ¬ blockIsLast h c = true := by
      rw [hhead.blockIsLast_eq hx8 (by omega), beq_iff_eq]
      omega
    have hadd : h.size c + BitVec.ofNat 64 (blockSize h (c + 8 + x.size) + blockHeaderOverhead) =
        sizeWord k x.free prevFree := by
      rw [hheady.blockSize_eq hy8 (by omega), hhead.size_eq,
        sizeWord_add hx8 (by simp only [blockHeaderOverhead]; omega), hk]
      simp only [blockHeaderOverhead]
      congr 1
      omega
    have hlink := Header.blockLinkNext_eq (h := { h with bytes := m₁ }) hnew
      (show 8 ∣ k by omega) (show 0 < k by omega) (show c + 8 + k < 2 ^ 64 by omega)
    change _ = some (({ h with bytes := put m₁ (c + 8 + k) c 8 } : Heap), c + 8 + k) at hlink
    rw [show c + 8 + k = e by omega, ← hm₂] at hlink
    rw [blockAbsorb, tlsfAssert_true hlast, hadd, bytes_setSize, ← hm₁]
    simp only [Option.bind_eq_bind, Option.bind_some, hlink]
    rfl
  · rw [hm₂, word_put _ _ (by omega)]
  · exact hrest.congr fun z h1 h2 => (hput₂ z (by omega)).trans (hput₁ z (by omega))
  · simp only [Within, not_or] at hz
    rw [hput₂ z (by omega), hput₁ z (by omega)]

end

end HyperCore.Tlsf
