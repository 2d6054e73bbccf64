import HyperCore.Core.TableMap

/-!
# `kmalloc.c`: pools of pages

`alloc_mem_pool` rounds a size up to pages, passes the count to `alloc_pages_cnt`
as an `int`, and takes a negative answer for failure. The allocator answers
`TOTAL_PAGES` when it fails, so the test misses it; the few negative answers come
from counts that do not fit an `int`.

`allocMemPool_recognises` says exactly for which sizes and allocator states the
caller keeps the contract.
-/

namespace HyperCore.Kmalloc

open MachineInt Bitmap PageAlloc ArchPage TableMap

/-! ## The code -/

/-- `alloc_pages_cnt` on the host. With a negative first index `set_bits` leaves the
bitmap (the index is converted to `uint64_t`), and its first store faults. -/
def takePagesCnt (cnt : Int) : HostM Int := fun h =>
  let start := (allocPagesCnt h.bitmap cnt).1
  if start < 0 ∧ 0 < rounds start cnt then .error .fault h
  else .ok start { h with bitmap := (allocPagesCnt h.bitmap cnt).2 }

/-- `alloc_mem_pool` -/
def allocMemPool (size : Word) : HostM Nat := do
  let fpn ← takePagesCnt (toInt32 (pageCount size.toNat))
  if fpn < 0 then pure 0 else pure (pageVir fpn)

/-! ## The contract -/

/-- The pages that `size` bytes take. -/
def poolPages (size : Word) : Nat := (size.toNat + 4095) / 4096

/-- The pages handed out at `ptr` were free. -/
def HandsOutFree (bm : Bitmap) (ptr n : Nat) : Prop :=
  ∀ k, k < n → ∃ p, p < totalPages ∧ ptr + 4096 * k = pageVirtOffset + 4096 * p ∧ bit bm p = false

/-- What a caller of the allocator owes: a request that cannot be met is answered with
`NULL`, and every page handed out was free before. -/
structure PoolRecognises (size : Word) (h : Host) : Prop where
  reports : (¬ ∃ p, FreeRun h.bitmap (poolPages size) p) → ∃ h', allocMemPool size h = .ok 0 h'
  free : ∀ ptr h', allocMemPool size h = .ok ptr h' → ptr ≠ 0 →
    HandsOutFree h.bitmap ptr (poolPages size)

/-- The first free page, rounded up to an even one. -/
def firstEven (bm : Bitmap) : Nat := alignMask (findNextZeroBit bm totalPages 0) 1

/-- The lowest free run starts where `PAGE_VIR` is exact; or nothing is asked for; or
the count is a negative `int` that carries the answer below zero. -/
def PoolRoom (size : Word) (bm : Bitmap) : Prop :=
  poolPages size = 0 ∨ (∃ p, p < 2 ^ 19 ∧ LeastRun bm (poolPages size) p) ∨
    (totalPages < poolPages size ∧ 3 * 2 ^ 31 ≤ firstEven bm + 2 * (poolPages size % 2 ^ 32) ∧
      firstEven bm + poolPages size % 2 ^ 32 < 2 ^ 32)

/-! ## The count -/

theorem pageCount_mod (size : Word) :
    toUInt32 (toInt32 (pageCount size.toNat)) = poolPages size % 2 ^ 32 := by
  have hlt := size.isLt
  rw [toUInt32_toInt32]
  simp only [toUInt32, pageCount, pageSize, poolPages]
  omega

theorem pageCount_eq {size : Word} (h : poolPages size ≤ totalPages) :
    toInt32 (pageCount size.toNat) = (poolPages size : Int) := by
  have hlt := size.isLt
  have hn : pageCount size.toNat = poolPages size := by
    simp only [pageCount, pageSize, poolPages, totalPages] at *
    omega
  rw [hn, toInt32_eq (by omega) (by simp only [totalPages] at h; omega)]

theorem firstEven_le (bm : Bitmap) : firstEven bm ≤ totalPages + 1 := by
  have := (findNextZeroBit_first bm totalPages 0).le_hi
  unfold firstEven alignMask
  omega

/-- A request larger than the pool makes the search stop at its first candidate. -/
theorem findNextZeroArea_large {bm : Bitmap} {nr : Nat} (h : totalPages < nr) :
    findNextZeroArea bm totalPages 0 nr 1 = firstEven bm + nr := by
  rw [findNextZeroArea, findNextZeroAreaOff]
  simp only [Nat.add_zero, Nat.sub_zero]
  rw [← firstEven, if_pos (by omega)]

theorem allocPagesCnt_large {bm : Bitmap} {cnt : Int} {nr : Nat} (hc : toUInt32 cnt = nr)
    (h : totalPages < nr) : (allocPagesCnt bm cnt).1 =
      if toInt32 (firstEven bm + nr : Nat) ≥ totalPages then (totalPages : Int)
      else toInt32 (firstEven bm + nr : Nat) := by
  simp only [allocPagesCnt, hc, findNextZeroArea_large h]
  by_cases hge : toInt32 (firstEven bm + nr : Nat) ≥ totalPages
  · simp only [hge, if_true]
  · simp only [hge, if_false]

/-- A count that fits the pool never gives a negative answer. -/
theorem allocPagesCnt_nonneg {bm : Bitmap} {cnt : Int} {nr : Nat} (hc : toUInt32 cnt = nr)
    (h : nr ≤ totalPages) : 0 ≤ (allocPagesCnt bm cnt).1 := by
  have hle := findNextZeroAreaOff_le bm totalPages 0 nr 1 0
  have hint : toInt32 (findNextZeroArea bm totalPages 0 nr 1) =
      findNextZeroArea bm totalPages 0 nr 1 := by
    simp only [findNextZeroArea, totalPages] at *
    exact toInt32_eq (by omega) (by omega)
  simp only [allocPagesCnt, hc, hint]
  split
  · exact Int.natCast_nonneg totalPages
  · exact Int.natCast_nonneg _

/-- The `int` arithmetic of a count past the pool: the answer is negative with no bit to
set exactly if the count is a negative `int` and adding it again does not wrap. -/
theorem null_arith {cnt : Int} {nr a : Nat} (hc : toUInt32 cnt = nr) (hcnt : toInt32 cnt = cnt)
    (hnr : totalPages < nr) (ha : a ≤ totalPages + 1) {s : Int}
    (hs : s = toInt32 (a + nr : Nat)) :
    ((if s ≥ totalPages then (totalPages : Int) else s) < 0 ∧
      rounds (if s ≥ totalPages then (totalPages : Int) else s) cnt = 0) ↔
      3 * 2 ^ 31 ≤ a + 2 * nr ∧ a + nr < 2 ^ 32 := by
  have hb := toInt32_bounds cnt
  obtain ⟨k, hk⟩ := toInt32_diff (a + nr : Nat)
  have hsb := toInt32_bounds (a + nr : Nat)
  rw [← hs] at hk hsb
  rw [hcnt] at hb
  have ht : totalPages = 2 ^ 20 := rfl
  simp only [toUInt32] at hc
  rcases Int.lt_or_le s 0 with hneg | hpos
  · rw [if_neg (by omega)]
    obtain ⟨j, hj⟩ := toInt32_diff (s + cnt)
    have hjb := toInt32_bounds (s + cnt)
    simp only [rounds]
    omega
  · refine iff_of_false (fun hc => ?_) fun hc => ?_
    · split at hc <;> omega
    · omega

/-! ## When the contract is kept -/

section

variable {size : Word} {h : Host}

/-- The answer to `fpn`. -/
theorem allocMemPool_ok {fpn : Int} {bm : Bitmap}
    (ha : allocPagesCnt h.bitmap (toInt32 (pageCount size.toNat)) = (fpn, bm)) (h0 : 0 ≤ fpn) :
    allocMemPool size h = .ok (pageVir fpn) { h with bitmap := bm } := by
  have hneg : ¬ fpn < 0 := Int.not_lt.mpr h0
  have htake : takePagesCnt (toInt32 (pageCount size.toNat)) h = .ok fpn { h with bitmap := bm } := by
    simp only [takePagesCnt, ha, hneg, false_and, if_false]
  rw [allocMemPool, bind_ok htake]
  simp only [hneg, if_false]
  rfl

/-- `NULL` is the answer to a negative page number whose bits were not set. -/
theorem allocMemPool_null_iff :
    (∃ h', allocMemPool size h = .ok 0 h') ↔
      (allocPagesCnt h.bitmap (toInt32 (pageCount size.toNat))).1 < 0 ∧
        rounds (allocPagesCnt h.bitmap (toInt32 (pageCount size.toNat))).1
          (toInt32 (pageCount size.toNat)) = 0 := by
  cases ha : allocPagesCnt h.bitmap (toInt32 (pageCount size.toNat)) with
  | mk fpn bm =>
    rcases Int.lt_or_le fpn 0 with hneg | h0
    · rcases Nat.eq_zero_or_pos (rounds fpn (toInt32 (pageCount size.toNat))) with hz | hpos
      · refine iff_of_true ⟨{ h with bitmap := bm }, ?_⟩ ⟨hneg, hz⟩
        have htake : takePagesCnt (toInt32 (pageCount size.toNat)) h =
            .ok fpn { h with bitmap := bm } := by
          simp only [takePagesCnt, ha, hz, Nat.lt_irrefl, and_false, if_false]
        rw [allocMemPool, bind_ok htake]
        simp only [hneg, if_true]
        rfl
      · refine iff_of_false ?_ fun hc => Nat.ne_of_gt hpos hc.2
        rintro ⟨h', hrun⟩
        have htake : takePagesCnt (toInt32 (pageCount size.toNat)) h = .error .fault h := by
          simp only [takePagesCnt, ha, hneg, hpos, and_self, if_true]
        rw [allocMemPool, bind_error htake] at hrun
        cases hrun
    · refine iff_of_false ?_ fun hc => Int.not_lt.mpr h0 hc.1
      rintro ⟨h', hrun⟩
      rw [allocMemPool_ok ha h0] at hrun
      injection hrun with hz
      exact pageVir_ne_zero (Int.not_lt.mpr h0) hz

/-- A request for more pages than the pool has. -/
theorem recognises_large (hn : totalPages < poolPages size) :
    PoolRecognises size h ↔
      3 * 2 ^ 31 ≤ firstEven h.bitmap + 2 * (poolPages size % 2 ^ 32) ∧
        firstEven h.bitmap + poolPages size % 2 ^ 32 < 2 ^ 32 := by
  have hunsat : ¬ ∃ p, FreeRun h.bitmap (poolPages size) p := by
    rintro ⟨p, -, hin, -⟩
    omega
  have hnull : PoolRecognises size h ↔ ∃ h', allocMemPool size h = .ok 0 h' := by
    refine ⟨fun hr => hr.reports hunsat, fun ⟨h', hok⟩ => ⟨fun _ => ⟨h', hok⟩, ?_⟩⟩
    intro ptr h₁ hrun h0
    rw [hok] at hrun
    injection hrun with hz
    exact absurd hz.symm h0
  rw [hnull, allocMemPool_null_iff]
  have hfe := firstEven_le h.bitmap
  rcases Nat.lt_or_ge totalPages (poolPages size % 2 ^ 32) with hbig | hsmall
  · rw [allocPagesCnt_large (pageCount_mod size) hbig]
    have hint : toInt32 (toInt32 (pageCount size.toNat)) = toInt32 (pageCount size.toNat) :=
      toInt32_eq (toInt32_bounds _).1 (toInt32_bounds _).2
    exact null_arith (pageCount_mod size) hint hbig hfe rfl
  · refine iff_of_false (fun hc => ?_) fun hc => ?_
    · exact Int.not_lt.mpr (allocPagesCnt_nonneg (pageCount_mod size) hsmall) hc.1
    · simp only [totalPages] at *
      omega

/-- A request the pool could hold: the answer is a page, and it is a free one exactly
if a run was found below page `2 ^ 19`. -/
theorem recognises_small (h1 : 1 ≤ poolPages size) (h2 : poolPages size ≤ totalPages) :
    PoolRecognises size h ↔ ∃ p, p < 2 ^ 19 ∧ LeastRun h.bitmap (poolPages size) p := by
  rcases allocPagesCnt_spec h.bitmap h1 h2 with ⟨p, hp, ha⟩ | ⟨ha, hno⟩
  · rw [← pageCount_eq h2] at ha
    have hrun := allocMemPool_ok ha (Int.natCast_nonneg p)
    have hin := hp.1.2.1
    constructor
    · intro hr
      refine ⟨p, Nat.lt_of_not_le fun hge => ?_, hp⟩
      -- past page `2 ^ 19` the pointer lies below the window
      have hptr := pageVir_high hge (by simp only [totalPages] at hin; omega)
      obtain ⟨q, -, he, -⟩ := hr.free _ _ hrun
        (pageVir_ne_zero (Int.not_lt.mpr (Int.natCast_nonneg p))) 0 h1
      rw [hptr] at he
      simp only [pageSize, totalPages, pageVirtOffset] at *
      omega
    · rintro ⟨q, hq, hq'⟩
      cases hp.unique hq'
      refine ⟨fun hunsat => absurd ⟨p, hp.1⟩ hunsat, fun ptr h' hok _ k hk => ?_⟩
      rw [hrun] at hok
      injection hok with hptr
      refine ⟨p + k, by omega, ?_, hp.1.2.2 (p + k) (by omega) (by omega)⟩
      rw [← hptr, pageVir_low hq, pageSize]
      omega
  · rw [← pageCount_eq h2] at ha
    have hrun := allocMemPool_ok ha (Int.natCast_nonneg totalPages)
    refine iff_of_false (fun hr => ?_) (by rintro ⟨p, -, hp⟩; exact hno p hp.1)
    obtain ⟨h', hok⟩ := hr.reports (by rintro ⟨p, hp⟩; exact hno p hp)
    rw [hrun] at hok
    injection hok with hz
    exact pageVir_ne_zero (Int.not_lt.mpr (Int.natCast_nonneg totalPages)) hz

/-- Exactly when `alloc_mem_pool` recognises a failed allocation. -/
theorem allocMemPool_recognises (size : Word) (h : Host) :
    PoolRecognises size h ↔ PoolRoom size h.bitmap := by
  rcases Nat.eq_zero_or_pos (poolPages size) with h0 | h1
  · refine iff_of_true ⟨fun hunsat => absurd ⟨0, ?_⟩ hunsat, fun ptr h' _ _ => ?_⟩ (.inl h0)
    · rw [h0]
      exact fun k hk => absurd hk (Nat.not_lt_zero k)
    · rw [h0]
      exact ⟨rfl, Nat.zero_le _, fun n _ hn => absurd hn (Nat.not_lt_zero n)⟩
  · rcases Nat.lt_or_ge totalPages (poolPages size) with hbig | hsmall
    · rw [recognises_large hbig]
      constructor
      · exact fun hc => .inr (.inr ⟨hbig, hc⟩)
      · rintro (h0 | ⟨p, -, hp⟩ | ⟨-, hc⟩)
        · omega
        · have := hp.1.2.1
          omega
        · exact hc
    · rw [recognises_small h1 hsmall]
      constructor
      · exact fun hc => .inr (.inl hc)
      · rintro (h0 | hc | ⟨hlt, -⟩)
        · omega
        · exact hc
        · omega

end

end HyperCore.Kmalloc
