import HyperCore.Core.ArchPage

/-!
# Page numbers and addresses, back and forth

`PAGE_VIR` and `PAGE_PHY` shift the `int` page number, and the pool has `2 ^ 20` pages. The conversions
between page numbers and addresses are inverse to each other for the lower half of the pool; from page
`2 ^ 19` on the shifted number is negative and both addresses are 4 GB too low (`converts_iff`).
-/

namespace HyperCore.ArchPage

open MachineInt Bitmap PageAlloc

/-- `VIR_TO_FN`, as the `int` its callers assign it to. -/
def virToFn (addr : Nat) : Int :=
  toInt32 (if addr < pageVirtOffset then -1 else ((addr - pageVirtOffset) / pageSize : Nat))

/-- The addresses of page `pfn` are those of the window and of the pool, and every conversion leads
back. -/
structure Converts (L : Layout) (pfn : Nat) : Prop where
  vir : pageVir pfn = pageVirtOffset + 4096 * pfn
  phy : L.pagePhy pfn = L.pagePhysOffset + 4096 * pfn
  vir_fn : virToFn (pageVir pfn) = pfn
  phy_fn : L.phyToFn (L.pagePhy pfn) = pfn
  vir_phy : L.virToPhy (pageVir pfn) = L.pagePhy pfn
  phy_vir : L.phyToVir (L.pagePhy pfn) = pageVir pfn

theorem virToFn_window {p : Nat} (h : p < 2 ^ 20) : virToFn (pageVirtOffset + pageSize * p) = p := by
  have hdiv : (pageVirtOffset + pageSize * p - pageVirtOffset) / pageSize = p := by
    rw [Nat.add_sub_cancel_left, Nat.mul_div_cancel_left p (by decide)]
  rw [virToFn, if_neg (Nat.not_lt.mpr (Nat.le_add_right _ _)), hdiv]
  exact toInt32_eq (by omega) (by omega)

/-- An address below the window is no page. -/
theorem virToFn_below {v : Nat} (h : v < pageVirtOffset) : virToFn v = -1 := by
  rw [virToFn, if_pos h]
  decide

/-- From page `2 ^ 19` on the address lies below the window. -/
theorem pageVir_below {p : Nat} (h1 : 2 ^ 19 ≤ p) (h2 : p < 2 ^ 20) : pageVir p < pageVirtOffset := by
  rw [pageVir_high h1 h2, pageVirtOffset, pageSize]
  omega

theorem converts_low (L : Layout) {p : Nat} (h : p < 2 ^ 19) : Converts L p := by
  have hp : p < 2 ^ 20 := Nat.lt_trans h (by decide)
  have hvir := pageVir_low h
  have hphy := L.pagePhy_low h
  refine ⟨hvir, hphy, ?_, ?_, ?_, ?_⟩
  · rw [hvir]
    exact virToFn_window hp
  · rw [hphy]
    exact L.phyToFn_physPage hp
  · rw [hvir, hphy]
    exact L.virToPhy_window hp
  · rw [hphy, hvir]
    exact L.phyToVir_physPage hp

/-- The conversions of a page of the pool agree exactly in its lower half. -/
theorem converts_iff (L : Layout) (pfn : Nat) (h : pfn < totalPages) :
    Converts L pfn ↔ pfn < 2 ^ 19 := by
  refine ⟨fun hc => Nat.lt_of_not_le fun hge => ?_, converts_low L⟩
  have hbelow := pageVir_below hge h
  rw [hc.vir] at hbelow
  exact absurd hbelow (Nat.not_lt.mpr (Nat.le_add_right _ _))

/-- The first page of the pool. -/
theorem converts_iff_zero : Converts ⟨0x40200000, by decide⟩ 0 ↔ 0 < 2 ^ 19 :=
  converts_iff _ 0 (by decide)

/-- With all pages before it taken, the first free page is the one returned. -/
theorem allocOnePage_first {bm : Bitmap} {p : Nat} (hrun : FreeRun bm 1 p)
    (htaken : ∀ q, q < p → bit bm q = true) : (allocPagesCnt bm 1).1 = p := by
  obtain ⟨heven, hlt, hclear⟩ := freeRun_one.mp hrun
  rcases allocOnePage_spec bm with ⟨q, hq, he⟩ | ⟨-, hnone⟩
  · have hge : p ≤ q := Nat.le_of_not_lt fun hlt => by
      have hfree := (freeRun_one.mp hq.1).2.2
      rw [htaken q hlt] at hfree
      cases hfree
    exact (congrArg Prod.fst he).trans (congrArg Nat.cast (Nat.le_antisymm (hq.2 _ hrun) hge))
  · have hpos : 0 < evenFree bm (totalPages / 2) := by
      refine evenFree_pos (k := p / 2) (by simp only [totalPages] at hlt ⊢; omega) ?_
      rw [show 2 * (p / 2) = p by omega]
      exact hclear
    exact absurd hnone (Nat.ne_of_gt hpos)

/-- The lower half of the pool is taken. -/
def lowerHalfTaken : Bitmap := fun w => if w < 2 ^ 13 then BitVec.allOnes 64 else 0#64

theorem bit_lowerHalfTaken (n : Nat) : bit lowerHalfTaken n = decide (n < 2 ^ 19) := by
  have hmod : n % 64 < 64 := Nat.mod_lt _ (by decide)
  rw [bit, lowerHalfTaken]
  split
  · rw [BitVec.getLsbD_allOnes, decide_eq_true hmod, decide_eq_true (by omega)]
  · rw [BitVec.getLsbD_zero, decide_eq_false (by omega)]

/-- The allocator then returns page `2 ^ 19`, whose addresses wrap. -/
theorem upper_half_wraps : (allocPagesCnt lowerHalfTaken 1).1 = 2 ^ 19 ∧
    pageVir (2 ^ 19) = pageVirtOffset + 4096 * 2 ^ 19 - 2 ^ 32 ∧ virToFn (pageVir (2 ^ 19)) = -1 ∧
    ∀ L, ¬ Converts L (2 ^ 19) := by
  have hrun : FreeRun lowerHalfTaken 1 (2 ^ 19) :=
    freeRun_one.mpr ⟨by decide, by decide, by rw [bit_lowerHalfTaken]; rfl⟩
  have hvir : pageVir (2 ^ 19) = pageVirtOffset + 4096 * 2 ^ 19 - 2 ^ 32 := by decide
  refine ⟨allocOnePage_first hrun fun q hq => ?_, hvir, ?_, fun L hc => ?_⟩
  · rw [bit_lowerHalfTaken, decide_eq_true hq]
  · rw [hvir]
    exact virToFn_below (by decide)
  · have hbelow := pageVir_below (Nat.le_refl (2 ^ 19)) (by decide)
    rw [hc.vir] at hbelow
    exact absurd hbelow (Nat.not_lt.mpr (Nat.le_add_right _ _))

end HyperCore.ArchPage
