import HyperCore.Lib.MachineInt
import HyperCore.Core.PageAlloc

/-!
# `arch_page.h`: page numbers and addresses

The pool of the page allocator starts at `PAGE_PHYS_OFFSET` and is seen by the
hypervisor through a window at `PAGE_VIRT_OFFSET`. The macros `PAGE_VIR` and
`PAGE_PHY` shift an `int`, so they are exact below page `2 ^ 19` only:

| page number        | `PAGE_PHY`                     | `PAGE_VIR`                     |
|--------------------|--------------------------------|--------------------------------|
| `p < 2 ^ 19`       | page `p` of the pool           | page `p` of the window         |
| `2 ^ 19 ≤ p < 2 ^ 20` | 4 GB below page `p`         | 4 GB below page `p`            |
| `2 ^ 20` (failure) | page 0 of the pool             | page 0 of the window           |

The window itself is 1 GB long (`init_direct_mapping` on both architectures), so
the hypervisor can reach the first `2 ^ 18` pages through it.
-/

namespace HyperCore.ArchPage

open MachineInt PageAlloc

/-- `PAGE_SIZE` -/
def pageSize : Nat := 4096

/-- `PAGE_VIRT_OFFSET`, that is `DIRECT_MAPPING_VIRT_START`. -/
def pageVirtOffset : Nat := 0xF0 * 2 ^ 32

/-- `DIRECT_MAPPINT_PRIMARY_SIZE`: the size of the window. -/
def directMappingSize : Nat := 2 ^ 30

/-- The place of the linker symbol `_hyper_end`. Both boards link the image into the
first 4 GB, which `MB(2)` as a 32-bit mask needs. -/
structure Layout where
  hyperEnd : Nat
  fits : hyperEnd + 3 * 2 ^ 20 ≤ 2 ^ 32

namespace Layout

variable (L : Layout)

/-- `PAGE_PHYS_OFFSET`: one megabyte past the image, rounded up to 2 MB. -/
def pagePhysOffset : Nat := (L.hyperEnd + 2 ^ 20 + 2 ^ 21 - 1) / 2 ^ 21 * 2 ^ 21

/-- Page `p` of the pool. -/
def physPage (p : Nat) : Nat := L.pagePhysOffset + pageSize * p

/-- `PAGE_PHY`. The shift is done in `int`. -/
def pagePhy (pfn : Int) : Nat :=
  if pfn < 0 then 0 else toUInt64 (L.pagePhysOffset + toInt32 (pfn * 2 ^ 12))

/-- `vir_to_phy` -/
def virToPhy (v : Nat) : Nat :=
  if v < pageVirtOffset then v else toUInt64 (v - pageVirtOffset + L.pagePhysOffset)

/-- `phy_to_vir` -/
def phyToVir (v : Nat) : Nat :=
  if v < L.pagePhysOffset then v else toUInt64 (v - L.pagePhysOffset + pageVirtOffset)

/-- `PHY_TO_FN`, as the `int` argument its callers pass on. -/
def phyToFn (v : Nat) : Int :=
  toInt32 (if v < L.pagePhysOffset then -1 else ((v - L.pagePhysOffset) / pageSize : Nat))

/-- The hypervisor's own address space: the window of `init_direct_mapping`, and the
identity map of the image below the pool. Everything else faults. -/
def hostTranslate (v : Nat) : Option Nat :=
  if pageVirtOffset ≤ v ∧ v < pageVirtOffset + directMappingSize then
    some (L.pagePhysOffset + (v - pageVirtOffset))
  else if v < L.pagePhysOffset then some v
  else none

end Layout

/-- `PAGE_VIR`. The shift is done in `int`. -/
def pageVir (pfn : Int) : Nat :=
  if pfn < 0 then 0 else toUInt64 (pageVirtOffset + toInt32 (pfn * 2 ^ 12))

/-! ## Page addresses -/

/-- The shifted page number: exact up to `2 ^ 19`, then 4 GB too low. -/
theorem shift_low {p : Nat} (h : p < 2 ^ 19) : toInt32 ((p : Int) * 2 ^ 12) = p * 4096 := by
  rw [toInt32_eq] <;> omega

theorem shift_high {p : Nat} (h1 : 2 ^ 19 ≤ p) (h2 : p < 2 ^ 20) :
    toInt32 ((p : Int) * 2 ^ 12) = p * 4096 - 2 ^ 32 :=
  toInt32_unique (by omega) (by omega) ⟨1, by omega⟩

theorem shift_total : toInt32 ((totalPages : Int) * 2 ^ 12) = 0 := by decide

theorem pageVir_low {p : Nat} (h : p < 2 ^ 19) : pageVir p = pageVirtOffset + pageSize * p := by
  have hneg : ¬ ((p : Int) < 0) := by omega
  simp only [pageVir, hneg, if_false, shift_low h, toUInt64, pageVirtOffset, pageSize]
  omega

theorem pageVir_high {p : Nat} (h1 : 2 ^ 19 ≤ p) (h2 : p < 2 ^ 20) :
    pageVir p = pageVirtOffset + pageSize * p - 2 ^ 32 := by
  have hneg : ¬ ((p : Int) < 0) := by omega
  simp only [pageVir, hneg, if_false, shift_high h1 h2, toUInt64, pageVirtOffset, pageSize]
  omega

theorem pageVir_total : pageVir totalPages = pageVirtOffset := by decide

theorem pageVir_ne_zero {fn : Int} (h : ¬ fn < 0) : pageVir fn ≠ 0 := by
  have := toInt32_bounds (fn * 2 ^ 12)
  rw [pageVir, if_neg h]
  simp only [toUInt64, pageVirtOffset]
  omega

namespace Layout

variable (L : Layout)

theorem pagePhysOffset_lt : L.pagePhysOffset < 2 ^ 32 := by
  have := L.fits
  simp only [pagePhysOffset]
  omega

theorem hyperEnd_lt : L.hyperEnd + 2 ^ 20 ≤ L.pagePhysOffset := by
  simp only [pagePhysOffset]
  omega

theorem pagePhysOffset_block : L.pagePhysOffset % 2 ^ 21 = 0 := by
  simp only [pagePhysOffset]
  omega

theorem pagePhysOffset_mod : L.pagePhysOffset % 4096 = 0 := by
  simp only [pagePhysOffset]
  omega

theorem pagePhysOffset_pos : 0 < L.pagePhysOffset := by
  have := L.hyperEnd_lt
  omega

theorem physPage_mod (p : Nat) : L.physPage p % 4096 = 0 := by
  have := L.pagePhysOffset_mod
  simp only [physPage, pageSize]
  omega

theorem physPage_pos (p : Nat) : 0 < L.physPage p := by
  have := L.pagePhysOffset_pos
  simp only [physPage]
  omega

theorem physPage_lt {p : Nat} (h : p < 2 ^ 20) : L.physPage p < 2 ^ 33 := by
  have := L.pagePhysOffset_lt
  simp only [physPage, pageSize]
  omega

theorem physPage_inj {p q : Nat} (h : L.physPage p = L.physPage q) : p = q := by
  simp only [physPage, pageSize] at h
  omega

theorem pagePhy_low {p : Nat} (h : p < 2 ^ 19) : L.pagePhy p = L.physPage p := by
  have := L.pagePhysOffset_lt
  have hneg : ¬ ((p : Int) < 0) := by omega
  simp only [pagePhy, hneg, if_false, shift_low h, toUInt64, physPage, pageSize]
  omega

/-- Past `2 ^ 19` the address is 4 GB too low. -/
theorem pagePhy_high {p : Nat} (h1 : 2 ^ 19 ≤ p) (h2 : p < 2 ^ 20) :
    L.pagePhy p = toUInt64 ((L.physPage p : Int) - 2 ^ 32) := by
  have hneg : ¬ ((p : Int) < 0) := by omega
  have hsum : (L.pagePhysOffset : Int) + (p * 4096 - 2 ^ 32) = (L.physPage p : Int) - 2 ^ 32 := by
    simp only [physPage, pageSize]
    omega
  rw [pagePhy, if_neg hneg, shift_high h1 h2, hsum]

theorem pagePhy_total : L.pagePhy totalPages = L.physPage 0 := by
  have hlt := L.pagePhysOffset_lt
  have hneg : ¬ ((totalPages : Int) < 0) := by decide
  rw [pagePhy, if_neg hneg, shift_total, Int.add_zero, toUInt64_natCast (by omega), physPage,
    Nat.mul_zero, Nat.add_zero]

theorem phyToVir_physPage {p : Nat} (h : p < 2 ^ 20) :
    L.phyToVir (L.physPage p) = pageVirtOffset + pageSize * p := by
  have hge : ¬ L.physPage p < L.pagePhysOffset := by simp only [physPage]; omega
  rw [phyToVir, if_neg hge]
  simp only [physPage, toUInt64, pageVirtOffset, pageSize]
  omega

theorem phyToVir_ne_zero {p : Nat} (h : p < 2 ^ 20) : L.phyToVir (L.physPage p) ≠ 0 := by
  rw [L.phyToVir_physPage h, pageVirtOffset]
  omega

theorem virToPhy_window {p : Nat} (h : p < 2 ^ 20) :
    L.virToPhy (pageVirtOffset + pageSize * p) = L.physPage p := by
  have hlt := L.pagePhysOffset_lt
  rw [virToPhy, if_neg (Nat.not_lt.mpr (Nat.le_add_right _ _))]
  simp only [toUInt64, physPage, pageSize, pageVirtOffset]
  omega

theorem phyToFn_physPage {p : Nat} (h : p < 2 ^ 20) : L.phyToFn (L.physPage p) = p := by
  have hge : ¬ L.physPage p < L.pagePhysOffset := by simp only [physPage]; omega
  have hdiv : (L.physPage p - L.pagePhysOffset) / pageSize = p := by
    simp only [physPage, pageSize]
    omega
  simp only [phyToFn, hge, if_false, hdiv]
  exact toInt32_eq (by omega) (by omega)

/-! ## The hypervisor's view -/

/-- A byte of the first `2 ^ 18` pages is reached through the window. -/
theorem hostTranslate_window {x : Nat} (h : x < directMappingSize) :
    L.hostTranslate (pageVirtOffset + x) = some (L.pagePhysOffset + x) := by
  have hin : pageVirtOffset ≤ pageVirtOffset + x ∧
      pageVirtOffset + x < pageVirtOffset + directMappingSize := by omega
  simp only [hostTranslate, hin, and_self, if_true, Nat.add_sub_cancel_left]

theorem hostTranslate_image {x : Nat} (h : x < L.pagePhysOffset) :
    L.hostTranslate x = some x := by
  have := L.pagePhysOffset_lt
  have hout : ¬ (pageVirtOffset ≤ x ∧ x < pageVirtOffset + directMappingSize) := by
    simp only [pageVirtOffset]
    omega
  simp only [hostTranslate, hout, h, if_false, if_true]

/-- The page of a number below `2 ^ 18` is behind the window. -/
theorem hostTranslate_page {p : Nat} (h : p < 2 * 2 ^ 17) :
    L.hostTranslate (pageVir p) = some (L.physPage p) := by
  rw [pageVir_low (by omega), L.hostTranslate_window (by
    simp only [directMappingSize, pageSize]; omega), physPage]

/-- And so is each entry of a table in it. -/
theorem hostTranslate_slot {p : Nat} (h : p < 2 * 2 ^ 17) (i : Fin 512) :
    L.hostTranslate (L.phyToVir (L.physPage p) + 8 * i) = some (L.physPage p + 8 * i) := by
  have hi := i.isLt
  rw [L.phyToVir_physPage (by omega), Nat.add_assoc, L.hostTranslate_window (by
    simp only [directMappingSize, pageSize]; omega), physPage, Nat.add_assoc]

/-- `PAGE_VIR` of a page past the window names an address that is not mapped. -/
theorem hostTranslate_pageVir_high {p : Nat} (h1 : 2 ^ 18 ≤ p) (h2 : p < 2 ^ 20) :
    L.hostTranslate (pageVir p) = none := by
  have hlt := L.pagePhysOffset_lt
  have hv : pageVir p ≥ pageVirtOffset + directMappingSize ∨
      L.pagePhysOffset ≤ pageVir p ∧ pageVir p < pageVirtOffset := by
    rcases Nat.lt_or_ge p (2 ^ 19) with hp | hp
    · rw [pageVir_low hp]
      simp only [directMappingSize, pageVirtOffset, pageSize]
      omega
    · rw [pageVir_high hp h2]
      simp only [directMappingSize, pageVirtOffset, pageSize]
      omega
  have hge : L.pagePhysOffset ≤ pageVir p := by
    rcases hv with hv | hv
    · simp only [pageVirtOffset] at hv
      omega
    · exact hv.1
  rw [hostTranslate, if_neg (by omega), if_neg (by omega)]

/-- No entry of a table past the window is reached. -/
theorem hostTranslate_slot_high {p : Nat} (h1 : 2 ^ 18 ≤ p) (h2 : p < 2 ^ 20) (i : Fin 512) :
    L.hostTranslate (L.phyToVir (L.physPage p) + 8 * i) = none := by
  have hlt := L.pagePhysOffset_lt
  rw [L.phyToVir_physPage h2, hostTranslate,
    if_neg (by simp only [directMappingSize, pageSize]; omega),
    if_neg (by simp only [pageVirtOffset]; omega)]

end Layout

end HyperCore.ArchPage
