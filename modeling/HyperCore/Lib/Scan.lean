import Mathlib

/-!
# First hits and first fits

The two searches a bitmap allocator is made of, over an arbitrary predicate on
indices. `First p lo hi r` says that `r` is the first index of `[lo, hi)` where
`p` holds, with `hi` standing for "there is none". `Fits used size nr a off i`
says that a block of `nr` unused indices starts at `i`, inside `[0, size)`, with
`i + off` a multiple of `a`.
-/

namespace Scan

/-- `r` is the first index of `[lo, hi)` at which `p` holds, and `hi` when no
index of that range does. -/
structure First (p : Nat → Prop) (lo hi r : Nat) : Prop where
  le_hi : r ≤ hi
  lo_le : r < hi → lo ≤ r
  before : ∀ i, lo ≤ i → i < r → ¬ p i
  here : r < hi → p r

namespace First

variable {p q : Nat → Prop} {lo mid hi r : Nat}

/-- An empty range has no hit. -/
theorem empty (h : hi ≤ lo) : First p lo hi hi :=
  ⟨Nat.le_refl _, fun hlt => absurd hlt (Nat.lt_irrefl _),
    fun i hlo hi' => by omega, fun hlt => absurd hlt (Nat.lt_irrefl _)⟩

/-- A hit, once everything before it is known to miss. -/
theorem hit (hlo : lo ≤ r) (hr : r < hi) (hb : ∀ i, lo ≤ i → i < r → ¬ p i) (hp : p r) :
    First p lo hi r :=
  ⟨Nat.le_of_lt hr, fun _ => hlo, hb, fun _ => hp⟩

/-- No index of the range hits. -/
theorem miss (hb : ∀ i, lo ≤ i → i < hi → ¬ p i) : First p lo hi hi :=
  ⟨Nat.le_refl _, fun hlt => absurd hlt (Nat.lt_irrefl _), hb,
    fun hlt => absurd hlt (Nat.lt_irrefl _)⟩

/-- Misses at the front of the range may be skipped. -/
theorem skip (hm : lo ≤ mid) (hb : ∀ i, lo ≤ i → i < mid → ¬ p i) (h : First p mid hi r) :
    First p lo hi r := by
  refine ⟨h.le_hi, fun hr => Nat.le_trans hm (h.lo_le hr), fun i hlo hir => ?_, h.here⟩
  by_cases hi' : i < mid
  · exact hb i hlo hi'
  · exact h.before i (by omega) hir

/-- Only the predicate's values on the range matter. -/
theorem congr (hpq : ∀ i, lo ≤ i → i < hi → (p i ↔ q i)) (h : First p lo hi r) :
    First q lo hi r := by
  refine ⟨h.le_hi, h.lo_le, fun i hlo hir hq => ?_, fun hr => ?_⟩
  · exact h.before i hlo hir ((hpq i hlo (Nat.lt_of_lt_of_le hir h.le_hi)).mpr hq)
  · exact (hpq r (h.lo_le hr) hr).mp (h.here hr)

/-- A scan from `lo` that ignores everything below `mid` is a scan from `mid`. -/
theorem of_restrict (hm : lo ≤ mid) (h : First (fun i => mid ≤ i ∧ p i) lo hi r) :
    First p mid hi r :=
  ⟨h.le_hi, fun hr => (h.here hr).1, fun i hmi hir hp => h.before i (by omega) hir ⟨hmi, hp⟩,
    fun hr => (h.here hr).2⟩

end First

/-- A block of `nr` indices outside `used` starts at `i`, ends at or before
`size`, and `i + off` is a multiple of `a`. -/
structure Fits (used : Nat → Prop) (size nr a off i : Nat) : Prop where
  aligned : a ∣ i + off
  inside : i + nr ≤ size
  clear : ∀ j, i ≤ j → j < i + nr → ¬ used j

/-- `i` is the least start of a fitting block that is not below `start`. -/
structure FirstFit (used : Nat → Prop) (size nr a off start i : Nat) : Prop where
  fits : Fits used size nr a off i
  start_le : start ≤ i
  least : ∀ j, start ≤ j → Fits used size nr a off j → i ≤ j

/-- The least index at or above `i` whose sum with `off` is a multiple of `a`. -/
structure AlignUp (a off i r : Nat) : Prop where
  le : i ≤ r
  aligned : a ∣ r + off
  least : ∀ j, i ≤ j → a ∣ j + off → r ≤ j

section FirstFit

variable {used : Nat → Prop} {size nr a off start i idx z : Nat}

/-- No block starts before the first unused index, aligned up: everything
earlier is used or misaligned. -/
theorem fits_ge_aligned (hnr : 0 < nr) (hz : First (fun i => ¬ used i) start size z)
    (ha : AlignUp a off z idx) {j : Nat} (hj : start ≤ j) (hf : Fits used size nr a off j) :
    idx ≤ j := by
  refine ha.least j ?_ hf.aligned
  rcases Nat.lt_or_ge j z with hlt | hge
  · exact absurd (hf.clear j (Nat.le_refl _) (by omega)) (hz.before j hj hlt)
  · exact hge

/-- A used index inside the candidate block rules out every start up to it. -/
theorem fits_gt_used (hu : used i) (hlt : i < idx + nr)
    {j : Nat} (hj : idx ≤ j) (hf : Fits used size nr a off j) : i < j := by
  refine Nat.lt_of_not_le fun hle => ?_
  exact hf.clear i hle (by omega) hu

end FirstFit

end Scan
