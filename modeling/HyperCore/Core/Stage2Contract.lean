import HyperCore.Core.TableMap

/-!
# The `stage2_map` interface

`arch_page.h` declares `stage2_map` and `stage2_unmap` once, and each architecture implements them.
`Contract` is what the header's callers expect of a pair of calls: the first one maps the range, to
where it is told and nothing else, and the second one takes that back.
-/

namespace HyperCore.Stage2Contract

open TableMap ArchPage

/-- The number of pages of `[vaddr, vaddr + roundup(map_size))`. -/
def pagesOf (mapSize : Nat) : Nat := (mapSize + pageSize - 1) / pageSize

/-- The range has the address. -/
def Covers (vaddr mapSize gpa : Nat) : Prop :=
  vaddr ≤ gpa ∧ gpa < vaddr + pageSize * pagesOf mapSize

section

variable {A : Type} (walk : (Nat → Bitmap.Word) → Nat → Option (Nat × A))

/-- The range translates to the range at `paddr`, and every other address to what it did before.
`walk` is what the guest's access to an address finds. -/
structure MapsTo (vaddr paddr mapSize : Nat) (h h' : Host) : Prop where
  inside : ∀ gpa, Covers vaddr mapSize gpa →
    ∃ attr, walk h'.mem gpa = some (paddr + (gpa - vaddr), attr)
  outside : ∀ gpa, ¬ Covers vaddr mapSize gpa → walk h'.mem gpa = walk h.mem gpa

/-- `map` maps the range, and `unmap` undoes it. -/
def Contract (map unmap : HostM Unit) (vaddr paddr mapSize : Nat) (h : Host) : Prop :=
  ∃ h₁ h₂, map h = .ok () h₁ ∧ MapsTo walk vaddr paddr mapSize h h₁ ∧ unmap h₁ = .ok () h₂ ∧
    ∀ gpa, walk h₂.mem gpa = walk h.mem gpa

end

theorem pagesOf_zero : pagesOf 0 = 0 := by decide

theorem pagesOf_pos {mapSize : Nat} (h : mapSize ≠ 0) : 0 < pagesOf mapSize := by
  simp only [pagesOf, pageSize]
  omega

/-- Rounding up a size that is not too large does not wrap. -/
theorem pageCount_eq {mapSize : Nat} (h : pageSize * pagesOf mapSize ≤ 2 ^ 63) :
    pageCount mapSize = pagesOf mapSize := by
  simp only [pagesOf, pageCount, pageSize] at h ⊢
  omega

theorem pageCount_zero : pageCount 0 = 0 := by decide

theorem not_covers_zero (vaddr gpa : Nat) : ¬ Covers vaddr 0 gpa := by
  rintro ⟨h1, h2⟩
  rw [pagesOf_zero] at h2
  omega

/-- Each page of the range, and each address in it. -/
theorem covers_page {vaddr mapSize i off : Nat} (hi : i < pagesOf mapSize) (hoff : off < pageSize) :
    Covers vaddr mapSize (vaddr + pageSize * i + off) := by
  have hle : pageSize * (i + 1) ≤ pageSize * pagesOf mapSize := Nat.mul_le_mul_left _ hi
  rw [Nat.mul_succ] at hle
  exact ⟨by omega, by omega⟩

/-- A range whose addresses all lie below a whole number of pages ends there. -/
theorem covers_below {vaddr mapSize bound : Nat} (hsize : mapSize ≠ 0)
    (h : ∀ gpa, Covers vaddr mapSize gpa → gpa < bound) :
    vaddr + pageSize * pagesOf mapSize ≤ bound := by
  have hpos := pagesOf_pos hsize
  have hlast : vaddr + pageSize * (pagesOf mapSize - 1) + (pageSize - 1) < bound :=
    h _ (covers_page (Nat.sub_lt hpos Nat.one_pos) (by decide))
  have hmul : pageSize * pagesOf mapSize = pageSize * (pagesOf mapSize - 1) + pageSize := by
    rw [← Nat.mul_succ]
    congr 1
    omega
  simp only [pageSize] at *
  omega

end HyperCore.Stage2Contract
