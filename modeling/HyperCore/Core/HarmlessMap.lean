import HyperCore.Core.TableView

/-!
# A map without damage

What a request to map one page may do when something else is mapped there already: fail and keep every
translation, or map that page alone; and in both cases write nothing but the descriptors of the page and
the pages it took.
-/

namespace HyperCore

open RadixTable Bitmap PageAlloc ArchPage TableMap

/-- Writing what is there changes nothing. -/
theorem setMem_same {m : Nat → Word} {a : Nat} {w : Word} (hw : m a = w) : setMem m a w = m := by
  funext x
  rw [setMem]
  split
  · next hx => rw [hx, hw]
  · rfl

/-! ## The direct map -/

/-- Past the direct map. -/
def Past (L : Layout) (a : Nat) : Prop := L.pagePhysOffset + directMappingSize ≤ a

section

variable {L : Layout} {root : Nat}

/-- The entries of a table as the hypervisor reaches them through `v`. -/
def PointsTo (L : Layout) (v table : Nat) : Prop :=
  v % 4096 = 0 ∧ v ≠ 0 ∧ ∀ i, i < 512 → (Past L (table + 8 * i) ∧ L.hostTranslate (v + 8 * i) = none) ∨
    (¬ Past L (table + 8 * i) ∧ L.hostTranslate (v + 8 * i) = some (table + 8 * i))

theorem phyToVir_window {b : Nat} (hge : L.pagePhysOffset ≤ b) (hlt : b < 2 ^ 56) :
    L.phyToVir b = pageVirtOffset + (b - L.pagePhysOffset) := by
  rw [Layout.phyToVir, if_neg (Nat.not_lt.mpr hge)]
  simp only [MachineInt.toUInt64, pageVirtOffset]
  omega

/-- What an access through `phy_to_vir` of a page reaches. -/
theorem pointsTo_page {b i : Nat} (hba : b % 4096 = 0) (hlt : b < 2 ^ 56) (hi : i < 512) :
    (Past L (b + 8 * i) ∧ L.hostTranslate (L.phyToVir b + 8 * i) = none) ∨
      (¬ Past L (b + 8 * i) ∧ L.hostTranslate (L.phyToVir b + 8 * i) = some (b + 8 * i)) := by
  have hoff := L.pagePhysOffset_mod
  have hofflt := L.pagePhysOffset_lt
  rcases Nat.lt_or_ge b L.pagePhysOffset with hlow | hge
  · have hvir : L.phyToVir b = b := if_pos hlow
    refine .inr ⟨?_, ?_⟩
    · simp only [Past]
      omega
    · rw [hvir]
      exact L.hostTranslate_image (by omega)
  · rw [phyToVir_window hge hlt, Nat.add_assoc]
    rcases Nat.lt_or_ge (b - L.pagePhysOffset + 8 * i) directMappingSize with hin | hout
    · refine .inr ⟨?_, ?_⟩
      · simp only [Past]
        omega
      · rw [L.hostTranslate_window hin]
        congr 1
        omega
    · refine .inl ⟨?_, ?_⟩
      · simp only [Past]
        omega
      · rw [Layout.hostTranslate, if_neg (by omega), if_neg (by simp only [pageVirtOffset]; omega)]

/-- `phy_to_vir` of a table that is not at address 0. -/
theorem pointsTo_table (L : Layout) {b : Nat} (hba : b % 4096 = 0) (hpos : 0 < b) (hlt : b < 2 ^ 56) :
    PointsTo L (L.phyToVir b) b := by
  have hoff := L.pagePhysOffset_mod
  refine ⟨?_, ?_, fun i hi => pointsTo_page hba hlt hi⟩
  · rw [Layout.phyToVir]
    split
    · exact hba
    · simp only [MachineInt.toUInt64, pageVirtOffset]
      omega
  · rw [Layout.phyToVir]
    split
    · exact Nat.ne_of_gt hpos
    · simp only [MachineInt.toUInt64, pageVirtOffset]
      omega

/-- A table in the image. -/
theorem pointsTo_image (ha : root % 4096 = 0) (h0 : root ≠ 0) (hin : root + 4096 ≤ L.hyperEnd) :
    PointsTo L root root := by
  refine ⟨ha, h0, fun i hi => .inr ?_⟩
  have hend := L.hyperEnd_lt
  refine ⟨?_, L.hostTranslate_image (by omega)⟩
  simp only [Past]
  omega

end

/-! ## What a map may do -/

/-- The words a map of one page may write: the descriptors that the walk of the page reads, and those of
pages it took from the allocator. -/
def MayWrite (L : Layout) (path : List Nat) (h h' : Host) (a : Nat) : Prop :=
  a ∈ path ∨ ∃ p, p < 2 ^ 20 ∧ bit h.bitmap p = false ∧ bit h'.bitmap p = true ∧
    L.physPage p ≤ a ∧ a < L.physPage p + 4096

section

variable {O α : Type} (walk : (Nat → Word) → Nat → Option (Nat × O))

/-- Every address translates as before. -/
def KeepsWalks (m m' : Nat → Word) : Prop := ∀ va, va < 2 ^ 48 → walk m' va = walk m va

/-- The page of `va` translates as requested, every other as before. -/
structure MapsOnly (va pa : Nat) (flags : O) (m m' : Nat → Word) : Prop where
  page : ∀ x, x < 4096 → walk m' (va / 4096 * 4096 + x) = some (pa + x, flags)
  others : ∀ va', va' < 2 ^ 48 → va' / 4096 ≠ va / 4096 → walk m' va' = walk m va'

/-- A request without damage: it fails and keeps every translation, or maps its page alone; and it wrote
nothing but what it may write. `shown` is what counts of a word. -/
def Harmless (L : Layout) (path : List Nat) (shown : Word → Word) (failed : α → Prop) (va pa : Nat)
    (flags : O) (h : Host) : EStateM.Result Stop Host α → Prop
  | .error _ h' => KeepsWalks walk h.mem h'.mem ∧
      ∀ a, shown (h'.mem a) = shown (h.mem a) ∨ MayWrite L path h h' a
  | .ok r h' => (failed r ∧ KeepsWalks walk h.mem h'.mem ∨
        ¬ failed r ∧ MapsOnly walk va pa flags h.mem h'.mem) ∧
      ∀ a, shown (h'.mem a) = shown (h.mem a) ∨ MayWrite L path h h' a

end

end HyperCore
