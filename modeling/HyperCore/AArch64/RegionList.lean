import HyperCore.AArch64.GuestExact

/-!
# `guest_memory.c`: the list of guest regions

A region is the half-open interval `[gpa, gpa + size)`, and the code compares with `gpa + size` as a
`uint64_t`. A region that ends at the top of the address space has the end 0 there: it overlaps
nothing and holds no address. `is_overlapping` also takes an empty interval inside another for an
overlap. `guest_mem_insert_region` looks for the place of the region and does not link it.
-/

namespace HyperCore.AArch64

/-! ## The code -/

/-- `is_overlapping` -/
def isOverlapping (gpa1 size1 gpa2 size2 : Nat) : Bool :=
  let end1 := (gpa1 + size1) % 2 ^ 64
  let end2 := (gpa2 + size2) % 2 ^ 64
  !(decide (end1 ≤ gpa2) || decide (gpa1 ≥ end2))

/-- `check_overlap`; on a hit it does not return. -/
def checkOverlap (regions : List MemRegion) (mem : MemRegion) : Bool :=
  regions.any fun pos => isOverlapping pos.gpa pos.size mem.gpa mem.size

/-- `guest_mem_insert_region`: the list after it, unless `hyper_fatal` ends the run. -/
def guestMemInsertRegion (regions : List MemRegion) (mem : MemRegion) : Option (List MemRegion) :=
  -- the loop that follows the check has no effect
  if checkOverlap regions mem then none else some regions

/-! ## Regions as intervals -/

/-- Base and size are 64-bit numbers, and the end is not past the address space. -/
structure MemRegion.Bounded (r : MemRegion) : Prop where
  gpa_lt : r.gpa < 2 ^ 64
  size_lt : r.size < 2 ^ 64
  end_le : r.gpa + r.size ≤ 2 ^ 64

/-- The regions share an address. -/
def MemRegion.Meets (a b : MemRegion) : Prop := ∃ x, a.Holds x ∧ b.Holds x

/-- The region ends where the address space does. -/
def MemRegion.EndsAtTop (r : MemRegion) : Prop := r.gpa + r.size = 2 ^ 64

/-- `b` is empty and starts between the first address of `a` and its end. -/
def MemRegion.EmptyInside (a b : MemRegion) : Prop :=
  b.size = 0 ∧ a.gpa < b.gpa ∧ b.gpa < a.gpa + a.size

/-- The lookup of `x` returns the region that holds it, and none if no region does. -/
def FindsHolder (regions : List MemRegion) (x : Nat) : Prop :=
  (∀ r ∈ regions, r.Holds x → guestMemFindRegion regions x = some r) ∧
    ((∀ r ∈ regions, ¬ r.Holds x) → guestMemFindRegion regions x = none)

/-- The insertion makes the addresses of `mem` resolve to it and leaves the other lookups alone. -/
def Inserts (regions : List MemRegion) (mem : MemRegion) : Prop :=
  ∃ regions', guestMemInsertRegion regions mem = some regions' ∧
    ∀ x, (mem.Holds x → guestMemFindRegion regions' x = some mem) ∧
      (¬ mem.Holds x → guestMemFindRegion regions' x = guestMemFindRegion regions x)

/-! ## Overlap -/

section

variable {a b r mem : MemRegion} {regions : List MemRegion} {x : Nat}

theorem meets_iff : a.Meets b ↔
    0 < a.size ∧ 0 < b.size ∧ a.gpa < b.gpa + b.size ∧ b.gpa < a.gpa + a.size := by
  unfold MemRegion.Meets MemRegion.Holds
  constructor
  · rintro ⟨x, ha, hb⟩
    omega
  · intro h
    exact ⟨max a.gpa b.gpa, by omega, by omega⟩

theorem isOverlapping_iff : isOverlapping a.gpa a.size b.gpa b.size = true ↔
    b.gpa < (a.gpa + a.size) % 2 ^ 64 ∧ a.gpa < (b.gpa + b.size) % 2 ^ 64 := by
  simp [isOverlapping]

/-- Below the top the check is right unless one interval is empty and inside the other. -/
theorem isOverlapping_below (ha : a.gpa + a.size < 2 ^ 64) (hb : b.gpa + b.size < 2 ^ 64) :
    (isOverlapping a.gpa a.size b.gpa b.size = true ↔ a.Meets b) ↔
      ¬ a.EmptyInside b ∧ ¬ b.EmptyInside a := by
  rw [isOverlapping_iff, meets_iff, Nat.mod_eq_of_lt ha, Nat.mod_eq_of_lt hb]
  unfold MemRegion.EmptyInside
  omega

/-- At the top it never finds an overlap. -/
theorem isOverlapping_top (h : a.EndsAtTop ∨ b.EndsAtTop) :
    isOverlapping a.gpa a.size b.gpa b.size = false := by
  refine Bool.eq_false_iff.mpr fun hover => ?_
  obtain ⟨h1, h2⟩ := isOverlapping_iff.mp hover
  unfold MemRegion.EndsAtTop at h
  omega

theorem isOverlapping_exact (ha : a.Bounded) (hb : b.Bounded) :
    (isOverlapping a.gpa a.size b.gpa b.size = true ↔ a.Meets b) ↔
      (a.EndsAtTop ∨ b.EndsAtTop → ¬ a.Meets b) ∧
        (¬ a.EndsAtTop → ¬ b.EndsAtTop → ¬ a.EmptyInside b ∧ ¬ b.EmptyInside a) := by
  by_cases htop : a.EndsAtTop ∨ b.EndsAtTop
  · rw [isOverlapping_top htop]
    have hrest : ¬ a.EndsAtTop → ¬ b.EndsAtTop → ¬ a.EmptyInside b ∧ ¬ b.EmptyInside a :=
      fun h h' => absurd htop (not_or.mpr ⟨h, h'⟩)
    rw [and_iff_left hrest]
    simp [htop]
  · have hends := not_or.mp htop
    have hA := Nat.lt_of_le_of_ne ha.end_le hends.1
    have hB := Nat.lt_of_le_of_ne hb.end_le hends.2
    rw [isOverlapping_below hA hB]
    simp [hends]

/-! ## Lookup -/

/-- The test of the lookup, for one region. -/
theorem lookup_test (hr : r.Bounded) :
    (decide (r.gpa ≤ x) && decide (x < (r.gpa + r.size) % 2 ^ 64)) = true ↔
      r.Holds x ∧ ¬ r.EndsAtTop := by
  have hle := hr.end_le
  rw [Bool.and_eq_true, decide_eq_true_eq, decide_eq_true_eq]
  unfold MemRegion.Holds MemRegion.EndsAtTop
  omega

/-- What a lookup returns is a region of the list that holds the address. -/
theorem find_some (hall : ∀ r ∈ regions, r.Bounded)
    (h : guestMemFindRegion regions x = some r) : r ∈ regions ∧ r.Holds x ∧ ¬ r.EndsAtTop := by
  unfold guestMemFindRegion at h
  have hmem := List.mem_of_find?_eq_some h
  have htest := List.find?_some h
  exact ⟨hmem, (lookup_test (hall r hmem)).mp htest⟩

theorem find_none (hall : ∀ r ∈ regions, r.Bounded)
    (h : ∀ r ∈ regions, r.Holds x → r.EndsAtTop) : guestMemFindRegion regions x = none := by
  refine List.find?_eq_none.mpr fun r hr htest => ?_
  obtain ⟨hholds, htop⟩ := (lookup_test (hall r hr)).mp htest
  exact htop (h r hr hholds)

/-- In a list of disjoint regions the holder of an address is found. -/
theorem find_holder (hall : ∀ r ∈ regions, r.Bounded)
    (hdisj : regions.Pairwise fun a b => ¬ a.Meets b) (hr : r ∈ regions) (hholds : r.Holds x)
    (htop : ¬ r.EndsAtTop) : guestMemFindRegion regions x = some r := by
  cases hfind : guestMemFindRegion regions x with
  | none =>
    have htest := List.find?_eq_none.mp hfind r hr
    exact absurd ((lookup_test (hall r hr)).mpr ⟨hholds, htop⟩) htest
  | some r' =>
    obtain ⟨hr', hholds', -⟩ := find_some hall hfind
    have : Std.Symm fun a b : MemRegion => ¬ a.Meets b :=
      ⟨fun a b hab ⟨y, hb, ha⟩ => hab ⟨y, ha, hb⟩⟩
    have hsame : r' = r := by
      by_contra hne
      exact hdisj.forall hr' hr hne ⟨x, hholds', hholds⟩
    rw [hsame]

theorem findsHolder_exact (hall : ∀ r ∈ regions, r.Bounded)
    (hdisj : regions.Pairwise fun a b => ¬ a.Meets b) :
    FindsHolder regions x ↔ ∀ r ∈ regions, r.Holds x → ¬ r.EndsAtTop := by
  constructor
  · rintro ⟨hfound, -⟩ r hr hholds
    exact (find_some hall (hfound r hr hholds)).2.2
  · intro hbelow
    refine ⟨fun r hr hholds => find_holder hall hdisj hr hholds (hbelow r hr hholds), ?_⟩
    exact fun hfree => find_none hall fun r hr hholds => absurd hholds (hfree r hr)

/-! ## Insertion -/

/-- A region that shares no address with the list stops the run iff it is an empty one inside a
region that ends below the top, or has an empty one inside. -/
theorem checkOverlap_free (hall : ∀ r ∈ regions, r.Bounded) (hmem : mem.Bounded)
    (hfree : ∀ r ∈ regions, ¬ r.Meets mem) :
    checkOverlap regions mem = true ↔ ∃ r ∈ regions, ¬ r.EndsAtTop ∧ ¬ mem.EndsAtTop ∧
      (r.EmptyInside mem ∨ mem.EmptyInside r) := by
  unfold checkOverlap
  rw [List.any_eq_true]
  refine exists_congr fun r => and_congr_right fun hr => ?_
  have hle := (hall r hr).end_le
  have hmemle := hmem.end_le
  have hapart := hfree r hr
  rw [meets_iff] at hapart
  rw [isOverlapping_iff]
  unfold MemRegion.EndsAtTop MemRegion.EmptyInside
  omega

theorem inserts_exact (hall : ∀ r ∈ regions, r.Bounded) (hmem : mem.Bounded)
    (hfree : ∀ r ∈ regions, ¬ r.Meets mem) :
    Inserts regions mem ↔
      mem.size = 0 ∧ ∀ r ∈ regions, ¬ r.EndsAtTop → ¬ r.EmptyInside mem := by
  have hcheck := checkOverlap_free hall hmem hfree
  unfold Inserts guestMemInsertRegion
  constructor
  · rintro ⟨regions', hins, hlook⟩
    split at hins
    · cases hins
    · next hno =>
      cases hins
      -- the first address of `mem` would have to be found in the old list
      have hempty : mem.size = 0 := by
        by_contra hsize
        have hfirst : mem.Holds mem.gpa := ⟨Nat.le_refl _, by omega⟩
        obtain ⟨hin, hholds, -⟩ := find_some hall ((hlook mem.gpa).1 hfirst)
        exact hfree mem hin ⟨mem.gpa, hholds, hfirst⟩
      have hbelow : ¬ mem.EndsAtTop := by
        have := hmem.gpa_lt
        unfold MemRegion.EndsAtTop
        omega
      exact ⟨hempty, fun r hr htop hin => hno (hcheck.mpr ⟨r, hr, htop, hbelow, .inl hin⟩)⟩
  · rintro ⟨hempty, hout⟩
    have hno : ¬ checkOverlap regions mem = true := by
      intro hyes
      obtain ⟨r, hr, htop, -, hin | hin⟩ := hcheck.mp hyes
      · exact hout r hr htop hin
      · unfold MemRegion.EmptyInside at hin
        omega
    refine ⟨regions, if_neg hno, fun x => ⟨fun hholds => ?_, fun _ => rfl⟩⟩
    unfold MemRegion.Holds at hholds
    omega

end

/-- Where the three functions treat the regions as intervals. The overlap check does for two
intervals below the top of which none is empty and inside the other, and at the top for intervals
that share no address; the lookup does unless the region that holds the address ends at the top;
the insertion does for an empty region that is inside no region of the list. -/
theorem region_list_exact {a b mem : MemRegion} {regions : List MemRegion} {x : Nat}
    (ha : a.Bounded) (hb : b.Bounded) (hall : ∀ r ∈ regions, r.Bounded)
    (hdisj : regions.Pairwise fun r s => ¬ r.Meets s) (hmem : mem.Bounded)
    (hfree : ∀ r ∈ regions, ¬ r.Meets mem) :
    ((isOverlapping a.gpa a.size b.gpa b.size = true ↔ a.Meets b) ↔
      (a.EndsAtTop ∨ b.EndsAtTop → ¬ a.Meets b) ∧
        (¬ a.EndsAtTop → ¬ b.EndsAtTop → ¬ a.EmptyInside b ∧ ¬ b.EmptyInside a)) ∧
    (FindsHolder regions x ↔ ∀ r ∈ regions, r.Holds x → ¬ r.EndsAtTop) ∧
    (Inserts regions mem ↔
      mem.size = 0 ∧ ∀ r ∈ regions, ¬ r.EndsAtTop → ¬ r.EmptyInside mem) :=
  ⟨isOverlapping_exact ha hb, findsHolder_exact hall hdisj, inserts_exact hall hmem hfree⟩

/-- Two pages and the last page of the address space. -/
def lowPage : MemRegion := ⟨0x1000, 0x1000, 0x1000, .none⟩
def nextPage : MemRegion := ⟨0x2000, 0x2000, 0x1000, .none⟩
def topPage : MemRegion := ⟨2 ^ 64 - 0x1000, 0, 0x1000, .none⟩

theorem lowPage_bounded : lowPage.Bounded := ⟨by decide, by decide, by decide⟩

theorem nextPage_bounded : nextPage.Bounded := ⟨by decide, by decide, by decide⟩

theorem topPage_bounded : topPage.Bounded := ⟨by decide, by decide, by decide⟩

theorem region_list_exact_pages :
    ((isOverlapping lowPage.gpa lowPage.size topPage.gpa topPage.size = true ↔
        lowPage.Meets topPage) ↔
      (lowPage.EndsAtTop ∨ topPage.EndsAtTop → ¬ lowPage.Meets topPage) ∧
        (¬ lowPage.EndsAtTop → ¬ topPage.EndsAtTop →
          ¬ lowPage.EmptyInside topPage ∧ ¬ topPage.EmptyInside lowPage)) ∧
    (FindsHolder [lowPage, topPage] 0x1800 ↔
      ∀ r ∈ [lowPage, topPage], r.Holds 0x1800 → ¬ r.EndsAtTop) ∧
    (Inserts [lowPage, topPage] nextPage ↔
      nextPage.size = 0 ∧
        ∀ r ∈ [lowPage, topPage], ¬ r.EndsAtTop → ¬ r.EmptyInside nextPage) := by
  have hapart : ¬ lowPage.Meets topPage := by
    rw [meets_iff]
    decide
  have hnext : ¬ lowPage.Meets nextPage := by
    rw [meets_iff]
    decide
  have htop : ¬ topPage.Meets nextPage := by
    rw [meets_iff]
    decide
  refine region_list_exact lowPage_bounded topPage_bounded ?_ ?_ nextPage_bounded ?_
  · simp [lowPage_bounded, topPage_bounded]
  · simp [hapart]
  · simp [hnext, htop]

/-- The last page does not overlap itself and its last address is not found; the page behind
`lowPage`, which overlaps no region of the list, is not inserted. -/
theorem region_list_fails :
    ¬ (isOverlapping topPage.gpa topPage.size topPage.gpa topPage.size = true ↔
      topPage.Meets topPage) ∧
    ¬ FindsHolder [lowPage, topPage] (2 ^ 64 - 1) ∧ ¬ Inserts [lowPage, topPage] nextPage := by
  refine ⟨fun hover => ?_, fun hfind => ?_, ?_⟩
  · have hmeets : topPage.Meets topPage := by
      rw [meets_iff]
      decide
    exact absurd (hover.mpr hmeets) (by decide)
  · have hlast : topPage.Holds (2 ^ 64 - 1) := ⟨by decide, by decide⟩
    have hfound := hfind.1 topPage (by simp) hlast
    cases hfound
  · rintro ⟨regions', hins, hlook⟩
    have hsame : guestMemInsertRegion [lowPage, topPage] nextPage = some [lowPage, topPage] := rfl
    cases hins.symm.trans hsame
    have hfound := (hlook 0x2000).1 ⟨by decide, by decide⟩
    cases hfound

end HyperCore.AArch64
