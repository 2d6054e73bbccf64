import HyperCore.AArch64.Stage2Unmap
import HyperCore.Core.Stage2Contract

/-!
# The AArch64 side of the interface

`s2_contract_iff`: a pair of calls keeps the contract of the header exactly when the range is empty,
or lies below both the input size and the reach of the 9-bit indices, translated to nothing before,
goes to non-zero addresses below `2 ^ 48`, and its tables fit into the direct map.
-/

namespace HyperCore.AArch64

open RadixTable Bitmap PageAlloc ArchPage TableMap Stage2Contract

/-- The range can be mapped, and unmapped again. -/
structure S2Serves (L : Layout) (info : Stage2MmInfo) (h : Host) (vaddr paddr mapSize : Nat) :
    Prop where
  output : 0 < paddr ∧ paddr + pageSize * pagesOf mapSize ≤ 2 ^ 48
  size : vaddr + pageSize * pagesOf mapSize ≤ 2 ^ info.paSize
  reach : vaddr + pageSize * pagesOf mapSize ≤ 2 ^ reachBits info
  room : s2Needed L info h vaddr mapSize ≤ evenFree h.bitmap (2 ^ 17)
  empty : ∀ gpa, Covers vaddr mapSize gpa → mmuWalk L info h.mem gpa = none

section

variable {L : Layout} {info : Stage2MmInfo} {h h' : Host} {q vaddr paddr mapSize gpa i : Nat}
variable {attr : MemType} {acc : MemAccess}

/-- A call that returns had room for its tables. -/
theorem stage2Map_room (ht : Stage2Tree L info h q)
    (hsome : s2Needed L info h vaddr mapSize ≤ evenFree h.bitmap (2 ^ 19))
    (hrun : stage2Map L info vaddr paddr mapSize attr acc h = .ok () h') :
    s2Needed L info h vaddr mapSize ≤ evenFree h.bitmap (2 ^ 17) := by
  refine Nat.le_of_not_lt fun hlow => ?_
  have hspoiled : Spoiled (s2Mapper L) h (stage2Map L info vaddr paddr mapSize attr acc h) :=
    stage2Map_spoiled ht attr acc hlow hsome
  exact (hspoiled.fails (s2Mapper_faultsHigh L)).not_ok hrun

/-- It leaves the root block in place. -/
theorem stage2Map_tree (ht : Stage2Tree L info h q)
    (hfree : s2Needed L info h vaddr mapSize ≤ evenFree h.bitmap (2 ^ 17))
    (hrun : stage2Map L info vaddr paddr mapSize attr acc h = .ok () h') :
    Stage2Tree L info h' q := by
  rw [s2Needed, ht.rootPhys_eq] at hfree
  rw [stage2Map_eq L info vaddr paddr mapSize attr acc ht.level] at hrun
  obtain ⟨h₁, hrun₁, hg, -⟩ := mapPages_good ht.tables ht.at_root
    (fun i => makeStage2Entry ((paddr + pageSize * i) % 2 ^ 64) attr acc) (fun i _ => ht.sees _)
    hfree
  cases hrun₁.symm.trans hrun
  exact ht.grown hg

/-- A range below the reach of the indices is one of the pages that the call maps. -/
theorem inputRange_of (hv : vaddr % 4096 = 0)
    (hreach : vaddr + pageSize * pagesOf mapSize ≤ 2 ^ reachBits info) :
    pageCount mapSize = pagesOf mapSize ∧ InputRange (reachBits info) vaddr mapSize := by
  have hpow := pow_bits_le (reachBits_le info)
  have hcount : pageCount mapSize = pagesOf mapSize := pageCount_eq (by omega)
  refine ⟨hcount, hv, ?_⟩
  rw [hcount]
  exact hreach

/-- What the walks find after the call: the new entries in the range, the old ones outside. -/
theorem stage2Map_entries (hi : Stage2Inv L info h q) (hv : vaddr % 4096 = 0)
    (hreach : vaddr + pageSize * pagesOf mapSize ≤ 2 ^ reachBits info)
    (hfree : s2Needed L info h vaddr mapSize ≤ evenFree h.bitmap (2 ^ 17)) (paddr : Nat)
    (attr : MemType) (acc : MemAccess) :
    ∃ h', stage2Map L info vaddr paddr mapSize attr acc h = .ok () h' ∧ Stage2Inv L info h' q ∧
      ∀ {O : Type} (leaf : Word → Option O), leaf 0 = none → ∀ gpa, gpa < 2 ^ reachBits info →
        (Covers vaddr mapSize gpa → lookup (s2Mapper L).format leaf h'.mem (L.physPage q)
          (3 - info.lookupLevel) (s2Index info.lookupLevel gpa) =
            leaf (makeStage2Entry ((paddr + (gpa - vaddr) / 4096 * 4096) % 2 ^ 64) attr acc)) ∧
        (¬ Covers vaddr mapSize gpa → lookup (s2Mapper L).format leaf h'.mem (L.physPage q)
          (3 - info.lookupLevel) (s2Index info.lookupLevel gpa) =
            lookup (s2Mapper L).format leaf h.mem (L.physPage q) (3 - info.lookupLevel)
              (s2Index info.lookupLevel gpa)) := by
  obtain ⟨hcount, hin⟩ := inputRange_of hv hreach
  obtain ⟨h', hrun, -, hw⟩ := stage2Map_lookups hi.tree hin paddr attr acc hfree
  have hcovers (gpa : Nat) : Covers vaddr mapSize gpa ↔
      vaddr ≤ gpa ∧ gpa < vaddr + 4096 * pageCount mapSize := by
    rw [hcount]
    exact Iff.rfl
  refine ⟨h', hrun, stage2Map_inv hi hin hfree hrun, fun leaf hleaf gpa hgpa => ⟨fun hc => ?_,
    fun hno => ?_⟩⟩
  · rw [hw leaf hleaf gpa hgpa, if_pos ((hcovers gpa).mp hc)]
  · rw [hw leaf hleaf gpa hgpa, if_neg fun hc => hno ((hcovers gpa).mpr hc)]

/-- Past the input size and past the reach there is nothing. -/
theorem mmuWalk_none (ht : Stage2Tree L info h q) {code : Fin 8} (hg : Geometry code info)
    (hout : ¬ (gpa < 2 ^ info.paSize ∧ gpa < 2 ^ reachBits info)) :
    mmuWalk L info h.mem gpa = none := by
  obtain ⟨hlevel, hblock, -⟩ := hg.block
  by_cases hpa : gpa < 2 ^ info.paSize
  · exact mmuWalk_past ht hlevel hblock (Nat.le_of_not_lt fun hr => hout ⟨hpa, hr⟩)
  · rw [mmuWalk, if_neg hpa]

/-- Outside the range the MMU sees no difference. -/
theorem mmuWalk_same (ht : Stage2Tree L info h q) (ht' : Stage2Tree L info h' q) {code : Fin 8}
    (hg : Geometry code info) (hsame : gpa < 2 ^ reachBits info →
      lookup (s2Mapper L).format (s2Leaf gpa) h'.mem (L.physPage q) (3 - info.lookupLevel)
          (s2Index info.lookupLevel gpa) =
        lookup (s2Mapper L).format (s2Leaf gpa) h.mem (L.physPage q) (3 - info.lookupLevel)
          (s2Index info.lookupLevel gpa)) :
    mmuWalk L info h'.mem gpa = mmuWalk L info h.mem gpa := by
  by_cases hin : gpa < 2 ^ info.paSize ∧ gpa < 2 ^ reachBits info
  · rw [mmuWalk_low ht' hin.1 hin.2, mmuWalk_low ht hin.1 hin.2, hsame hin.2]
  · rw [mmuWalk_none ht' hg hin, mmuWalk_none ht hg hin]

/-- The first page of the range has its entry. -/
theorem first_page (hsize : mapSize ≠ 0) : Covers vaddr mapSize vaddr := by
  have hpage : Covers vaddr mapSize (vaddr + pageSize * 0 + 0) :=
    covers_page (pagesOf_pos hsize) (by decide)
  exact hpage

/-- Unmapping pages that have entries with an address: exactly the range stops translating. -/
theorem stage2Unmap_walks (hi : Stage2Inv L info h q) {code : Fin 8} (hg : Geometry code info)
    (hv : vaddr % 4096 = 0) (hreach : vaddr + pageSize * pagesOf mapSize ≤ 2 ^ reachBits info)
    (hm : ∀ i, i < pageCount mapSize → Mapped (s2Mapper L) (L.physPage q) (3 - info.lookupLevel) h
      (rangeIndex info vaddr i)) :
    ∃ h', stage2Unmap L info vaddr mapSize h = .ok () h' ∧
      (∀ gpa, Covers vaddr mapSize gpa → mmuWalk L info h'.mem gpa = none) ∧
      ∀ gpa, ¬ Covers vaddr mapSize gpa → mmuWalk L info h'.mem gpa = mmuWalk L info h.mem gpa := by
  obtain ⟨hcount, hin⟩ := inputRange_of hv hreach
  obtain ⟨h', hrun, hi', hw⟩ := stage2Unmap_good hi hin hm
  have hleaf (gpa : Nat) := hw (s2Leaf gpa) fun _ => s2Leaf_dead
  refine ⟨h', hrun, fun gpa hc => ?_, fun gpa hno => ?_⟩
  · by_cases hlow : gpa < 2 ^ info.paSize ∧ gpa < 2 ^ reachBits info
    · obtain ⟨h1, h2⟩ := hc
      simp only [pageSize] at h2
      have hi' : (gpa - vaddr) / 4096 < pageCount mapSize := by omega
      have hag := (agree_page hi.tree.level hin hlow.2 hi').mpr (by omega)
      rw [mmuWalk_low ‹Stage2Inv L info h' q›.tree hlow.1 hlow.2, lookup_congr hag]
      exact (hleaf gpa).1 _ hi'
    · exact mmuWalk_none ‹Stage2Inv L info h' q›.tree hg hlow
  · refine mmuWalk_same hi.tree hi'.tree hg fun hreach => (hleaf gpa).2 _ fun i hi' hag => hno ?_
    have hpage := (agree_page hi.tree.level hin hreach hi').mp hag
    simp only [Covers, pageSize]
    omega

/-- An entry can be unmapped exactly if its address is not zero. -/
theorem present_make (pa : Nat) (attr : MemType) (acc : MemAccess) :
    (s2Mapper L).present (makeStage2Entry pa attr acc) = some () ↔ pa / 2 ^ 12 % 2 ^ 36 ≠ 0 := by
  have hlive : (s2Mapper L).live (makeStage2Entry pa attr acc) = true := validBit_make pa attr acc
  have hbase : (s2Mapper L).base (makeStage2Entry pa attr acc) = pa / 2 ^ 12 % 2 ^ 36 * 4096 :=
    congrArg (· * 4096) (baseField_make pa attr acc)
  rw [Mapper.present, hlive, hbase, Bool.true_and]
  split
  · next hne => simpa using hne
  · next hz => simpa using hz

/-! ## The contract -/

/-- A call that keeps the contract was one that could. -/
theorem S2Serves.of_contract (hi : Stage2Inv L info h q) {code : Fin 8} (hg : Geometry code info)
    (hv : vaddr % 4096 = 0) (hp : paddr % 4096 = 0) (hsize : mapSize ≠ 0)
    (henough : s2Needed L info h vaddr mapSize ≤ evenFree h.bitmap (2 ^ 19))
    (hc : Contract (mmuWalk L info) (stage2Map L info vaddr paddr mapSize attr acc)
      (stage2Unmap L info vaddr mapSize) vaddr paddr mapSize h) :
    S2Serves L info h vaddr paddr mapSize := by
  obtain ⟨h₁, h₂, hrun, hmaps, hrun₂, hundo⟩ := hc
  have hroom := stage2Map_room hi.tree henough hrun
  have ht₁ := stage2Map_tree hi.tree hroom hrun
  have hbelow (gpa : Nat) (hc : Covers vaddr mapSize gpa) :
      gpa < 2 ^ info.paSize ∧ gpa < 2 ^ reachBits info := by
    refine Classical.byContradiction fun hout => ?_
    obtain ⟨a, hwalk⟩ := hmaps.inside gpa hc
    rw [mmuWalk_none ht₁ hg hout] at hwalk
    cases hwalk
  have hreach := covers_below hsize fun gpa hc => (hbelow gpa hc).2
  obtain ⟨hcount, hin⟩ := inputRange_of hv hreach
  obtain ⟨h₁', hrun₁, hi₁, hw⟩ := stage2Map_entries hi hv hreach hroom paddr attr acc
  cases hrun₁.symm.trans hrun
  have hmapped := stage2Unmap_mapped ht₁ hin hrun₂
  obtain ⟨h₂', hrun₂', hgone, -⟩ := stage2Unmap_walks hi₁ hg hv hreach hmapped
  cases hrun₂'.symm.trans hrun₂
  refine ⟨⟨?_, covers_below hsize fun pa hpa => ?_⟩,
    covers_below hsize fun gpa hc => (hbelow gpa hc).1, hreach, hroom, fun gpa hc => ?_⟩
  · -- the first page was unmapped, so its entry has an address
    have hfirst : Covers vaddr mapSize vaddr := first_page hsize
    have hidx := (agree_page hi.tree.level hin (hbelow vaddr hfirst).2
      (hcount ▸ pagesOf_pos hsize : 0 < pageCount mapSize)).mpr rfl
    have hpres := (hw (s2Mapper L).present (present_of_dead (s2Mapper L).live_zero) vaddr
      (hbelow vaddr hfirst).2).1 hfirst
    rw [lookup_congr hidx, hmapped 0 (hcount ▸ pagesOf_pos hsize)] at hpres
    have hne := (present_make _ _ _).mp hpres.symm
    omega
  · -- the walk has 48 address bits
    obtain ⟨h1, h2⟩ := hpa
    have hc : Covers vaddr mapSize (vaddr + (pa - paddr)) := ⟨by omega, by omega⟩
    have hlow := hbelow _ hc
    obtain ⟨a, hwalk⟩ := hmaps.inside _ hc
    rw [mmuWalk_low ht₁ hlow.1 hlow.2, (hw _ (s2Leaf_zero _) _ hlow.2).1 hc, s2Leaf_address] at hwalk
    have haddr := congrArg Prod.fst (Option.some.inj hwalk)
    simp only at haddr
    omega
  · rw [← hundo gpa]
    exact hgone gpa hc

/-- A call that can keeps the contract. -/
theorem S2Serves.contract (hi : Stage2Inv L info h q) {code : Fin 8} (hg : Geometry code info)
    (hv : vaddr % 4096 = 0) (hp : paddr % 4096 = 0)
    (hs : S2Serves L info h vaddr paddr mapSize) (attr : MemType) (acc : MemAccess) :
    Contract (mmuWalk L info) (stage2Map L info vaddr paddr mapSize attr acc)
      (stage2Unmap L info vaddr mapSize) vaddr paddr mapSize h := by
  obtain ⟨hcount, hin⟩ := inputRange_of hv hs.reach
  obtain ⟨hpos, hpb⟩ := hs.output
  obtain ⟨h₁, hrun, hi₁, hw⟩ := stage2Map_entries hi hv hs.reach hs.room paddr attr acc
  have hlow (gpa : Nat) (hc : Covers vaddr mapSize gpa) :
      gpa < 2 ^ info.paSize ∧ gpa < 2 ^ reachBits info :=
    ⟨Nat.lt_of_lt_of_le hc.2 hs.size, Nat.lt_of_lt_of_le hc.2 hs.reach⟩
  have hmapped (i : Nat) (hi' : i < pageCount mapSize) :
      Mapped (s2Mapper L) (L.physPage q) (3 - info.lookupLevel) h₁ (rangeIndex info vaddr i) := by
    have hc : Covers vaddr mapSize (vaddr + pageSize * i + 0) :=
      covers_page (hcount ▸ hi') (by decide)
    have hgpa := (hlow _ hc).2
    have hidx := (agree_page hi.tree.level hin hgpa hi').mpr (by simp only [pageSize]; omega)
    rw [Mapped, ← lookup_congr hidx,
      (hw (s2Mapper L).present (present_of_dead (s2Mapper L).live_zero) _ hgpa).1 hc, present_make]
    simp only [pageSize] at *
    omega
  obtain ⟨h₂, hrun₂, hgone, hkept⟩ := stage2Unmap_walks hi₁ hg hv hs.reach hmapped
  have hold (gpa : Nat) (hno : ¬ Covers vaddr mapSize gpa) :
      mmuWalk L info h₁.mem gpa = mmuWalk L info h.mem gpa :=
    mmuWalk_same hi.tree hi₁.tree hg fun hgpa => (hw _ (s2Leaf_zero _) gpa hgpa).2 hno
  refine ⟨h₁, h₂, hrun, ⟨fun gpa hc => ⟨requested attr acc, ?_⟩, hold⟩, hrun₂, fun gpa => ?_⟩
  · obtain ⟨hpa, hgpa⟩ := hlow gpa hc
    rw [mmuWalk_low hi₁.tree hpa hgpa, (hw _ (s2Leaf_zero _) gpa hgpa).1 hc, s2Leaf_address]
    obtain ⟨h1, h2⟩ := hc
    congr 2
    omega
  · by_cases hc : Covers vaddr mapSize gpa
    · rw [hgone gpa hc, hs.empty gpa hc]
    · rw [hkept gpa hc, hold gpa hc]

/-- An empty range keeps it: neither call does anything. -/
theorem contract_zero (L : Layout) (info : Stage2MmInfo) (vaddr paddr : Nat) (attr : MemType)
    (acc : MemAccess) (h : Host) :
    Contract (mmuWalk L info) (stage2Map L info vaddr paddr 0 attr acc) (stage2Unmap L info vaddr 0)
      vaddr paddr 0 h := by
  refine ⟨h, h, ?_, ⟨fun gpa hc => absurd hc (not_covers_zero _ _), fun _ _ => rfl⟩, ?_, fun _ => rfl⟩
  · rw [stage2Map, pageCount_zero]
    rfl
  · rw [stage2Unmap, pageCount_zero]
    rfl

/-- The trees that are never unmapped are among them. -/
theorem Built.worked {code : Fin 8} (hb : Built L code info h) : Worked L code info h := by
  induction hb with
  | root hroom hrun => exact .root hroom hrun
  | map _ hin _ hfree hrun ih => exact .map ih hin hfree hrun
  | other _ hidle ih => exact .other ih hidle

/-- In every tree that the code makes, with enough free pages in the allocator. -/
theorem s2_contract_iff {code : Fin 8} (hw : Worked L code info h) (hv : vaddr % 4096 = 0)
    (hp : paddr % 4096 = 0) (attr : MemType) (acc : MemAccess)
    (henough : s2Needed L info h vaddr mapSize ≤ evenFree h.bitmap (totalPages / 2)) :
    Contract (mmuWalk L info) (stage2Map L info vaddr paddr mapSize attr acc)
        (stage2Unmap L info vaddr mapSize) vaddr paddr mapSize h ↔
      mapSize = 0 ∨ S2Serves L info h vaddr paddr mapSize := by
  obtain ⟨q, hi, hg⟩ := hw.inv
  constructor
  · intro hc
    by_cases hsize : mapSize = 0
    · exact .inl hsize
    · exact .inr (.of_contract hi hg hv hp hsize henough hc)
  · rintro (rfl | hs)
    · exact contract_zero L info vaddr paddr attr acc h
    · exact hs.contract hi hg hv hp attr acc

end

end HyperCore.AArch64
