import HyperCore.AArch64.PageTableS2

/-!
# Mapping a range in the stage-2 tables

A stage-2 tree starts as the zeroed root block of `s2_alloc_root_pages` and grows by
calls of `stage2_map`; in between, the rest of the hypervisor leaves it alone.
`Built` are the states reached that way, `Stage2Tree` is the invariant they keep.

Mapping a range is a finite-map update of the MMU's walk exactly when the tables the
range still lacks can be taken from the first `2 ^ 18` pages of the pool: the direct
map of the hypervisor ends there, although the allocator hands out pages up to
`2 ^ 20`.
-/

namespace HyperCore.AArch64

open RadixTable Bitmap PageAlloc ArchPage TableMap

/-! ## The root block -/

/-- Both allocations of `s2_alloc_root_pages` succeed, the second one (which becomes
the root) inside the direct map. -/
def RootRoom (bm : Bitmap) (order : Nat) : Prop :=
  ∃ p q : Nat, LeastRun bm (2 ^ order) p ∧
    LeastRun (setBits bm p (2 ^ order : Nat)) (2 ^ order) q ∧ q + 2 ^ order ≤ 2 ^ 18

theorem pow_order_le {order : Nat} (ho : order ≤ 4) : 2 ^ order ≤ 16 := by
  match order, ho with
  | 0, _ | 1, _ | 2, _ | 3, _ | 4, _ => decide

theorem toInt32_pow_order {order : Nat} (ho : order ≤ 4) :
    MachineInt.toInt32 (2 ^ order) = ((2 ^ order : Nat) : Int) := by
  match order, ho with
  | 0, _ | 1, _ | 2, _ | 3, _ | 4, _ => decide

theorem allocPages_run {bm : Bitmap} {order p : Nat} (ho : order ≤ 4)
    (hp : LeastRun bm (2 ^ order) p) :
    allocPages bm order = ((p : Int), setBits bm p (2 ^ order : Nat)) := by
  have hle : 2 ^ order ≤ totalPages := Nat.le_trans (pow_order_le ho) (by decide)
  rw [allocPages, toInt32_pow_order ho]
  rcases allocPagesCnt_spec bm Nat.one_le_two_pow hle with ⟨q, hq, he⟩ | ⟨-, hno⟩
  · rw [he, hq.unique hp]
  · exact absurd hp.1 (hno p)

/-- Clearing the pages of a block through the direct map. -/
theorem clearPages_ok (L : Layout) {q n : Nat} (hq : q + n ≤ 2 ^ 18) (h : Host) :
    ∃ h', forRounds (fun i => clearPage L.hostTranslate
        (pageVirtOffset + pageSize * q + pageSize * i)) n h = .ok () h' ∧
      h'.bitmap = h.bitmap ∧ ∀ x, h'.mem x =
        if L.physPage q ≤ x ∧ x < L.physPage q + 4096 * n then 0 else h.mem x := by
  induction n with
  | zero =>
    refine ⟨h, rfl, rfl, fun x => ?_⟩
    rw [if_neg (by omega)]
  | succ n ih =>
    obtain ⟨h₁, hrun, hbm, hmem⟩ := ih (by omega)
    have htr : L.hostTranslate (pageVirtOffset + pageSize * q + pageSize * n) =
        some (L.physPage q + 4096 * n) := by
      rw [Nat.add_assoc, L.hostTranslate_window (by
        simp only [directMappingSize, pageSize]; omega), Layout.physPage, Nat.add_assoc]
      rfl
    refine ⟨⟨zeroMem h₁.mem (L.physPage q + 4096 * n), h₁.bitmap,
      .zero (L.physPage q + 4096 * n) :: h₁.log⟩, ?_, hbm, fun x => ?_⟩
    · rw [forRounds, bind_ok hrun]
      simp only [clearPage, htr]
    · simp only [zeroMem, hmem x]
      by_cases hx : L.physPage q + 4096 * n ≤ x ∧ x < L.physPage q + 4096 * n + 4096
      · rw [if_pos hx, if_pos (by omega)]
      · rw [if_neg hx]
        by_cases hx' : L.physPage q ≤ x ∧ x < L.physPage q + 4096 * n
        · rw [if_pos hx', if_pos (by omega)]
        · rw [if_neg hx', if_neg (by omega)]

/-- `s2_alloc_root_pages` with room for both of its allocations. -/
theorem s2AllocRootPages_ok (L : Layout) {info : Stage2MmInfo} {h : Host} {p q : Nat}
    (ho : info.rootPageOrder ≤ 4) (hp : LeastRun h.bitmap (2 ^ info.rootPageOrder) p)
    (hq : LeastRun (setBits h.bitmap p (2 ^ info.rootPageOrder : Nat)) (2 ^ info.rootPageOrder) q)
    (hin : q + 2 ^ info.rootPageOrder ≤ 2 ^ 18) :
    ∃ h', s2AllocRootPages L info h =
        .ok { info with rootTable := pageVirtOffset + pageSize * q } h' ∧
      (∀ x, h'.mem x = if L.physPage q ≤ x ∧
        x < L.physPage q + 4096 * 2 ^ info.rootPageOrder then 0 else h.mem x) ∧
      ∀ n, bit h'.bitmap n = true ↔ bit h.bitmap n = true ∨
        (p ≤ n ∧ n < p + 2 ^ info.rootPageOrder) ∨ (q ≤ n ∧ n < q + 2 ^ info.rootPageOrder) := by
  have hpi := int_of_inside hp.1.2.1
  have hqi := int_of_inside hq.1.2.1
  have hq19 : q < 2 ^ 19 := Nat.lt_of_le_of_lt (Nat.le_trans (Nat.le_add_right _ _) hin) (by decide)
  let h₁ : Host := { h with bitmap := setBits h.bitmap p (2 ^ info.rootPageOrder : Nat) }
  let h₂ : Host := { h with bitmap := setBits h₁.bitmap q (2 ^ info.rootPageOrder : Nat) }
  have htake₁ : takePages info.rootPageOrder h = .ok (p : Int) h₁ := by
    simp only [takePages, allocPages_run ho hp, h₁]
  have htake₂ : takePages info.rootPageOrder h₁ = .ok (q : Int) h₂ := by
    simp only [takePages, allocPages_run ho hq, h₁, h₂]
  obtain ⟨h₃, hrun, hbm, hmem⟩ := clearPages_ok L hin h₂
  have haddr : MachineInt.toUInt64 (pageVirtOffset + MachineInt.toInt32 ((q : Int) * 2 ^ 12)) =
      pageVirtOffset + pageSize * q := by
    have := pageVir_low hq19
    rwa [pageVir, if_neg (by omega)] at this
  refine ⟨h₃, ?_, hmem, fun n => ?_⟩
  · have hord : ¬ info.rootPageOrder > 4 := by omega
    have hneg : ¬ ((p : Int) < 0) := by omega
    simp only [s2AllocRootPages, hord, if_false]
    rw [bind_ok htake₁]
    simp only [hneg, if_false]
    rw [bind_ok htake₂, haddr, pure_bind, bind_ok hrun]
    rfl
  · rw [hbm]
    simp only [h₂, h₁, bit_setBits _ hqi, bit_setBits _ hpi, Bool.or_eq_true, decide_eq_true_eq]
    rw [← or_assoc, or_comm]
    exact or_congr_right or_comm

/-! ## The invariant of a stage-2 tree -/

/-- The physical address of the root, as `VTTBR_EL2` receives it. -/
def rootPhys (L : Layout) (info : Stage2MmInfo) : Nat := L.virToPhy info.rootTable

/-- A stage-2 tree whose root block starts at page `q`. The tables are reached through
the direct map, and the pages of the block after the first stay zero. -/
structure Stage2Tree (L : Layout) (info : Stage2MmInfo) (h : Host) (q : Nat) : Prop where
  level : info.lookupLevel ≤ 3
  root : info.rootTable = pageVirtOffset + pageSize * q
  block : q + 2 ^ info.rootPageOrder ≤ 2 ^ 18
  tables : Tables (s2Mapper L) (L.physPage q) (3 - info.lookupLevel) h
  sees : ∀ idx, Sees (s2Mapper L) (L.physPage q) (3 - info.lookupLevel) h idx
  rest_taken : ∀ j, 0 < j → j < 2 ^ info.rootPageOrder → bit h.bitmap (q + j) = true
  rest_zero : ∀ j, 0 < j → j < 2 ^ info.rootPageOrder →
    ∀ i : Fin 512, h.mem (slot (L.physPage (q + j)) i) = 0
  rest_apart : ∀ j, 0 < j → j < 2 ^ info.rootPageOrder → ∀ idx k, k ≤ 3 - info.lookupLevel →
    tableAt (s2Mapper L).format h.mem (L.physPage q) idx k ≠ some (L.physPage (q + j))

/-- Other code keeps its hands off the tables and the root block. -/
structure Stage2Idle (L : Layout) (info : Stage2MmInfo) (h h' : Host) : Prop where
  tables : Untouched (s2Mapper L) (rootPhys L info) (3 - info.lookupLevel) h h'
  words : ∀ {x}, rootPhys L info ≤ x → x < rootPhys L info + 4096 * 2 ^ info.rootPageOrder →
    h'.mem x = h.mem x
  pages : ∀ {p}, rootPhys L info ≤ L.physPage p →
    L.physPage p < rootPhys L info + 4096 * 2 ^ info.rootPageOrder →
    bit h.bitmap p = true → bit h'.bitmap p = true

namespace Stage2Tree

variable {L : Layout} {info : Stage2MmInfo} {h h' : Host} {q : Nat}

theorem lt (ht : Stage2Tree L info h q) : q < 2 ^ 18 := by
  have := ht.block
  have := @Nat.one_le_two_pow info.rootPageOrder
  omega

theorem rootPhys_eq (ht : Stage2Tree L info h q) : rootPhys L info = L.physPage q := by
  rw [rootPhys, ht.root, L.virToPhy_window (Nat.lt_trans ht.lt (by decide))]

/-- The root pointer reaches the root. -/
theorem at_root (ht : Stage2Tree L info h q) : (s2Mapper L).At info.rootTable (L.physPage q) := by
  have hlt := ht.lt
  have hhalf : q < 2 * (s2Mapper L).half := by
    rw [s2Mapper_half]
    omega
  rw [ht.root, ← L.phyToVir_physPage (Nat.lt_trans hlt (by decide)), ← s2Mapper_tableAddr]
  exact (s2Mapper L).tr_table hhalf

theorem grown {S : (Nat → Fin 512) → Nat → Prop} {c : Nat} (ht : Stage2Tree L info h q)
    (hg : Grown (s2Mapper L) (L.physPage q) (3 - info.lookupLevel) S c h h') :
    Stage2Tree L info h' q where
  level := ht.level
  root := ht.root
  block := ht.block
  tables := hg.tables
  sees idx := (ht.sees idx).grown hg
  rest_taken j h0 hj := hg.bit_mono (ht.rest_taken j h0 hj)
  rest_apart j h0 hj idx k hk hb := by
    rcases hg.low hk hb with hb | ⟨p, -, he, hfree⟩
    · exact ht.rest_apart j h0 hj idx k hk hb
    · rw [← L.physPage_inj he, ht.rest_taken j h0 hj] at hfree
      cases hfree
  rest_zero j h0 hj i := by
    rw [hg.frame (hg.tables.not_in_apart fun idx k hk hb => ?_), ht.rest_zero j h0 hj]
    rcases hg.low hk hb with hb | ⟨p, -, he, hfree⟩
    · exact ht.rest_apart j h0 hj idx k hk hb
    · rw [← L.physPage_inj he, ht.rest_taken j h0 hj] at hfree
      cases hfree

theorem idle (ht : Stage2Tree L info h q) (hi : Stage2Idle L info h h') :
    Stage2Tree L info h' q := by
  obtain ⟨hu, hw, hp⟩ := hi
  rw [ht.rootPhys_eq] at hu hw hp
  refine ⟨ht.level, ht.root, ht.block, ht.tables.untouched hu, fun idx j b h0 hj hb => ?_,
    fun j h0 hj => ?_, fun j h0 hj i => ?_, fun j h0 hj idx k hk hb => ?_⟩
  · exact ht.sees idx j b h0 hj (hu.words.tableAt_eq hj ▸ hb)
  · refine hp ?_ ?_ (ht.rest_taken j h0 hj) <;> simp only [Layout.physPage, pageSize] <;> omega
  · have hi := i.isLt
    rw [hw ?_ ?_, ht.rest_zero j h0 hj] <;> simp only [slot, Layout.physPage, pageSize] <;> omega
  · exact ht.rest_apart j h0 hj idx k hk (hu.words.tableAt_eq hk ▸ hb)

end Stage2Tree

/-- The tree right after `s2_alloc_root_pages`. -/
theorem stage2Tree_root (L : Layout) {info info' : Stage2MmInfo} {h h' : Host}
    (hl : info.lookupLevel ≤ 3) (ho : info.rootPageOrder ≤ 4)
    (hroom : RootRoom h.bitmap info.rootPageOrder)
    (hrun : s2AllocRootPages L info h = .ok info' h') : ∃ q, Stage2Tree L info' h' q ∧
      info' = { info with rootTable := info'.rootTable } ∧
      ∀ i : Fin 512, h'.mem (slot (L.physPage q) i) = 0 := by
  obtain ⟨p, q, hp, hq, hin⟩ := hroom
  obtain ⟨h₁, hok, hmem, hbits⟩ := s2AllocRootPages_ok L ho hp hq hin
  rw [hok] at hrun
  cases hrun
  have hset : ∀ n, q ≤ n → n < q + 2 ^ info.rootPageOrder → bit h'.bitmap n = true :=
    fun n h1 h2 => (hbits n).mpr (.inr (.inr ⟨h1, h2⟩))
  have h1 := @Nat.one_le_two_pow info.rootPageOrder
  have hzero : ∀ j, j < 2 ^ info.rootPageOrder →
      ∀ i : Fin 512, h'.mem (slot (L.physPage (q + j)) i) = 0 := by
    intro j hj i
    have := i.isLt
    rw [hmem, if_pos]
    simp only [slot, Layout.physPage, pageSize]
    omega
  have hroot : ∀ i : Fin 512, h'.mem (slot (L.physPage q) i) = 0 := hzero 0 (by omega)
  have hnone : ∀ {idx k}, 0 < k →
      tableAt (s2Mapper L).format h'.mem (L.physPage q) idx k = none :=
    fun h0 => tableAt_of_clear hroot h0
  refine ⟨q, ⟨hl, rfl, hin, Tables.of_clear hroot (L.physPage_mod q) fun _ he => ?_,
    fun idx j b h0 _ hb => ?_, fun j h0 (hj : j < 2 ^ info.rootPageOrder) => ?_,
    fun j _ hj => hzero j hj, fun j h0 hj idx k _ hb => ?_⟩, rfl, hroot⟩
  · rw [← L.physPage_inj he]
    exact hset q (Nat.le_refl _) (by omega)
  · rw [hnone h0] at hb
    cases hb
  · exact hset _ (by omega) (by omega)
  · cases k with
    | zero =>
      have := L.physPage_inj (Option.some.inj hb)
      omega
    | succ k =>
      rw [hnone (Nat.succ_pos k)] at hb
      cases hb

/-! ## Mapping a range -/

/-- The number of input address bits the 9-bit indices tell apart. -/
def reachBits (info : Stage2MmInfo) : Nat := 12 + 9 * (4 - info.lookupLevel)

/-- The table indices of page `i` of a range. -/
def rangeIndex (info : Stage2MmInfo) (vaddr i : Nat) : Nat → Fin 512 :=
  s2Index info.lookupLevel ((vaddr + pageSize * i) % 2 ^ 64)

/-- The tables that the range at `vaddr` still lacks. -/
def s2Needed (L : Layout) (info : Stage2MmInfo) (h : Host) (vaddr mapSize : Nat) : Nat :=
  needed (s2Mapper L) (rootPhys L info) (3 - info.lookupLevel) h (rangeIndex info vaddr)
    (pageCount mapSize)

/-- A page-aligned range of input addresses below `2 ^ bits`. -/
def InputRange (bits vaddr mapSize : Nat) : Prop :=
  vaddr % 4096 = 0 ∧ vaddr + 4096 * pageCount mapSize ≤ 2 ^ bits

/-- A page-aligned range of non-zero output addresses below `2 ^ 48`. -/
def OutputRange (paddr mapSize : Nat) : Prop :=
  paddr % 4096 = 0 ∧ 0 < paddr ∧ paddr + 4096 * pageCount mapSize ≤ 2 ^ 48

/-- The finite-map update: the walk gives the output range with the requested
attributes on the input range, and what it gave before elsewhere. -/
structure MapsRange (L : Layout) (info : Stage2MmInfo) (bits vaddr paddr mapSize : Nat)
    (attr : MemType) (acc : MemAccess) (h h' : Host) : Prop where
  mapped : ∀ k, k < pageCount mapSize →
    s2Walk h'.mem (rootPhys L info) info.lookupLevel (vaddr + 4096 * k) =
      some (paddr + 4096 * k, requested attr acc)
  others : ∀ ipa, ipa < 2 ^ bits → ¬ (vaddr ≤ ipa ∧ ipa < vaddr + 4096 * pageCount mapSize) →
    s2Walk h'.mem (rootPhys L info) info.lookupLevel ipa =
      s2Walk h.mem (rootPhys L info) info.lookupLevel ipa
  fresh : FreshLinks L h h'

section

variable {L : Layout} {info : Stage2MmInfo} {h : Host} {q bits vaddr paddr mapSize : Nat}

theorem reachBits_le (info : Stage2MmInfo) : reachBits info ≤ 48 := by
  simp only [reachBits]
  omega

theorem pow_bits_le {bits bits' : Nat} (h : bits ≤ bits') : 2 ^ bits ≤ 2 ^ bits' :=
  Nat.pow_le_pow_right (by decide) h

/-- The addresses of a range do not wrap. -/
theorem range_addr (hbits : bits ≤ reachBits info) (hin : InputRange bits vaddr mapSize) {i : Nat}
    (hi : i < pageCount mapSize) :
    (vaddr + pageSize * i) % 2 ^ 64 = vaddr + 4096 * i ∧
      vaddr + 4096 * i < 2 ^ reachBits info := by
  have h1 := pow_bits_le hbits
  have h2 := pow_bits_le (reachBits_le info)
  have := hin.2
  simp only [pageSize]
  omega

/-- An address meets page `i` of the range in every index only if it is in that page. -/
theorem page_of_agree (hl : info.lookupLevel ≤ 3) (hbits : bits ≤ reachBits info)
    (hin : InputRange bits vaddr mapSize) {ipa i : Nat} (hipa : ipa < 2 ^ reachBits info)
    (hi : i < pageCount mapSize)
    (hag : AgreeTo (3 - info.lookupLevel + 1) (s2Index info.lookupLevel ipa)
      (rangeIndex info vaddr i)) : ipa / 4096 = vaddr / 4096 + i := by
  obtain ⟨he, hlt⟩ := range_addr hbits hin hi
  rw [rangeIndex, he] at hag
  have := page_eq_of_agree hl hipa hlt hag
  have := hin.1
  omega

/-- The pages of a range have distinct indices. -/
theorem range_distinct (hl : info.lookupLevel ≤ 3) (hbits : bits ≤ reachBits info)
    (hin : InputRange bits vaddr mapSize) (i j : Nat) (hij : i < j) (hj : j < pageCount mapSize) :
    ¬ AgreeTo (3 - info.lookupLevel + 1) (rangeIndex info vaddr i) (rangeIndex info vaddr j) := by
  intro hag
  obtain ⟨he, hlt⟩ := range_addr hbits hin (Nat.lt_trans hij hj)
  rw [rangeIndex, he] at hag
  have hpage := page_of_agree hl hbits hin hlt hj hag
  have haligned := hin.1
  omega

/-- A range below a smaller bound. -/
theorem inputRange_mono (hbits : bits ≤ reachBits info) (hin : InputRange bits vaddr mapSize) :
    InputRange (reachBits info) vaddr mapSize :=
  ⟨hin.1, Nat.le_trans hin.2 (pow_bits_le hbits)⟩

/-- An address below the reach has the indices of page `i` exactly if it is in that page. -/
theorem agree_page {gpa i : Nat} (hl : info.lookupLevel ≤ 3)
    (hin : InputRange (reachBits info) vaddr mapSize) (hgpa : gpa < 2 ^ reachBits info)
    (hi : i < pageCount mapSize) :
    AgreeTo (3 - info.lookupLevel + 1) (s2Index info.lookupLevel gpa) (rangeIndex info vaddr i) ↔
      gpa / 4096 = vaddr / 4096 + i := by
  constructor
  · exact page_of_agree hl (Nat.le_refl _) hin hgpa hi
  · intro hpage
    rw [rangeIndex, (range_addr (Nat.le_refl _) hin hi).1]
    have hv := hin.1
    exact agree_of_page (by omega) _

/-- With enough pages in the direct map `stage2_map` returns, and the walks find the new entries in the
range and the old ones outside. -/
theorem stage2Map_lookups (ht : Stage2Tree L info h q)
    (hin : InputRange (reachBits info) vaddr mapSize) (paddr : Nat) (attr : MemType) (acc : MemAccess)
    (hfree : s2Needed L info h vaddr mapSize ≤ evenFree h.bitmap (2 ^ 17)) :
    ∃ h', stage2Map L info vaddr paddr mapSize attr acc h = .ok () h' ∧
      Grown (s2Mapper L) (L.physPage q) (3 - info.lookupLevel)
        (fun idx k => ∃ i, i < pageCount mapSize ∧ AgreeTo k idx (rangeIndex info vaddr i))
        (s2Needed L info h vaddr mapSize) h h' ∧
      ∀ {O : Type} (leaf : Word → Option O), leaf 0 = none → ∀ gpa, gpa < 2 ^ reachBits info →
        lookup (s2Mapper L).format leaf h'.mem (L.physPage q) (3 - info.lookupLevel)
            (s2Index info.lookupLevel gpa) =
          if vaddr ≤ gpa ∧ gpa < vaddr + 4096 * pageCount mapSize then
            leaf (makeStage2Entry ((paddr + (gpa - vaddr) / 4096 * 4096) % 2 ^ 64) attr acc)
          else lookup (s2Mapper L).format leaf h.mem (L.physPage q) (3 - info.lookupLevel)
            (s2Index info.lookupLevel gpa) := by
  have hdist := range_distinct ht.level (Nat.le_refl _) hin
  have hv := hin.1
  rw [s2Needed, ht.rootPhys_eq] at hfree ⊢
  obtain ⟨h', hrun, hg, hw⟩ := mapPages_good ht.tables ht.at_root
    (fun i => makeStage2Entry ((paddr + pageSize * i) % 2 ^ 64) attr acc)
    (fun i _ => ht.sees _) hfree
  refine ⟨h', ?_, hg, fun leaf hleaf gpa hgpa => ?_⟩
  · rw [stage2Map_eq L info vaddr paddr mapSize attr acc ht.level]
    exact hrun
  · split
    · next hc =>
      have hi : (gpa - vaddr) / 4096 < pageCount mapSize := by omega
      rw [lookup_congr ((agree_page ht.level hin hgpa hi).mpr (by omega)),
        (hw leaf hleaf).1 hdist _ hi, pageSize, Nat.mul_comm]
    · next hno =>
      refine (hw leaf hleaf).2 _ fun i hi hag => hno ?_
      have hpage := (agree_page ht.level hin hgpa hi).mp hag
      omega

/-- With enough pages in the direct map, `stage2_map` is the finite-map update. -/
theorem stage2Map_good (ht : Stage2Tree L info h q) (hbits : bits ≤ reachBits info)
    (hin : InputRange bits vaddr mapSize) (hpa : paddr % 4096 = 0)
    (hpb : paddr + 4096 * pageCount mapSize ≤ 2 ^ 48) (attr : MemType) (acc : MemAccess)
    (hfree : s2Needed L info h vaddr mapSize ≤ evenFree h.bitmap (2 ^ 17)) :
    ∃ h', stage2Map L info vaddr paddr mapSize attr acc h = .ok () h' ∧
      MapsRange L info bits vaddr paddr mapSize attr acc h h' ∧
      Grown (s2Mapper L) (L.physPage q) (3 - info.lookupLevel)
        (fun idx k => ∃ i, i < pageCount mapSize ∧ AgreeTo k idx (rangeIndex info vaddr i))
        (s2Needed L info h vaddr mapSize) h h' := by
  obtain ⟨h', hrun, hg, hw⟩ := stage2Map_lookups ht (inputRange_mono hbits hin) paddr attr acc hfree
  obtain ⟨l, hl⟩ := hg.takes
  refine ⟨h', hrun, ⟨fun k hk => ?_, fun ipa hipa hno => ?_, Takes.freshLinks hl⟩, hg⟩
  · have hreach := (range_addr hbits hin hk).2
    have hv := hin.1
    have hpage : (paddr + (vaddr + 4096 * k - vaddr) / 4096 * 4096) % 2 ^ 64 = paddr + 4096 * k := by
      omega
    rw [ht.rootPhys_eq, s2Walk_eq ht.level hg.tables.tree, hw _ (s2Leaf_zero _) _ hreach,
      if_pos (by omega), hpage, s2Leaf_make attr acc (by omega) (by omega),
      show (vaddr + 4096 * k) % 4096 = 0 by omega, Nat.add_zero]
  · have hreach : ipa < 2 ^ reachBits info := Nat.lt_of_lt_of_le hipa (pow_bits_le hbits)
    rw [ht.rootPhys_eq, s2Walk_eq ht.level hg.tables.tree, s2Walk_eq ht.level ht.tables.tree,
      hw _ (s2Leaf_zero _) _ hreach, if_neg hno]

/-- With too few pages in the direct map it is not. -/
theorem stage2Map_spoiled (ht : Stage2Tree L info h q) (attr : MemType) (acc : MemAccess)
    (hlow : evenFree h.bitmap (2 ^ 17) < s2Needed L info h vaddr mapSize)
    (hsome : s2Needed L info h vaddr mapSize ≤ evenFree h.bitmap (2 ^ 19)) :
    Spoiled (s2Mapper L) h (stage2Map L info vaddr paddr mapSize attr acc h) := by
  rw [s2Needed, ht.rootPhys_eq] at hlow hsome
  rw [stage2Map_eq L info vaddr paddr mapSize attr acc ht.level]
  exact mapPages_spoiled ht.tables ht.at_root _ (fun i _ => ht.sees _) hlow hsome

/-- The exact condition, for any tree that keeps the invariant. -/
theorem stage2Map_iff (ht : Stage2Tree L info h q) (hbits : bits ≤ reachBits info)
    (hin : InputRange bits vaddr mapSize) (hout : OutputRange paddr mapSize) (attr : MemType)
    (acc : MemAccess) (hsome : s2Needed L info h vaddr mapSize ≤ evenFree h.bitmap (2 ^ 19)) :
    (∃ h', stage2Map L info vaddr paddr mapSize attr acc h = .ok () h' ∧
      MapsRange L info bits vaddr paddr mapSize attr acc h h') ↔
    s2Needed L info h vaddr mapSize ≤ evenFree h.bitmap (2 ^ 17) := by
  constructor
  · rintro ⟨h', hrun, hm⟩
    refine Nat.le_of_not_lt fun hlow => ?_
    exact (stage2Map_spoiled ht attr acc hlow hsome).not_fresh ⟨h', hrun, hm.fresh⟩
  · intro hfree
    obtain ⟨h', hrun, hm, -⟩ := stage2Map_good ht hbits hin hout.1 hout.2.2 attr acc hfree
    exact ⟨h', hrun, hm⟩

end

/-! ## Trees built by the code -/

/-- The stage-2 trees of a machine with PARange `code`: the root block of
`s2_alloc_root_pages`, then calls of `stage2_map` whose missing tables fit into the
direct map, with other code running in between. -/
inductive Built (L : Layout) (code : Fin 8) : Stage2MmInfo → Host → Prop
  | root {info : Stage2MmInfo} {h h' : Host} :
      RootRoom h.bitmap (paRangeInfo code).rootOrder →
      s2AllocRootPages L (s2SetupInfo code) h = .ok info h' → Built L code info h'
  | map {info : Stage2MmInfo} {h h' : Host} {vaddr paddr mapSize : Nat} {attr : MemType}
      {acc : MemAccess} : Built L code info h → InputRange (reachBits info) vaddr mapSize →
      OutputRange paddr mapSize → s2Needed L info h vaddr mapSize ≤ evenFree h.bitmap (2 ^ 17) →
      stage2Map L info vaddr paddr mapSize attr acc h = .ok () h' → Built L code info h'
  | other {info : Stage2MmInfo} {h h' : Host} : Built L code info h → Stage2Idle L info h h' →
      Built L code info h'

theorem rootOrder_le (code : Fin 8) : (paRangeInfo code).rootOrder ≤ 4 := by
  revert code
  decide

/-- The fields of `info` are those of the PARange. -/
structure Geometry (code : Fin 8) (info : Stage2MmInfo) : Prop where
  paSize : info.paSize = (paRangeInfo code).pabits
  order : info.rootPageOrder = (paRangeInfo code).rootOrder
  level : info.lookupLevel = 2 - (paRangeInfo code).sl0

/-- Every built tree keeps the invariant. -/
theorem Built.tree {L : Layout} {code : Fin 8} {info : Stage2MmInfo} {h : Host}
    (hb : Built L code info h) : ∃ q, Stage2Tree L info h q ∧ Geometry code info := by
  induction hb with
  | root hroom hrun =>
    have hlevel : (s2SetupInfo code).lookupLevel ≤ 3 := Nat.le_trans (Nat.sub_le _ _) (by decide)
    obtain ⟨q, ht, hinfo, -⟩ := stage2Tree_root L hlevel (rootOrder_le code) hroom hrun
    refine ⟨q, ht, ?_⟩
    rw [hinfo]
    exact ⟨rfl, rfl, rfl⟩
  | map _ hin hout hfree hrun ih =>
    obtain ⟨q, ht, hinfo⟩ := ih
    obtain ⟨h₁, hrun', -, hg⟩ := stage2Map_good ht (Nat.le_refl _) hin hout.1 hout.2.2 _ _ hfree
    rw [hrun'] at hrun
    cases hrun
    exact ⟨q, ht.grown hg, hinfo⟩
  | other _ hi ih =>
    obtain ⟨q, ht, hinfo⟩ := ih
    exact ⟨q, ht.idle hi, hinfo⟩

/-- The PARange codes whose root is one page. -/
def OnePageRoot (code : Fin 8) : Prop := code = 0 ∨ code = 1 ∨ code = 4 ∨ code = 5

/-- A one-page root tells all input addresses apart. -/
theorem Built.paSize_le {L : Layout} {code : Fin 8} {info : Stage2MmInfo} {h : Host}
    (hb : Built L code info h) (hc : OnePageRoot code) : info.paSize ≤ reachBits info := by
  obtain ⟨q, -, hg⟩ := hb.tree
  rw [reachBits, hg.paSize, hg.level]
  clear hg hb
  rcases hc with rfl | rfl | rfl | rfl <;> decide

/-- Mapping a range in a built tree, with enough free pages in the allocator: it is the
finite-map update exactly when the missing tables fit into the direct map. -/
theorem stage2_map_update {L : Layout} {code : Fin 8} {info : Stage2MmInfo} {h : Host}
    (hb : Built L code info h) (hc : OnePageRoot code) {vaddr paddr mapSize : Nat}
    (hin : InputRange info.paSize vaddr mapSize) (hout : OutputRange paddr mapSize)
    (attr : MemType) (acc : MemAccess)
    (henough : s2Needed L info h vaddr mapSize ≤ evenFree h.bitmap (totalPages / 2)) :
    (∃ h', stage2Map L info vaddr paddr mapSize attr acc h = .ok () h' ∧
      MapsRange L info info.paSize vaddr paddr mapSize attr acc h h') ↔
    s2Needed L info h vaddr mapSize ≤ evenFree h.bitmap (2 ^ 17) := by
  obtain ⟨q, ht, -⟩ := hb.tree
  exact stage2Map_iff ht (hb.paSize_le hc) hin hout attr acc henough

/-! ## A machine right after boot -/

/-- An image that ends at 0x40300000. -/
def imageLayout : Layout := ⟨0x40300000, by decide⟩

/-- `info` after boot from an empty allocator, for a root of one or two pages: the
first block is lost, the root is at page 2. -/
def bootInfo (code : Fin 8) : Stage2MmInfo :=
  { s2SetupInfo code with rootTable := pageVirtOffset + pageSize * 2 }

theorem leastRun_first {cnt : Nat} (hc : cnt ≤ 2) : LeastRun initPageAllocator cnt 0 :=
  ⟨⟨rfl, by simp only [totalPages]; omega, fun n _ _ => bit_initBitmap n⟩, fun _ _ => Nat.zero_le _⟩

theorem leastRun_second {cnt : Nat} (h1 : 1 ≤ cnt) (hc : cnt ≤ 2) :
    LeastRun (setBits initPageAllocator (0 : Nat) cnt) cnt 2 := by
  have hbit : ∀ n, bit (setBits initPageAllocator (0 : Nat) cnt) n =
      (decide (0 ≤ n ∧ n < 0 + cnt) || bit initPageAllocator n) := bit_setBits _ (by omega)
  refine ⟨⟨rfl, by simp only [totalPages]; omega, fun n hn _ => ?_⟩, fun r hr => ?_⟩
  · rw [hbit, decide_eq_false (by omega)]
    exact bit_initBitmap n
  · rcases Nat.eq_zero_or_pos r with rfl | hpos
    · have hclear := hr.2.2 0 (Nat.le_refl _) (by omega)
      rw [hbit, decide_eq_true (by omega)] at hclear
      cases hclear
    · have := hr.1
      omega

/-- The empty tree, with any allocator that keeps the root block. -/
theorem built_boot (L : Layout) {code : Fin 8} (ho : (paRangeInfo code).rootOrder ≤ 1)
    {bm : Bitmap} (hbm : bit bm 2 = true ∧ bit bm 3 = true) :
    Built L code (bootInfo code) (clearHost bm) := by
  have hpow : 2 ^ (s2SetupInfo code).rootPageOrder ≤ 2 :=
    Nat.pow_le_pow_right (by decide) (show (s2SetupInfo code).rootPageOrder ≤ 1 from ho)
  have h1 := @Nat.one_le_two_pow (s2SetupInfo code).rootPageOrder
  have hp : LeastRun (clearHost initPageAllocator).bitmap
      (2 ^ (s2SetupInfo code).rootPageOrder) 0 := leastRun_first hpow
  have hq : LeastRun (setBits (clearHost initPageAllocator).bitmap (0 : Nat)
      (2 ^ (s2SetupInfo code).rootPageOrder : Nat)) (2 ^ (s2SetupInfo code).rootPageOrder) 2 :=
    leastRun_second h1 hpow
  have hin : 2 + 2 ^ (s2SetupInfo code).rootPageOrder ≤ 2 ^ 18 := by omega
  obtain ⟨h', hrun, hmem, -⟩ := s2AllocRootPages_ok L (rootOrder_le code) hp hq hin
  have hzero : ∀ x, h'.mem x = 0 := by
    intro x
    rw [hmem]
    exact ite_self _
  have hroot : rootPhys L (bootInfo code) = L.physPage 2 := L.virToPhy_window (by decide)
  refine .other (.root ⟨0, 2, hp, hq, hin⟩ hrun) ⟨⟨fun _ _ _ _ _ _ => (hzero _).symm, ?_⟩,
    fun _ _ => (hzero _).symm, ?_⟩
  · intro idx k b p hk hb _ he _
    rw [hroot] at hb
    cases k with
    | zero =>
      rw [← L.physPage_inj (Option.some.inj hb |>.trans he)]
      exact hbm.1
    | succ k =>
      rw [tableAt_of_clear (fun i => hzero _) (Nat.succ_pos k)] at hb
      cases hb
  · intro p h2 h3 _
    rw [hroot] at h2 h3
    have hp : p = 2 ∨ p = 3 := by
      have : 2 ^ (bootInfo code).rootPageOrder ≤ 2 := hpow
      simp only [Layout.physPage, pageSize] at h2 h3
      omega
    rcases hp with rfl | rfl
    · exact hbm.1
    · exact hbm.2

/-- The pages of the first 1 GB are taken: the allocator still has plenty, but mapping
one page faults on the first table it takes. -/
theorem stage2_map_past_window :
    Built imageLayout 5 (bootInfo 5) (clearHost windowTaken) ∧ OnePageRoot 5 ∧
    InputRange (bootInfo 5).paSize 0x60000000 4096 ∧ OutputRange 0x60000000 4096 ∧
    s2Needed imageLayout (bootInfo 5) (clearHost windowTaken) 0x60000000 4096 ≤
      evenFree (clearHost windowTaken).bitmap (totalPages / 2) ∧
    ¬ ∃ h', stage2Map imageLayout (bootInfo 5) 0x60000000 0x60000000 4096 .normalRw .rwx
        (clearHost windowTaken) = .ok () h' ∧
      MapsRange imageLayout (bootInfo 5) (bootInfo 5).paSize 0x60000000 0x60000000 4096
        .normalRw .rwx (clearHost windowTaken) h' := by
  have hb : Built imageLayout 5 (bootInfo 5) (clearHost windowTaken) :=
    built_boot imageLayout (by decide) ⟨bit_windowTaken 2, bit_windowTaken 3⟩
  have hc : OnePageRoot 5 := .inr (.inr (.inr rfl))
  have hin : InputRange (bootInfo 5).paSize 0x60000000 4096 := by constructor <;> decide
  have hout : OutputRange 0x60000000 4096 := ⟨rfl, by decide, by decide⟩
  have hle : s2Needed imageLayout (bootInfo 5) (clearHost windowTaken) 0x60000000 4096 ≤ 3 :=
    needed_le _
  have hsome := Nat.le_trans hle evenFree_windowTaken
  refine ⟨hb, hc, hin, hout, hsome, fun hok => ?_⟩
  obtain ⟨q, ht, -⟩ := hb.tree
  have hfit := (stage2Map_iff ht (hb.paSize_le hc) hin hout .normalRw .rwx hsome).mp hok
  -- the empty root lacks all three tables
  have hnone : tableAt (s2Mapper imageLayout).format (clearHost windowTaken).mem
      (rootPhys imageLayout (bootInfo 5)) (rangeIndex (bootInfo 5) 0x60000000 0) 1 = none :=
    tableAt_of_clear (fun _ => rfl) (by decide)
  have hpos : 0 < s2Needed imageLayout (bootInfo 5) (clearHost windowTaken) 0x60000000 4096 := by
    refine Nat.lt_of_lt_of_le (List.countP_pos_iff.mpr ⟨0, List.mem_range.mpr (by decide), ?_⟩)
      (Nat.le_add_left _ _)
    rw [hnone]
    rfl
  rw [show (clearHost windowTaken).bitmap = windowTaken from rfl, evenFree_windowTaken_low] at hfit
  omega

/-- The bitmap after the two allocations of a two-page root. -/
def rootTaken : Bitmap := setBits initPageAllocator (0 : Nat) (4 : Nat)

theorem bit_rootTaken (n : Nat) : bit rootTaken n = decide (n < 4) := by
  rw [rootTaken, bit_setBits _ (by decide), initPageAllocator, bit_initBitmap, Bool.or_false]
  exact decide_eq_decide.mpr (by omega)

theorem evenFree_rootTaken : 6 ≤ evenFree rootTaken (2 ^ 17) := by
  have hstretch : evenFree rootTaken (2 + 6) = evenFree rootTaken 2 + 6 :=
    evenFree_stretch fun k h1 _ => by
      rw [bit_rootTaken]
      exact decide_eq_false (by omega)
  have hmono : evenFree rootTaken (2 + 6) ≤ evenFree rootTaken (2 ^ 17) := evenFree_mono (by decide)
  omega

/-- After boot there is room, and the page is mapped. -/
theorem stage2_map_update_boot :
    ∃ h', stage2Map imageLayout (bootInfo 5) 0x60000000 0x60000000 4096 .normalRw .rwx
        (clearHost rootTaken) = .ok () h' ∧
      MapsRange imageLayout (bootInfo 5) (bootInfo 5).paSize 0x60000000 0x60000000 4096
        .normalRw .rwx (clearHost rootTaken) h' := by
  have hb : Built imageLayout 5 (bootInfo 5) (clearHost rootTaken) :=
    built_boot imageLayout (by decide) ⟨bit_rootTaken 2, bit_rootTaken 3⟩
  have hle : s2Needed imageLayout (bootInfo 5) (clearHost rootTaken) 0x60000000 4096 ≤ 3 :=
    needed_le _
  have hlow : s2Needed imageLayout (bootInfo 5) (clearHost rootTaken) 0x60000000 4096 ≤
      evenFree rootTaken (2 ^ 17) :=
    Nat.le_trans (Nat.le_trans hle (by decide)) evenFree_rootTaken
  exact (stage2_map_update hb (.inr (.inr (.inr rfl)))
    (by constructor <;> decide) ⟨rfl, by decide, by decide⟩ .normalRw .rwx
    (Nat.le_trans hlow (evenFree_mono (by decide)))).mpr hlow

end HyperCore.AArch64
