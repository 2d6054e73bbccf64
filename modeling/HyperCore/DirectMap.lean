import HyperCore.AArch64.BootTables
import HyperCore.Core.Frames
import HyperCore.Riscv64.HugeMap

/-!
# The direct map and the page pool

Both architectures map the pool of the page allocator at `PAGE_VIRT_OFFSET` when they boot, with 2 MB
blocks: AArch64 through the two-level builder, RISC-V through `pg_map_huge` after `init_mm` has mapped
the image and the devices. The map is 1 GB long and the pool 4 GB, so the walk of `PAGE_VIR(pfn)` gives
`PAGE_PHY(pfn)` exactly below page `2 ^ 18` (`direct_map_addresses_iff`).
-/

namespace HyperCore

open RadixTable Bitmap PageAlloc ArchPage TableMap

/-- Page `pfn` is addressed: `PAGE_VIR(pfn)` lies in the direct map, and the walk of each of its bytes
gives that byte of `PAGE_PHY(pfn)`. -/
structure Addressed (L : Layout) (walk : Nat → Option Nat) (pfn : Nat) : Prop where
  low : pageVirtOffset ≤ pageVir pfn
  high : pageVir pfn + 4096 ≤ pageVirtOffset + directMappingSize
  walk : ∀ x, x < 4096 → walk (pageVir pfn + x) = some (L.pagePhy pfn + x)

/-- A walk that translates the direct map addresses the first 1 GB of the pool. -/
theorem addressed_iff {L : Layout} {walk : Nat → Option Nat}
    (hw : ∀ x, x < directMappingSize → walk (pageVirtOffset + x) = some (L.pagePhysOffset + x))
    {pfn : Nat} (hp : pfn < totalPages) : Addressed L walk pfn ↔ pfn < 2 ^ 18 := by
  constructor
  · rintro ⟨hlow, hhigh, -⟩
    refine Nat.lt_of_not_le fun hge => ?_
    rcases Nat.lt_or_ge pfn (2 ^ 19) with hlt | hwrap
    · rw [pageVir_low hlt] at hhigh
      simp only [directMappingSize, pageSize] at hhigh
      omega
    · rw [pageVir_high hwrap hp] at hlow
      simp only [totalPages] at hp
      simp only [pageVirtOffset, pageSize] at hlow
      omega
  · intro hlt
    have hvir := pageVir_low (Nat.lt_trans hlt (show 2 ^ 18 < 2 ^ 19 by decide))
    have hphy := L.pagePhy_low (Nat.lt_trans hlt (show 2 ^ 18 < 2 ^ 19 by decide))
    refine ⟨?_, ?_, fun x hx => ?_⟩
    · rw [hvir]
      exact Nat.le_add_right _ _
    · rw [hvir]
      simp only [directMappingSize, pageSize]
      omega
    · rw [hvir, hphy, Nat.add_assoc, hw _ (by simp only [directMappingSize, pageSize]; omega),
        Layout.physPage, Nat.add_assoc]

/-- Past the first 1 GB the address is below or above the direct map. -/
theorem pageVir_outside {pfn x : Nat} (hge : 2 ^ 18 ≤ pfn) (hp : pfn < totalPages) (hx : x < 4096) :
    2 ^ 39 ≤ pageVir pfn + x ∧ pageVir pfn + x < 2 ^ 40 ∧
      ¬ (pageVirtOffset ≤ pageVir pfn + x ∧ pageVir pfn + x < pageVirtOffset + directMappingSize) := by
  simp only [totalPages] at hp
  rcases Nat.lt_or_ge pfn (2 ^ 19) with hlt | hwrap
  · rw [pageVir_low hlt]
    simp only [pageVirtOffset, directMappingSize, pageSize]
    omega
  · rw [pageVir_high hwrap hp]
    simp only [pageVirtOffset, directMappingSize, pageSize]
    omega

end HyperCore

/-! ## AArch64 -/

namespace HyperCore.AArch64

open RadixTable Bitmap PageAlloc ArchPage TableMap

/-- `init_direct_mapping`, on `boot_pgtable` and the tables of the direct map. -/
def initDirectMapping (L : Layout) (bootPgtable l1 l2 : Nat) (m : Nat → Word) : Option (Nat → Word) :=
  buildHypTwoLevelPageTable L pageVirtOffset L.pagePhysOffset (2 ^ 30) 7 bootPgtable l1 l2 m

theorem direct_phys_aligned (L : Layout) : L.pagePhysOffset % 4096 = 0 := L.pagePhysOffset_mod

theorem direct_phys_le (L : Layout) : L.pagePhysOffset + 2 ^ 30 ≤ 2 ^ 48 := by
  have := L.pagePhysOffset_lt
  omega

theorem direct_virt_lt : pageVirtOffset < 2 ^ 48 := by
  simp only [pageVirtOffset]
  omega

theorem direct_one_slot : pageVirtOffset % 2 ^ 30 + 2 ^ 30 ≤ 2 ^ 30 := by
  simp only [pageVirtOffset]
  omega

theorem direct_size_pos : 0 < 2 ^ 30 := by decide

/-- The range of the direct map. -/
def directRange (L : Layout) : BootRange where
  virt := pageVirtOffset
  phys := L.pagePhysOffset
  size := 2 ^ 30
  virt_aligned := rfl
  phys_aligned := direct_phys_aligned L
  size_aligned := rfl
  size_pos := direct_size_pos
  virt_lt := direct_virt_lt
  one_slot := direct_one_slot
  phys_le := direct_phys_le L

/-- The host's walk gives the direct map after boot, and no other address under the table of level 1
if that was clear. -/
theorem initDirectMapping_walks (L : Layout) {t0 t1 t2 : Nat} (m : Nat → Word)
    (hb : BootTables t0 t1 t2 0 0) :
    ∃ m', initDirectMapping L t0 t1 t2 m = some m' ∧
      (∀ x, x < directMappingSize →
        hostWalk m' t0 (pageVirtOffset + x) = some (L.pagePhysOffset + x, bootAttr)) ∧
      ((∀ i, i < 512 → m (t1 + 8 * i) = 0) → ∀ va, 2 ^ 39 ≤ va → va < 2 ^ 40 →
        ¬ (pageVirtOffset ≤ va ∧ va < pageVirtOffset + directMappingSize) →
          hostWalk m' t0 va = none) := by
  have hblocks : (directRange L).Blocks :=
    ⟨show pageVirtOffset % 2 ^ 21 = 0 by decide, L.pagePhysOffset_block, show 2 ^ 30 % 2 ^ 21 = 0 by decide⟩
  obtain ⟨m', hrun, hexact⟩ := twoLevel_exact L m 7 hb hblocks
  refine ⟨m', hrun, hexact.walk, fun hclear va hlow hhigh hout => ?_⟩
  obtain ⟨m'', hrun', h0, -, -, hoff⟩ := twoLevel_entries L m 7 hb hblocks
  obtain rfl : m'' = m' := Option.some.inj (hrun'.symm.trans hrun)
  obtain ⟨ha0, ha1, ha2, -⟩ := hb.aligned
  obtain ⟨h01, -, h12⟩ := hb.apart
  have hlt1 := hb.below.2.1
  simp only [pageVirtOffset] at hlt1 hout
  have hi0 : mmuIndex (directRange L).virt 0 < 512 := Nat.mod_lt _ (by decide)
  have hi1 : mmuIndex va 1 < 512 := Nat.mod_lt _ (by decide)
  have hv0 : mmuIndex va 0 = mmuIndex (directRange L).virt 0 := by
    simp only [mmuIndex, directRange, pageVirtOffset]
    omega
  have hv1 : mmuIndex va 1 ≠ mmuIndex (directRange L).virt 1 := by
    simp only [mmuIndex, directRange, pageVirtOffset, directMappingSize] at hout ⊢
    omega
  have hlink : m'' (t0 + 8 * mmuIndex va 0) = makeStage1Entry t1 7 := hv0 ▸ h0
  have hclear1 : m'' (t1 + 8 * mmuIndex va 1) = 0 := by
    rw [hoff _ ?_]
    · exact hclear _ hi1
    · rintro (he | he | ⟨i, ⟨x, hx, rfl⟩, he⟩)
      · omega
      · omega
      · have hi2 : mmuIndex ((directRange L).virt + x) 2 < 512 := Nat.mod_lt _ (by decide)
        omega
  have hwalk : hostWalkFrom m'' va t0 3 = hostWalkFrom m'' va t1 2 :=
    hostWalkFrom_link (n := 2) ha1 (by omega) hlink
  rw [hostWalk, hwalk, hostWalkFrom, hclear1]
  rfl

end HyperCore.AArch64

/-! ## RISC-V -/

namespace HyperCore.Riscv64

open RadixTable Bitmap PageAlloc ArchPage TableMap

/-- `PAGE_ATTR_EXEC | PAGE_ATTR_READ | PAGE_ATTR_WRITE` -/
def attrRwx : BitVec 32 := 14

/-- `init_direct_mapping` -/
def initDirectMapping (L : Layout) (root startLevel : Nat) (attr : BitVec 32) (withoutMmu : Bool) :
    HostM Unit :=
  pgMapHuge L withoutMmu root startLevel pageVirtOffset L.pagePhysOffset directMappingSize attr

/-- `init_mm` up to `enable_mmu`: the image, the UART, the PLIC and the direct map. -/
def initMm (L : Layout) (root : Nat) : HostM Unit := do
  modify fun h => { h with bitmap := initPageAllocator }
  pgMap L true root 0 0x80000000 0x80000000 0x2000000 attrRwx
  pgMap L true root 0 0x10000000 0x10000000 0x1000 attrRw
  pgMap L true root 0 0x0C000000 0x0C000000 0x400000 attrRw
  initDirectMapping L root 0 attrRwx true

section

variable {L : Layout} {root : Nat} {h : Host}

/-- No table lies below entry 1 of the root or a later one. -/
def LowHalf (L : Layout) (root : Nat) (h : Host) : Prop :=
  ∀ idx : Nat → Fin 512, idx 0 ≠ 0 → tableAt (pgMapper L false).format h.mem root idx 1 = none

/-- A call of `pg_map` at boot, with free pages to spare. -/
theorem pgMap_boot (paddr mapSize : Nat) (attr : BitVec 32) {vaddr pages spare : Nat}
    (hr : StaticRoot L root) (ht : Tables (pgMapper L false) root 3 h) (hlow : LowHalf L root h)
    (hpages : pageCount mapSize = pages) (hva : vaddr + 4096 * pages ≤ 2 ^ 39)
    (hfree : 3 * pages + spare ≤ evenFree h.bitmap (2 ^ 18)) :
    ∃ h', pgMap L true root 0 vaddr paddr mapSize attr h = .ok () h' ∧
      Tables (pgMapper L false) root 3 h' ∧ LowHalf L root h' ∧
      spare ≤ evenFree h'.bitmap (2 ^ 18) := by
  have hhalf : pgHalf true = 2 ^ 18 := by simp only [pgHalf, if_true]
  have hle : pgNeeded L root h vaddr mapSize ≤ 3 * pageCount mapSize := needed_le _
  rw [hpages] at hle
  have hroom : MapRoom L true root h vaddr mapSize := by
    refine ⟨?_, fun hmmu => by cases hmmu⟩
    rw [hhalf]
    omega
  obtain ⟨h', hrun, hg, -⟩ := pgMap_run paddr attr hr ht hroom
  refine ⟨h', hrun, tables_direct hg.tables, fun idx hidx => ?_, ?_⟩
  · rw [← Option.not_isSome_iff_eq_none]
    intro hsome
    rcases (hg.new (show 1 ≤ 3 by decide)).mp hsome with hold | ⟨i, hi, hag⟩
    · have hnone := hlow idx hidx
      rw [← Option.not_isSome_iff_eq_none] at hnone
      exact hnone hold
    · refine hidx ((hag 0 Nat.one_pos).trans (Fin.ext ?_))
      show (vaddr + pageSize * i) % 2 ^ 64 / 2 ^ 39 % 512 = 0
      rw [hpages] at hi
      simp only [pageSize]
      omega
  · have hcount := hg.count (n := 2 ^ 18) (by rw [pgMapper_half, hhalf])
    omega

/-- The address of a round, where the start is aligned and nothing wraps. -/
theorem huge_round {a i : Nat} (ha : a % 2 ^ 21 = 0) (hlt : a < 2 ^ 48) (hi : i < 512) :
    (a / 2 ^ 21 * 2 ^ 21 + 2 ^ 21 * i) % 2 ^ 64 = a + 2 ^ 21 * i := by
  omega

/-- The direct map, built below entries of the root that are clear. -/
theorem initDirectMapping_walks (hr : StaticRoot L root) (ht : Tables (pgMapper L false) root 3 h)
    (hlow : LowHalf L root h) (hfree : 1024 ≤ evenFree h.bitmap (2 ^ 18)) :
    ∃ h', initDirectMapping L root 0 attrRwx true h = .ok () h' ∧
      (∀ x, x < directMappingSize → sv48Walk h'.mem root (pageVirtOffset + x) =
        some (L.pagePhysOffset + x, requested attrRwx)) ∧
      ∀ va, 2 ^ 39 ≤ va → va < 2 ^ 40 →
        ¬ (pageVirtOffset ≤ va ∧ va < pageVirtOffset + directMappingSize) →
          sv48Walk h'.mem root va = none := by
  have hcount : hugeCount directMappingSize = 512 := by decide
  have hhalf : (pgMapper L true).half = 2 ^ 18 := by simp only [pgMapper_half, pgHalf, if_true]
  have htop : Tables (pgMapper L true) root 2 h := tables_top (tables_mode ht)
  have hblock := L.pagePhysOffset_block
  have hlt := L.pagePhysOffset_lt
  obtain ⟨idx, hidx⟩ : ∃ idx : Nat → Nat → Fin 512, idx = fun i =>
    pgIndex 0 ((pageVirtOffset / 2 ^ 21 * 2 ^ 21 + 2 ^ 21 * i) % 2 ^ 64) := ⟨_, rfl⟩
  obtain ⟨e, he⟩ : ∃ e : Nat → Word, e = fun i =>
    (leafEntry ((L.pagePhysOffset / 2 ^ 21 * 2 ^ 21 + 2 ^ 21 * i) % 2 ^ 64) attrRwx).bits := ⟨_, rfl⟩
  have hround {i : Nat} (hi : i < 512) : idx i = pgIndex 0 (pageVirtOffset + 2 ^ 21 * i) ∧
      e i = (leafEntry (L.pagePhysOffset + 2 ^ 21 * i) attrRwx).bits := by
    have hva := huge_round (a := pageVirtOffset) (by decide) (by decide) hi
    have hpa := huge_round (a := L.pagePhysOffset) hblock (Nat.lt_trans hlt (by decide)) hi
    rw [hidx, he]
    exact ⟨congrArg (pgIndex 0) hva, congrArg (fun a => (leafEntry a attrRwx).bits) hpa⟩
  have hneed : needed (pgMapper L true) root 2 h idx 512 ≤ 2 * 512 := needed_le 512
  obtain ⟨h', hrun, hg, hw⟩ := mapPages_good htop (hr.at_root true) e
    (show ∀ i, i < 512 → Sees (pgMapper L true) root 2 h (idx i) from fun _ _ _ _ _ _ _ _ => rfl)
    (by rw [hhalf]; omega)
  have htree : Tree (pgMapper L false).format h'.mem root 2 := hg.tables.tree
  -- the blocks are distinct
  have hdist (j k : Nat) (hjk : j < k) (hk : k < 512) : ¬ AgreeTo 3 (idx j) (idx k) := by
    rw [(hround (Nat.lt_trans hjk hk)).1, (hround hk).1, agree_block (by simp only [pageVirtOffset]; omega)
      (by simp only [pageVirtOffset]; omega)]
    simp only [pageVirtOffset]
    omega
  refine ⟨h', ?_, fun x hx => ?_, fun va hva1 hva2 hout => ?_⟩
  · rw [initDirectMapping, pgMapHuge_eq, hcount, ← hidx, ← he]
    exact hrun
  · simp only [directMappingSize] at hx
    obtain ⟨i, hi⟩ : ∃ i, i = x / 2 ^ 21 := ⟨_, rfl⟩
    have hi512 : i < 512 := by omega
    have hentry := (hw content (if_pos rfl)).1 hdist i hi512
    have hagree : AgreeTo 3 (pgIndex 0 (pageVirtOffset + x)) (idx i) := by
      rw [(hround hi512).1, agree_block (by simp only [pageVirtOffset]; omega)
        (by simp only [pageVirtOffset]; omega)]
      simp only [pageVirtOffset]
      omega
    rw [(hround hi512).2, ← lookup_congr hagree, content, if_neg (leafEntry_ne_zero _ _)] at hentry
    obtain ⟨b, hb, hd⟩ := Option.bind_eq_some_iff.mp hentry
    have hword := (content_eq_some.mp hd).1
    rw [slot_pgIndex] at hword
    have hb' : tableAt (pgMapper L false).format h'.mem root (pgIndex 0 (pageVirtOffset + x)) 2 =
        some b := hb
    rw [sv48Walk_two htree, hb', Option.bind_some,
      sv48WalkFrom_huge (.inl rfl) (by omega) (by omega) hword, if_pos (by omega)]
    have hsum : L.pagePhysOffset + 2 ^ 21 * i + (pageVirtOffset + x) % 2 ^ 21 = L.pagePhysOffset + x := by
      simp only [pageVirtOffset]
      omega
    rw [hsum]
  · have hnone : tableAt (pgMapper L false).format h'.mem root (pgIndex 0 va) 2 = none := by
      rw [← Option.not_isSome_iff_eq_none]
      intro hsome
      rcases (hg.new (Nat.le_refl 2)).mp hsome with hold | ⟨i, hi, hag⟩
      · have hfirst : tableAt (pgMapper L true).format h.mem root (pgIndex 0 va) 1 = none :=
          hlow (pgIndex 0 va) fun h0 => by
            have hval : va / 2 ^ 39 % 512 = 0 := congrArg Fin.val h0
            omega
        have hsecond := tableAt_none (Nat.le_succ 1) hfirst
        rw [Option.isSome_iff_ne_none] at hold
        exact hold hsecond
      · rw [(hround hi).1] at hag
        have h1 : va / 2 ^ 30 % 512 = (pageVirtOffset + 2 ^ 21 * i) / 2 ^ 30 % 512 :=
          congrArg Fin.val (hag 1 (by decide))
        simp only [pageVirtOffset, directMappingSize] at h1 hout
        omega
    rw [sv48Walk_two htree, hnone]
    rfl

theorem evenFree_boot : 3 * 8192 + (3 * 1 + (3 * 1024 + 1024)) ≤ evenFree initPageAllocator (2 ^ 18) := by
  have hstretch : evenFree initPageAllocator (0 + 2 ^ 18) = evenFree initPageAllocator 0 + 2 ^ 18 :=
    evenFree_stretch fun k _ _ => bit_initBitmap _
  rw [Nat.zero_add] at hstretch
  omega

/-- `init_mm` on a clear root: the direct map, and nothing else in the upper half. -/
theorem initMm_walks (h : Host) (hr : StaticRoot L root)
    (hz : ∀ i : Fin 512, h.mem (slot root i) = 0) :
    ∃ h', initMm L root h = .ok () h' ∧
      (∀ x, x < directMappingSize → sv48Walk h'.mem root (pageVirtOffset + x) =
        some (L.pagePhysOffset + x, requested attrRwx)) ∧
      ∀ va, 2 ^ 39 ≤ va → va < 2 ^ 40 →
        ¬ (pageVirtOffset ≤ va ∧ va < pageVirtOffset + directMappingSize) →
          sv48Walk h'.mem root va = none := by
  obtain ⟨h₀, hh₀⟩ : ∃ h₀ : Host, h₀ = { h with bitmap := initPageAllocator } := ⟨_, rfl⟩
  have hinit : (modify fun h => { h with bitmap := initPageAllocator } : HostM Unit) h = .ok () h₀ := by
    rw [hh₀]
    rfl
  have hz₀ : ∀ i : Fin 512, h₀.mem (slot root i) = 0 := by
    rw [hh₀]
    exact hz
  have hfree₀ : 3 * 8192 + (3 * 1 + (3 * 1024 + 1024)) ≤ evenFree h₀.bitmap (2 ^ 18) := by
    rw [hh₀]
    exact evenFree_boot
  have ht₀ : Tables (pgMapper L false) root 3 h₀ :=
    Tables.of_clear hz₀ hr.aligned fun _ he => absurd he (hr.ne_page _)
  have hlow₀ : LowHalf L root h₀ := fun idx _ => tableAt_of_clear hz₀ Nat.one_pos
  obtain ⟨h₁, hrun₁, ht₁, hlow₁, hfree₁⟩ := pgMap_boot 0x80000000 0x2000000 attrRwx
    hr ht₀ hlow₀ (by decide) (show 0x80000000 + 4096 * 8192 ≤ 2 ^ 39 by decide) hfree₀
  obtain ⟨h₂, hrun₂, ht₂, hlow₂, hfree₂⟩ := pgMap_boot 0x10000000 0x1000 attrRw
    hr ht₁ hlow₁ (by decide) (show 0x10000000 + 4096 * 1 ≤ 2 ^ 39 by decide) hfree₁
  obtain ⟨h₃, hrun₃, ht₃, hlow₃, hfree₃⟩ := pgMap_boot 0x0C000000 0x400000 attrRw
    hr ht₂ hlow₂ (by decide) (show 0x0C000000 + 4096 * 1024 ≤ 2 ^ 39 by decide) hfree₂
  obtain ⟨h', hrun, hwalk, hnone⟩ := initDirectMapping_walks hr ht₃ hlow₃ hfree₃
  refine ⟨h', ?_, hwalk, hnone⟩
  rw [initMm, bind_ok hinit, bind_ok hrun₁, bind_ok hrun₂, bind_ok hrun₃, hrun]

end

end HyperCore.Riscv64

/-! ## Both -/

namespace HyperCore

open RadixTable Bitmap PageAlloc ArchPage TableMap

/-- On both architectures, after boot, a page of the pool is addressed exactly if it is one of the
first 1 GB. -/
theorem direct_map_addresses_iff (La Lr : Layout) (t0 t1 t2 root pfn : Nat) (m : Nat → Word) (h : Host)
    (hb : AArch64.BootTables t0 t1 t2 0 0) (hr : Riscv64.StaticRoot Lr root)
    (hz : ∀ i : Fin 512, h.mem (slot root i) = 0) (hp : pfn < totalPages) :
    (∃ m', AArch64.initDirectMapping La t0 t1 t2 m = some m' ∧
      (Addressed La (fun va => (AArch64.hostWalk m' t0 va).map Prod.fst) pfn ↔ pfn < 2 ^ 18)) ∧
    ∃ h', Riscv64.initMm Lr root h = .ok () h' ∧
      (Addressed Lr (fun va => (Riscv64.sv48Walk h'.mem root va).map Prod.fst) pfn ↔ pfn < 2 ^ 18) := by
  constructor
  · obtain ⟨m', hrun, hwalk, -⟩ := AArch64.initDirectMapping_walks La m hb
    refine ⟨m', hrun, addressed_iff (fun x hx => ?_) hp⟩
    rw [hwalk x hx]
    rfl
  · obtain ⟨h', hrun, hwalk, -⟩ := Riscv64.initMm_walks h hr hz
    refine ⟨h', hrun, addressed_iff (fun x hx => ?_) hp⟩
    rw [hwalk x hx]
    rfl

theorem bootTables_image : AArch64.BootTables 0x40100000 0x40101000 0x40102000 0 0 :=
  ⟨by decide, by decide, fun t ht => by omega, by decide⟩

/-- The first page of the pool, on clear memory. -/
theorem direct_map_addresses_iff_zero :
    (∃ m', AArch64.initDirectMapping ⟨0x40200000, by decide⟩ 0x40100000 0x40101000 0x40102000
        (fun _ => 0) = some m' ∧
      (Addressed ⟨0x40200000, by decide⟩ (fun va => (AArch64.hostWalk m' 0x40100000 va).map Prod.fst) 0 ↔
        0 < 2 ^ 18)) ∧
    ∃ h', Riscv64.initMm Riscv64.imageLayout 0x80300000 (clearHost initPageAllocator) = .ok () h' ∧
      (Addressed Riscv64.imageLayout (fun va => (Riscv64.sv48Walk h'.mem 0x80300000 va).map Prod.fst) 0 ↔
        0 < 2 ^ 18) :=
  direct_map_addresses_iff ⟨0x40200000, by decide⟩ Riscv64.imageLayout 0x40100000 0x40101000 0x40102000
    0x80300000 0 (fun _ => 0) (clearHost initPageAllocator) bootTables_image Riscv64.imageRoot
    (fun _ => rfl) (by decide)

theorem windowTaken_next : (allocPagesCnt windowTaken 1).1 = 2 ^ 18 :=
  allocOnePage_first (freeRun_one.mpr ⟨by decide, by decide, by rw [bit_windowTaken]; rfl⟩)
    fun q hq => by rw [bit_windowTaken, decide_eq_true hq]

/-- With the first 1 GB of the pool taken the allocator returns page `2 ^ 18`, which neither
architecture maps. -/
theorem window_end_not_addressed : (allocPagesCnt windowTaken 1).1 = 2 ^ 18 ∧
    (∃ m', AArch64.initDirectMapping ⟨0x40200000, by decide⟩ 0x40100000 0x40101000 0x40102000
        (fun _ => 0) = some m' ∧
      AArch64.hostWalk m' 0x40100000 (pageVir (2 ^ 18)) = none ∧
      ¬ Addressed ⟨0x40200000, by decide⟩ (fun va => (AArch64.hostWalk m' 0x40100000 va).map Prod.fst)
        (2 ^ 18)) ∧
    ∃ h', Riscv64.initMm Riscv64.imageLayout 0x80300000 (clearHost initPageAllocator) = .ok () h' ∧
      Riscv64.sv48Walk h'.mem 0x80300000 (pageVir (2 ^ 18)) = none ∧
      ¬ Addressed Riscv64.imageLayout (fun va => (Riscv64.sv48Walk h'.mem 0x80300000 va).map Prod.fst)
        (2 ^ 18) := by
  obtain ⟨h1, h2, hout⟩ := pageVir_outside (x := 0) (Nat.le_refl (2 ^ 18)) (by decide) (by decide)
  rw [Nat.add_zero] at h1 h2 hout
  have hno {L : Layout} {walk : Nat → Option Nat} (hw : walk (pageVir (2 ^ 18)) = none) :
      ¬ Addressed L walk (2 ^ 18) := by
    intro ha
    have hbyte := ha.walk 0 (by decide)
    rw [Nat.add_zero] at hbyte
    exact nomatch hw.symm.trans hbyte
  refine ⟨windowTaken_next, ?_, ?_⟩
  · obtain ⟨m', hrun, -, hmiss⟩ := AArch64.initDirectMapping_walks ⟨0x40200000, by decide⟩
      (fun _ => 0) bootTables_image
    have hnone := hmiss (fun _ _ => rfl) _ h1 h2 hout
    exact ⟨m', hrun, hnone, hno (congrArg (Option.map Prod.fst) hnone)⟩
  · obtain ⟨h', hrun, -, hmiss⟩ := Riscv64.initMm_walks (clearHost initPageAllocator) Riscv64.imageRoot
      fun _ => rfl
    have hnone := hmiss _ h1 h2 hout
    exact ⟨h', hrun, hnone, hno (congrArg (Option.map Prod.fst) hnone)⟩

end HyperCore
