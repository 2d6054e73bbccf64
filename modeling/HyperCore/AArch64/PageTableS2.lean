import HyperCore.AArch64.Lpae
import HyperCore.Core.TableGrow

/-!
# `page_table_s2.c`: the stage-2 tables

The functions of the source on a `Host`, and the walk of the MMU they build tables
for. `s2Mapper` is the instance of `Mapper` for stage-2 descriptors reached through
the direct map; `stage2Map_eq` says that the code is that mapper.

The MMU's walk (`s2Walk`) is stated from the architecture: valid bit, table bit and
a 9-bit index per level. It is not one of the functions of the source.
-/

namespace HyperCore.AArch64

open RadixTable Bitmap PageAlloc ArchPage TableMap

/-! ## The code -/

/-- A row of `pa_range_info`. -/
structure PaRange where
  pabits : Nat
  rootOrder : Nat
  sl0 : Nat

/-- `pa_range_info`, indexed by `ID_AA64MMFR0_EL1.PARange`. -/
def paRangeInfo : Fin 8 → PaRange
  | 0 => ⟨32, 0, 1⟩
  | 1 => ⟨36, 0, 1⟩
  | 2 => ⟨40, 1, 1⟩
  | 3 => ⟨42, 3, 1⟩
  | 4 => ⟨44, 0, 2⟩
  | 5 => ⟨48, 0, 2⟩
  | 6 => ⟨52, 4, 2⟩
  | 7 => ⟨0, 0, 0⟩

/-- `struct stage2_mm_info` -/
structure Stage2MmInfo where
  paSize : Nat
  rootPageOrder : Nat
  lookupLevel : Nat
  rootTable : Nat

/-- `s2_setup_info` -/
def s2SetupInfo (paRegs : Fin 8) : Stage2MmInfo where
  paSize := (paRangeInfo paRegs).pabits
  rootPageOrder := (paRangeInfo paRegs).rootOrder
  lookupLevel := 2 - (paRangeInfo paRegs).sl0
  rootTable := 0

/-- `s2_alloc_root_pages`. The macro `PAGE_VIR` evaluates its argument twice, so
`alloc_pages` runs twice: once for the sign test, once for the address. -/
def s2AllocRootPages (L : Layout) (info : Stage2MmInfo) : HostM Stage2MmInfo := do
  if info.rootPageOrder > 4 then fatal
  let test ← takePages info.rootPageOrder
  let rootTable ← if test < 0 then pure 0 else do
    let fn ← takePages info.rootPageOrder
    pure (MachineInt.toUInt64 (pageVirtOffset + MachineInt.toInt32 (fn * 2 ^ 12)))
  forRounds (fun i => clearPage L.hostTranslate (rootTable + pageSize * i)) (2 ^ info.rootPageOrder)
  pure { info with rootTable := rootTable }

/-- `pte_offset` -/
def pteOffset (virt level : Nat) : Fin 512 :=
  Fin.ofNat 512 (virt / 2 ^ (12 + 9 * (3 - level)))

/-- `pte_is_valid` -/
def pteIsValid (e : Word) : Bool := validBit e && baseField e != 0

/-- The table address in a descriptor, `walk.base << 12`. -/
def tableBase (e : Word) : Nat := baseField e * 4096

/-- The part of `s2_next_level_map` that puts a new table behind `entry`. -/
def s2LinkTable (L : Layout) (entry : Nat) : HostM Unit := do
  let fn ← takePage
  if fn < 0 then fatal
  unless pageVir fn = 0 do
    clearPage L.hostTranslate (pageVir fn)
  let link := makeStage2Entry (L.pagePhy fn) .normalRw .rwx
  storeLink L.hostTranslate entry link (tableBase link)

/-- `s2_next_level_map`: the table below, after linking one if there is none. -/
def s2NextLevelMap (L : Layout) (vtable level offset : Nat) : HostM Nat := do
  let e ← load L.hostTranslate (vtable + 8 * offset)
  if level = 3 ∧ pteIsValid e = true then fatal
  unless pteIsValid e do
    if level ≠ 3 then s2LinkTable L (vtable + 8 * offset) else fatal
  let e ← load L.hostTranslate (vtable + 8 * offset)
  -- a block descriptor ends the walk where it is
  if !tableBit e then pure vtable else pure (L.phyToVir (tableBase e))

/-- The loop of `stage2_map_4k` over the levels above the last. -/
def stage2Tables (L : Layout) (root startLevel vaddr : Nat) : Nat → HostM Nat
  | 0 => pure root
  | k + 1 => do
    let table ← stage2Tables L root startLevel vaddr k
    s2NextLevelMap L table (startLevel + k) (pteOffset vaddr (startLevel + k))

/-- `stage2_map_4k` -/
def stage2Map4k (L : Layout) (root startLevel vaddr paddr : Nat) (attr : MemType)
    (acc : MemAccess) : HostM Unit := do
  let table ← stage2Tables L root startLevel vaddr (3 - startLevel)
  storeLeaf L.hostTranslate (table + 8 * pteOffset vaddr 3) (makeStage2Entry paddr attr acc)

/-- `stage2_map` -/
def stage2Map (L : Layout) (info : Stage2MmInfo) (vaddr paddr mapSize : Nat) (attr : MemType)
    (acc : MemAccess) : HostM Unit :=
  forRounds (fun i => stage2Map4k L info.rootTable info.lookupLevel
    ((vaddr + pageSize * i) % 2 ^ 64) ((paddr + pageSize * i) % 2 ^ 64) attr acc)
    (pageCount mapSize)

/-! ## The MMU's walk -/

/-- The index the MMU uses at `level`. -/
def mmuIndex (ipa level : Nat) : Nat := ipa / 2 ^ (12 + 9 * (3 - level)) % 512

/-- The walk from `table` with `n` levels below it. A block descriptor at level 1 or 2
translates a larger range; at level 0 it is reserved. -/
def s2WalkFrom (m : Nat → Word) (ipa : Nat) : Nat → Nat → Option (Nat × S2Attr)
  | table, 0 =>
    let d := m (table + 8 * mmuIndex ipa 3)
    if validBit d && tableBit d then some (baseField d * 4096 + ipa % 4096, attrOf d) else none
  | table, n + 1 =>
    let d := m (table + 8 * mmuIndex ipa (2 - n))
    if !validBit d then none
    else if tableBit d then s2WalkFrom m ipa (baseField d * 4096) n
    else if n = 2 then none
    else
      let size := 2 ^ (12 + 9 * (n + 1))
      some (baseField d * 4096 / size * size + ipa % size, attrOf d)

/-- The MMU's stage-2 walk of `ipa` from the start level. -/
def s2Walk (m : Nat → Word) (root startLevel ipa : Nat) : Option (Nat × S2Attr) :=
  s2WalkFrom m ipa root (3 - startLevel)

/-! ## The code as a mapper -/

theorem pteIsValid_link {L : Layout} {p : Nat} (hp : p < 2 ^ 20) :
    tableBase (makeStage2Entry (L.physPage p) .normalRw .rwx) = L.physPage p ∧
      pteIsValid (makeStage2Entry (L.physPage p) .normalRw .rwx) = true := by
  have hlt := L.physPage_lt hp
  have hpos := L.physPage_pos p
  have hbase := base_make .normalRw .rwx (L.physPage_mod p) (Nat.lt_trans hlt (by decide))
  refine ⟨hbase, ?_⟩
  rw [pteIsValid, validBit_make, Bool.true_and, bne_iff_ne]
  intro h0
  rw [h0] at hbase
  omega

theorem s2_half_le : 2 ^ 17 ≤ 2 ^ 18 := by decide

theorem validBit_zero : validBit 0 = false := by decide

theorem validBit_of_pteIsValid {e : Word} (h : pteIsValid e = true) : validBit e = true :=
  ((Bool.and_eq_true _ _).mp h).1

theorem s2_entry_link {L : Layout} {p : Nat} (hp : p < 2 ^ 20) :
    pteIsValid (makeStage2Entry (L.physPage p) .normalRw .rwx) = true ∧
      (!tableBit (makeStage2Entry (L.physPage p) .normalRw .rwx)) = false ∧
      tableBase (makeStage2Entry (L.physPage p) .normalRw .rwx) = L.physPage p := by
  obtain ⟨hbase, hvalid⟩ := pteIsValid_link hp
  refine ⟨hvalid, ?_, hbase⟩
  rw [tableBit_make]
  rfl

theorem s2_high {L : Layout} {p : Nat} (h1 : 2 * 2 ^ 17 ≤ p) (h2 : p < 2 ^ 20) :
    L.hostTranslate (pageVir p) = none ∨ ∀ q, q < 2 ^ 20 →
      tableBase (makeStage2Entry (L.pagePhy p) .normalRw .rwx) ≠ L.physPage q :=
  .inl (L.hostTranslate_pageVir_high (Nat.le_trans (by decide) h1) h2)

/-- The stage-2 mapper. Its accesses go through the direct map, whose window holds the
first `2 ^ 18` pages. -/
def s2Mapper (L : Layout) : Mapper L where
  live := validBit
  valid := pteIsValid
  stop e := !tableBit e
  base := tableBase
  entry pa := makeStage2Entry pa .normalRw .rwx
  tr := L.hostTranslate
  pageAddr := pageVir
  tableAddr := L.phyToVir
  half := 2 ^ 17
  half_le := s2_half_le
  live_zero := validBit_zero
  live_of_valid := validBit_of_pteIsValid
  entry_link := s2_entry_link
  tr_page := L.hostTranslate_page
  tr_table := L.hostTranslate_slot
  tableAddr_ne := L.phyToVir_ne_zero
  high := s2_high

theorem s2Mapper_tableAddr (L : Layout) (b : Nat) :
    (s2Mapper L).tableAddr b = L.phyToVir b := rfl

theorem s2Mapper_half (L : Layout) : (s2Mapper L).half = 2 ^ 17 := rfl

theorem s2Mapper_faultsHigh (L : Layout) : (s2Mapper L).FaultsHigh := by
  intro p h1 h2
  rw [s2Mapper_half] at h1
  have hnone := L.hostTranslate_pageVir_high (show 2 ^ 18 ≤ p by omega) h2
  simp only [s2Mapper, hnone]

theorem s2LinkTable_eq (L : Layout) (entry : Nat) :
    s2LinkTable L entry = (s2Mapper L).linkTable entry := by
  funext h
  have hneg := allocOnePage_nonneg h.bitmap
  have htake : takePage h =
      .ok (allocOnePage h.bitmap).1 { h with bitmap := (allocOnePage h.bitmap).2 } := by
    rw [takePage]
  rw [s2LinkTable, Mapper.linkTable, bind_ok htake, bind_ok htake]
  simp only [hneg, pageVir_ne_zero hneg, if_false, s2Mapper]

/-- Above the last level `s2_next_level_map` is one level of the mapper. -/
theorem s2NextLevelMap_eq (L : Layout) (vtable offset : Nat) {level : Nat} (hl : level ≠ 3) :
    s2NextLevelMap L vtable level offset = (s2Mapper L).nextTable vtable offset := by
  simp only [s2NextLevelMap, Mapper.nextTable, s2LinkTable_eq, hl, false_and, if_false, ne_eq,
    not_false_eq_true, if_true]
  rfl

/-- The index of `vaddr` at the `k`-th level of the walk. -/
def s2Index (startLevel vaddr k : Nat) : Fin 512 := pteOffset vaddr (startLevel + k)

theorem stage2Tables_eq (L : Layout) (root startLevel vaddr : Nat) {k : Nat}
    (hk : startLevel + k ≤ 3) :
    stage2Tables L root startLevel vaddr k =
      (s2Mapper L).descend root (s2Index startLevel vaddr) k := by
  induction k with
  | zero => rfl
  | succ k ih =>
    rw [stage2Tables, Mapper.descend, ih (by omega)]
    simp only [s2NextLevelMap_eq L _ _ (show startLevel + k ≠ 3 by omega), s2Index]

theorem stage2Map4k_eq (L : Layout) (root vaddr paddr : Nat) (attr : MemType) (acc : MemAccess)
    {startLevel : Nat} (hs : startLevel ≤ 3) :
    stage2Map4k L root startLevel vaddr paddr attr acc =
      (s2Mapper L).mapPage root (3 - startLevel) (s2Index startLevel vaddr)
        (makeStage2Entry paddr attr acc) := by
  have h3 : startLevel + (3 - startLevel) = 3 := by omega
  simp only [stage2Map4k, Mapper.mapPage, stage2Tables_eq L root startLevel vaddr (Nat.le_of_eq h3),
    s2Index, h3]
  rfl

/-- `stage2_map` is the mapper on the pages of the range. -/
theorem stage2Map_eq (L : Layout) (info : Stage2MmInfo) (vaddr paddr mapSize : Nat)
    (attr : MemType) (acc : MemAccess) (hs : info.lookupLevel ≤ 3) :
    stage2Map L info vaddr paddr mapSize attr acc =
      (s2Mapper L).mapPages info.rootTable (3 - info.lookupLevel)
        (fun i => s2Index info.lookupLevel ((vaddr + pageSize * i) % 2 ^ 64))
        (fun i => makeStage2Entry ((paddr + pageSize * i) % 2 ^ 64) attr acc)
        (pageCount mapSize) := by
  simp only [stage2Map, Mapper.mapPages, stage2Map4k_eq L _ _ _ attr acc hs]

/-! ## The walk of a well-formed tree -/

/-- A last-level descriptor as the walk of `ipa` reads it. -/
def s2Leaf (ipa : Nat) (d : Word) : Option (Nat × S2Attr) :=
  if validBit d && tableBit d then some (baseField d * 4096 + ipa % 4096, attrOf d) else none

theorem s2Leaf_zero (ipa : Nat) : s2Leaf ipa 0 = none := rfl

/-- The address of a descriptor, and nothing else, depends on the address it was made for. -/
theorem s2Leaf_address (ipa pa : Nat) (attr : MemType) (acc : MemAccess) :
    s2Leaf ipa (makeStage2Entry pa attr acc) =
      some (pa / 2 ^ 12 % 2 ^ 36 * 4096 + ipa % 4096, requested attr acc) := by
  rw [s2Leaf, validBit_make, tableBit_make, baseField_make, attrOf_make]
  rfl

theorem s2Leaf_make {ipa pa : Nat} (type : MemType) (access : MemAccess) (ha : pa % 4096 = 0)
    (hlt : pa < 2 ^ 48) : s2Leaf ipa (makeStage2Entry pa type access) =
      some (pa + ipa % 4096, requested type access) := by
  have hbase : pa / 2 ^ 12 % 2 ^ 36 * 4096 = pa := by omega
  rw [s2Leaf_address, hbase]

theorem slot_s2Index (b ipa startLevel k : Nat) :
    slot b (s2Index startLevel ipa k) = b + 8 * mmuIndex ipa (startLevel + k) := rfl

theorem s2Mapper_next {L : Layout} {d : Word} {c : Nat} (h : (s2Mapper L).format.next d = some c) :
    validBit d = true ∧ tableBit d = true ∧ baseField d * 4096 = c := by
  obtain ⟨hv, hs, hbase⟩ := (s2Mapper L).of_next h
  have hv : (validBit d && baseField d != 0) = true := hv
  have hs : (!tableBit d) = false := hs
  exact ⟨((Bool.and_eq_true _ _).mp hv).1, by simpa using hs, hbase⟩

/-- From any table of the tree the MMU finds what the tree's walk finds. -/
theorem s2WalkFrom_eq {L : Layout} {m : Nat → Word} {root startLevel depth : Nat}
    (ht : Tree (s2Mapper L).format m root depth) (hd : startLevel + depth = 3) (ipa : Nat) (n : Nat) :
    ∀ {k b}, k + n = depth →
      tableAt (s2Mapper L).format m root (s2Index startLevel ipa) k = some b →
      s2WalkFrom m ipa b n =
        lookup (s2Mapper L).format (s2Leaf ipa) m root depth (s2Index startLevel ipa) := by
  induction n with
  | zero =>
    intro k b hk hb
    obtain rfl : k = depth := hk
    rw [lookup, hb, Option.bind_some, slot_s2Index, hd]
    rfl
  | succ n ih =>
    intro k b hk hb
    have hkd : k < depth := by omega
    have hlevel : 2 - n = startLevel + k := by omega
    have hnext := tableAt_succ hb
    rw [s2WalkFrom, hlevel, ← slot_s2Index b ipa startLevel k]
    rcases ht.entry hkd hb (s2Index startLevel ipa k) with he | he
    · have hnone : tableAt (s2Mapper L).format m root (s2Index startLevel ipa) (k + 1) = none := by
        rw [hnext, he, Format.next_clear]
      rw [he, lookup, tableAt_none hkd hnone]
      rfl
    · obtain ⟨c, hc⟩ := Option.isSome_iff_exists.mp he
      obtain ⟨hv, htb, hbase⟩ := s2Mapper_next hc
      simp only [hv, htb, hbase, Bool.not_true, Bool.false_eq_true, ↓reduceIte]
      exact ih (by omega) (hnext.trans hc)

theorem s2Walk_eq {L : Layout} {m : Nat → Word} {root startLevel : Nat} (hs : startLevel ≤ 3)
    (ht : Tree (s2Mapper L).format m root (3 - startLevel)) (ipa : Nat) :
    s2Walk m root startLevel ipa =
      lookup (s2Mapper L).format (s2Leaf ipa) m root (3 - startLevel) (s2Index startLevel ipa) :=
  s2WalkFrom_eq ht (by omega) ipa _ (Nat.zero_add _) rfl

/-- Two addresses inside the input range that meet in every index are in one page. -/
theorem page_eq_of_agree {startLevel a b : Nat} (hs : startLevel ≤ 3)
    (ha : a < 2 ^ (12 + 9 * (4 - startLevel))) (hb : b < 2 ^ (12 + 9 * (4 - startLevel)))
    (h : AgreeTo (3 - startLevel + 1) (s2Index startLevel a) (s2Index startLevel b)) :
    a / 4096 = b / 4096 :=
  RadixTable.page_eq_of_agree hs ha hb h

end HyperCore.AArch64
