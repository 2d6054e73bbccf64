import HyperCore.Core.TableReach

/-!
# `riscv64/mmu.c`: four-level tables

The functions of the source on a `Host`. Every mapping function takes
`without_mmu`: before the MMU is on, memory is reached by physical address, after
that through the direct map. Unmapping always goes through the direct map.

`pgMapper` is the instance of `Mapper` for these entries, and `pgMap_eq`,
`pgUnmap_eq` say that the code is that mapper. The hardware's walk (`sv48Walk`) is
stated from the privileged architecture and is not one of the functions of the
source.
-/

namespace HyperCore.Riscv64

open RadixTable Bitmap PageAlloc ArchPage TableMap

/-! ## Entries -/

/-- The fields of `page_table_walk_t` that are ever set. -/
structure Ptw where
  valid : Nat := 0
  read : Nat := 0
  write : Nat := 0
  exec : Nat := 0
  user : Nat := 0
  access : Nat := 0
  dirty : Nat := 0
  base : Nat := 0

/-- The word of an entry: each field cut to its width and put at its place. -/
def Ptw.bits (e : Ptw) : Word :=
  BitVec.ofNat 64 (e.valid % 2 + 2 * (e.read % 2) + 2 ^ 2 * (e.write % 2) + 2 ^ 3 * (e.exec % 2) +
    2 ^ 4 * (e.user % 2) + 2 ^ 6 * (e.access % 2) + 2 ^ 7 * (e.dirty % 2) +
    2 ^ 10 * (e.base % 2 ^ 44))

/-- `walk.base` -/
def baseField (w : Word) : Nat := w.toNat / 2 ^ 10 % 2 ^ 44

/-- The table address in an entry, `walk.base << 12`. -/
def tableBase (w : Word) : Nat := baseField w * 4096

/-- The bits 54 to 63: reserved, or of extensions that are off. -/
def highBits (w : Word) : Nat := w.toNat / 2 ^ 54

/-- The flags of an entry, as the hardware reads them. -/
structure PteFlags where
  read : Bool
  write : Bool
  exec : Bool
  user : Bool
  access : Bool
  dirty : Bool
  deriving DecidableEq, Repr

def flagsOf (w : Word) : PteFlags where
  read := w.toNat / 2 % 2 == 1
  write := w.toNat / 2 ^ 2 % 2 == 1
  exec := w.toNat / 2 ^ 3 % 2 == 1
  user := w.toNat / 2 ^ 4 % 2 == 1
  access := w.toNat / 2 ^ 6 % 2 == 1
  dirty := w.toNat / 2 ^ 7 % 2 == 1

/-- `pte_is_valid` -/
def pteIsValid (w : Word) : Bool := w.toNat % 2 == 1

/-- `is_leaf` -/
def isLeaf (w : Word) : Bool := (flagsOf w).read || (flagsOf w).write || (flagsOf w).exec

/-- `make_pg_entry`. Its attribute argument has no effect. -/
def makePgEntry (phyAddr : Nat) : Ptw := { valid := 1, base := phyAddr / 2 ^ 12 }

/-- The bits of `PAGE_ATTR_READ`, `PAGE_ATTR_WRITE`, `PAGE_ATTR_EXEC`, `PAGE_ATTR_USER`. -/
def attrRead (attr : BitVec 32) : Bool := attr.getLsbD 1
def attrWrite (attr : BitVec 32) : Bool := attr.getLsbD 2
def attrExec (attr : BitVec 32) : Bool := attr.getLsbD 3
def attrUser (attr : BitVec 32) : Bool := attr.getLsbD 4

/-- The entry that `write_pte` stores. -/
def leafEntry (addr : Nat) (attr : BitVec 32) : Ptw :=
  let pte := makePgEntry addr
  let pte := if attrRead attr then { pte with read := 1 } else pte
  let pte := if attrWrite attr then { pte with write := 1, read := 1 } else pte
  let pte := if attrExec attr then { pte with exec := 1 } else pte
  let pte := if attrUser attr then { pte with user := 1 } else pte
  { pte with access := 1, dirty := 1 }

/-- The flags a caller asks for; a writable page is readable too. -/
def requested (attr : BitVec 32) : PteFlags where
  read := attrRead attr || attrWrite attr
  write := attrWrite attr
  exec := attrExec attr
  user := attrUser attr
  access := true
  dirty := true

/-! ## The code -/

section

variable (L : Layout) (withoutMmu : Bool)

/-- What an access reaches. -/
def reach (a : Nat) : Option Nat := if withoutMmu then some a else L.hostTranslate a

/-- `without_mmu ? PAGE_PHY(fn) : PAGE_VIR(fn)` -/
def newPageAddr (fn : Int) : Nat := if withoutMmu then L.pagePhy fn else pageVir fn

/-- The pointer to the table at a physical address. -/
def tablePtr (phy : Nat) : Nat := if withoutMmu then phy else L.phyToVir phy

/-- `pte_offset` -/
def pteOffset (addr level : Nat) : Fin 512 :=
  Fin.ofNat 512 (addr / 2 ^ (12 + 9 * (3 - level)))

/-- `alloc_pg_page` -/
def allocPgPage : HostM Int := takePages 0

/-- The end of `pg_next_level`: from an entry to the table it links. -/
def pgFollow (vtable offset : Nat) : HostM (Int × Nat) := do
  let e ← load (reach L withoutMmu) (vtable + 8 * offset)
  -- a block entry ends the walk where it is
  if isLeaf e then pure (0, vtable) else pure (0, tablePtr L withoutMmu (tableBase e))

/-- `pg_next_level`: its result and the new value of `*vtable`. -/
def pgNextLevel (vtable level offset : Nat) : HostM (Int × Nat) := do
  let e ← load (reach L withoutMmu) (vtable + 8 * offset)
  if pteIsValid e || level == 3 then
    pgFollow L withoutMmu vtable offset
  else do
    let fn ← allocPgPage
    if fn < 0 then pure (-1, vtable)
    else do
      clearPage (reach L withoutMmu) (newPageAddr L withoutMmu fn)
      let link := (makePgEntry (L.pagePhy fn)).bits
      storeLink (reach L withoutMmu) (vtable + 8 * offset) link (tableBase link)
      pgFollow L withoutMmu vtable offset

/-- The loop of `__pg_map` over the levels above the last. -/
def pgTables (root startLevel vaddr : Nat) : Nat → HostM (Int × Nat)
  | 0 => pure (0, root)
  | k + 1 => do
    let (ret, table) ← pgTables root startLevel vaddr k
    if ret ≠ 0 then pure (-1, table)
    else pgNextLevel L withoutMmu table (startLevel + k) (pteOffset vaddr (startLevel + k))

/-- `__pg_map` -/
def pgMapTo (root startLevel endLevel vaddr paddr : Nat) (attr : BitVec 32) : HostM Int := do
  let (ret, table) ← pgTables L withoutMmu root startLevel vaddr (endLevel - startLevel)
  if ret ≠ 0 then pure (-1)
  else do
    storeLeaf (reach L withoutMmu) (table + 8 * pteOffset vaddr endLevel) (leafEntry paddr attr).bits
    pure 0

/-- `pg_map_4k` -/
def pgMap4k (root startLevel vaddr paddr : Nat) (attr : BitVec 32) : HostM Int :=
  pgMapTo L withoutMmu root startLevel 3 vaddr paddr attr

/-- `pg_map`. It answers 0 whatever the pages answered. -/
def pgMap (root startLevel vaddr paddr mapSize : Nat) (attr : BitVec 32) : HostM Unit :=
  forRounds (fun i => do
    let _ ← pgMap4k L withoutMmu root startLevel ((vaddr + pageSize * i) % 2 ^ 64)
      ((paddr + pageSize * i) % 2 ^ 64) attr
    pure ()) (pageCount mapSize)

end

/-- The loop of `pg_unmap_4k` over the entries of a table: is one of the first `n`
valid? -/
def anyValid (L : Layout) (table : Nat) : Nat → HostM Bool
  | 0 => pure false
  | n + 1 => do
    let found ← anyValid L table n
    let e ← load L.hostTranslate (table + 8 * n)
    pure (found || pteIsValid e)

/-- `pg_unmap_4k` at level `3 - n`. -/
def pgUnmap4k (L : Layout) (virAddr : Nat) : Nat → Nat → HostM Unit
  | 0, preTbl =>
    if preTbl = 0 then pure ()
    else do
      let cur ← load L.hostTranslate (preTbl + 8 * pteOffset virAddr 3)
      if !pteIsValid cur || tableBase cur == 0 then fatal
      clearEntry L.hostTranslate (preTbl + 8 * pteOffset virAddr 3)
  | n + 1, preTbl =>
    if preTbl = 0 then pure ()
    else do
      let cur ← load L.hostTranslate (preTbl + 8 * pteOffset virAddr (2 - n))
      if !pteIsValid cur || tableBase cur == 0 then fatal
      let nextTbl := L.phyToVir (tableBase cur)
      pgUnmap4k L virAddr n nextTbl
      let found ← anyValid L nextTbl 512
      unless found do
        givePage (L.phyToFn (tableBase cur))
        clearEntry L.hostTranslate (preTbl + 8 * pteOffset virAddr (2 - n))

/-- `pg_unmap` -/
def pgUnmap (L : Layout) (root startLevel vaddr mapSize : Nat) : HostM Unit :=
  forRounds (fun i => pgUnmap4k L ((vaddr + pageSize * i) % 2 ^ 64) (3 - startLevel) root)
    (pageCount mapSize)

/-! ## The hardware's walk -/

/-- `VPN[n]` of an address: `n` levels lie below the one it indexes. -/
def vpn (va n : Nat) : Nat := va / 2 ^ (12 + 9 * n) % 512

/-- The walk from `table` with `n` levels below it. An entry with `W` and not `R`, or
with a high bit set, is reserved; a superpage must be aligned; in a pointer `U`, `A`
and `D` are reserved. -/
def sv48WalkFrom (m : Nat → Word) (va : Nat) : Nat → Nat → Option (Nat × PteFlags)
  | table, n =>
    let pte := m (table + 8 * vpn va n)
    let f := flagsOf pte
    if !pteIsValid pte || (!f.read && f.write) || highBits pte != 0 then none
    else if f.read || f.exec then
      if baseField pte * 4096 % 2 ^ (12 + 9 * n) = 0 then
        some (baseField pte * 4096 + va % 2 ^ (12 + 9 * n), f)
      else none
    else if f.user || f.access || f.dirty then none
    else match n with
      | 0 => none
      | n + 1 => sv48WalkFrom m va (baseField pte * 4096) n

/-- The Sv48 walk of `va`. -/
def sv48Walk (m : Nat → Word) (root va : Nat) : Option (Nat × PteFlags) :=
  sv48WalkFrom m va root 3

/-! ## Reading the fields back -/

theorem toNat_bits (e : Ptw) : e.bits.toNat =
    e.valid % 2 + 2 * (e.read % 2) + 2 ^ 2 * (e.write % 2) + 2 ^ 3 * (e.exec % 2) +
      2 ^ 4 * (e.user % 2) + 2 ^ 6 * (e.access % 2) + 2 ^ 7 * (e.dirty % 2) +
      2 ^ 10 * (e.base % 2 ^ 44) := by
  rw [Ptw.bits, BitVec.toNat_ofNat]
  omega

theorem pteIsValid_bits (e : Ptw) : pteIsValid e.bits = (e.valid % 2 == 1) := by
  rw [pteIsValid, toNat_bits]
  congr 1
  omega

theorem baseField_bits (e : Ptw) : baseField e.bits = e.base % 2 ^ 44 := by
  rw [baseField, toNat_bits]
  omega

theorem highBits_bits (e : Ptw) : highBits e.bits = 0 := by
  rw [highBits, toNat_bits]
  omega

theorem flagsOf_bits (e : Ptw) : flagsOf e.bits =
    ⟨e.read % 2 == 1, e.write % 2 == 1, e.exec % 2 == 1, e.user % 2 == 1, e.access % 2 == 1,
      e.dirty % 2 == 1⟩ := by
  rw [flagsOf, toNat_bits]
  simp only [PteFlags.mk.injEq]
  refine ⟨?_, ?_, ?_, ?_, ?_, ?_⟩ <;> (congr 1; omega)

/-- A table link: valid, no flag set. -/
theorem flagsOf_link (phy : Nat) :
    flagsOf (makePgEntry phy).bits = ⟨false, false, false, false, false, false⟩ := flagsOf_bits _

theorem pteIsValid_link (phy : Nat) : pteIsValid (makePgEntry phy).bits = true := pteIsValid_bits _

theorem isLeaf_link (phy : Nat) : isLeaf (makePgEntry phy).bits = false := by
  rw [isLeaf, flagsOf_link]
  rfl

theorem tableBase_link {phy : Nat} (ha : phy % 4096 = 0) (hlt : phy < 2 ^ 56) :
    tableBase (makePgEntry phy).bits = phy := by
  have hb : (makePgEntry phy).base = phy / 2 ^ 12 := rfl
  rw [tableBase, baseField_bits, hb]
  omega

/-- A leaf carries the requested flags. -/
theorem flagsOf_leaf (addr : Nat) (attr : BitVec 32) :
    flagsOf (leafEntry addr attr).bits = requested attr := by
  rw [flagsOf_bits, leafEntry, requested]
  cases attrRead attr <;> cases attrWrite attr <;> cases attrExec attr <;> cases attrUser attr <;> rfl

theorem leafEntry_base (addr : Nat) (attr : BitVec 32) :
    (leafEntry addr attr).base = addr / 2 ^ 12 ∧ (leafEntry addr attr).valid = 1 := by
  unfold leafEntry
  cases attrRead attr <;> cases attrWrite attr <;> cases attrExec attr <;> cases attrUser attr <;>
    exact ⟨rfl, rfl⟩

theorem pteIsValid_leaf (addr : Nat) (attr : BitVec 32) :
    pteIsValid (leafEntry addr attr).bits = true := by
  rw [pteIsValid_bits, (leafEntry_base addr attr).2]
  rfl

/-- The output address survives for page-aligned addresses below `2 ^ 56`. -/
theorem tableBase_leaf {addr : Nat} (attr : BitVec 32) (ha : addr % 4096 = 0)
    (hlt : addr < 2 ^ 56) : tableBase (leafEntry addr attr).bits = addr := by
  rw [tableBase, baseField_bits, (leafEntry_base addr attr).1]
  omega

/-! ## The code as a mapper -/

theorem reach_direct (L : Layout) : reach L false = L.hostTranslate := by
  funext a
  simp only [reach, Bool.false_eq_true, if_false]

theorem newPageAddr_direct (L : Layout) (fn : Int) : newPageAddr L false fn = pageVir fn := by
  simp only [newPageAddr, Bool.false_eq_true, if_false]

theorem tablePtr_direct (L : Layout) (phy : Nat) : tablePtr L false phy = L.phyToVir phy := by
  simp only [tablePtr, Bool.false_eq_true, if_false]

/-- Past page `2 ^ 19` a link names an address outside the pool. -/
theorem tableBase_pagePhy_high (L : Layout) {p q : Nat} (h1 : 2 ^ 19 ≤ p) (h2 : p < 2 ^ 20) :
    tableBase (makePgEntry (L.pagePhy p)).bits ≠ L.physPage q ∨ 2 ^ 20 ≤ q := by
  have hlt := L.pagePhysOffset_lt
  have hb : (makePgEntry (L.pagePhy p)).base = L.pagePhy p / 2 ^ 12 := rfl
  rw [tableBase, baseField_bits, hb, L.pagePhy_high h1 h2]
  simp only [MachineInt.toUInt64, Layout.physPage, pageSize]
  omega

/-- The pages a mapper reaches, in pairs: physical addresses are exact below page
`2 ^ 19`, the direct map ends at page `2 ^ 18`. -/
def pgHalf (withoutMmu : Bool) : Nat := if withoutMmu then 2 ^ 18 else 2 ^ 17

theorem pgHalf_le (withoutMmu : Bool) : pgHalf withoutMmu ≤ 2 ^ 18 := by
  unfold pgHalf
  split <;> omega

theorem pteIsValid_zero : pteIsValid 0 = false := by
  decide

theorem pg_entry_link (L : Layout) {p : Nat} (hp : p < 2 ^ 20) :
    pteIsValid (makePgEntry (L.physPage p)).bits = true ∧
      isLeaf (makePgEntry (L.physPage p)).bits = false ∧
      tableBase (makePgEntry (L.physPage p)).bits = L.physPage p := by
  have hlt := L.physPage_lt hp
  exact ⟨pteIsValid_link _, isLeaf_link _, tableBase_link (L.physPage_mod p) (by omega)⟩

theorem pg_tr_page (L : Layout) (withoutMmu : Bool) {p : Nat} (hp : p < 2 * pgHalf withoutMmu) :
    reach L withoutMmu (newPageAddr L withoutMmu p) = some (L.physPage p) := by
  cases withoutMmu with
  | true =>
    have hp : p < 2 ^ 19 := by simpa [pgHalf] using hp
    simp only [reach, newPageAddr, if_true, L.pagePhy_low hp]
  | false =>
    rw [newPageAddr_direct, reach_direct]
    exact L.hostTranslate_page hp

theorem pg_tr_table (L : Layout) (withoutMmu : Bool) {p : Nat} (hp : p < 2 * pgHalf withoutMmu)
    (i : Fin 512) :
    reach L withoutMmu (tablePtr L withoutMmu (L.physPage p) + 8 * i) =
      some (slot (L.physPage p) i) := by
  cases withoutMmu with
  | true => simp only [reach, tablePtr, if_true, slot]
  | false =>
    rw [tablePtr_direct, reach_direct]
    exact L.hostTranslate_slot hp i

theorem pg_tablePtr_ne (L : Layout) (withoutMmu : Bool) {p : Nat} (hp : p < 2 ^ 20) :
    tablePtr L withoutMmu (L.physPage p) ≠ 0 := by
  cases withoutMmu with
  | true =>
    simp only [tablePtr, if_true]
    exact Nat.ne_of_gt (L.physPage_pos p)
  | false =>
    rw [tablePtr_direct]
    exact L.phyToVir_ne_zero hp

theorem pg_high (L : Layout) (withoutMmu : Bool) {p : Nat} (h1 : 2 * pgHalf withoutMmu ≤ p)
    (h2 : p < 2 ^ 20) :
    reach L withoutMmu (newPageAddr L withoutMmu p) = none ∨
      ∀ q, q < 2 ^ 20 → tableBase (makePgEntry (L.pagePhy p)).bits ≠ L.physPage q := by
  cases withoutMmu with
  | true =>
    refine .inr fun q hq => (tableBase_pagePhy_high L ?_ h2).resolve_right (by omega)
    simpa [pgHalf] using h1
  | false =>
    have h1 : 2 ^ 18 ≤ p := by simpa [pgHalf] using h1
    rw [newPageAddr_direct, reach_direct]
    exact .inl (L.hostTranslate_pageVir_high h1 h2)

/-- The mapper of `mmu.c`. -/
def pgMapper (L : Layout) (withoutMmu : Bool) : Mapper L where
  live := pteIsValid
  valid := pteIsValid
  stop := isLeaf
  base := tableBase
  entry pa := (makePgEntry pa).bits
  tr := reach L withoutMmu
  pageAddr := newPageAddr L withoutMmu
  tableAddr := tablePtr L withoutMmu
  half := pgHalf withoutMmu
  half_le := pgHalf_le withoutMmu
  live_zero := pteIsValid_zero
  live_of_valid := id
  entry_link := pg_entry_link L
  tr_page := pg_tr_page L withoutMmu
  tr_table := pg_tr_table L withoutMmu
  tableAddr_ne := pg_tablePtr_ne L withoutMmu
  high := pg_high L withoutMmu

section

variable (L : Layout) (withoutMmu : Bool)

theorem pgMapper_half : (pgMapper L withoutMmu).half = pgHalf withoutMmu := rfl

theorem pgMapper_format : (pgMapper L withoutMmu).format = (pgMapper L false).format := rfl

theorem allocPgPage_eq : allocPgPage = takePage := by
  funext h
  simp only [allocPgPage, takePages, takePage, allocPages_zero]

/-- The second half of `pg_next_level` is that of the mapper. -/
theorem pgFollow_eq (vtable offset : Nat) :
    pgFollow L withoutMmu vtable offset =
      ((load (pgMapper L withoutMmu).tr (vtable + 8 * offset) >>= fun e =>
        if (pgMapper L withoutMmu).stop e then pure vtable
        else pure ((pgMapper L withoutMmu).tableAddr ((pgMapper L withoutMmu).base e))) >>=
      fun t => pure (0, t)) := by
  rw [bind_assoc, pgFollow]
  congr 1
  funext e
  have hs : (pgMapper L withoutMmu).stop e = isLeaf e := rfl
  rw [hs]
  cases isLeaf e <;> rfl

theorem pgLink_eq (entry : Nat) {β : Type} (f : HostM β) (vtable : β) :
    (do
      let fn ← allocPgPage
      if fn < 0 then pure vtable
      else do
        clearPage (reach L withoutMmu) (newPageAddr L withoutMmu fn)
        let link := (makePgEntry (L.pagePhy fn)).bits
        storeLink (reach L withoutMmu) entry link (tableBase link)
        f) = (do
      (pgMapper L withoutMmu).linkTable entry
      f) := by
  funext h
  have hneg := allocOnePage_nonneg h.bitmap
  have htake : takePage h =
      .ok (allocOnePage h.bitmap).1 { h with bitmap := (allocOnePage h.bitmap).2 } := by
    rw [takePage]
  rw [Mapper.linkTable, bind_assoc, allocPgPage_eq, bind_ok htake, bind_ok htake]
  simp only [hneg, if_false, pgMapper, bind_assoc]

/-- Above the last level `pg_next_level` is one level of the mapper, and it never
reports a failure. -/
theorem pgNextLevel_eq (vtable offset : Nat) {level : Nat} (hl : level ≠ 3) :
    pgNextLevel L withoutMmu vtable level offset = (do
      let t ← (pgMapper L withoutMmu).nextTable vtable offset
      pure (0, t)) := by
  have hl' : (level == 3) = false := by simpa using hl
  rw [pgNextLevel, Mapper.nextTable, bind_assoc]
  simp only [hl', Bool.or_false, pgLink_eq, pgFollow_eq]
  congr 1
  funext e
  have hv : (pgMapper L withoutMmu).valid e = pteIsValid e := rfl
  rw [hv]
  cases pteIsValid e with
  | true => rfl
  | false => simp only [Bool.false_eq_true, if_false, bind_assoc]

/-- The index of `vaddr` at the `k`-th level of the walk. -/
def pgIndex (startLevel vaddr k : Nat) : Fin 512 := pteOffset vaddr (startLevel + k)

theorem pgTables_eq (root startLevel vaddr : Nat) {k : Nat} (hk : startLevel + k ≤ 3) :
    pgTables L withoutMmu root startLevel vaddr k = (do
      let t ← (pgMapper L withoutMmu).descend root (pgIndex startLevel vaddr) k
      pure (0, t)) := by
  induction k with
  | zero => rfl
  | succ k ih =>
    rw [pgTables, Mapper.descend, ih (by omega), bind_assoc, bind_assoc]
    congr 1
    funext t
    simp only [pure_bind, ne_eq, not_true_eq_false, if_false,
      pgNextLevel_eq L withoutMmu _ _ (show startLevel + k ≠ 3 by omega), pgIndex]

theorem pgMap4k_eq (root vaddr paddr : Nat) (attr : BitVec 32) {startLevel : Nat}
    (hs : startLevel ≤ 3) :
    pgMap4k L withoutMmu root startLevel vaddr paddr attr = (do
      (pgMapper L withoutMmu).mapPage root (3 - startLevel) (pgIndex startLevel vaddr)
        (leafEntry paddr attr).bits
      pure 0) := by
  have h3 : startLevel + (3 - startLevel) = 3 := by omega
  simp only [pgMap4k, pgMapTo, Mapper.mapPage, pgIndex, h3, bind_assoc,
    pgTables_eq L withoutMmu root startLevel vaddr (Nat.le_of_eq h3), pure_bind, ne_eq,
    not_true_eq_false, if_false]
  rfl

/-- `pg_map` is the mapper on the pages of the range. -/
theorem pgMap_eq (root vaddr paddr mapSize : Nat) (attr : BitVec 32) {startLevel : Nat}
    (hs : startLevel ≤ 3) :
    pgMap L withoutMmu root startLevel vaddr paddr mapSize attr =
      (pgMapper L withoutMmu).mapPages root (3 - startLevel)
        (fun i => pgIndex startLevel ((vaddr + pageSize * i) % 2 ^ 64))
        (fun i => (leafEntry ((paddr + pageSize * i) % 2 ^ 64) attr).bits) (pageCount mapSize) := by
  simp only [pgMap, Mapper.mapPages, pgMap4k_eq L withoutMmu _ _ _ attr hs, bind_assoc, pure_bind,
    bind_pure_unit]

theorem anyValid_eq (table n : Nat) :
    anyValid L table n = (pgMapper L false).anyLive table n := by
  induction n with
  | zero => rfl
  | succ n ih =>
    rw [anyValid, Mapper.anyLive, ih]
    simp only [pgMapper, reach_direct]

theorem pgUnmap4k_eq (virAddr n : Nat) : ∀ {k preTbl : Nat}, k + n = 3 →
    pgUnmap4k L virAddr n preTbl =
      (pgMapper L false).unmapAt (pgIndex 0 virAddr) n k preTbl := by
  induction n with
  | zero =>
    intro k preTbl hk
    obtain rfl : k = 3 := hk
    simp only [pgUnmap4k, Mapper.unmapAt, pgMapper, reach_direct, pgIndex, Nat.zero_add]
  | succ n ih =>
    intro k preTbl hk
    have hlevel : 2 - n = 0 + k := by omega
    have hnext : ∀ t, pgUnmap4k L virAddr n t =
        (pgMapper L false).unmapAt (pgIndex 0 virAddr) n (k + 1) t := fun t => ih (by omega)
    simp only [pgUnmap4k, Mapper.unmapAt, hlevel, hnext, anyValid_eq, pgIndex]
    simp only [pgMapper, reach_direct, tablePtr_direct]

/-- `pg_unmap` is the mapper on the pages of the range. -/
theorem pgUnmap_eq (root vaddr mapSize : Nat) :
    pgUnmap L root 0 vaddr mapSize =
      forRounds (fun i => (pgMapper L false).unmapAt (pgIndex 0 ((vaddr + pageSize * i) % 2 ^ 64))
        3 0 root) (pageCount mapSize) := by
  simp only [pgUnmap, pgUnmap4k_eq L _ 3 (Nat.zero_add 3)]

end

/-! ## The walk of a well-formed tree -/

/-- A last-level entry as the walk of `va` reads it. -/
def pgLeaf (va : Nat) (d : Word) : Option (Nat × PteFlags) :=
  let f := flagsOf d
  if !pteIsValid d || (!f.read && f.write) || highBits d != 0 then none
  else if f.read || f.exec then some (tableBase d + va % 4096, f)
  else none

theorem pgLeaf_dead {va : Nat} {d : Word} (h : pteIsValid d = false) : pgLeaf va d = none := by
  simp only [pgLeaf, h, Bool.not_false, Bool.true_or, if_true]

/-- The mask has `READ`, `WRITE` or `EXEC`. -/
def HasAccess (attr : BitVec 32) : Prop :=
  attrRead attr = true ∨ attrWrite attr = true ∨ attrExec attr = true

/-- The requested flags are no reserved combination. -/
theorem requested_unreserved (attr : BitVec 32) :
    (!(requested attr).read && (requested attr).write) = false := by
  rw [requested]
  cases attrRead attr <;> cases attrWrite attr <;> rfl

/-- With an access the entry is a leaf. -/
theorem requested_leaf {attr : BitVec 32} (hacc : HasAccess attr) :
    ((requested attr).read || (requested attr).exec) = true := by
  rw [requested]
  rcases hacc with hr | hw | hx
  · rw [hr]
    rfl
  · rw [hw, Bool.or_true]
    rfl
  · rw [hx, Bool.or_true]

theorem pgLeaf_leaf {va pa : Nat} {attr : BitVec 32} (ha : pa % 4096 = 0) (hlt : pa < 2 ^ 56)
    (hacc : HasAccess attr) :
    pgLeaf va (leafEntry pa attr).bits = some (pa + va % 4096, requested attr) := by
  rw [pgLeaf, pteIsValid_leaf, flagsOf_leaf, highBits_bits, tableBase_leaf attr ha hlt]
  simp only [requested_unreserved, requested_leaf hacc]
  rfl

theorem slot_pgIndex (b va k : Nat) :
    slot b (pgIndex 0 va k) = b + 8 * vpn va (3 - k) := by
  rw [pgIndex, Nat.zero_add]
  rfl

/-- A clear entry ends the walk. -/
theorem sv48WalkFrom_clear {m : Nat → Word} {va t n : Nat} (hd : m (t + 8 * vpn va n) = 0) :
    sv48WalkFrom m va t n = none := by
  cases n with
  | zero =>
    rw [sv48WalkFrom, hd]
    rfl
  | succ n =>
    rw [sv48WalkFrom, hd]
    rfl

/-- One level of the walk, above the last level of links. -/
theorem sv48WalkFrom_succ {L : Layout} {m : Nat → Word} {root depth : Nat}
    (ht : Tree (pgMapper L false).format m root depth) (va : Nat) {n k b : Nat}
    (hk : k + n = 2) (hkd : k < depth)
    (hb : tableAt (pgMapper L false).format m root (pgIndex 0 va) k = some b) :
    sv48WalkFrom m va b (n + 1) =
      (tableAt (pgMapper L false).format m root (pgIndex 0 va) (k + 1)).bind fun c =>
        sv48WalkFrom m va c n := by
  have haddr : b + 8 * vpn va (n + 1) = slot b (pgIndex 0 va k) := by
    rw [slot_pgIndex, show 3 - k = n + 1 by omega]
  have hnext := tableAt_succ hb
  rcases ht.entry hkd hb (pgIndex 0 va k) with he | he
  · rw [hnext, he, Format.next_clear, Option.bind_none]
    exact sv48WalkFrom_clear (haddr ▸ he)
  · obtain ⟨c, hc⟩ := Option.isSome_iff_exists.mp he
    have hform : m (slot b (pgIndex 0 va k)) = (makePgEntry c).bits := (pgMapper L false).eq_entry hc
    have hbase : tableBase (m (slot b (pgIndex 0 va k))) = c := ((pgMapper L false).of_next hc).2.2
    rw [tableBase] at hbase
    rw [hnext, hc, Option.bind_some, sv48WalkFrom]
    simp only [Nat.succ_eq_add_one, haddr]
    rw [hbase, hform, pteIsValid_link, flagsOf_link, highBits_bits]
    rfl

/-- From any table of the tree the hardware finds what the tree's walk finds. -/
theorem sv48WalkFrom_eq {L : Layout} {m : Nat → Word} {root : Nat}
    (ht : Tree (pgMapper L false).format m root 3) (va n : Nat) : ∀ {k b}, k + n = 3 →
      tableAt (pgMapper L false).format m root (pgIndex 0 va) k = some b →
      sv48WalkFrom m va b n =
        lookup (pgMapper L false).format (pgLeaf va) m root 3 (pgIndex 0 va) := by
  induction n with
  | zero =>
    intro k b hk hb
    obtain rfl : k = 3 := hk
    rw [lookup, hb, Option.bind_some, slot_pgIndex, sv48WalkFrom]
    have hmod : baseField (m (b + 8 * vpn va 0)) * 4096 % 2 ^ (12 + 9 * 0) = 0 := by omega
    simp only [hmod, if_true, pgLeaf, tableBase]
    split
    · rfl
    · split
      · rfl
      · exact ite_self _
  | succ n ih =>
    intro k b hk hb
    have hkd : k < 3 := by omega
    rw [sv48WalkFrom_succ ht va (by omega) hkd hb]
    cases hc : tableAt (pgMapper L false).format m root (pgIndex 0 va) (k + 1) with
    | none =>
      rw [lookup, tableAt_none hkd hc]
      rfl
    | some c => exact ih (by omega) hc

theorem sv48Walk_eq {L : Layout} {m : Nat → Word} {root : Nat}
    (ht : Tree (pgMapper L false).format m root 3) (va : Nat) :
    sv48Walk m root va =
      lookup (pgMapper L false).format (pgLeaf va) m root 3 (pgIndex 0 va) :=
  sv48WalkFrom_eq ht va 3 (Nat.zero_add 3) rfl

end HyperCore.Riscv64
