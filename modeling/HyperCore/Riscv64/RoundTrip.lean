import HyperCore.Core.TableUndo
import HyperCore.Riscv64.PgMap

/-!
# Mapping a page and unmapping it, on RISC-V

`host_map_one_page` and `host_unmap_one_page` are `pg_map` and `pg_unmap_4k` on one page of a static
root. In the trees that the code makes no table is idle (`PgInv`), and the two calls are inverse to
each other exactly when the page did not translate before and its tables are, and fit, in the direct
map (`pg_round_trip_iff`).
-/

namespace HyperCore.Riscv64

open RadixTable Bitmap PageAlloc ArchPage TableMap

/-! ## The code -/

/-- `host_map_one_page`, on the root `page_table_root`. -/
def hostMapOnePage (L : Layout) (root vir phy : Nat) (attr : BitVec 32) : HostM Unit :=
  pgMap L false root 0 vir phy pageSize attr

/-- `host_unmap_one_page` -/
def hostUnmapOnePage (L : Layout) (root vir : Nat) : HostM Unit := pgUnmap4k L vir 3 root

section

variable {L : Layout} {root : Nat} {h h' : Host} {vir phy : Nat} {attr : BitVec 32}

theorem hostMapOnePage_eq (L : Layout) (root : Nat) (hvir : vir < 2 ^ 64) (phy : Nat)
    (attr : BitVec 32) :
    hostMapOnePage L root vir phy attr =
      (pgMapper L false).mapPage root 3 (pgIndex 0 vir) (leafEntry (phy % 2 ^ 64) attr).bits := by
  rw [hostMapOnePage, pgMap_eq L false root vir phy pageSize attr (Nat.zero_le 3), Mapper.mapPages,
    show pageCount pageSize = 1 by decide, forRounds, forRounds, pure_bind, Nat.mul_zero,
    Nat.add_zero, Nat.add_zero, Nat.mod_eq_of_lt hvir]

theorem hostUnmapOnePage_eq (L : Layout) (root vir : Nat) :
    hostUnmapOnePage L root vir = (pgMapper L false).unmapAt (pgIndex 0 vir) 3 0 root :=
  pgUnmap4k_eq L vir 3 (Nat.zero_add 3)

/-! ## The invariant -/

/-- A last-level entry that the walk accepts. -/
def pgPage (e : Word) : Option Unit := if (pgLeaf 0 e).isSome then some () else none

/-- A tree without idle tables, whose live last-level entries translate. -/
structure PgInv (L : Layout) (root : Nat) (h : Host) : Prop where
  tree : PgTree L root h
  trim : Trim (pgMapper L false).format (pgMapper L false).alive h.mem root 3
  pages : ∀ idx, (lookup (pgMapper L false).format (pgMapper L false).alive h.mem root 3 idx).isSome →
    (lookup (pgMapper L false).format pgPage h.mem root 3 idx).isSome

theorem pgPage_dead {e : Word} (he : pteIsValid e = false) : pgPage e = none := by
  rw [pgPage, pgLeaf_dead he]
  rfl

theorem pgPage_leaf {pa : Nat} {attr : BitVec 32} (ha : pa % 4096 = 0) (hlt : pa < 2 ^ 56)
    (hacc : HasAccess attr) : pgPage (leafEntry pa attr).bits = some () := by
  rw [pgPage, pgLeaf_leaf ha hlt hacc]
  rfl

/-- Whether an entry translates does not depend on the address in the page. -/
theorem pgPage_isSome (va : Nat) (e : Word) : (pgPage e).isSome = (pgLeaf va e).isSome := by
  rw [pgPage, pgLeaf, pgLeaf]
  split
  · rfl
  · split
    · rfl
    · rfl

/-- Unmapping one page keeps what the invariant adds to the tree. -/
theorem pgInv_pruned {idx : Nat → Fin 512}
    (htrim : Trim (pgMapper L false).format (pgMapper L false).alive h.mem root 3)
    (hpages : ∀ idx,
      (lookup (pgMapper L false).format (pgMapper L false).alive h.mem root 3 idx).isSome →
      (lookup (pgMapper L false).format pgPage h.mem root 3 idx).isSome)
    (hp : Pruned (pgMapper L false) root 3 idx 0 h h') :
    Trim (pgMapper L false).format (pgMapper L false).alive h'.mem root 3 ∧
      ∀ idx, (lookup (pgMapper L false).format (pgMapper L false).alive h'.mem root 3 idx).isSome →
        (lookup (pgMapper L false).format pgPage h'.mem root 3 idx).isSome := by
  refine ⟨trim_pruned htrim hp, fun idx' => ?_⟩
  rw [hp.walks _ fun _ => alive_dead, hp.walks _ fun _ => pgPage_dead]
  split
  · exact id
  · exact hpages idx'

/-- A call of `pg_map` with room keeps the invariant. -/
theorem PgInv.map {withoutMmu : Bool} {vaddr paddr mapSize : Nat} (hr : StaticRoot L root)
    (hi : PgInv L root h) (hv : VirtRange vaddr mapSize) (hp : PhysRange paddr mapSize)
    (hacc : HasAccess attr) (hroom : MapRoom L withoutMmu root h vaddr mapSize)
    (hrun : pgMap L withoutMmu root 0 vaddr paddr mapSize attr h = .ok () h') : PgInv L root h' := by
  obtain ⟨h₁, hrun₁, -, -, htree⟩ := pgMap_good hr hi.tree hv hp hacc hroom
  cases hrun₁.symm.trans hrun
  have hdist (i j : Nat) (hij : i < j) (hj : j < pageCount mapSize) :
      ¬ AgreeTo 4 (rangeIndex vaddr i) (rangeIndex vaddr j) :=
    hv.distinct (Nat.lt_trans hij hj) hj (Nat.ne_of_lt hij)
  obtain ⟨h₂, hrun₂, -, hw⟩ := pgMap_run paddr attr hr hi.tree.tables hroom
  cases hrun₂.symm.trans hrun
  rw [pgMap_eq L withoutMmu root vaddr paddr mapSize attr (Nat.zero_le 3)] at hrun
  have htabs : Tables (pgMapper L withoutMmu) root 3 h := tables_mode hi.tree.tables
  have htrim : Trim (pgMapper L withoutMmu).format (pgMapper L withoutMmu).alive h'.mem root 3 :=
    mapPages_trim htabs hi.trim (hr.at_root withoutMmu) hroom.sees hroom.fits hdist
      (fun i _ => pteIsValid_leaf _ attr) hrun
  refine ⟨htree, htrim, fun idx hl => ?_⟩
  have halive := hw (pgMapper L false).alive alive_zero
  have hpage := hw pgPage (pgPage_dead pteIsValid_zero)
  rcases Classical.em (∃ i, i < pageCount mapSize ∧ AgreeTo 4 idx (rangeIndex vaddr i)) with
    ⟨i, hi', hag⟩ | hno
  · have haddr : (paddr + pageSize * i) % 2 ^ 64 % 4096 = 0 ∧
        (paddr + pageSize * i) % 2 ^ 64 < 2 ^ 56 := by
      have ha := hp.aligned
      have hb := hp.below
      simp only [pageSize]
      omega
    rw [lookup_congr hag, hpage.1 hdist i hi', pgPage_leaf haddr.1 haddr.2 hacc]
    rfl
  · have hapart (i : Nat) (hi' : i < pageCount mapSize) : ¬ AgreeTo 4 idx (rangeIndex vaddr i) :=
      fun hag => hno ⟨i, hi', hag⟩
    rw [hpage.2 idx hapart]
    rw [halive.2 idx hapart] at hl
    exact hi.pages idx hl

/-- A call of `pg_unmap` in the window keeps the invariant. -/
theorem PgInv.unmap {vaddr mapSize : Nat} (hr : StaticRoot L root) (hi : PgInv L root h)
    (hv : VirtRange vaddr mapSize) (hm : Translates root vaddr mapSize h)
    (hwin : InWindow L root h vaddr mapSize)
    (hrun : pgUnmap L root 0 vaddr mapSize h = .ok () h') : PgInv L root h' := by
  obtain ⟨h₁, hrun₁, -, htree⟩ := pgUnmap_good hr hi.tree hv hm hwin
  cases hrun₁.symm.trans hrun
  rw [pgUnmap_eq] at hrun
  obtain ⟨h₂, hrun₂, -, hkept, -⟩ := unmapPages_keeps
    (I := fun h => Trim (pgMapper L false).format (pgMapper L false).alive h.mem root 3 ∧
      ∀ idx, (lookup (pgMapper L false).format (pgMapper L false).alive h.mem root 3 idx).isSome →
        (lookup (pgMapper L false).format pgPage h.mem root 3 idx).isSome)
    hi.tree.tables (hr.at_root false) hr.ne_zero (fun i hi => (hwin i hi).sees)
    (fun i j hij hj => hv.distinct hj (Nat.lt_trans hij hj) (Nat.ne_of_gt hij))
    (hm.mapped hi.tree hv) ⟨hi.trim, hi.pages⟩ fun _ hI hp => pgInv_pruned hI.1 hI.2 hp
  cases hrun₂.symm.trans hrun
  exact ⟨htree, hkept.1, hkept.2⟩

/-- Every built tree keeps the invariant. -/
theorem PgBuilt.inv (hr : StaticRoot L root) (hb : PgBuilt L root h) : PgInv L root h := by
  induction hb with
  | empty hz =>
    refine ⟨PgBuilt.tree hr (.empty hz), .of_clear hz, fun idx hl => ?_⟩
    rw [lookup_of_clear hz alive_zero] at hl
    cases hl
  | map _ hv hp hacc hroom hrun ih => exact ih.map hr hv hp hacc hroom hrun
  | unmap _ hv hm hwin hrun ih => exact ih.unmap hr hv hm hwin hrun
  | other hb hu ih =>
    refine ⟨PgBuilt.tree hr (.other hb hu), ih.trim.sameOn hu.words, fun idx => ?_⟩
    rw [hu.words.lookup_eq, hu.words.lookup_eq]
    exact ih.pages idx

/-! ## The round trip -/

/-- A page that does not translate has no live entry. -/
theorem PgInv.empty (hi : PgInv L root h) (hnone : sv48Walk h.mem root vir = none) :
    lookup (pgMapper L false).format (pgMapper L false).alive h.mem root 3 (pgIndex 0 vir) = none := by
  cases hal : lookup (pgMapper L false).format (pgMapper L false).alive h.mem root 3 (pgIndex 0 vir) with
  | none => rfl
  | some u =>
    have hpage := hi.pages (pgIndex 0 vir) (Option.isSome_of_eq_some hal)
    rw [sv48Walk_eq hi.tree.tables.tree, lookup] at hnone
    rw [lookup] at hpage
    cases hb : tableAt (pgMapper L false).format h.mem root (pgIndex 0 vir) 3 with
    | none =>
      rw [hb] at hpage
      cases hpage
    | some b =>
      rw [hb, Option.bind_some] at hpage hnone
      rw [pgPage_isSome vir, hnone] at hpage
      cases hpage

/-- The tables that a page lacks. -/
theorem pgNeeded_page (ht : Tables (pgMapper L false) root 3 h) (hvir : vir < 2 ^ 64) :
    pgNeeded L root h vir pageSize = missing (pgMapper L false) root h (pgIndex 0 vir) 3 := by
  have hindex : rangeIndex vir 0 = pgIndex 0 vir := by
    rw [rangeIndex, Nat.mul_zero, Nat.add_zero, Nat.mod_eq_of_lt hvir]
  rw [pgNeeded, show pageCount pageSize = 1 by decide, missing_first ht, hindex]

theorem inWindow_page (hvir : vir < 2 ^ 64) :
    InWindow L root h vir pageSize ↔ Reached (pgMapper L false) root 3 h (pgIndex 0 vir) := by
  have hindex : rangeIndex vir 0 = pgIndex 0 vir := by
    rw [rangeIndex, Nat.mul_zero, Nat.add_zero, Nat.mod_eq_of_lt hvir]
  rw [InWindow, show pageCount pageSize = 1 by decide]
  constructor
  · intro hwin
    exact hindex ▸ hwin 0 Nat.one_pos
  · intro hreach i hi
    obtain rfl : i = 0 := Nat.lt_one_iff.mp hi
    exact hindex ▸ hreach

/-- In every built tree, with enough free pages in the allocator: mapping a page and unmapping it
again leaves every translation and the allocator as they were exactly when the page did not
translate, and its tables are, and fit, in the direct map. -/
theorem pg_round_trip_iff (hr : StaticRoot L root) (hb : PgBuilt L root h) (hvir : vir < 2 ^ 64)
    (hphy : phy % 4096 = 0) (hpos : 0 < phy) (hlt : phy < 2 ^ 48) (attr : BitVec 32)
    (henough : pgNeeded L root h vir pageSize ≤ evenFree h.bitmap (totalPages / 2)) :
    RoundTrip (fun m => sv48Walk m root) (hostMapOnePage L root vir phy attr)
        (hostUnmapOnePage L root vir) h ↔
      sv48Walk h.mem root vir = none ∧ MapRoom L false root h vir pageSize := by
  have hi := hb.inv hr
  have ht := hi.tree.tables
  have hmod : phy % 2 ^ 64 = phy := by omega
  rw [MapRoom, pgNeeded_page ht hvir, inWindow_page hvir]
  rw [pgNeeded_page ht hvir] at henough
  rw [hostMapOnePage_eq L root hvir, hostUnmapOnePage_eq, hmod]
  constructor
  · rintro ⟨h₁, h₂, hrun, hrun₂, hwalks, -⟩
    obtain ⟨hreach, hfree⟩ := mapPage_room ht (hr.at_root false) (pgMapper_blindHigh L)
      (pgMapper_faultsHigh L) henough hrun
    obtain ⟨-, hp⟩ := mapped_unmapped ht (hr.at_root false) hr.ne_zero (pgMapper_blindHigh L)
      hreach.sees hfree hrun hrun₂
    have hsame : sv48Walk h₂.mem root vir = sv48Walk h.mem root vir := hwalks vir
    refine ⟨?_, hfree, fun _ => hreach⟩
    rw [← hsame, sv48Walk_eq hp.tables.tree, hp.walks (pgLeaf vir) fun _ => pgLeaf_dead,
      if_pos (AgreeTo.refl _ _)]
  · rintro ⟨hnone, hfree, hreach⟩
    have hbase : (pgMapper L false).base (leafEntry phy attr).bits ≠ 0 := by
      show tableBase (leafEntry phy attr).bits ≠ 0
      rw [tableBase_leaf attr hphy (by omega)]
      omega
    obtain ⟨h₁, h₂, hrun, hrun₂, ht₂, hu⟩ := mapPage_undone ht hi.trim (hr.at_root false) hr.ne_zero
      (hreach rfl).sees (hi.empty hnone) (pteIsValid_leaf phy attr) hbase hfree
    refine ⟨h₁, h₂, hrun, hrun₂, fun va => ?_, hu.bitmap⟩
    show sv48Walk h₂.mem root va = sv48Walk h.mem root va
    rw [sv48Walk_eq ht.tree, sv48Walk_eq ht₂.tree]
    exact hu.walks (pgLeaf va) (fun _ => pgLeaf_dead) _

end

end HyperCore.Riscv64
