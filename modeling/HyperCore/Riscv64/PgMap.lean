import HyperCore.Riscv64.Mmu

/-!
# Mapping and unmapping ranges

The host's and the guest's tables hang off static roots in the image. `PgBuilt` are
the trees that calls of `pg_map` and `pg_unmap` make of an empty root, in any order
and with either value of `without_mmu`, with the rest of the hypervisor running in
between.

On such a tree both calls are finite-map updates of the Sv48 walk exactly when the
tables they need can be addressed:

| call                  | new tables          | tables on the path  |
|-----------------------|---------------------|---------------------|
| `pg_map`, no MMU      | below page `2 ^ 19` | any                 |
| `pg_map`, direct map  | below page `2 ^ 18` | below page `2 ^ 18` |
| `pg_unmap`            |                     | below page `2 ^ 18` |
-/

namespace HyperCore.Riscv64

open RadixTable Bitmap PageAlloc ArchPage TableMap

/-! ## Roots and trees -/

/-- A root table in the image, such as `page_table_root`. -/
structure StaticRoot (L : Layout) (root : Nat) : Prop where
  aligned : root % 4096 = 0
  pos : 0 < root
  inside : root + 4096 ≤ L.hyperEnd

/-- The address in a valid last-level entry. -/
def leafBase (d : Word) : Option Nat := if pteIsValid d then some (tableBase d) else none

/-- The invariant of a tree: its tables are in order and no page maps address 0. -/
structure PgTree (L : Layout) (root : Nat) (h : Host) : Prop where
  tables : Tables (pgMapper L false) root 3 h
  nonzero : ∀ idx, lookup (pgMapper L false).format leafBase h.mem root 3 idx ≠ some 0

section

variable {L : Layout} {root : Nat} {h : Host}

theorem StaticRoot.ne_zero (hr : StaticRoot L root) : root ≠ 0 := Nat.ne_of_gt hr.pos

/-- The root is reached by its own address, with and without the MMU. -/
theorem StaticRoot.at_root (hr : StaticRoot L root) (withoutMmu : Bool) :
    (pgMapper L withoutMmu).At root root := by
  intro i
  have hi := i.isLt
  cases withoutMmu with
  | true => rfl
  | false =>
    have hin := hr.inside
    have hend := L.hyperEnd_lt
    show reach L false (root + 8 * i) = some (slot root i)
    rw [reach_direct, L.hostTranslate_image (by omega), slot]

/-- The root is no page of the pool. -/
theorem StaticRoot.ne_page (hr : StaticRoot L root) (p : Nat) : root ≠ L.physPage p := by
  have hin := hr.inside
  have hend := L.hyperEnd_lt
  simp only [Layout.physPage]
  omega

/-- The tables of a tree do not depend on how they are reached. -/
theorem tables_mode {b : Bool} (ht : Tables (pgMapper L false) root 3 h) :
    Tables (pgMapper L b) root 3 h :=
  ⟨ht.tree, ht.owned, ht.root_taken⟩

theorem needed_mode {b : Bool} (idx : Nat → Nat → Fin 512) (n : Nat) :
    needed (pgMapper L b) root 3 h idx n = needed (pgMapper L false) root 3 h idx n := by
  induction n with
  | zero => rfl
  | succ n ih => rw [needed, needed, ih, pgMapper_format L b]

theorem sees_physical (idx : Nat → Fin 512) : Sees (pgMapper L true) root 3 h idx :=
  fun _ _ _ _ _ _ => rfl

theorem two_mul_half (L : Layout) : 2 * (pgMapper L false).half = 2 ^ 18 := by
  rw [pgMapper_half, pgHalf]
  rfl

theorem pgMapper_faultsHigh (L : Layout) : (pgMapper L false).FaultsHigh := by
  intro p h1 h2
  rw [two_mul_half] at h1
  have hnone := L.hostTranslate_pageVir_high h1 h2
  simp only [pgMapper, newPageAddr_direct, reach_direct, hnone]

theorem pgMapper_blindHigh (L : Layout) : (pgMapper L false).BlindHigh := by
  intro p h1 h2 i
  rw [two_mul_half] at h1
  show reach L false (tablePtr L false (L.physPage p) + 8 * i) = none
  rw [tablePtr_direct, reach_direct]
  exact L.hostTranslate_slot_high h1 h2 i

end

/-! ## Ranges -/

/-- The table indices of page `i` of a range. -/
def rangeIndex (vaddr i : Nat) : Nat → Fin 512 := pgIndex 0 ((vaddr + pageSize * i) % 2 ^ 64)

/-- A page-aligned range of addresses below `2 ^ 48`. -/
structure VirtRange (vaddr mapSize : Nat) : Prop where
  aligned : vaddr % 4096 = 0
  below : vaddr + 4096 * pageCount mapSize ≤ 2 ^ 48

/-- A page-aligned range of non-zero physical addresses below `2 ^ 56`. -/
structure PhysRange (paddr mapSize : Nat) : Prop where
  aligned : paddr % 4096 = 0
  nonzero : 0 < paddr
  below : paddr + 4096 * pageCount mapSize ≤ 2 ^ 56

/-- The tables that the range at `vaddr` still lacks. -/
def pgNeeded (L : Layout) (root : Nat) (h : Host) (vaddr mapSize : Nat) : Nat :=
  needed (pgMapper L false) root 3 h (rangeIndex vaddr) (pageCount mapSize)

/-- The tables on the paths of the range are in the direct map. -/
def InWindow (L : Layout) (root : Nat) (h : Host) (vaddr mapSize : Nat) : Prop :=
  ∀ i, i < pageCount mapSize → Reached (pgMapper L false) root 3 h (rangeIndex vaddr i)

/-- `pg_map` can address the tables it needs. -/
def MapRoom (L : Layout) (withoutMmu : Bool) (root : Nat) (h : Host) (vaddr mapSize : Nat) : Prop :=
  pgNeeded L root h vaddr mapSize ≤ evenFree h.bitmap (pgHalf withoutMmu) ∧
    (withoutMmu = false → InWindow L root h vaddr mapSize)

/-- `va` lies in the range. -/
def InRange (vaddr mapSize va : Nat) : Prop := vaddr ≤ va ∧ va < vaddr + 4096 * pageCount mapSize

/-- The update of `pg_map`: the walk gives the physical range with the requested flags,
and what it gave before elsewhere. A writable page is readable. -/
structure PgMapsRange (root vaddr paddr mapSize : Nat) (attr : BitVec 32) (h h' : Host) : Prop where
  mapped : ∀ k, k < pageCount mapSize → sv48Walk h'.mem root (vaddr + 4096 * k) =
    some (paddr + 4096 * k, requested attr)
  readable : (requested attr).write = true → (requested attr).read = true
  others : ∀ va, va < 2 ^ 48 → ¬ InRange vaddr mapSize va →
    sv48Walk h'.mem root va = sv48Walk h.mem root va

/-- The update of `pg_unmap`: exactly the pages of the range stop translating. -/
structure PgUnmapsRange (root vaddr mapSize : Nat) (h h' : Host) : Prop where
  gone : ∀ va, InRange vaddr mapSize va → sv48Walk h'.mem root va = none
  others : ∀ va, va < 2 ^ 48 → ¬ InRange vaddr mapSize va →
    sv48Walk h'.mem root va = sv48Walk h.mem root va

section

variable {vaddr mapSize : Nat}

/-- The addresses of a range do not wrap. -/
theorem VirtRange.index (hv : VirtRange vaddr mapSize) {i : Nat} (hi : i < pageCount mapSize) :
    rangeIndex vaddr i = pgIndex 0 (vaddr + 4096 * i) ∧ vaddr + 4096 * i < 2 ^ 48 := by
  have hb := hv.below
  have hwrap : (vaddr + pageSize * i) % 2 ^ 64 = vaddr + 4096 * i := by
    simp only [pageSize]
    omega
  exact ⟨by rw [rangeIndex, hwrap], by omega⟩

/-- Addresses of one page have the same indices. -/
theorem pgIndex_page {va va' : Nat} (h : va / 4096 = va' / 4096) :
    AgreeTo 4 (pgIndex 0 va) (pgIndex 0 va') := agree_of_page h 4

/-- An address meets page `i` in every index exactly if it is in that page. -/
theorem VirtRange.agree_iff (hv : VirtRange vaddr mapSize) {va i : Nat} (hva : va < 2 ^ 48)
    (hi : i < pageCount mapSize) :
    AgreeTo 4 (pgIndex 0 va) (rangeIndex vaddr i) ↔ va / 4096 = vaddr / 4096 + i := by
  obtain ⟨he, hlt⟩ := hv.index hi
  have ha := hv.aligned
  rw [he]
  constructor
  · intro hag
    have := page_eq_of_agree (Nat.zero_le 3) hva hlt hag
    omega
  · intro hpage
    exact pgIndex_page (by omega)

/-- The pages of a range have distinct indices. -/
theorem VirtRange.distinct (hv : VirtRange vaddr mapSize) {i j : Nat} (hi : i < pageCount mapSize)
    (hj : j < pageCount mapSize) (hne : i ≠ j) :
    ¬ AgreeTo 4 (rangeIndex vaddr i) (rangeIndex vaddr j) := by
  obtain ⟨he, hlt⟩ := hv.index hi
  rw [he, hv.agree_iff hlt hj]
  have := hv.aligned
  omega

/-- An address outside the range meets none of its pages. -/
theorem VirtRange.apart (hv : VirtRange vaddr mapSize) {va : Nat} (hva : va < 2 ^ 48)
    (hno : ¬ InRange vaddr mapSize va) (i : Nat) (hi : i < pageCount mapSize) :
    ¬ AgreeTo 4 (pgIndex 0 va) (rangeIndex vaddr i) := by
  rw [hv.agree_iff hva hi]
  have := hv.aligned
  simp only [InRange] at hno
  omega

end

/-! ## The two calls -/

section

variable {L : Layout} {root vaddr paddr mapSize : Nat} {attr : BitVec 32} {h : Host}

theorem requested_readable (attr : BitVec 32) :
    (requested attr).write = true → (requested attr).read = true := by
  intro hw
  have hw : attrWrite attr = true := hw
  rw [requested, hw, Bool.or_true]

theorem leafBase_dead {d : Word} (hd : pteIsValid d = false) : leafBase d = none := by
  rw [leafBase, hd]
  rfl

/-- The tree after `pg_map`: what its walks find is the old or a mapped address. -/
theorem PgTree.mapped {h' : Host} {n : Nat} {idx : Nat → Nat → Fin 512} {pa : Nat → Nat}
    (ht : PgTree L root h) (htab : Tables (pgMapper L false) root 3 h')
    (hnew : ∀ i, i < n →
      lookup (pgMapper L false).format leafBase h'.mem root 3 (idx i) = some (pa i))
    (hpa : ∀ i, i < n → pa i ≠ 0)
    (hold : ∀ idx', (∀ i, i < n → ¬ AgreeTo 4 idx' (idx i)) →
      lookup (pgMapper L false).format leafBase h'.mem root 3 idx' =
        lookup (pgMapper L false).format leafBase h.mem root 3 idx') : PgTree L root h' := by
  refine ⟨htab, fun idx' h0 => ?_⟩
  by_cases hag : ∃ i, i < n ∧ AgreeTo 4 idx' (idx i)
  · obtain ⟨i, hi, hag⟩ := hag
    rw [lookup_congr hag, hnew i hi] at h0
    exact hpa i hi (Option.some.inj h0)
  · rw [hold idx' fun i hi hc => hag ⟨i, hi, hc⟩] at h0
    exact ht.nonzero idx' h0

theorem MapRoom.sees {withoutMmu : Bool} (hroom : MapRoom L withoutMmu root h vaddr mapSize) (i : Nat)
    (hi : i < pageCount mapSize) : Sees (pgMapper L withoutMmu) root 3 h (rangeIndex vaddr i) := by
  cases withoutMmu with
  | true => exact sees_physical _
  | false => exact (hroom.2 rfl i hi).sees

theorem MapRoom.fits {withoutMmu : Bool} (hroom : MapRoom L withoutMmu root h vaddr mapSize) :
    needed (pgMapper L withoutMmu) root 3 h (rangeIndex vaddr) (pageCount mapSize) ≤
      evenFree h.bitmap (pgMapper L withoutMmu).half := by
  rw [needed_mode, pgMapper_half]
  exact hroom.1

/-- With room for its tables, `pg_map` returns, and the tree has grown by the tables it needed. -/
theorem pgMap_run (paddr : Nat) (attr : BitVec 32) {withoutMmu : Bool} (hr : StaticRoot L root)
    (ht : Tables (pgMapper L false) root 3 h)
    (hroom : MapRoom L withoutMmu root h vaddr mapSize) :
    ∃ h', pgMap L withoutMmu root 0 vaddr paddr mapSize attr h = .ok () h' ∧
      Grown (pgMapper L withoutMmu) root 3
        (fun idx j => ∃ i, i < pageCount mapSize ∧ AgreeTo j idx (rangeIndex vaddr i))
        (pgNeeded L root h vaddr mapSize) h h' ∧
      ∀ {O : Type} (leaf : Word → Option O), leaf 0 = none →
        ((∀ i j, i < j → j < pageCount mapSize →
            ¬ AgreeTo 4 (rangeIndex vaddr i) (rangeIndex vaddr j)) →
          ∀ i, i < pageCount mapSize →
            lookup (pgMapper L false).format leaf h'.mem root 3 (rangeIndex vaddr i) =
              leaf (leafEntry ((paddr + pageSize * i) % 2 ^ 64) attr).bits) ∧
        ∀ idx, (∀ i, i < pageCount mapSize → ¬ AgreeTo 4 idx (rangeIndex vaddr i)) →
          lookup (pgMapper L false).format leaf h'.mem root 3 idx =
            lookup (pgMapper L false).format leaf h.mem root 3 idx := by
  obtain ⟨h', hrun, hg, hw⟩ := mapPages_good (tables_mode ht) (hr.at_root withoutMmu)
    (fun i => (leafEntry ((paddr + pageSize * i) % 2 ^ 64) attr).bits) hroom.sees hroom.fits
  rw [needed_mode] at hg
  refine ⟨h', ?_, hg, hw⟩
  rw [pgMap_eq L withoutMmu root vaddr paddr mapSize attr (Nat.zero_le 3)]
  exact hrun

/-- With room for its tables, `pg_map` is the finite-map update, and the tree has grown by the
tables it needed. -/
theorem pgMap_grown {withoutMmu : Bool} (hr : StaticRoot L root)
    (ht : Tables (pgMapper L false) root 3 h) (hv : VirtRange vaddr mapSize)
    (hpa : paddr % 4096 = 0) (hpb : paddr + 4096 * pageCount mapSize ≤ 2 ^ 56)
    (hacc : HasAccess attr) (hroom : MapRoom L withoutMmu root h vaddr mapSize) :
    ∃ h', pgMap L withoutMmu root 0 vaddr paddr mapSize attr h = .ok () h' ∧
      PgMapsRange root vaddr paddr mapSize attr h h' ∧
      Grown (pgMapper L withoutMmu) root 3
        (fun idx j => ∃ i, i < pageCount mapSize ∧ AgreeTo j idx (rangeIndex vaddr i))
        (pgNeeded L root h vaddr mapSize) h h' ∧
      (∀ i, i < pageCount mapSize → lookup (pgMapper L false).format leafBase h'.mem root 3
        (rangeIndex vaddr i) = some (paddr + 4096 * i)) ∧
      ∀ idx, (∀ i, i < pageCount mapSize → ¬ AgreeTo 4 idx (rangeIndex vaddr i)) →
        lookup (pgMapper L false).format leafBase h'.mem root 3 idx =
          lookup (pgMapper L false).format leafBase h.mem root 3 idx := by
  obtain ⟨h', hrun, hg, hw⟩ := pgMap_run paddr attr hr ht hroom
  have htree : Tree (pgMapper L false).format h'.mem root 3 := hg.tables.tree
  have hdist : ∀ i j, i < j → j < pageCount mapSize →
      ¬ AgreeTo (3 + 1) (rangeIndex vaddr i) (rangeIndex vaddr j) :=
    fun i j hij hj => hv.distinct (Nat.lt_trans hij hj) hj (Nat.ne_of_lt hij)
  have hpage : ∀ {k}, k < pageCount mapSize → (paddr + pageSize * k) % 2 ^ 64 = paddr + 4096 * k ∧
      (paddr + 4096 * k) % 4096 = 0 ∧ paddr + 4096 * k < 2 ^ 56 := by
    intro k hk
    simp only [pageSize]
    omega
  have hb := hw leafBase (leafBase_dead (by decide))
  refine ⟨h', hrun, ⟨fun k hk => ?_, requested_readable attr, fun va hva hno => ?_⟩, hg,
    fun i hi => ?_, hb.2⟩
  · obtain ⟨hwrap, hpa1, hpa2⟩ := hpage hk
    have hk' := (hw (pgLeaf (vaddr + 4096 * k)) (pgLeaf_dead (by decide))).1 hdist k hk
    rw [hwrap, pgLeaf_leaf hpa1 hpa2 hacc, (hv.index hk).1] at hk'
    have ha := hv.aligned
    rw [sv48Walk_eq htree, show paddr + 4096 * k = paddr + 4096 * k +
      (vaddr + 4096 * k) % 4096 by omega]
    exact hk'
  · rw [sv48Walk_eq htree, sv48Walk_eq ht.tree]
    exact (hw (pgLeaf va) (pgLeaf_dead (by decide))).2 _ (hv.apart hva hno)
  · obtain ⟨hwrap, hpa1, hpa2⟩ := hpage hi
    have hi' := hb.1 hdist i hi
    rw [hwrap, leafBase, pteIsValid_leaf, if_pos rfl, tableBase_leaf attr hpa1 hpa2] at hi'
    exact hi'

theorem tables_direct {withoutMmu : Bool} (ht : Tables (pgMapper L withoutMmu) root 3 h) :
    Tables (pgMapper L false) root 3 h :=
  ⟨ht.tree, ht.owned, ht.root_taken⟩

/-- With room for its tables, `pg_map` is the finite-map update. -/
theorem pgMap_good {withoutMmu : Bool} (hr : StaticRoot L root) (ht : PgTree L root h)
    (hv : VirtRange vaddr mapSize) (hp : PhysRange paddr mapSize) (hacc : HasAccess attr)
    (hroom : MapRoom L withoutMmu root h vaddr mapSize) :
    ∃ h', pgMap L withoutMmu root 0 vaddr paddr mapSize attr h = .ok () h' ∧
      PgMapsRange root vaddr paddr mapSize attr h h' ∧ FreshLinks L h h' ∧ PgTree L root h' := by
  obtain ⟨h', hrun, hmaps, hg, hnew, hold⟩ :=
    pgMap_grown hr ht.tables hv hp.aligned hp.below hacc hroom
  obtain ⟨l, hl⟩ := hg.takes
  refine ⟨h', hrun, hmaps, hl.freshLinks, ht.mapped (tables_direct hg.tables) hnew (fun i _ => ?_) hold⟩
  have := hp.nonzero
  omega

/-- A table out of reach on the path makes the direct-mapped call fault. -/
theorem pgMap_fails (hr : StaticRoot L root) (ht : Tables (pgMapper L false) root 3 h)
    (hsome : pgNeeded L root h vaddr mapSize ≤ evenFree h.bitmap (2 ^ 19))
    (hout : ¬ InWindow L root h vaddr mapSize) :
    Fails (pgMap L false root 0 vaddr paddr mapSize attr h) := by
  rw [pgMap_eq L false root vaddr paddr mapSize attr (Nat.zero_le 3)]
  exact mapPages_fails ht (hr.at_root false) (pgMapper_blindHigh L) (pgMapper_faultsHigh L)
    _ hsome hout

/-- Without room the call faults, or it links a table outside the pool. -/
theorem pgMap_spoiled {withoutMmu : Bool} (hr : StaticRoot L root) (ht : Tables (pgMapper L false) root 3 h)
    (hsome : pgNeeded L root h vaddr mapSize ≤ evenFree h.bitmap (2 ^ 19))
    (hroom : ¬ MapRoom L withoutMmu root h vaddr mapSize) :
    Spoiled (pgMapper L withoutMmu) h (pgMap L withoutMmu root 0 vaddr paddr mapSize attr h) := by
  by_cases hreach : withoutMmu = false → InWindow L root h vaddr mapSize
  · have hlow : evenFree h.bitmap (pgMapper L withoutMmu).half <
        needed (pgMapper L withoutMmu) root 3 h (rangeIndex vaddr) (pageCount mapSize) := by
      rw [needed_mode, pgMapper_half]
      exact Nat.lt_of_not_le fun hfree => hroom ⟨hfree, hreach⟩
    have hsee : ∀ i, i < pageCount mapSize →
        Sees (pgMapper L withoutMmu) root 3 h (rangeIndex vaddr i) := by
      intro i hi
      cases withoutMmu with
      | true => exact sees_physical _
      | false => exact (hreach rfl i hi).sees
    rw [pgMap_eq L withoutMmu root vaddr paddr mapSize attr (Nat.zero_le 3)]
    exact mapPages_spoiled (tables_mode ht) (hr.at_root withoutMmu) _ hsee hlow
      (by rw [needed_mode]; exact hsome)
  · cases withoutMmu with
    | true => exact absurd nofun hreach
    | false => exact (pgMap_fails hr ht hsome fun hwin => hreach fun _ => hwin).spoiled

/-- Through the direct map, it faults. -/
theorem pgMap_direct_fails (hr : StaticRoot L root) (ht : Tables (pgMapper L false) root 3 h)
    (hsome : pgNeeded L root h vaddr mapSize ≤ evenFree h.bitmap (totalPages / 2))
    (hroom : ¬ MapRoom L false root h vaddr mapSize) :
    Fails (pgMap L false root 0 vaddr paddr mapSize attr h) :=
  (pgMap_spoiled hr ht hsome hroom).fails (pgMapper_faultsHigh L)

/-- A page that translates is one that unmapping accepts. -/
theorem PgTree.mapped_of_walk (ht : PgTree L root h) {va : Nat}
    (hw : (sv48Walk h.mem root va).isSome) :
    Mapped (pgMapper L false) root 3 h (pgIndex 0 va) := by
  rw [sv48Walk_eq ht.tables.tree] at hw
  obtain ⟨r, hr⟩ := Option.isSome_iff_exists.mp hw
  obtain ⟨b, hb, hd⟩ := Option.bind_eq_some_iff.mp hr
  have hvalid : pteIsValid (h.mem (slot b (pgIndex 0 va 3))) = true := by
    cases hno : pteIsValid (h.mem (slot b (pgIndex 0 va 3))) with
    | true => rfl
    | false =>
      rw [pgLeaf_dead hno] at hd
      cases hd
  have hne : tableBase (h.mem (slot b (pgIndex 0 va 3))) ≠ 0 := by
    intro h0
    refine ht.nonzero (pgIndex 0 va) ?_
    rw [lookup, hb, Option.bind_some, leafBase, if_pos hvalid, h0]
  have hpres : (pgMapper L false).present (h.mem (slot b (pgIndex 0 va 3))) = some () := by
    have : (pteIsValid (h.mem (slot b (pgIndex 0 va 3))) &&
        tableBase (h.mem (slot b (pgIndex 0 va 3))) != 0) = true := by
      rw [hvalid, Bool.true_and, bne_iff_ne]
      exact hne
    exact if_pos this
  rw [Mapped, lookup, hb, Option.bind_some, hpres]

/-- Every page of the range translates. -/
def Translates (root vaddr mapSize : Nat) (h : Host) : Prop :=
  ∀ k, k < pageCount mapSize → (sv48Walk h.mem root (vaddr + 4096 * k)).isSome

theorem Translates.mapped (hm : Translates root vaddr mapSize h) (ht : PgTree L root h)
    (hv : VirtRange vaddr mapSize) (i : Nat) (hi : i < pageCount mapSize) :
    Mapped (pgMapper L false) root 3 h (rangeIndex vaddr i) := by
  rw [(hv.index hi).1]
  exact ht.mapped_of_walk (hm i hi)

/-- With the tables in the direct map, `pg_unmap` is the finite-map update. -/
theorem pgUnmap_good (hr : StaticRoot L root) (ht : PgTree L root h)
    (hv : VirtRange vaddr mapSize) (hm : Translates root vaddr mapSize h)
    (hwin : InWindow L root h vaddr mapSize) :
    ∃ h', pgUnmap L root 0 vaddr mapSize h = .ok () h' ∧ PgUnmapsRange root vaddr mapSize h h' ∧
      PgTree L root h' := by
  obtain ⟨h', hrun, htab, -, hw⟩ := unmapPages_good ht.tables (hr.at_root false) hr.ne_zero
    (fun i hi => (hwin i hi).sees)
    (fun i j hij hj => hv.distinct hj (Nat.lt_trans hij hj) (Nat.ne_of_gt hij)) (hm.mapped ht hv)
  refine ⟨h', ?_, ⟨fun va hin => ?_, fun va hva hno => ?_⟩, htab, fun idx h0 => ?_⟩
  · rw [pgUnmap_eq]
    exact hrun
  · have ha := hv.aligned
    have hb := hv.below
    obtain ⟨h1, h2⟩ := hin
    have hi : va / 4096 - vaddr / 4096 < pageCount mapSize := by omega
    have hag := (hv.agree_iff (show va < 2 ^ 48 by omega) hi).mpr (by omega)
    rw [sv48Walk_eq htab.tree, lookup_congr hag]
    exact (hw (pgLeaf va) fun _ hd => pgLeaf_dead hd).1 _ hi
  · rw [sv48Walk_eq htab.tree, sv48Walk_eq ht.tables.tree]
    exact (hw (pgLeaf va) fun _ hd => pgLeaf_dead hd).2 _ (hv.apart hva hno)
  · have hb := hw leafBase fun _ hd => leafBase_dead hd
    by_cases hag : ∃ i, i < pageCount mapSize ∧ AgreeTo 4 idx (rangeIndex vaddr i)
    · obtain ⟨i, hi, hag⟩ := hag
      rw [lookup_congr hag, hb.1 i hi] at h0
      cases h0
    · rw [hb.2 idx fun i hi hc => hag ⟨i, hi, hc⟩] at h0
      exact ht.nonzero idx h0

/-- Otherwise it faults. -/
theorem pgUnmap_fails (hr : StaticRoot L root) (ht : PgTree L root h)
    (hv : VirtRange vaddr mapSize) (hout : ¬ InWindow L root h vaddr mapSize) :
    Fails (pgUnmap L root 0 vaddr mapSize h) := by
  rw [pgUnmap_eq]
  exact unmapPages_fails ht.tables (hr.at_root false) hr.ne_zero (pgMapper_blindHigh L)
    (fun i j hij hj => hv.distinct hj (Nat.lt_trans hij hj) (Nat.ne_of_gt hij)) hout

end

/-! ## Trees built by the code -/

/-- The trees at a static root: an empty root, then calls of `pg_map` with room for
their tables and of `pg_unmap` with its tables in the direct map, in any order, with
other code running in between. -/
inductive PgBuilt (L : Layout) (root : Nat) : Host → Prop
  | empty {h : Host} : (∀ i : Fin 512, h.mem (slot root i) = 0) → PgBuilt L root h
  | map {h h' : Host} {withoutMmu : Bool} {vaddr paddr mapSize : Nat} {attr : BitVec 32} :
      PgBuilt L root h → VirtRange vaddr mapSize → PhysRange paddr mapSize → HasAccess attr →
      MapRoom L withoutMmu root h vaddr mapSize →
      pgMap L withoutMmu root 0 vaddr paddr mapSize attr h = .ok () h' → PgBuilt L root h'
  | unmap {h h' : Host} {vaddr mapSize : Nat} :
      PgBuilt L root h → VirtRange vaddr mapSize → Translates root vaddr mapSize h →
      InWindow L root h vaddr mapSize → pgUnmap L root 0 vaddr mapSize h = .ok () h' →
      PgBuilt L root h'
  | other {h h' : Host} : PgBuilt L root h → Untouched (pgMapper L false) root 3 h h' →
      PgBuilt L root h'

/-- Every built tree keeps the invariant. -/
theorem PgBuilt.tree {L : Layout} {root : Nat} {h : Host} (hr : StaticRoot L root)
    (hb : PgBuilt L root h) : PgTree L root h := by
  induction hb with
  | empty hz =>
    refine ⟨Tables.of_clear hz hr.aligned fun _ he => absurd he (hr.ne_page _), fun idx h0 => ?_⟩
    obtain ⟨b, hb, -⟩ := Option.bind_eq_some_iff.mp h0
    rw [tableAt_of_clear hz (by decide)] at hb
    cases hb
  | map _ hv hp hacc hroom hrun ih =>
    obtain ⟨h₁, hrun₁, -, -, ht⟩ := pgMap_good hr ih hv hp hacc hroom
    rw [hrun₁] at hrun
    cases hrun
    exact ht
  | unmap _ hv hm hwin hrun ih =>
    obtain ⟨h₁, hrun₁, -, ht⟩ := pgUnmap_good hr ih hv hm hwin
    rw [hrun₁] at hrun
    cases hrun
    exact ht
  | other _ hu ih =>
    refine ⟨ih.tables.untouched hu, fun idx => ?_⟩
    rw [hu.words.lookup_eq]
    exact ih.nonzero idx

/-- In every built tree, for every range: with enough free pages in the allocator
`pg_map` is the finite-map update out of free pages exactly when it can address the
tables it needs, and `pg_unmap` of translating pages is one exactly when the tables on
their paths are in the direct map. -/
theorem pg_map_unmap_update {L : Layout} {root : Nat} {h : Host} (hr : StaticRoot L root)
    (hb : PgBuilt L root h) :
    (∀ (withoutMmu : Bool) (vaddr paddr mapSize : Nat) (attr : BitVec 32),
      VirtRange vaddr mapSize → PhysRange paddr mapSize → HasAccess attr →
      pgNeeded L root h vaddr mapSize ≤ evenFree h.bitmap (totalPages / 2) →
      ((∃ h', pgMap L withoutMmu root 0 vaddr paddr mapSize attr h = .ok () h' ∧
        PgMapsRange root vaddr paddr mapSize attr h h' ∧ FreshLinks L h h') ↔
      MapRoom L withoutMmu root h vaddr mapSize)) ∧
    ∀ vaddr mapSize : Nat, VirtRange vaddr mapSize → Translates root vaddr mapSize h →
      ((∃ h', pgUnmap L root 0 vaddr mapSize h = .ok () h' ∧
        PgUnmapsRange root vaddr mapSize h h') ↔ InWindow L root h vaddr mapSize) := by
  have ht := hb.tree hr
  refine ⟨fun withoutMmu vaddr paddr mapSize attr hv hp hacc hsome => ⟨?_, fun hroom => ?_⟩,
    fun vaddr mapSize hv hm => ⟨?_, fun hwin => ?_⟩⟩
  · rintro ⟨h', hrun, -, hfresh⟩
    refine Classical.byContradiction fun hno => ?_
    exact (pgMap_spoiled hr ht.tables hsome hno).not_fresh ⟨h', hrun, hfresh⟩
  · obtain ⟨h', hrun, hmap, hfresh, -⟩ := pgMap_good hr ht hv hp hacc hroom
    exact ⟨h', hrun, hmap, hfresh⟩
  · rintro ⟨h', hrun, -⟩
    refine Classical.byContradiction fun hno => ?_
    exact (pgUnmap_fails hr ht hv hno).not_ok hrun
  · obtain ⟨h', hrun, hunmap, -⟩ := pgUnmap_good hr ht hv hm hwin
    exact ⟨h', hrun, hunmap⟩

/-! ## An empty root -/

/-- An image that ends at 0x80400000. -/
def imageLayout : Layout := ⟨0x80400000, by decide⟩

/-- A root table at 0x80300000. -/
theorem imageRoot : StaticRoot imageLayout 0x80300000 := ⟨rfl, by decide, by decide⟩

theorem built_clear (L : Layout) (root : Nat) (bm : Bitmap) : PgBuilt L root (clearHost bm) :=
  .empty fun _ => rfl

/-- A page under an empty root needs tables. -/
theorem needed_clear_pos (L : Layout) (root : Nat) (bm : Bitmap) (vaddr : Nat) :
    0 < pgNeeded L root (clearHost bm) vaddr 4096 := by
  have hone : pageCount 4096 = 1 := by decide
  have hnone : tableAt (pgMapper L false).format (clearHost bm).mem root (rangeIndex vaddr 0) 1 =
      none := tableAt_of_clear (fun _ => rfl) (by decide)
  rw [pgNeeded, hone, needed]
  refine Nat.lt_of_lt_of_le (List.countP_pos_iff.mpr ⟨0, List.mem_range.mpr (by decide), ?_⟩)
    (Nat.le_add_left _ _)
  rw [hnone]
  rfl

/-- `PAGE_ATTR_READ | PAGE_ATTR_WRITE` -/
def attrRw : BitVec 32 := 6

/-- The pages of the first 1 GB are taken: the allocator still has plenty, but mapping
one page through the direct map faults on the first table it takes. -/
theorem pg_map_past_window :
    StaticRoot imageLayout 0x80300000 ∧ PgBuilt imageLayout 0x80300000 (clearHost windowTaken) ∧
    VirtRange 0x40000000 4096 ∧ PhysRange 0x90000000 4096 ∧ HasAccess attrRw ∧
    pgNeeded imageLayout 0x80300000 (clearHost windowTaken) 0x40000000 4096 ≤
      evenFree (clearHost windowTaken).bitmap (totalPages / 2) ∧
    ¬ ∃ h', pgMap imageLayout false 0x80300000 0 0x40000000 0x90000000 4096 attrRw
        (clearHost windowTaken) = .ok () h' ∧
      PgMapsRange 0x80300000 0x40000000 0x90000000 4096 attrRw (clearHost windowTaken) h' := by
  have hb := built_clear imageLayout 0x80300000 windowTaken
  have hle : pgNeeded imageLayout 0x80300000 (clearHost windowTaken) 0x40000000 4096 ≤ 3 :=
    needed_le _
  have hsome : pgNeeded imageLayout 0x80300000 (clearHost windowTaken) 0x40000000 4096 ≤
      evenFree (clearHost windowTaken).bitmap (totalPages / 2) :=
    Nat.le_trans hle evenFree_windowTaken
  refine ⟨imageRoot, hb, ⟨rfl, by decide⟩, ⟨rfl, by decide, by decide⟩, .inl rfl, hsome, ?_⟩
  rintro ⟨h', hrun, -⟩
  have hroom : ¬ MapRoom imageLayout false 0x80300000 (clearHost windowTaken) 0x40000000 4096 := by
    rintro ⟨hfit, -⟩
    have hpos := needed_clear_pos imageLayout 0x80300000 windowTaken 0x40000000
    have hhalf : pgHalf false = 2 ^ 17 := by simp only [pgHalf, Bool.false_eq_true, if_false]
    rw [show (clearHost windowTaken).bitmap = windowTaken from rfl, hhalf,
      evenFree_windowTaken_low] at hfit
    omega
  exact (pgMap_direct_fails imageRoot (hb.tree imageRoot).tables hsome hroom).not_ok hrun

theorem evenFree_init : 3 ≤ evenFree initPageAllocator (2 ^ 17) := by
  have hstretch : evenFree initPageAllocator (0 + 3) = evenFree initPageAllocator 0 + 3 :=
    evenFree_stretch fun k _ _ => bit_initBitmap _
  have hmono : evenFree initPageAllocator (0 + 3) ≤ evenFree initPageAllocator (2 ^ 17) :=
    evenFree_mono (by decide)
  omega

/-- At boot there is room, and the page is mapped. -/
theorem pg_map_unmap_update_boot :
    ∃ h', pgMap imageLayout false 0x80300000 0 0x40000000 0x90000000 4096 attrRw
        (clearHost initPageAllocator) = .ok () h' ∧
      PgMapsRange 0x80300000 0x40000000 0x90000000 4096 attrRw (clearHost initPageAllocator) h' ∧
      FreshLinks imageLayout (clearHost initPageAllocator) h' := by
  have hle : pgNeeded imageLayout 0x80300000 (clearHost initPageAllocator) 0x40000000 4096 ≤ 3 :=
    needed_le _
  have hlow : pgNeeded imageLayout 0x80300000 (clearHost initPageAllocator) 0x40000000 4096 ≤
      evenFree initPageAllocator (2 ^ 17) := Nat.le_trans hle evenFree_init
  have hwin : InWindow imageLayout 0x80300000 (clearHost initPageAllocator) 0x40000000 4096 := by
    intro i _ j b h0 _ hb
    rw [tableAt_of_clear (fun _ => rfl) h0] at hb
    cases hb
  exact ((pg_map_unmap_update imageRoot (built_clear imageLayout 0x80300000 initPageAllocator)).1
    false 0x40000000 0x90000000 4096 attrRw ⟨rfl, by decide⟩ ⟨rfl, by decide, by decide⟩ (.inl rfl)
    (Nat.le_trans hlow (evenFree_mono (by decide)))).mpr ⟨hlow, fun _ => hwin⟩

end HyperCore.Riscv64
