import HyperCore.Riscv64.GuestRam
import HyperCore.Core.Stage2Contract

/-!
# The RISC-V side of the interface

`stage2_map` hands its arguments on to `pg_map`, but `attr` stands in the place of the size and
`map_size` in that of the attributes. So the call maps `roundup(attr)` bytes, with the low bits of
`map_size` as the flags; a size of whole pages has none of them set.

`pg_contract_iff` says when that is, all the same, what the header promises: where the two lengths
fit together, the low bits of the size grant an access, and the pages that `attr` adds are such that
writing them changes nothing.
-/

namespace HyperCore.Riscv64

open RadixTable Bitmap PageAlloc ArchPage TableMap Stage2Contract

/-! ## The code -/

/-- The size that `pg_map` receives: the attributes, widened to 64 bits. -/
def sizeOfAttr (attr : BitVec 32) : Nat := (attr.signExtend 64).toNat

/-- The attributes that it receives: the size, cut to 32 bits. -/
def attrOfSize (mapSize : Nat) : BitVec 32 := BitVec.ofNat 32 mapSize

/-- `stage2_map`. Of `info` it reads `root_table` only, and `acc` not at all. -/
def stage2Map (L : Layout) (rootTable vaddr paddr mapSize : Nat) (attr _acc : BitVec 32) :
    HostM Unit :=
  pgMap L false rootTable 0 vaddr paddr (sizeOfAttr attr) (attrOfSize mapSize)

/-- `stage2_unmap` -/
def stage2Unmap (L : Layout) (rootTable vaddr mapSize : Nat) : HostM Unit :=
  pgUnmap L rootTable 0 vaddr mapSize

/-! ## The guest's view -/

/-- The G-stage walk with the flags of the leaf. -/
def gWalk (root : Nat) (m : Nat → Word) (gpa : Nat) : Option (Nat × PteFlags) :=
  if gpa < 2 ^ 50 then
    (sv48WalkFrom m gpa (root + 4096 * (gpa / 2 ^ 48)) 3).filter fun r => r.2.user
  else none

theorem gStageWalk_eq (m : Nat → Word) (root gpa : Nat) :
    gStageWalk m root gpa = (gWalk root m gpa).map Prod.fst := by
  rw [gStageWalk, gWalk]
  split
  · cases sv48WalkFrom m gpa (root + 4096 * (gpa / 2 ^ 48)) 3 with
    | none => rfl
    | some r =>
      obtain ⟨pa, flags⟩ := r
      rw [Option.bind_some, Option.filter_some]
      show (if flags.user = true then some pa else none) =
        (if flags.user = true then some (pa, flags) else none).map Prod.fst
      split <;> rfl
  · rfl

/-- A leaf that the guest's walk accepts: it has an access, and is the user's. -/
def grants (attr : BitVec 32) : Bool :=
  (attrRead attr || attrWrite attr || attrExec attr) && attrUser attr

/-- What the walk of `gpa` finds in the entry for `pa`. -/
def leafSeen (pa : Nat) (attr : BitVec 32) (gpa : Nat) : Option (Nat × PteFlags) :=
  if grants attr then some (pa % 2 ^ 56 / 4096 * 4096 + gpa % 4096, requested attr) else none

/-- A last-level entry as the guest's walk of `gpa` reads it. -/
def gLeaf (gpa : Nat) (d : Word) : Option (Nat × PteFlags) := (pgLeaf gpa d).filter fun r => r.2.user

theorem gLeaf_dead {gpa : Nat} {d : Word} (h : pteIsValid d = false) : gLeaf gpa d = none := by
  rw [gLeaf, pgLeaf_dead h, Option.filter_none]

theorem gLeaf_leaf (gpa pa : Nat) (attr : BitVec 32) :
    gLeaf gpa (leafEntry pa attr).bits = leafSeen pa attr gpa := by
  have hbase : tableBase (leafEntry pa attr).bits = pa % 2 ^ 56 / 4096 * 4096 := by
    rw [tableBase, baseField_bits, (leafEntry_base pa attr).1]
    omega
  rw [gLeaf, pgLeaf, pteIsValid_leaf, flagsOf_leaf, highBits_bits, hbase, leafSeen, grants, requested]
  cases attrRead attr <;> cases attrWrite attr <;> cases attrExec attr <;> cases attrUser attr <;> rfl

/-! ## Trees -/

/-- A stage-2 tree with nothing past the first page of its root. -/
structure GTree (L : Layout) (root : Nat) (h : Host) : Prop where
  tables : Tables (pgMapper L false) root 3 h
  upper : ∀ i, 512 ≤ i → i < 2048 → h.mem (slot root i) = 0

/-- The trees at the stage-2 root: an empty root, then calls of `pg_map` with room for their tables
and of `stage2_unmap`, in any order, with other code running in between. -/
inductive S2Built (L : Layout) (root : Nat) : Host → Prop
  | clear {h : Host} : RootClear root h → S2Built L root h
  | map {h h' : Host} {vaddr paddr mapSize : Nat} {attr : BitVec 32} : S2Built L root h →
      MapRoom L false root h vaddr mapSize →
      pgMap L false root 0 vaddr paddr mapSize attr h = .ok () h' → S2Built L root h'
  | unmap {h h' : Host} {vaddr mapSize : Nat} : S2Built L root h → VirtRange vaddr mapSize →
      stage2Unmap L root vaddr mapSize h = .ok () h' → S2Built L root h'
  | other {h h' : Host} : S2Built L root h → Untouched (pgMapper L false) root 3 h h' →
      (∀ i, 512 ≤ i → i < 2048 → h'.mem (slot root i) = h.mem (slot root i)) → S2Built L root h'

section

variable {L : Layout} {root : Nat} {h h' : Host} {vaddr paddr mapSize gpa : Nat}
variable {attr : BitVec 32}

/-- The walk of an address below `2 ^ 48` is that of the tree. -/
theorem gWalk_low (ht : GTree L root h) (hgpa : gpa < 2 ^ 48) :
    gWalk root h.mem gpa =
      lookup (pgMapper L false).format (gLeaf gpa) h.mem root 3 (pgIndex 0 gpa) := by
  have hzero : gpa / 2 ^ 48 = 0 := Nat.div_eq_of_lt hgpa
  have hwalk := sv48Walk_eq ht.tables.tree gpa
  rw [sv48Walk] at hwalk
  rw [gWalk, if_pos (by omega), hzero, Nat.mul_zero, Nat.add_zero, hwalk, lookup, lookup]
  cases tableAt (pgMapper L false).format h.mem root (pgIndex 0 gpa) 3 with
  | none => rfl
  | some b => rfl

/-- Past it there is nothing. -/
theorem gWalk_high (ht : GTree L root h) (hgpa : 2 ^ 48 ≤ gpa) : gWalk root h.mem gpa = none := by
  rw [gWalk]
  split
  · next hlt => rw [sv48WalkFrom_upper ht.upper hgpa hlt, Option.filter_none]
  · rfl

/-! ## Slots -/

/-- An address has the indices of page `i` exactly if it is in that page below `2 ^ 48`. -/
theorem agree_slot (vaddr i gpa : Nat) :
    AgreeTo 4 (pgIndex 0 gpa) (rangeIndex vaddr i) ↔
      gpa % 2 ^ 48 / 4096 = (vaddr + 4096 * i) % 2 ^ 48 / 4096 := by
  have hiff := agree_iff_page (Nat.zero_le 3) gpa ((vaddr + pageSize * i) % 2 ^ 64)
  have hmod : (vaddr + pageSize * i) % 2 ^ 64 % 2 ^ 48 = (vaddr + 4096 * i) % 2 ^ 48 :=
    Nat.mod_mod_of_dvd _ ⟨2 ^ 16, by decide⟩
  rw [← hmod]
  exact hiff

theorem slots_agree (vaddr i j : Nat) :
    AgreeTo 4 (rangeIndex vaddr i) (rangeIndex vaddr j) ↔
      (vaddr + 4096 * i) % 2 ^ 48 / 4096 = (vaddr + 4096 * j) % 2 ^ 48 / 4096 := by
  have hmod : (vaddr + pageSize * i) % 2 ^ 64 % 2 ^ 48 = (vaddr + 4096 * i) % 2 ^ 48 :=
    Nat.mod_mod_of_dvd _ ⟨2 ^ 16, by decide⟩
  rw [← hmod]
  exact agree_slot vaddr j _

/-- The pages of up to `2 ^ 36` have slots of their own. -/
theorem slots_distinct {n i j : Nat} (hv : vaddr % 4096 = 0) (hn : n ≤ 2 ^ 36) (hi : i < n)
    (hj : j < n) (hne : i ≠ j) : ¬ AgreeTo 4 (rangeIndex vaddr i) (rangeIndex vaddr j) := by
  rw [slots_agree]
  omega

/-- There is not enough pool for the tables of more than `2 ^ 28` pages. -/
theorem pages_le (ht : Tables (pgMapper L false) root 3 h) (hv : vaddr % 4096 = 0) {n : Nat}
    (hall : ∀ i, i < n →
      (tableAt (pgMapper L false).format h.mem root (rangeIndex vaddr i) 3).isSome) : n ≤ 2 ^ 28 := by
  by_contra hn
  -- one page in each of `2 ^ 19 + 1` last-level tables, and `2 ^ 19` pages for the tables
  have howned (j : Nat) (hj : j ∈ Finset.range (2 ^ 19 + 1)) : ∃ p, p < 2 ^ 19 ∧
      tableAt (pgMapper L false).format h.mem root (rangeIndex vaddr (512 * j)) 3 =
        some (L.physPage p) := by
    have hlt := Finset.mem_range.mp hj
    obtain ⟨b, hb⟩ := Option.isSome_iff_exists.mp (hall (512 * j) (by omega))
    obtain ⟨p, hp, rfl, -⟩ := ht.owned (by decide) (Nat.le_refl 3) hb
    exact ⟨p, hp, hb⟩
  choose! page hpage using howned
  obtain ⟨i, hi, j, hj, hne, hsame⟩ :=
    Finset.exists_ne_map_eq_of_card_lt_of_maps_to (s := Finset.range (2 ^ 19 + 1))
      (t := Finset.range (2 ^ 19)) (f := page) (by simp only [Finset.card_range]; decide)
      fun j hj => Finset.mem_coe.mpr (Finset.mem_range.mpr (hpage j hj).1)
  have hi' := Finset.mem_range.mp hi
  have hj' := Finset.mem_range.mp hj
  obtain ⟨-, hag⟩ := ht.tree.inj (Nat.le_refl 3) (Nat.le_refl 3) (hpage i hi).2
    (hsame ▸ (hpage j hj).2)
  refine hne ?_
  have hlast : rangeIndex vaddr (512 * i) 3 = rangeIndex vaddr (512 * j) 3 := by
    refine Fin.ext ?_
    simp only [rangeIndex, pgIndex, pteOffset, Fin.ofNat, pageSize]
    omega
  have hpages := (slots_agree vaddr (512 * i) (512 * j)).mp (hag.succ hlast)
  omega

/-! ## What the two calls do -/

/-- The page of the first `2 ^ 48` bytes whose slot page `i` of a range takes. -/
def slotPage (vaddr i : Nat) : Nat := (vaddr + 4096 * i) % 2 ^ 48 / 4096

theorem upper_pruned (hr : Stage2Root L root) {idx : Nat → Fin 512}
    (ht : Tables (pgMapper L false) root 3 h)
    (hu : ∀ i, 512 ≤ i → i < 2048 → h.mem (slot root i) = 0)
    (hp : Pruned (pgMapper L false) root 3 idx 0 h h') (i : Nat) (hi : 512 ≤ i) (hi' : i < 2048) :
    h'.mem (slot root i) = 0 := by
  rw [hp.frame (upper_notIn hr ht hi hi'), hu i hi hi']

/-- Unmapping pages that have entries with an address, in tables in reach. -/
theorem pgUnmap_keeps (hr : Stage2Root L root) (ht : GTree L root h) (hv : VirtRange vaddr mapSize)
    (hsee : ∀ i, i < pageCount mapSize → Sees (pgMapper L false) root 3 h (rangeIndex vaddr i))
    (hm : ∀ i, i < pageCount mapSize → Mapped (pgMapper L false) root 3 h (rangeIndex vaddr i)) :
    ∃ h', stage2Unmap L root vaddr mapSize h = .ok () h' ∧ GTree L root h' ∧
      ∀ {O : Type} (leaf : Word → Option O), (∀ e, (pgMapper L false).live e = false → leaf e = none) →
        (∀ i, i < pageCount mapSize →
          lookup (pgMapper L false).format leaf h'.mem root 3 (rangeIndex vaddr i) = none) ∧
        ∀ idx, (∀ i, i < pageCount mapSize → ¬ AgreeTo 4 idx (rangeIndex vaddr i)) →
          lookup (pgMapper L false).format leaf h'.mem root 3 idx =
            lookup (pgMapper L false).format leaf h.mem root 3 idx := by
  obtain ⟨h', hrun, htab, hupper, -, hw⟩ := unmapPages_keeps
    (I := fun h => ∀ i, 512 ≤ i → i < 2048 → h.mem (slot root i) = 0) ht.tables
    (hr.static.at_root false) hr.static.ne_zero hsee
    (fun i j hij hj => hv.distinct hj (Nat.lt_trans hij hj) (Nat.ne_of_gt hij)) hm ht.upper
    fun htab hu hp => upper_pruned hr htab hu hp
  refine ⟨h', ?_, ⟨htab, hupper⟩, hw⟩
  rw [stage2Unmap, pgUnmap_eq]
  exact hrun

/-- A call of `stage2_unmap` that returns had such pages. -/
theorem pgUnmap_ok (hr : Stage2Root L root) (ht : GTree L root h) (hv : VirtRange vaddr mapSize)
    (hrun : stage2Unmap L root vaddr mapSize h = .ok () h') (i : Nat) (hi : i < pageCount mapSize) :
    Mapped (pgMapper L false) root 3 h (rangeIndex vaddr i) ∧
      Reached (pgMapper L false) root 3 h (rangeIndex vaddr i) := by
  rw [stage2Unmap, pgUnmap_eq] at hrun
  exact unmapPages_ok ht.tables (hr.static.at_root false) hr.static.ne_zero (pgMapper_blindHigh L)
    (fun i j hij hj => hv.distinct hj (Nat.lt_trans hij hj) (Nat.ne_of_gt hij)) hrun i hi

/-- Every tree that the code makes is in order. -/
theorem S2Built.tree (hr : Stage2Root L root) (hb : S2Built L root h) : GTree L root h := by
  induction hb with
  | clear hz =>
    exact ⟨.of_clear (fun i => hz i (by omega)) hr.static.aligned
      fun _ he => absurd he (hr.static.ne_page _), fun i _ hi => hz i hi⟩
  | @map _ _ _ paddr _ attr _ hroom hrun ih =>
    obtain ⟨h₁, hrun₁, hg, -⟩ := pgMap_run paddr attr hr.static ih.tables hroom
    cases hrun₁.symm.trans hrun
    exact ⟨tables_direct hg.tables, upper_grown hr ih.upper hg⟩
  | unmap _ hv hrun ih =>
    have hok := pgUnmap_ok hr ih hv hrun
    obtain ⟨h₁, hrun₁, ht, -⟩ := pgUnmap_keeps hr ih hv (fun i hi => (hok i hi).2.sees)
      fun i hi => (hok i hi).1
    cases hrun₁.symm.trans hrun
    exact ht
  | other _ hu hupper ih =>
    exact ⟨ih.tables.untouched hu, fun i h1 h2 => by rw [hupper i h1 h2, ih.upper i h1 h2]⟩

/-- What `pg_map` leaves behind: its own entries in the slots of its pages. -/
theorem pgMap_entries (hr : Stage2Root L root) (ht : GTree L root h) (hv : vaddr % 4096 = 0)
    (hroom : MapRoom L false root h vaddr mapSize) (paddr : Nat) (attr : BitVec 32) :
    ∃ h', pgMap L false root 0 vaddr paddr mapSize attr h = .ok () h' ∧ GTree L root h' ∧
      pageCount mapSize ≤ 2 ^ 28 ∧
      (∀ i, i < pageCount mapSize → Sees (pgMapper L false) root 3 h' (rangeIndex vaddr i)) ∧
      ∀ {O : Type} (leaf : Word → Option O), leaf 0 = none →
        (∀ i, i < pageCount mapSize →
          lookup (pgMapper L false).format leaf h'.mem root 3 (rangeIndex vaddr i) =
            leaf (leafEntry ((paddr + pageSize * i) % 2 ^ 64) attr).bits) ∧
        ∀ idx, (∀ i, i < pageCount mapSize → ¬ AgreeTo 4 idx (rangeIndex vaddr i)) →
          lookup (pgMapper L false).format leaf h'.mem root 3 idx =
            lookup (pgMapper L false).format leaf h.mem root 3 idx := by
  obtain ⟨h', hrun, hg, hw⟩ := pgMap_run paddr attr hr.static ht.tables hroom
  have htab := tables_direct hg.tables
  have hle : pageCount mapSize ≤ 2 ^ 28 :=
    pages_le htab hv fun i hi => (hg.new (Nat.le_refl 3)).mpr (.inr ⟨i, hi, AgreeTo.refl _ _⟩)
  have hdist (i j : Nat) (hij : i < j) (hj : j < pageCount mapSize) :
      ¬ AgreeTo 4 (rangeIndex vaddr i) (rangeIndex vaddr j) :=
    slots_distinct hv (Nat.le_trans hle (by decide)) (Nat.lt_trans hij hj) hj (Nat.ne_of_lt hij)
  exact ⟨h', hrun, ⟨htab, upper_grown hr ht.upper hg⟩, hle,
    fun i hi => (hroom.2 rfl i hi).sees.grown hg,
    fun leaf hleaf => ⟨(hw leaf hleaf).1 hdist, (hw leaf hleaf).2⟩⟩

/-- In a slot that the call writes the guest sees the written entry. -/
theorem gWalk_written (ht : GTree L root h) {i : Nat} (hgpa : gpa < 2 ^ 48)
    (hslot : gpa / 4096 = slotPage vaddr i)
    (hnew : ∀ {O : Type} (leaf : Word → Option O), leaf 0 = none →
      lookup (pgMapper L false).format leaf h.mem root 3 (rangeIndex vaddr i) =
        leaf (leafEntry ((paddr + pageSize * i) % 2 ^ 64) attr).bits) :
    gWalk root h.mem gpa = leafSeen (paddr + pageSize * i) attr gpa := by
  have hag : AgreeTo 4 (pgIndex 0 gpa) (rangeIndex vaddr i) := by
    rw [agree_slot, Nat.mod_eq_of_lt hgpa]
    exact hslot
  have hmod : (paddr + pageSize * i) % 2 ^ 64 % 2 ^ 56 = (paddr + pageSize * i) % 2 ^ 56 :=
    Nat.mod_mod_of_dvd _ ⟨2 ^ 8, by decide⟩
  rw [gWalk_low ht hgpa, lookup_congr hag, hnew _ (gLeaf_dead (by decide)), gLeaf_leaf, leafSeen,
    leafSeen, hmod]

/-- In every other slot it sees what it saw before. -/
theorem gWalk_kept {n : Nat} (ht : GTree L root h) (ht' : GTree L root h')
    (hout : gpa < 2 ^ 48 → ∀ i, i < n → gpa / 4096 ≠ slotPage vaddr i)
    (hold : ∀ idx, (∀ i, i < n → ¬ AgreeTo 4 idx (rangeIndex vaddr i)) →
      lookup (pgMapper L false).format (gLeaf gpa) h'.mem root 3 idx =
        lookup (pgMapper L false).format (gLeaf gpa) h.mem root 3 idx) :
    gWalk root h'.mem gpa = gWalk root h.mem gpa := by
  rcases Nat.lt_or_ge gpa (2 ^ 48) with hlt | hge
  · rw [gWalk_low ht' hlt, gWalk_low ht hlt]
    refine hold _ fun i hi hag => hout hlt i hi ?_
    rw [agree_slot, Nat.mod_eq_of_lt hlt] at hag
    exact hag
  · rw [gWalk_high ht' hge, gWalk_high ht hge]

/-- Below `2 ^ 48` the pages of a range are in their own slots. -/
theorem slotPage_low {i : Nat} (hlt : vaddr + 4096 * i < 2 ^ 48) :
    slotPage vaddr i = vaddr / 4096 + i := by
  rw [slotPage, Nat.mod_eq_of_lt hlt]
  omega

/-- After `stage2_unmap` of mapped pages exactly the range stops translating. -/
theorem stage2Unmap_walks (hr : Stage2Root L root) (ht : GTree L root h) (hv : vaddr % 4096 = 0)
    (hbound : vaddr + pageSize * pagesOf mapSize ≤ 2 ^ 48)
    (hsee : ∀ i, i < pagesOf mapSize → Sees (pgMapper L false) root 3 h (rangeIndex vaddr i))
    (hm : ∀ i, i < pagesOf mapSize → Mapped (pgMapper L false) root 3 h (rangeIndex vaddr i)) :
    ∃ h', stage2Unmap L root vaddr mapSize h = .ok () h' ∧
      (∀ gpa, Covers vaddr mapSize gpa → gWalk root h'.mem gpa = none) ∧
      ∀ gpa, ¬ Covers vaddr mapSize gpa → gWalk root h'.mem gpa = gWalk root h.mem gpa := by
  have hcount : pageCount mapSize = pagesOf mapSize := pageCount_eq (by omega)
  have hrange : VirtRange vaddr mapSize := ⟨hv, hcount ▸ hbound⟩
  rw [← hcount] at hsee hm
  obtain ⟨h', hrun, ht', hw⟩ := pgUnmap_keeps hr ht hrange hsee hm
  have hleaf (gpa : Nat) := hw (gLeaf gpa) fun _ => gLeaf_dead
  refine ⟨h', hrun, fun gpa hc => ?_, fun gpa hno => ?_⟩
  · obtain ⟨h1, h2⟩ := hc
    simp only [pageSize] at h2 hbound
    have hi : (gpa - vaddr) / 4096 < pageCount mapSize := by omega
    have hgpa : gpa < 2 ^ 48 := by omega
    have hag := (hrange.agree_iff hgpa hi).mpr (by omega)
    rw [gWalk_low ht' (by omega), lookup_congr hag]
    exact (hleaf gpa).1 _ hi
  · refine gWalk_kept ht ht' (fun hlt i hi he => hno ?_) (hleaf gpa).2
    simp only [Covers, pageSize] at hbound ⊢
    rw [slotPage_low (by omega)] at he
    omega

/-! ## The contract -/

/-- The low bits of the size grant an access, and the range can be mapped and unmapped again. -/
structure RangeServes (root : Nat) (h : Host) (vaddr paddr mapSize : Nat) : Prop where
  access : grants (attrOfSize mapSize) = true
  output : 0 < paddr ∧ paddr + pageSize * pagesOf mapSize ≤ 2 ^ 56
  input : vaddr + pageSize * pagesOf mapSize ≤ 2 ^ 48
  empty : ∀ gpa, Covers vaddr mapSize gpa → gWalk root h.mem gpa = none

/-- `attr`, read as a size, has the pages of the range, there is room to map them, and the further
ones translate already to what the call writes there. -/
structure PgServes (L : Layout) (root : Nat) (h : Host) (vaddr paddr mapSize : Nat)
    (attr : BitVec 32) : Prop where
  room : MapRoom L false root h vaddr (sizeOfAttr attr)
  pages : pagesOf mapSize ≤ pageCount (sizeOfAttr attr)
  further : ∀ i, pagesOf mapSize ≤ i → i < pageCount (sizeOfAttr attr) → ∀ gpa, gpa < 2 ^ 48 →
    gpa / 4096 = slotPage vaddr i →
    gWalk root h.mem gpa = leafSeen (paddr + pageSize * i) (attrOfSize mapSize) gpa
  range : mapSize = 0 ∨ RangeServes root h vaddr paddr mapSize

/-- An entry can be unmapped exactly if its address is not zero. -/
theorem present_leaf (L : Layout) (pa : Nat) (attr : BitVec 32) :
    (pgMapper L false).present (leafEntry pa attr).bits = some () ↔ pa / 2 ^ 12 % 2 ^ 44 ≠ 0 := by
  have hlive : (pgMapper L false).live (leafEntry pa attr).bits = true := pteIsValid_leaf pa attr
  have hbase : (pgMapper L false).base (leafEntry pa attr).bits = pa / 2 ^ 12 % 2 ^ 44 * 4096 := by
    show baseField (leafEntry pa attr).bits * 4096 = _
    rw [baseField_bits, (leafEntry_base pa attr).1]
  rw [Mapper.present, hlive, hbase, Bool.true_and]
  split
  · next hne => simpa using hne
  · next hz => simpa using hz

/-- A page past the range has no address of the range in its slot. -/
theorem not_covers_further {n i : Nat} (hv : vaddr % 4096 = 0)
    (hn : n ≤ 2 ^ 28) (hlo : pagesOf mapSize ≤ i) (hhi : i < n) (hslot : gpa / 4096 = slotPage vaddr i) :
    ¬ Covers vaddr mapSize gpa := by
  rintro ⟨h1, h2⟩
  simp only [pageSize, slotPage] at *
  omega

/-- A call that keeps the contract was one that could. -/
theorem PgServes.of_contract {acc : BitVec 32} (hr : Stage2Root L root) (ht : GTree L root h)
    (hv : vaddr % 4096 = 0) (hp : paddr % 4096 = 0)
    (henough : pgNeeded L root h vaddr (sizeOfAttr attr) ≤ evenFree h.bitmap (totalPages / 2))
    (hc : Contract (gWalk root) (stage2Map L root vaddr paddr mapSize attr acc)
      (stage2Unmap L root vaddr mapSize) vaddr paddr mapSize h) :
    PgServes L root h vaddr paddr mapSize attr := by
  obtain ⟨h₁, h₂, hrun, hmaps, hrun₂, hundo⟩ := hc
  have hroom : MapRoom L false root h vaddr (sizeOfAttr attr) :=
    Classical.byContradiction fun hno =>
      (pgMap_direct_fails hr.static ht.tables henough hno).not_ok hrun
  obtain ⟨h₁', hrun₁, ht₁, hle, -, hw⟩ :=
    pgMap_entries hr ht hv hroom paddr (attrOfSize mapSize)
  cases hrun₁.symm.trans hrun
  have hnew {i : Nat} (hi : i < pageCount (sizeOfAttr attr)) {gpa : Nat} (hgpa : gpa < 2 ^ 48)
      (hslot : gpa / 4096 = slotPage vaddr i) :
      gWalk root h₁.mem gpa = leafSeen (paddr + pageSize * i) (attrOfSize mapSize) gpa :=
    gWalk_written ht₁ hgpa hslot fun leaf hleaf => (hw leaf hleaf).1 i hi
  by_cases hsize : mapSize = 0
  · subst hsize
    refine ⟨hroom, by rw [pagesOf_zero]; exact Nat.zero_le _, fun i _ hi gpa hgpa hslot => ?_, .inl rfl⟩
    rw [← hnew hi hgpa hslot]
    exact (hmaps.outside gpa (not_covers_zero vaddr gpa)).symm
  -- the guest's addresses that translate lie below `2 ^ 48`
  have hlow (gpa : Nat) (hc : Covers vaddr mapSize gpa) : gpa < 2 ^ 48 := by
    refine Nat.lt_of_not_le fun hge => ?_
    obtain ⟨a, hwalk⟩ := hmaps.inside gpa hc
    rw [gWalk_high ht₁ hge] at hwalk
    cases hwalk
  have hbound := covers_below hsize hlow
  have hcount : pageCount mapSize = pagesOf mapSize := pageCount_eq (by omega)
  have hok := pgUnmap_ok hr ht₁ ⟨hv, hcount ▸ hbound⟩ hrun₂
  rw [hcount] at hok
  obtain ⟨h₂', hrun₂', hgone, -⟩ := stage2Unmap_walks hr ht₁ hv hbound
    (fun i hi => (hok i hi).2.sees) fun i hi => (hok i hi).1
  cases hrun₂'.symm.trans hrun₂
  have hempty (gpa : Nat) (hc : Covers vaddr mapSize gpa) : gWalk root h.mem gpa = none := by
    rw [← hundo gpa]
    exact hgone gpa hc
  have hpages : pagesOf mapSize ≤ pageCount (sizeOfAttr attr) := by
    refine Nat.le_of_not_lt fun hlt => ?_
    have hc : Covers vaddr mapSize (vaddr + pageSize * pageCount (sizeOfAttr attr) + 0) :=
      covers_page hlt (by decide)
    obtain ⟨a, hwalk⟩ := hmaps.inside _ hc
    rw [gWalk_kept ht ht₁ (fun _ i hi he => ?_) (hw _ (gLeaf_dead (by decide))).2, hempty _ hc] at hwalk
    · cases hwalk
    · have hend := hlow _ hc
      simp only [pageSize] at he hend
      rw [slotPage_low (by omega)] at he
      omega
  have hseen (gpa : Nat) (hc : Covers vaddr mapSize gpa) :
      ∃ a, leafSeen (paddr + pageSize * ((gpa - vaddr) / 4096)) (attrOfSize mapSize) gpa =
        some (paddr + (gpa - vaddr), a) := by
    obtain ⟨a, hwalk⟩ := hmaps.inside gpa hc
    have hgpa := hlow gpa hc
    obtain ⟨h1, h2⟩ := hc
    simp only [pageSize] at h2
    refine ⟨a, ?_⟩
    rw [← hnew (i := (gpa - vaddr) / 4096) (by omega) hgpa
      (by rw [slotPage_low (by omega)]; omega)]
    exact hwalk
  have hfirst : Covers vaddr mapSize (vaddr + pageSize * 0 + 0) :=
    covers_page (pagesOf_pos hsize) (by decide)
  refine ⟨hroom, hpages, fun i hlo hhi gpa hgpa hslot => ?_, .inr ⟨?_, ⟨?_, ?_⟩, hbound, hempty⟩⟩
  · rw [← hnew hhi hgpa hslot]
    exact (hmaps.outside gpa (not_covers_further hv hle hlo hhi hslot)).symm
  · obtain ⟨a, hs⟩ := hseen _ hfirst
    rw [leafSeen] at hs
    split at hs
    · assumption
    · cases hs
  · -- the first page was unmapped, so its entry has an address
    have hpos := pagesOf_pos hsize
    have hpres := (hok 0 hpos).1
    rw [Mapped, (hw _ (present_of_dead (pgMapper L false).live_zero)).1 0 (by omega),
      present_leaf] at hpres
    simp only [pageSize] at hpres
    omega
  · -- the walk has 56 address bits
    refine covers_below hsize fun pa hpa => ?_
    obtain ⟨h1, h2⟩ := hpa
    obtain ⟨a, hs⟩ := hseen (vaddr + (pa - paddr)) ⟨by omega, by omega⟩
    rw [leafSeen] at hs
    split at hs
    · have haddr := congrArg Prod.fst (Option.some.inj hs)
      simp only [pageSize] at haddr
      omega
    · cases hs

/-- A call that can keeps the contract. -/
theorem PgServes.contract (hr : Stage2Root L root) (ht : GTree L root h)
    (hv : vaddr % 4096 = 0) (hp : paddr % 4096 = 0)
    (hs : PgServes L root h vaddr paddr mapSize attr) (acc : BitVec 32) :
    Contract (gWalk root) (stage2Map L root vaddr paddr mapSize attr acc)
      (stage2Unmap L root vaddr mapSize) vaddr paddr mapSize h := by
  obtain ⟨h₁, hrun, ht₁, hle, hsee, hw⟩ :=
    pgMap_entries hr ht hv hs.room paddr (attrOfSize mapSize)
  have hnew {i : Nat} (hi : i < pageCount (sizeOfAttr attr)) {gpa : Nat} (hgpa : gpa < 2 ^ 48)
      (hslot : gpa / 4096 = slotPage vaddr i) :
      gWalk root h₁.mem gpa = leafSeen (paddr + pageSize * i) (attrOfSize mapSize) gpa :=
    gWalk_written ht₁ hgpa hslot fun leaf hleaf => (hw leaf hleaf).1 i hi
  have hpages := hs.pages
  have hout (gpa : Nat) (hno : ¬ Covers vaddr mapSize gpa) :
      gWalk root h₁.mem gpa = gWalk root h.mem gpa := by
    by_cases hit : ∃ i, i < pageCount (sizeOfAttr attr) ∧ gpa < 2 ^ 48 ∧ gpa / 4096 = slotPage vaddr i
    · obtain ⟨i, hi, hgpa, hslot⟩ := hit
      have hlo : pagesOf mapSize ≤ i := by
        rcases hs.range with rfl | hrange
        · rw [pagesOf_zero]
          exact Nat.zero_le i
        · refine Nat.le_of_not_lt fun hlt => hno ?_
          have hin := hrange.input
          simp only [Covers, pageSize] at hin ⊢
          rw [slotPage_low (by omega)] at hslot
          omega
      rw [hnew hi hgpa hslot, hs.further i hlo hi gpa hgpa hslot]
    · exact gWalk_kept ht ht₁ (fun hgpa i hi he => hit ⟨i, hi, hgpa, he⟩)
        (hw _ (gLeaf_dead (by decide))).2
  rcases hs.range with rfl | hrange
  · refine ⟨h₁, h₁, hrun, ⟨fun gpa hc => absurd hc (not_covers_zero vaddr gpa), hout⟩, ?_,
      fun gpa => hout gpa (not_covers_zero vaddr gpa)⟩
    rw [stage2Unmap, pgUnmap, pageCount_zero]
    rfl
  · obtain ⟨hpos, hpb⟩ := hrange.output
    have hin := hrange.input
    obtain ⟨h₂, hrun₂, hgone, hkept⟩ := stage2Unmap_walks hr ht₁ hv hin
      (fun i hi => hsee i (Nat.lt_of_lt_of_le hi hpages)) fun i hi => by
        rw [Mapped, (hw _ (present_of_dead (pgMapper L false).live_zero)).1 i
          (Nat.lt_of_lt_of_le hi hpages), present_leaf]
        simp only [pageSize] at hpb ⊢
        omega
    refine ⟨h₁, h₂, hrun, ⟨fun gpa hc => ⟨requested (attrOfSize mapSize), ?_⟩, hout⟩, hrun₂,
      fun gpa => ?_⟩
    · obtain ⟨h1, h2⟩ := hc
      simp only [pageSize] at h2 hin hpb
      rw [hnew (i := (gpa - vaddr) / 4096) (by omega) (by omega)
        (by rw [slotPage_low (by omega)]; omega), leafSeen, if_pos hrange.access]
      simp only [Option.some.injEq, Prod.mk.injEq, and_true, pageSize]
      omega
    · by_cases hc : Covers vaddr mapSize gpa
      · rw [hgone gpa hc, hrange.empty gpa hc]
      · rw [hkept gpa hc, hout gpa hc]

/-- In every tree that the code makes, with enough free pages in the allocator. -/
theorem pg_contract_iff (hr : Stage2Root L root) (hb : S2Built L root h) (hv : vaddr % 4096 = 0)
    (hp : paddr % 4096 = 0) (acc : BitVec 32)
    (henough : pgNeeded L root h vaddr (sizeOfAttr attr) ≤ evenFree h.bitmap (totalPages / 2)) :
    Contract (gWalk root) (stage2Map L root vaddr paddr mapSize attr acc)
        (stage2Unmap L root vaddr mapSize) vaddr paddr mapSize h ↔
      PgServes L root h vaddr paddr mapSize attr :=
  ⟨.of_contract hr (hb.tree hr) hv hp henough, fun hs => hs.contract hr (hb.tree hr) hv hp acc⟩

end

end HyperCore.Riscv64
