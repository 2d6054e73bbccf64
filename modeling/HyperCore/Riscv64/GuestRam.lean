import HyperCore.Core.TableTake
import HyperCore.Riscv64.PgMap
import HyperCore.Riscv64.GuestAccess

/-!
# Guest RAM and the stage-2 table

`init_guest_memory` identity-maps `[guest_ram_base, guest_ram_base + guest_ram_size)`, which come
from the boot arguments unchecked, and `handle_stage2_fault` maps single pages of the region that
the fault hits. The page allocator hands out the pool from its start, and nothing reserves the
guest's RAM in it.

`guest_ram_exact`: where the range is of whole pages below `2 ^ 48`, and each allocation finds its
lowest free pages outside it, exactly the range translates, to itself, and no page handed out lies
in it, along every run.
-/

namespace HyperCore.Riscv64

open RadixTable Bitmap PageAlloc ArchPage TableMap

/-! ## The code -/

/-- `PAGE_ATTR_EXEC | PAGE_ATTR_READ | PAGE_ATTR_WRITE | PAGE_ATTR_USER` -/
def guestRamAttr : BitVec 32 := 0x1e

def initGuestMemory (L : Layout) (root : Nat) (R : GuestRam) : HostM Unit :=
  pgMap L false root 0 R.base R.base R.size guestRamAttr

/-- `struct mem_region`; `dev` says that an emulated device was found for it. -/
structure MemRegion where
  gpa : Nat
  hpa : Nat
  size : Nat
  attr : BitVec 32
  dev : Bool
deriving DecidableEq

/-- The regions of `arch_vcpu_init`: guest RAM, the UART and the PLIC. -/
def vcpuRegions (R : GuestRam) : List MemRegion :=
  [⟨R.base, R.base, R.size, guestRamAttr, false⟩, ⟨0x20000000, 0, 0x1000, 0, true⟩,
    ⟨0x0c000000, 0, 0x400000, 0, true⟩]

def guestMemFindRegion (regions : List MemRegion) (gpa : Nat) : Option MemRegion :=
  regions.find? fun r => r.gpa ≤ gpa && gpa < (r.gpa + r.size) % 2 ^ 64

def stage2FaultAddr (htval stval : BitVec 64) : BitVec 64 := (htval <<< 2) ||| (stval &&& 3)

/-- What became of a guest page fault: an exception for the guest, an emulated access, or a map. -/
inductive FaultResult
  | redirected | emulated | mapped

def handleStage2Fault (L : Layout) (root : Nat) (regions : List MemRegion)
    (htval stval : BitVec 64) : HostM FaultResult :=
  let faultAddr := stage2FaultAddr htval stval
  let faultPage := (faultAddr &&& ~~~0xfff#64).toNat
  match guestMemFindRegion regions faultAddr.toNat with
  | none => pure .redirected
  | some region =>
    if region.dev then pure .emulated
    else do
      let hpa := MachineInt.toUInt64 ((region.hpa : Int) + (faultPage - region.gpa))
      pgMap L false root 0 faultPage hpa pageSize region.attr
      pure .mapped

/-! ## The guest's view -/

/-- The G-stage walk of Sv48x4: the root has 2048 entries, and a leaf must grant user access. -/
def gStageWalk (m : Nat → Word) (root gpa : Nat) : Option Nat :=
  if gpa < 2 ^ 50 then
    (sv48WalkFrom m gpa (root + 4096 * (gpa / 2 ^ 48)) 3).bind fun (pa, flags) =>
      if flags.user then some pa else none
  else none

/-- A stage-2 root in the image, four pages long. -/
structure Stage2Root (L : Layout) (root : Nat) : Prop where
  static : StaticRoot L root
  inside : root + 4 * 4096 ≤ L.hyperEnd

namespace GuestRam

/-- The guest's RAM has the address. -/
def Has (R : GuestRam) (gpa : Nat) : Prop := R.base ≤ gpa ∧ gpa < R.base + R.size

/-- Page `p` of the pool has bytes of guest RAM. -/
def Meets (R : GuestRam) (L : Layout) (p : Nat) : Prop :=
  ∃ x, L.physPage p ≤ x ∧ x < L.physPage p + pageSize ∧ R.Has x

/-- Whole pages that the stage-2 table can map, or no memory at all. -/
def Mappable (R : GuestRam) : Prop :=
  R.size = 0 ∨ R.base % 4096 = 0 ∧ R.size % 4096 = 0 ∧ R.base + R.size ≤ 2 ^ 48

/-- No page handed out lies in guest RAM. -/
def Apart (R : GuestRam) (L : Layout) (bm : Bitmap) : Prop :=
  ∀ p, p < totalPages → bit bm p = true → ¬ R.Meets L p

/-- Exactly guest RAM translates, to itself, and no page handed out lies in it. -/
structure Exact (R : GuestRam) (L : Layout) (root : Nat) (h : Host) : Prop where
  translates : ∀ gpa, (gStageWalk h.mem root gpa).isSome ↔ R.Has gpa
  itself : ∀ gpa pa, gStageWalk h.mem root gpa = some pa → pa = gpa
  apart : R.Apart L h.bitmap

end GuestRam

/-! ## Runs -/

/-- Before `init_guest_memory` the stage-2 root is empty. -/
def RootClear (root : Nat) (h : Host) : Prop := ∀ i, i < 2048 → h.mem (slot root i) = 0

/-- The allocations of `init_guest_memory` find room, outside guest RAM. -/
structure InitRoom (L : Layout) (root : Nat) (R : GuestRam) (h : Host) : Prop where
  mappable : R.Mappable
  room : pgNeeded L root h R.base R.size ≤ evenFree h.bitmap (pgHalf false)
  apart : R.Apart L h.bitmap
  spared : ∀ p, Lowest h.bitmap (pgNeeded L root h R.base R.size) p → ¬ R.Meets L p

/-- The states after boot, guest faults, and other activity of the hypervisor: allocations whose
lowest fit is outside guest RAM, frees, and writes outside the stage-2 tables. -/
inductive GuestRamRun (L : Layout) (root : Nat) (R : GuestRam) : Host → Prop
  | boot {h h' : Host} : RootClear root h → InitRoom L root R h →
      initGuestMemory L root R h = .ok () h' → GuestRamRun L root R h'
  | fault {h h' : Host} {htval stval : BitVec 64} {r : FaultResult} : GuestRamRun L root R h →
      handleStage2Fault L root (vcpuRegions R) htval stval h = .ok r h' → GuestRamRun L root R h'
  | alloc {h : Host} {cnt : Nat} : GuestRamRun L root R h → 1 ≤ cnt → cnt ≤ totalPages →
      (∀ p n, LeastRun h.bitmap cnt p → p ≤ n → n < p + cnt → ¬ R.Meets L n) →
      GuestRamRun L root R { h with bitmap := (allocPagesCnt h.bitmap cnt).2 }
  | free {h : Host} {pfn cnt : Nat} : GuestRamRun L root R h → pfn + cnt ≤ totalPages →
      (∀ idx k p, k ≤ 3 → tableAt (pgMapper L false).format h.mem root idx k =
        some (L.physPage p) → ¬ (pfn ≤ p ∧ p < pfn + cnt)) →
      GuestRamRun L root R { h with bitmap := freePagesCnt h.bitmap pfn cnt }
  | write {h : Host} {x : Nat} {w : Word} : GuestRamRun L root R h →
      ¬ InTables (pgMapper L false) root 3 h x → ¬ (root ≤ x ∧ x < root + 4 * 4096) →
      GuestRamRun L root R { h with mem := setMem h.mem x w }

/-! ## The invariant -/

/-- The stage-2 tree is in order and in the window, its root's entries past the first page are
empty, and its walk is the identity on guest RAM and nothing else. -/
structure RamInv (L : Layout) (root : Nat) (R : GuestRam) (h : Host) : Prop where
  tables : Tables (pgMapper L false) root 3 h
  low : ∀ idx, Reached (pgMapper L false) root 3 h idx
  upper : ∀ i, 512 ≤ i → i < 2048 → h.mem (slot root i) = 0
  inside : ∀ va, va < 2 ^ 48 → R.Has va →
    sv48Walk h.mem root va = some (va, requested guestRamAttr)
  outside : ∀ va, va < 2 ^ 48 → ¬ R.Has va → sv48Walk h.mem root va = none
  apart : R.Apart L h.bitmap

section

variable {L : Layout} {root : Nat} {R : GuestRam} {h h' : Host} {c : Nat}
  {S : (Nat → Fin 512) → Nat → Prop}

/-- A walk gives every address of a page the same frame and flags. -/
theorem sv48Walk_page {m : Nat → Word} (ht : Tree (pgMapper L false).format m root 3) (va : Nat) :
    sv48Walk m root va =
      (sv48Walk m root (va / 4096 * 4096)).map fun r => (r.1 + va % 4096, r.2) := by
  have hpage : AgreeTo 4 (pgIndex 0 va) (pgIndex 0 (va / 4096 * 4096)) := pgIndex_page (by omega)
  rw [sv48Walk_eq ht, sv48Walk_eq ht, lookup_congr hpage]
  cases hb : tableAt (pgMapper L false).format m root (pgIndex 0 (va / 4096 * 4096)) 3 with
  | none => rw [lookup, lookup, hb, Option.bind_none, Option.bind_none, Option.map_none]
  | some b =>
    have hmod : va / 4096 * 4096 % 4096 = 0 := by omega
    rw [lookup, lookup, hb, Option.bind_some, Option.bind_some, pgLeaf, pgLeaf, hmod]
    split
    · rfl
    split
    · rw [Option.map_some, Nat.add_zero]
    · rfl

theorem sv48Walk_clear (L : Layout) (hz : ∀ i : Fin 512, h.mem (slot root i) = 0) (hr : root % 4096 = 0)
    (va : Nat) : sv48Walk h.mem root va = none := by
  rw [sv48Walk_eq (L := L) (Tree.of_clear hz hr), lookup, tableAt_of_clear hz (by decide),
    Option.bind_none]

theorem pgMap_allocs {withoutMmu : Bool} {vaddr paddr mapSize : Nat} {attr : BitVec 32}
    (hrun : pgMap L withoutMmu root 0 vaddr paddr mapSize attr h = .ok () h') :
    ∃ k, TakenFrom h.bitmap k h'.bitmap := by
  rw [pgMap_eq L withoutMmu root vaddr paddr mapSize attr (Nat.zero_le 3)] at hrun
  exact Mapper.allocs_mapPages _ _ _ _ _ _ _ _ _ hrun

theorem reached_grown (hlow : ∀ idx, Reached (pgMapper L false) root 3 h idx)
    (hg : Grown (pgMapper L false) root 3 S c h h') (idx : Nat → Fin 512) :
    Reached (pgMapper L false) root 3 h' idx := by
  intro j b hj0 hj hb
  rcases hg.low hj hb with hold | ⟨p, hp, hbp, -⟩
  · exact hlow idx j b hj0 hj hold
  · exact ⟨p, hp, hbp⟩

/-- No table of the tree lies in the root's upper pages. -/
theorem upper_notIn (hr : Stage2Root L root) (ht : Tables (pgMapper L false) root 3 h) {i : Nat}
    (hi : 512 ≤ i) (hi' : i < 2048) : ¬ InTables (pgMapper L false) root 3 h (slot root i) := by
  rintro ⟨idx, k, b, hk, hb, hlo, hhi⟩
  have hin := hr.inside
  simp only [slot] at hlo hhi
  rcases Nat.eq_zero_or_pos k with rfl | hpos
  · cases hb
    omega
  · obtain ⟨p, -, rfl, -⟩ := ht.owned hpos hk hb
    have hend := L.hyperEnd_lt
    have hle : L.pagePhysOffset ≤ L.physPage p := Nat.le_add_right _ _
    omega

theorem upper_grown (hr : Stage2Root L root) (hu : ∀ i, 512 ≤ i → i < 2048 → h.mem (slot root i) = 0)
    (hg : Grown (pgMapper L false) root 3 S c h h') (i : Nat) (hi : 512 ≤ i) (hi' : i < 2048) :
    h'.mem (slot root i) = 0 := by
  rw [hg.frame (upper_notIn hr (tables_direct hg.tables) hi hi'), hu i hi hi']

end

/-! ## The guest's view of the invariant -/

theorem GuestRam.Mappable.has_lt {R : GuestRam} (hm : R.Mappable) {gpa : Nat} (h : R.Has gpa) :
    gpa < 2 ^ 48 := by
  obtain ⟨hlo, hhi⟩ := h
  rcases hm with hsize | ⟨-, -, hb⟩ <;> omega

/-- Where the root's entries past the first page are empty, so is the guest's view. -/
theorem sv48WalkFrom_upper {m : Nat → Word} {root gpa : Nat}
    (hu : ∀ i, 512 ≤ i → i < 2048 → m (slot root i) = 0) (hge : 2 ^ 48 ≤ gpa) (hlt : gpa < 2 ^ 50) :
    sv48WalkFrom m gpa (root + 4096 * (gpa / 2 ^ 48)) 3 = none := by
  have hentry : m (root + 4096 * (gpa / 2 ^ 48) + 8 * vpn gpa 3) = 0 := by
    have hvpn : vpn gpa 3 < 512 := Nat.mod_lt _ (by decide)
    have hz := hu (512 * (gpa / 2 ^ 48) + vpn gpa 3) (by omega) (by omega)
    rw [slot] at hz
    rw [← hz]
    congr 1
    omega
  rw [sv48WalkFrom, hentry]
  rfl

theorem RamInv.exact {L : Layout} {root : Nat} {R : GuestRam} {h : Host} (hm : R.Mappable)
    (hi : RamInv L root R h) : R.Exact L root h := by
  have hhas (gpa : Nat) (hgpa : R.Has gpa) : gStageWalk h.mem root gpa = some gpa := by
    have hlt := hm.has_lt hgpa
    have hzero : gpa / 2 ^ 48 = 0 := Nat.div_eq_of_lt hlt
    have hwalk := hi.inside gpa hlt hgpa
    rw [sv48Walk] at hwalk
    rw [gStageWalk, if_pos (by omega), hzero, Nat.mul_zero, Nat.add_zero, hwalk]
    rfl
  have hnot (gpa : Nat) (hgpa : ¬ R.Has gpa) : gStageWalk h.mem root gpa = none := by
    rcases Nat.lt_or_ge gpa (2 ^ 48) with hlt | hge
    · have hzero : gpa / 2 ^ 48 = 0 := Nat.div_eq_of_lt hlt
      have hwalk := hi.outside gpa hlt hgpa
      rw [sv48Walk] at hwalk
      rw [gStageWalk, if_pos (by omega), hzero, Nat.mul_zero, Nat.add_zero, hwalk]
      rfl
    · rw [gStageWalk]
      split
      · next hlt =>
        rw [sv48WalkFrom_upper hi.upper hge hlt]
        rfl
      · rfl
  refine ⟨fun gpa => ?_, fun gpa pa hpa => ?_, hi.apart⟩
  · by_cases hgpa : R.Has gpa
    · simp [hhas gpa hgpa, hgpa]
    · simp [hnot gpa hgpa, hgpa]
  · by_cases hgpa : R.Has gpa
    · rw [hhas gpa hgpa] at hpa
      exact (Option.some.inj hpa).symm
    · rw [hnot gpa hgpa] at hpa
      cases hpa

/-! ## `init_guest_memory` -/

section

variable {L : Layout} {root : Nat} {R : GuestRam} {h h' : Host}

theorem GuestRam.Mappable.pages (hm : R.Mappable) : pageCount R.size = R.size / 4096 := by
  simp only [pageCount, pageSize]
  rcases hm with hsize | ⟨-, hs, hb⟩
  · rw [hsize]
    rfl
  · omega

theorem clear_reached (hz : ∀ i : Fin 512, h.mem (slot root i) = 0) (idx : Nat → Fin 512) :
    Reached (pgMapper L false) root 3 h idx := by
  intro j b hj0 _ hb
  rw [tableAt_of_clear hz hj0] at hb
  cases hb

theorem clear_inv (hr : Stage2Root L root) (hclear : RootClear root h) (hsize : R.size = 0)
    (hapart : R.Apart L h.bitmap) : RamInv L root R h := by
  have hz (i : Fin 512) : h.mem (slot root i) = 0 := hclear i (by omega)
  refine ⟨.of_clear hz hr.static.aligned fun _ he => absurd he (hr.static.ne_page _),
    clear_reached hz, fun i _ hi => hclear i hi, fun va _ hva => ?_, fun va _ _ => ?_, hapart⟩
  · obtain ⟨hlo, hhi⟩ := hva
    omega
  · exact sv48Walk_clear L hz hr.static.aligned va

/-- `init_guest_memory` succeeds where it finds room, and makes the invariant hold. -/
theorem init_inv (hr : Stage2Root L root) (hclear : RootClear root h)
    (hroom : InitRoom L root R h) :
    ∃ h', initGuestMemory L root R h = .ok () h' ∧ RamInv L root R h' := by
  have hz (i : Fin 512) : h.mem (slot root i) = 0 := hclear i (by omega)
  have hpages := hroom.mappable.pages
  rcases hroom.mappable with hsize | ⟨hbase, hsize, hbound⟩
  · refine ⟨h, ?_, clear_inv hr hclear hsize hroom.apart⟩
    rw [initGuestMemory, pgMap, hpages, hsize]
    rfl
  · have hv : VirtRange R.base R.size := ⟨hbase, by omega⟩
    have htab : Tables (pgMapper L false) root 3 h :=
      .of_clear hz hr.static.aligned fun _ he => absurd he (hr.static.ne_page _)
    obtain ⟨h', hrun, hmaps, hg, -, -⟩ := pgMap_grown hr.static htab hv hbase (by omega)
      (.inl (by decide) : HasAccess guestRamAttr)
      (⟨hroom.room, fun _ _ _ => clear_reached hz _⟩ : MapRoom L false root h R.base R.size)
    have htab' := tables_direct hg.tables
    refine ⟨h', hrun, htab', reached_grown (clear_reached hz) hg,
      upper_grown hr (fun i _ hi => hclear i hi) hg, fun va hva hin => ?_, fun va hva hout => ?_,
      fun p hp hbit => ?_⟩
    · obtain ⟨hlo, hhi⟩ := hin
      have hpage := hmaps.mapped ((va - R.base) / 4096) (by omega)
      rw [show R.base + 4096 * ((va - R.base) / 4096) = va / 4096 * 4096 by omega] at hpage
      rw [sv48Walk_page htab'.tree, hpage, Option.map_some]
      simp only [Option.some.injEq, Prod.mk.injEq, and_true]
      omega
    · rw [hmaps.others va hva fun hin => hout ⟨hin.1, by have := hin.2; omega⟩]
      exact sv48Walk_clear L hz hr.static.aligned va
    · rcases (hg.taken (pgMap_allocs hrun) p).1 hbit with hold | hlow
      · exact hroom.apart p hp hold
      · exact hroom.spared p hlow

/-! ## Faults -/

/-- The region of a fault: guest RAM, or an emulated device. -/
theorem findRegion_cases {gpa : Nat} (hm : R.Mappable) {r : MemRegion}
    (h : guestMemFindRegion (vcpuRegions R) gpa = some r) :
    r.dev = true ∨ r = ⟨R.base, R.base, R.size, guestRamAttr, false⟩ ∧ R.Has gpa := by
  have hmem := List.mem_of_find?_eq_some h
  have hholds := List.find?_some h
  simp only [vcpuRegions, List.mem_cons, List.not_mem_nil, or_false] at hmem
  rcases hmem with rfl | rfl | rfl
  · simp only [Bool.and_eq_true, decide_eq_true_eq] at hholds
    refine .inr ⟨rfl, hholds.1, ?_⟩
    rcases hm with hsize | ⟨-, -, hb⟩ <;> omega
  · exact .inl rfl
  · exact .inl rfl

/-- The page of an address. -/
theorem toNat_page (a : BitVec 64) : (a &&& ~~~0xfff#64).toNat = a.toNat / 4096 * 4096 := by
  have hmask : ∀ i, i < 64 → (0xfff#64).getLsbD i = decide (i < 12) := by decide
  have hshift : a &&& ~~~0xfff#64 = (a >>> 12) <<< 12 := by
    refine BitVec.eq_of_getLsbD_eq fun i hi => ?_
    rw [BitVec.getLsbD_and, BitVec.getLsbD_not, BitVec.getLsbD_shiftLeft, BitVec.getLsbD_ushiftRight,
      hmask i hi]
    by_cases h12 : i < 12
    · simp [h12]
    · simp [h12, hi, show 12 + (i - 12) = i by omega]
  have hlt := a.isLt
  rw [hshift, BitVec.toNat_shiftLeft, BitVec.toNat_ushiftRight, Nat.shiftRight_eq_div_pow,
    Nat.shiftLeft_eq]
  omega

theorem RamInv.none_needed (hi : RamInv L root R h) {page : Nat} (hlt : page < 2 ^ 48)
    (hin : R.Has page) : pgNeeded L root h page pageSize = 0 := by
  have hwalk := hi.inside page hlt hin
  rw [sv48Walk_eq hi.tables.tree, lookup] at hwalk
  have hindex : rangeIndex page 0 = pgIndex 0 page := by
    rw [rangeIndex, Nat.mul_zero, Nat.add_zero, Nat.mod_eq_of_lt (by omega)]
  have hleaf : (tableAt (pgMapper L false).format h.mem root (rangeIndex page 0) 3).isSome := by
    rw [hindex]
    cases hb : tableAt (pgMapper L false).format h.mem root (pgIndex 0 page) 3 with
    | none => rw [hb] at hwalk; cases hwalk
    | some b => rfl
  have hone : pageCount pageSize = 1 := by decide
  rw [pgNeeded, hone, missing_first hi.tables, missing, List.countP_eq_zero]
  intro j hj
  have hsome := tableAt_isSome_of_le (l := 3) (Nat.succ_le_of_lt (List.mem_range.mp hj)) hleaf
  simp [Option.isSome_iff_ne_none.mp hsome]

/-- A fault in guest RAM maps the page to itself again, and any other one maps nothing. -/
theorem fault_inv (hr : Stage2Root L root) (hm : R.Mappable) (hi : RamInv L root R h)
    (htval stval : BitVec 64) : ∃ r h',
      handleStage2Fault L root (vcpuRegions R) htval stval h = .ok r h' ∧ RamInv L root R h' := by
  unfold handleStage2Fault
  simp only
  cases hregion : guestMemFindRegion (vcpuRegions R) (stage2FaultAddr htval stval).toNat with
  | none => exact ⟨_, h, rfl, hi⟩
  | some r =>
    simp only
    rcases findRegion_cases hm hregion with hdev | ⟨rfl, hhas⟩
    · rw [if_pos hdev]
      exact ⟨_, h, rfl, hi⟩
    · rw [if_neg Bool.false_ne_true, toNat_page]
      generalize (stage2FaultAddr htval stval).toNat = addr at hhas
      have hlt := hm.has_lt hhas
      have hpage : R.Has (addr / 4096 * 4096) ∧ ∀ va, va / 4096 = addr / 4096 → R.Has va := by
        obtain ⟨hlo, hhi⟩ := hhas
        simp only [GuestRam.Has]
        rcases hm with hsize | ⟨hb, hs, -⟩
        · omega
        · refine ⟨by omega, fun va hva => by omega⟩
      have hhpa : MachineInt.toUInt64 ((R.base : Int) +
          (((addr / 4096 * 4096 : Nat) : Int) - R.base)) = addr / 4096 * 4096 := by
        simp only [MachineInt.toUInt64]
        omega
      have hone : pageCount pageSize = 1 := by decide
      have hv : VirtRange (addr / 4096 * 4096) pageSize :=
        ⟨by omega, by rw [hone]; omega⟩
      have hneeded := hi.none_needed (by omega) hpage.1
      obtain ⟨h', hrun, hmaps, hg, -, -⟩ := pgMap_grown hr.static hi.tables hv hv.aligned
        (by rw [hone]; omega) (.inl (by decide) : HasAccess guestRamAttr)
        (⟨by rw [hneeded]; exact Nat.zero_le _, fun _ _ _ => hi.low _⟩ :
          MapRoom L false root h (addr / 4096 * 4096) pageSize)
      have htab' := tables_direct hg.tables
      refine ⟨.mapped, h', ?_, htab', reached_grown hi.low hg, upper_grown hr hi.upper hg,
        fun va hva hin => ?_, fun va hva hout => ?_, fun p hp hbit => ?_⟩
      · rw [hhpa]
        exact bind_ok hrun
      · by_cases hsame : va / 4096 = addr / 4096
        · have hnew := hmaps.mapped 0 (by rw [hone]; decide)
          rw [Nat.mul_zero, Nat.add_zero, ← hsame] at hnew
          rw [sv48Walk_page htab'.tree, hnew, Option.map_some]
          simp only [Option.some.injEq, Prod.mk.injEq, and_true]
          omega
        · rw [hmaps.others va hva fun hr => hsame (by obtain ⟨_, _⟩ := hr; omega)]
          exact hi.inside va hva hin
      · rw [hmaps.others va hva fun hr => hout (hpage.2 va (by obtain ⟨_, _⟩ := hr; omega))]
        exact hi.outside va hva hout
      · rcases (hg.taken (pgMap_allocs hrun) p).1 hbit with hold | hlow
        · exact hi.apart p hp hold
        · rw [hneeded] at hlow
          exact absurd hlow.2 (Nat.not_lt_zero _)

/-! ## Allocations, frees and writes -/

/-- What leaves the tree alone keeps the invariant. -/
theorem RamInv.untouched (hi : RamInv L root R h)
    (hu : Untouched (pgMapper L false) root 3 h h')
    (hupper : ∀ i, 512 ≤ i → i < 2048 → h'.mem (slot root i) = h.mem (slot root i))
    (hapart : R.Apart L h'.bitmap) : RamInv L root R h' := by
  have htab := hi.tables.untouched hu
  have hwalk (va : Nat) : sv48Walk h'.mem root va = sv48Walk h.mem root va := by
    rw [sv48Walk_eq htab.tree, sv48Walk_eq hi.tables.tree, hu.words.lookup_eq]
  refine ⟨htab, fun idx j b hj0 hj hb => ?_, fun i h1 h2 => ?_, fun va hva hin => ?_,
    fun va hva hout => ?_, hapart⟩
  · rw [hu.words.tableAt_eq hj] at hb
    exact hi.low idx j b hj0 hj hb
  · rw [hupper i h1 h2, hi.upper i h1 h2]
  · rw [hwalk, hi.inside va hva hin]
  · rw [hwalk, hi.outside va hva hout]

theorem RamInv.bitmap (hi : RamInv L root R h) {b : Bitmap}
    (hkeep : ∀ idx k p, k ≤ 3 → tableAt (pgMapper L false).format h.mem root idx k =
      some (L.physPage p) → bit h.bitmap p = true → bit b p = true) (hapart : R.Apart L b) :
    RamInv L root R { h with bitmap := b } := by
  refine hi.untouched ⟨fun _ _ _ _ _ _ => rfl, fun {idx k c p} hk hb _ he hbit => ?_⟩
    (fun _ _ _ => rfl) hapart
  subst he
  exact hkeep idx k p hk hb hbit

theorem RamInv.alloc (hi : RamInv L root R h) {cnt : Nat} (h1 : 1 ≤ cnt) (h2 : cnt ≤ totalPages)
    (hspared : ∀ p n, LeastRun h.bitmap cnt p → p ≤ n → n < p + cnt → ¬ R.Meets L n) :
    RamInv L root R { h with bitmap := (allocPagesCnt h.bitmap cnt).2 } := by
  rcases allocPagesCnt_spec h.bitmap h1 h2 with ⟨p, hrun, halloc⟩ | ⟨halloc, -⟩
  · have hbits (n : Nat) : bit (setBits h.bitmap p cnt) n = (decide (p ≤ n ∧ n < p + cnt) ||
        bit h.bitmap n) := bit_setBits _ (int_of_inside hrun.1.2.1) n
    simp only [halloc]
    refine hi.bitmap (fun idx k q _ _ hb => ?_) fun n hn hbit => ?_
    · rw [hbits, hb, Bool.or_true]
    · rw [hbits, Bool.or_eq_true, decide_eq_true_eq] at hbit
      rcases hbit with ⟨hlo, hhi⟩ | hold
      · exact hspared p n hrun hlo hhi
      · exact hi.apart n hn hold
  · simp only [halloc]
    exact hi

theorem RamInv.free (hi : RamInv L root R h) {pfn cnt : Nat} (hfit : pfn + cnt ≤ totalPages)
    (hkeep : ∀ idx k p, k ≤ 3 → tableAt (pgMapper L false).format h.mem root idx k =
      some (L.physPage p) → ¬ (pfn ≤ p ∧ p < pfn + cnt)) :
    RamInv L root R { h with bitmap := freePagesCnt h.bitmap pfn cnt } := by
  have hbits (n : Nat) : bit (freePagesCnt h.bitmap pfn cnt) n =
      (!decide (pfn ≤ n ∧ n < pfn + cnt) && bit h.bitmap n) :=
    bit_clearBits _ (int_of_inside hfit) n
  refine hi.bitmap (fun idx k p hk hb hbit => ?_) fun n hn hbit => ?_
  · rw [hbits, hbit, decide_eq_false (hkeep idx k p hk hb)]
    rfl
  · rw [hbits, Bool.and_eq_true] at hbit
    exact hi.apart n hn hbit.2

theorem RamInv.write (hi : RamInv L root R h) {x : Nat} {w : Word}
    (htab : ¬ InTables (pgMapper L false) root 3 h x)
    (hroot : ¬ (root ≤ x ∧ x < root + 4 * 4096)) :
    RamInv L root R { h with mem := setMem h.mem x w } := by
  refine hi.untouched ⟨fun idx k b hk hb i => ?_, fun _ _ _ _ hb => hb⟩ (fun i _ hlt => ?_) hi.apart
  · refine if_neg fun he => htab ⟨idx, k, b, hk, hb, ?_, ?_⟩
    · rw [← he, slot]
      omega
    · rw [← he, slot]
      omega
  · refine if_neg fun he => hroot ?_
    rw [← he, slot]
    omega

/-! ## Runs -/

theorem GuestRamRun.mappable (hrun : GuestRamRun L root R h) : R.Mappable := by
  induction hrun with
  | boot _ hroom _ => exact hroom.mappable
  | fault _ _ ih => exact ih
  | alloc _ _ _ _ ih => exact ih
  | free _ _ _ ih => exact ih
  | write _ _ _ ih => exact ih

theorem GuestRamRun.inv (hr : Stage2Root L root) (hrun : GuestRamRun L root R h) :
    RamInv L root R h := by
  induction hrun with
  | boot hclear hroom hinit =>
    obtain ⟨h', hok, hinv⟩ := init_inv hr hclear hroom
    rw [hok] at hinit
    cases hinit
    exact hinv
  | @fault h h' htval stval r hrun hfault ih =>
    obtain ⟨r', h'', hok, hinv⟩ := fault_inv hr hrun.mappable ih htval stval
    rw [hok] at hfault
    cases hfault
    exact hinv
  | alloc _ h1 h2 hspared ih => exact ih.alloc h1 h2 hspared
  | free _ hfit hkeep ih => exact ih.free hfit hkeep
  | write _ htab hroot ih => exact ih.write htab hroot

end

/-- Where guest RAM is of whole mappable pages and every allocation finds its pages outside it,
boot and each guest fault succeed, and in every state exactly guest RAM translates, to itself, and
no page handed out lies in it. -/
theorem guest_ram_exact {L : Layout} {root : Nat} (hr : Stage2Root L root) (R : GuestRam) :
    (∀ h, RootClear root h → InitRoom L root R h →
      ∃ h', initGuestMemory L root R h = .ok () h') ∧
    (∀ h htval stval, GuestRamRun L root R h →
      ∃ r h', handleStage2Fault L root (vcpuRegions R) htval stval h = .ok r h') ∧
    ∀ h, GuestRamRun L root R h → R.Exact L root h := by
  refine ⟨fun h hclear hroom => ?_, fun h htval stval hrun => ?_, fun h hrun => ?_⟩
  · obtain ⟨h', hok, -⟩ := init_inv hr hclear hroom
    exact ⟨h', hok⟩
  · obtain ⟨r, h', hok, -⟩ := fault_inv hr hrun.mappable (hrun.inv hr) htval stval
    exact ⟨r, h', hok⟩
  · exact (hrun.inv hr).exact hrun.mappable

theorem imageStage2Root : Stage2Root imageLayout 0x80300000 := ⟨imageRoot, by decide⟩

theorem init_room_page {R : GuestRam} (hm : R.Mappable) (hsize : R.size = 4096)
    (hfar : imageLayout.physPage 6 ≤ R.base) :
    InitRoom imageLayout 0x80300000 R (clearHost initPageAllocator) := by
  have hle : pgNeeded imageLayout 0x80300000 (clearHost initPageAllocator) R.base R.size ≤ 3 := by
    rw [hsize]
    exact needed_le _
  refine ⟨hm, Nat.le_trans hle evenFree_init, fun p _ hbit => ?_, fun p hlow => ?_⟩
  · rw [clearHost, initPageAllocator, bit_initBitmap] at hbit
    cases hbit
  · have hall : evenFree initPageAllocator (0 + p / 2) = evenFree initPageAllocator 0 + p / 2 :=
      evenFree_stretch fun _ _ _ => bit_initBitmap _
    have hcount : evenFree initPageAllocator (p / 2) < _ := hlow.2
    rw [Nat.zero_add] at hall
    rintro ⟨x, hlo, hhi, hbase, -⟩
    simp only [Layout.physPage, pageSize] at hfar hhi
    omega

theorem guest_ram_exact_page : ∃ h,
    GuestRamRun imageLayout 0x80300000 ⟨0x90000000, 0x1000⟩ h ∧
      GuestRam.Exact ⟨0x90000000, 0x1000⟩ imageLayout 0x80300000 h := by
  have hroom : InitRoom imageLayout 0x80300000 ⟨0x90000000, 0x1000⟩
      (clearHost initPageAllocator) :=
    init_room_page (.inr ⟨rfl, rfl, by decide⟩) rfl (by decide)
  have hclear : RootClear 0x80300000 (clearHost initPageAllocator) := fun _ _ => rfl
  obtain ⟨h', hok⟩ := (guest_ram_exact imageStage2Root ⟨0x90000000, 0x1000⟩).1 _ hclear hroom
  have hrun := GuestRamRun.boot hclear hroom hok
  exact ⟨h', hrun, (guest_ram_exact imageStage2Root _).2.2 h' hrun⟩

/-- The first table of the stage-2 tree is the first page of the pool; boot arguments can put guest
RAM there. -/
theorem ram_over_tables : ¬ ∀ (L : Layout) (root : Nat) (R : GuestRam) (h h' : Host),
    Stage2Root L root → RootClear root h → initGuestMemory L root R h = .ok () h' →
    R.Exact L root h' := by
  intro hall
  have hclear : RootClear 0x80300000 (clearHost initPageAllocator) := fun _ _ => rfl
  have hz (i : Fin 512) : (clearHost initPageAllocator).mem (slot 0x80300000 i) = 0 := rfl
  have hle : pgNeeded imageLayout 0x80300000 (clearHost initPageAllocator) 0x80600000 0x1000 ≤ 3 :=
    needed_le _
  have hroom : MapRoom imageLayout false 0x80300000 (clearHost initPageAllocator) 0x80600000
      0x1000 :=
    ⟨Nat.le_trans hle evenFree_init, fun _ _ _ => clear_reached hz _⟩
  have hacc : HasAccess guestRamAttr := .inl (by decide)
  obtain ⟨h', hrun, -, hg, -, -⟩ := pgMap_grown imageRoot
    (Tables.of_clear hz rfl fun _ he => absurd he (imageRoot.ne_page _))
    (⟨rfl, by decide⟩ : VirtRange 0x80600000 0x1000) (rfl : 0x80600000 % 4096 = 0) (by decide)
    hacc hroom
  have hexact := hall imageLayout 0x80300000 ⟨0x80600000, 0x1000⟩ _ h' imageStage2Root hclear hrun
  have hpool : 0 < totalPages := by simp [totalPages]
  have hfree : FreeRun initPageAllocator 1 0 := freeRun_one.mpr ⟨rfl, hpool, bit_initBitmap 0⟩
  have hnone : evenFree initPageAllocator 0 = 0 := rfl
  have hlow : Lowest initPageAllocator (pgNeeded imageLayout 0x80300000
      (clearHost initPageAllocator) 0x80600000 0x1000) 0 :=
    ⟨hfree, by rw [Nat.zero_div, hnone]; exact needed_clear_pos _ _ _ _⟩
  have htaken : bit h'.bitmap 0 = true := (hg.taken (pgMap_allocs hrun) 0).2 (.inr hlow)
  exact hexact.apart 0 hpool htaken ⟨0x80600000, by decide, by decide, by decide, by decide⟩

end HyperCore.Riscv64
