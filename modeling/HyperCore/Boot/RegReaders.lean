import HyperCore.Boot.GuestConfig
import HyperCore.Lib.MachineInt

/-!
# The two readers of `reg`

`fdt_get_reg_info` and `fdt_get_reg_entry` both read an address and a size, as many cells as
`#address-cells` and `#size-cells` say, and return -2 when the property is too short. The first looks
for the counts at the node itself and then upwards, the second from the parent upwards, and both go
on to the nodes above and take 2 when they find nothing. In a device tree the counts are those of the
parent alone, 2 and 1 when it has none (`parentCells`).

The status, the cells of `reg` that are read, and `int` arithmetic are modelled here; without them
the readers are those of `DeviceTree`.
-/

namespace HyperCore.Boot

open MachineInt

/-! ## The code -/

/-- What a reader returns, what it stores, and the cells of `reg` that it reads. -/
structure RegRead where
  status : Int
  stored : Option (BitVec 64 × BitVec 64)
  cells : List Int

/-- A return before anything is read. -/
def RegRead.error (status : Int) : RegRead := ⟨status, none, []⟩

/-- `count` cells from `start` on; the loop runs no round for a negative count. -/
def cellRange (start count : Int) : List Int :=
  (List.range count.toNat).map fun i => start + ((i : Nat) : Int)

/-- How many cells `fdt_get_reg_info` reads for a count: `fdt64_ld` for 2, `fdt32_ld` otherwise. -/
def loadCells (count : Int) : Int := if count = 2 then 2 else 1

/-- `fdt_get_reg_info`; `(na + ns) * sizeof(uint32_t)` is converted to `int`. -/
def fdtGetRegInfoRead (fdt : Fdt) (node : Nat) : RegRead :=
  let na := fdtGetCurAs fdt node "#address-cells"
  let ns := fdtGetCurAs fdt node "#size-cells"
  match fdtGetprop fdt node "reg" with
  | none => .error (-1)
  | some p =>
    if (p.len : Int) < toInt32 (4 * (na + ns)) then .error (-2)
    else
      { status := 0
        stored := some (fdtReadCells p 0 (loadCells na), fdtReadCells p na (loadCells ns))
        cells := cellRange 0 (loadCells na) ++ cellRange na (loadCells ns) }

/-- `fdt_get_reg_entry`, with the arithmetic of `int`. -/
def fdtGetRegEntryRead (fdt : Fdt) (node : Nat) (index : Int) : RegRead :=
  let parent := fdtParentOffset fdt node
  let na := fdtGetInheritedCellCount fdt parent "#address-cells"
  let ns := fdtGetInheritedCellCount fdt parent "#size-cells"
  match fdtGetprop fdt node "reg" with
  | none => .error (-1)
  | some p =>
    let entryCells := toInt32 (na + ns)
    let off := toInt32 (index * entryCells)
    if (p.len : Int) < toInt32 (toInt32 (off + entryCells) * 4) then .error (-2)
    else
      { status := 0
        stored := some (fdtReadCells p off na, fdtReadCells p (off + na) ns)
        cells := cellRange off na ++ cellRange (off + na) ns }

/-- The reader of `DeviceTree` is this one without status and record. -/
theorem fdtGetRegInfoRead_stored (fdt : Fdt) (node : Nat) :
    (fdtGetRegInfoRead fdt node).stored = fdtGetRegInfo fdt node := by
  have hneed (x : Int) : (BitVec.ofInt 32 x).toInt = toInt32 x := BitVec.toInt_ofInt x
  unfold fdtGetRegInfoRead fdtGetRegInfo
  cases fdtGetprop fdt node "reg" with
  | none => rfl
  | some p =>
    simp only [hneed]
    split
    · rfl
    · rfl

/-- So is the other one where no `int` wraps. -/
theorem fdtGetRegEntryRead_stored {fdt : Fdt} {node index : Nat} {na ns : Int}
    (hna : fdtGetInheritedCellCount fdt (fdtParentOffset fdt node) "#address-cells" = na)
    (hns : fdtGetInheritedCellCount fdt (fdtParentOffset fdt node) "#size-cells" = ns)
    (hpos : 0 ≤ na + ns) (hsmall : (index * (na + ns) + (na + ns)) * 4 < 2 ^ 31) :
    (fdtGetRegEntryRead fdt node index).stored = fdtGetRegEntry fdt node index := by
  have hoff : 0 ≤ index * (na + ns) := Int.mul_nonneg (Int.natCast_nonneg index) hpos
  have hentry : toInt32 (na + ns) = na + ns := toInt32_eq (by omega) (by omega)
  have hstart : toInt32 (index * (na + ns)) = index * (na + ns) := toInt32_eq (by omega) (by omega)
  have hend : toInt32 (index * (na + ns) + (na + ns)) = index * (na + ns) + (na + ns) :=
    toInt32_eq (by omega) (by omega)
  have hbytes : toInt32 ((index * (na + ns) + (na + ns)) * 4) =
      (index * (na + ns) + (na + ns)) * 4 := toInt32_eq (by omega) hsmall
  unfold fdtGetRegEntryRead fdtGetRegEntry
  simp only [hna, hns, hentry, hstart, hend, hbytes]
  cases fdtGetprop fdt node "reg" with
  | none => rfl
  | some p =>
    dsimp only
    split
    · rfl
    · rfl

/-! ## The cells of the parent -/

/-- A count is one cell. -/
def usable (fdt : Fdt) (name : String) (node : Nat) : Option FdtProp :=
  (fdtGetprop fdt node name).filter fun p => 4 ≤ p.len

/-- The count of a node's parent, with the default of the device-tree format. -/
def parentCells (fdt : Fdt) (node : Nat) (name : String) (default : BitVec 32) : BitVec 32 :=
  (((fdtParentOffset fdt node).bind (usable fdt name)).map fun p => p.cell 0).getD default

def addressCells (fdt : Fdt) (node : Nat) : BitVec 32 := parentCells fdt node "#address-cells" 2

def sizeCells (fdt : Fdt) (node : Nat) : BitVec 32 := parentCells fdt node "#size-cells" 1

/-- The status for a `reg` of `len` bytes, and what is in it. -/
def regOf (p : FdtProp) (na ns : Nat) : Int × Option (BitVec 64 × BitVec 64) :=
  if p.len < 4 * (na + ns) then (-2, none)
  else (0, some (fdtReadCells p 0 na, fdtReadCells p na ns))

/-- No cell is outside the property. -/
def RegRead.Within (r : RegRead) (p : FdtProp) : Prop :=
  ∀ i ∈ r.cells, 0 ≤ i ∧ 4 * i + 4 ≤ p.len

/-- Both readers use the counts of the parent, return what the property has for them, and read
nothing outside it. -/
structure ReadersAgree (fdt : Fdt) (node : Nat) (p : FdtProp) : Prop where
  infoCounts : fdtGetCurAs fdt node "#address-cells" = (addressCells fdt node).toInt ∧
    fdtGetCurAs fdt node "#size-cells" = (sizeCells fdt node).toInt
  entryCounts :
    fdtGetInheritedCellCount fdt (fdtParentOffset fdt node) "#address-cells" =
      (addressCells fdt node).toInt ∧
    fdtGetInheritedCellCount fdt (fdtParentOffset fdt node) "#size-cells" =
      (sizeCells fdt node).toInt
  info : ((fdtGetRegInfoRead fdt node).status, (fdtGetRegInfoRead fdt node).stored) =
    regOf p (addressCells fdt node).toNat (sizeCells fdt node).toNat
  entry : ((fdtGetRegEntryRead fdt node 0).status, (fdtGetRegEntryRead fdt node 0).stored) =
    regOf p (addressCells fdt node).toNat (sizeCells fdt node).toNat
  infoWithin : (fdtGetRegInfoRead fdt node).Within p
  entryWithin : (fdtGetRegEntryRead fdt node 0).Within p

/-! ## The counts -/

section

variable {fdt : Fdt} {node : Nat} {name : String} {p : FdtProp}

theorem fdtParentOffset_lt {parent : Nat} (h : fdtParentOffset fdt node = some parent) :
    parent < node := by
  have hmem := List.mem_of_find?_eq_some h
  rw [List.mem_reverse] at hmem
  exact List.mem_range.mp hmem

/-- A node and the nodes above it. -/
def lineage (fdt : Fdt) (node : Nat) : List Nat :=
  node :: match _h : fdtParentOffset fdt node with
    | none => []
    | some parent => lineage fdt parent
termination_by node
decreasing_by exact fdtParentOffset_lt _h

/-- The nodes above a node. -/
def above (fdt : Fdt) (node : Nat) : List Nat := ((fdtParentOffset fdt node).map (lineage fdt)).getD []

theorem lineage_eq (fdt : Fdt) (node : Nat) : lineage fdt node = node :: above fdt node := by
  rw [lineage, above]
  split
  · next h => rw [h]; rfl
  · next h => rw [h]; rfl

/-- The first node that has a count gives `count`; 2 stands for a count that none has. -/
def FirstGives (get : Nat → Option FdtProp) (nodes : List Nat) (count : BitVec 32) : Prop :=
  (∀ p, nodes.findSome? get = some p → p.cell 0 = count) ∧
    (nodes.findSome? get = none → count = 2)

/-- The first count at the node or above is the parent's, as is the first of at least a cell above
the node. -/
def CountFromParent (fdt : Fdt) (node : Nat) (name : String) (count : BitVec 32) : Prop :=
  FirstGives (fun n => fdtGetprop fdt n name) (node :: above fdt node) count ∧
    FirstGives (usable fdt name) (above fdt node) count

theorem firstGives_iff {get : Nat → Option FdtProp} {nodes : List Nat} {count : BitVec 32} :
    ((nodes.findSome? get).map fun p => (p.cell 0).toInt).getD 2 = count.toInt ↔
      FirstGives get nodes count := by
  unfold FirstGives
  cases nodes.findSome? get with
  | none =>
    have htwo : (2 : Int) = (2#32).toInt := by decide
    simp only [Option.map_none, Option.getD_none, reduceCtorEq, false_implies, implies_true,
      true_and, true_implies]
    rw [htwo, BitVec.toInt_inj]
    exact eq_comm
  | some p => simp [BitVec.toInt_inj]

theorem getTreeProp_eq {fuel : Nat} (h : node < fuel) :
    getTreeProp fdt name fuel (some node) =
      (lineage fdt node).findSome? fun n => fdtGetprop fdt n name := by
  induction fuel generalizing node with
  | zero => omega
  | succ fuel ih =>
    rw [getTreeProp, lineage_eq, List.findSome?_cons, above]
    cases hparent : fdtParentOffset fdt node with
    | none =>
      have hend : getTreeProp fdt name fuel none = none := by cases fuel <;> rfl
      rw [hend, Option.or_none]
      cases fdtGetprop fdt node name <;> rfl
    | some parent =>
      have hlt := fdtParentOffset_lt hparent
      rw [ih (by omega)]
      cases fdtGetprop fdt node name <;> rfl

theorem inheritedCellCount_eq {fuel : Nat} (h : node < fuel) :
    inheritedCellCount fdt name 2 fuel (some node) =
      (((lineage fdt node).findSome? (usable fdt name)).map fun p => (p.cell 0).toInt).getD 2 := by
  induction fuel generalizing node with
  | zero => omega
  | succ fuel ih =>
    rw [inheritedCellCount, lineage_eq, List.findSome?_cons, above]
    unfold usable
    cases (fdtGetprop fdt node name).filter fun p => 4 ≤ p.len with
    | some p => rfl
    | none =>
      cases hparent : fdtParentOffset fdt node with
      | none => cases fuel <;> rfl
      | some parent =>
        have hlt := fdtParentOffset_lt hparent
        exact ih (by omega)

theorem fdtGetprop_lt (h : fdtGetprop fdt node name = some p) : node < fdt.length := by
  unfold fdtGetprop at h
  obtain ⟨n, hn, -⟩ := Option.bind_eq_some_iff.mp h
  exact (List.getElem?_eq_some_iff.mp hn).1

theorem fdtGetCurAs_iff (hnode : node < fdt.length) {count : BitVec 32} :
    fdtGetCurAs fdt node name = count.toInt ↔
      FirstGives (fun n => fdtGetprop fdt n name) (node :: above fdt node) count := by
  unfold fdtGetCurAs
  rw [getTreeProp_eq hnode, lineage_eq]
  exact firstGives_iff

theorem fdtGetInheritedCellCount_iff (hnode : node < fdt.length) {count : BitVec 32} :
    fdtGetInheritedCellCount fdt (fdtParentOffset fdt node) name = count.toInt ↔
      FirstGives (usable fdt name) (above fdt node) count := by
  rw [← firstGives_iff]
  unfold fdtGetInheritedCellCount above
  cases hparent : fdtParentOffset fdt node with
  | none => cases fdt.length <;> exact Iff.rfl
  | some parent =>
    have hlt := fdtParentOffset_lt hparent
    rw [inheritedCellCount_eq (by omega)]
    rfl

end

/-! ## The values -/

section

variable {fdt : Fdt} {node : Nat} {p : FdtProp} {a s : BitVec 32}

/-- A load of `fdt_get_reg_info` is right for one cell and for two; otherwise the first cell is to be
in the property and to hold what the `count` cells stand for. -/
def LoadOk (p : FdtProp) (start count : Nat) : Prop :=
  count = 1 ∨ count = 2 ∨
    4 * (start + 1) ≤ p.len ∧ fdtReadCells p start 1 = fdtReadCells p start count

/-- Both readers find the property too short, as it is, or it is long enough and both loads are
right. -/
def RegFits (p : FdtProp) (na ns : Nat) : Prop :=
  if p.len < 4 * (na + ns) then (p.len : Int) < toInt32 (4 * ((na + ns : Nat) : Int))
  else LoadOk p 0 na ∧ LoadOk p na ns

theorem bytes_eq (a s : BitVec 32) :
    toInt32 (4 * (a.toInt + s.toInt)) = toInt32 (4 * ((a.toNat + s.toNat : Nat) : Int)) := by
  rw [BitVec.toInt_eq_toNat_bmod, BitVec.toInt_eq_toNat_bmod]
  unfold toInt32
  simp only [Int.bmod]
  omega

/-- The first entry starts at the first cell, and needs what `fdt_get_reg_info` asks for. -/
theorem entryBytes_eq (x : Int) :
    toInt32 (toInt32 (toInt32 (0 * toInt32 x) + toInt32 x) * 4) = toInt32 (4 * x) := by
  unfold toInt32
  simp only [Int.bmod]
  omega

theorem infoRead_eq (hreg : fdtGetprop fdt node "reg" = some p)
    (hna : fdtGetCurAs fdt node "#address-cells" = a.toInt)
    (hns : fdtGetCurAs fdt node "#size-cells" = s.toInt) :
    fdtGetRegInfoRead fdt node =
      if (p.len : Int) < toInt32 (4 * ((a.toNat + s.toNat : Nat) : Int)) then .error (-2)
      else
        { status := 0
          stored := some (fdtReadCells p 0 (loadCells a.toInt),
            fdtReadCells p a.toInt (loadCells s.toInt))
          cells := cellRange 0 (loadCells a.toInt) ++ cellRange a.toInt (loadCells s.toInt) } := by
  unfold fdtGetRegInfoRead
  simp only [hreg, hna, hns, bytes_eq]

theorem entryRead_eq (hreg : fdtGetprop fdt node "reg" = some p)
    (hna : fdtGetInheritedCellCount fdt (fdtParentOffset fdt node) "#address-cells" = a.toInt)
    (hns : fdtGetInheritedCellCount fdt (fdtParentOffset fdt node) "#size-cells" = s.toInt) :
    fdtGetRegEntryRead fdt node 0 =
      if (p.len : Int) < toInt32 (4 * ((a.toNat + s.toNat : Nat) : Int)) then .error (-2)
      else
        { status := 0
          stored := some (fdtReadCells p 0 a.toInt, fdtReadCells p a.toInt s.toInt)
          cells := cellRange 0 a.toInt ++ cellRange a.toInt s.toInt } := by
  have hoff : toInt32 (0 * toInt32 (a.toInt + s.toInt)) = 0 := by
    rw [Int.zero_mul]
    rfl
  have hbytes := entryBytes_eq (a.toInt + s.toInt)
  rw [hoff, Int.zero_add, bytes_eq] at hbytes
  unfold fdtGetRegEntryRead
  simp only [hreg, hna, hns, hoff, hbytes, Int.zero_add]

theorem mem_cellRange {start count : Int} (hcount : 0 ≤ count) {i : Int} :
    i ∈ cellRange start count ↔ start ≤ i ∧ i < start + count := by
  unfold cellRange
  rw [List.mem_map]
  constructor
  · rintro ⟨k, hk, rfl⟩
    have := List.mem_range.mp hk
    omega
  · rintro ⟨hlo, hhi⟩
    exact ⟨(i - start).toNat, List.mem_range.mpr (by omega), by omega⟩

/-- The cells of a load and the number in them. -/
theorem load_iff {start count : Nat} (hin : 4 * (start + count) ≤ p.len) :
    (fdtReadCells p start (loadCells count) = fdtReadCells p start count ∧
        ∀ i ∈ cellRange start (loadCells count), 0 ≤ i ∧ 4 * i + 4 ≤ p.len) ↔
      LoadOk p start count := by
  unfold LoadOk loadCells
  by_cases htwo : count = 2
  · subst htwo
    refine iff_of_true ⟨rfl, fun i hi => ?_⟩ (.inr (.inl rfl))
    have hi' : i ∈ cellRange start 2 := hi
    rw [mem_cellRange (by decide)] at hi'
    omega
  · have hno : ¬ (count : Int) = 2 := by omega
    rw [if_neg hno]
    have hcells : (∀ i ∈ cellRange start 1, 0 ≤ i ∧ 4 * i + 4 ≤ (p.len : Int)) ↔
        4 * (start + 1) ≤ p.len := by
      constructor
      · intro hall
        have hfirst := hall start ((mem_cellRange (by decide)).mpr (by omega))
        omega
      · intro hlen i hi
        rw [mem_cellRange (by decide)] at hi
        omega
    rw [hcells]
    by_cases hone : count = 1
    · subst hone
      exact iff_of_true ⟨rfl, hin⟩ (.inl rfl)
    · rw [or_iff_right hone, or_iff_right htwo]
      exact and_comm

/-- A short property: both readers are to say so. -/
theorem reads_short (hshort : p.len < 4 * (a.toNat + s.toNat)) {r : RegRead} {ok : RegRead}
    (hok : ok.status = 0)
    (hr : r = if (p.len : Int) < toInt32 (4 * ((a.toNat + s.toNat : Nat) : Int)) then .error (-2)
      else ok) :
    ((r.status, r.stored) = regOf p a.toNat s.toNat ∧ r.Within p) ↔
      (p.len : Int) < toInt32 (4 * ((a.toNat + s.toNat : Nat) : Int)) := by
  unfold regOf
  rw [if_pos hshort, hr]
  split
  · next hneed =>
    refine iff_of_true ⟨rfl, fun i hi => ?_⟩ hneed
    cases hi
  · next hneed =>
    refine iff_of_false (fun h => ?_) hneed
    have hstatus : ok.status = -2 := congrArg Prod.fst h.1
    rw [hok] at hstatus
    cases hstatus

/-- A property that is long enough: neither reader gives up. -/
theorem reads_long (hlong : ¬ p.len < 4 * (a.toNat + s.toNat)) (hlen : p.len < 2 ^ 31) :
    ¬ (p.len : Int) < toInt32 (4 * ((a.toNat + s.toNat : Nat) : Int)) ∧
      a.toInt = a.toNat ∧ s.toInt = s.toNat := by
  have hneed : toInt32 (4 * ((a.toNat + s.toNat : Nat) : Int)) =
      4 * ((a.toNat + s.toNat : Nat) : Int) := toInt32_eq (by omega) (by omega)
  rw [hneed]
  exact ⟨by omega, BitVec.toInt_eq_toNat_of_lt (by omega), BitVec.toInt_eq_toNat_of_lt (by omega)⟩

theorem cellRange_within {start count : Nat} (hin : 4 * (start + count) ≤ p.len) :
    ∀ i ∈ cellRange start count, 0 ≤ i ∧ 4 * i + 4 ≤ (p.len : Int) := by
  intro i hi
  rw [mem_cellRange (Int.natCast_nonneg count)] at hi
  omega

theorem reads_iff (hreg : fdtGetprop fdt node "reg" = some p) (hlen : p.len < 2 ^ 31)
    (hinfo : fdtGetCurAs fdt node "#address-cells" = a.toInt ∧
      fdtGetCurAs fdt node "#size-cells" = s.toInt)
    (hentry : fdtGetInheritedCellCount fdt (fdtParentOffset fdt node) "#address-cells" = a.toInt ∧
      fdtGetInheritedCellCount fdt (fdtParentOffset fdt node) "#size-cells" = s.toInt) :
    (((fdtGetRegInfoRead fdt node).status, (fdtGetRegInfoRead fdt node).stored) =
        regOf p a.toNat s.toNat ∧ (fdtGetRegInfoRead fdt node).Within p) ∧
      (((fdtGetRegEntryRead fdt node 0).status, (fdtGetRegEntryRead fdt node 0).stored) =
        regOf p a.toNat s.toNat ∧ (fdtGetRegEntryRead fdt node 0).Within p) ↔
      RegFits p a.toNat s.toNat := by
  have hread := infoRead_eq hreg hinfo.1 hinfo.2
  have hread' := entryRead_eq hreg hentry.1 hentry.2
  unfold RegFits
  by_cases hshort : p.len < 4 * (a.toNat + s.toNat)
  · rw [if_pos hshort, reads_short hshort rfl hread, reads_short hshort rfl hread', and_self]
  · obtain ⟨hneed, ha, hs⟩ := reads_long hshort hlen
    have hfirst : 4 * (0 + a.toNat) ≤ p.len := by omega
    have hsecond : 4 * (a.toNat + s.toNat) ≤ p.len := Nat.le_of_not_lt hshort
    rw [if_neg hneed, ha, hs] at hread hread'
    rw [if_neg hshort, hread, hread', ← load_iff hfirst, ← load_iff hsecond]
    unfold regOf RegRead.Within
    rw [if_neg hshort]
    simp only [List.forall_mem_append, Prod.mk.injEq, Option.some.injEq, true_and]
    constructor
    · rintro ⟨⟨⟨haddr, hsize⟩, hin, hin'⟩, -⟩
      exact ⟨⟨haddr, hin⟩, hsize, hin'⟩
    · rintro ⟨⟨haddr, hin⟩, hsize, hin'⟩
      refine ⟨⟨⟨haddr, hsize⟩, hin, hin'⟩, ?_, cellRange_within hsecond⟩
      exact cellRange_within hfirst

end

/-- The two readers agree, on the counts of the parent and inside the property, exactly where the
first counts that they come upon are those of the parent and `RegFits` holds of the property. -/
theorem reg_readers_exact {fdt : Fdt} {node : Nat} {p : FdtProp}
    (hreg : fdtGetprop fdt node "reg" = some p) (hlen : p.len < 2 ^ 31) :
    ReadersAgree fdt node p ↔
      CountFromParent fdt node "#address-cells" (addressCells fdt node) ∧
      CountFromParent fdt node "#size-cells" (sizeCells fdt node) ∧
      RegFits p (addressCells fdt node).toNat (sizeCells fdt node).toNat := by
  have hnode := fdtGetprop_lt hreg
  unfold CountFromParent
  rw [← fdtGetCurAs_iff hnode, ← fdtGetCurAs_iff hnode, ← fdtGetInheritedCellCount_iff hnode,
    ← fdtGetInheritedCellCount_iff hnode]
  constructor
  · rintro ⟨hinfo, hentry, hi, he, hwi, hwe⟩
    have hfits := (reads_iff hreg hlen hinfo hentry).mp ⟨⟨hi, hwi⟩, he, hwe⟩
    exact ⟨⟨hinfo.1, hentry.1⟩, ⟨hinfo.2, hentry.2⟩, hfits⟩
  · rintro ⟨haddr, hsize, hfits⟩
    obtain ⟨⟨hi, hwi⟩, he, hwe⟩ :=
      (reads_iff hreg hlen ⟨haddr.1, hsize.1⟩ ⟨haddr.2, hsize.2⟩).mpr hfits
    exact ⟨⟨haddr.1, hsize.1⟩, ⟨haddr.2, hsize.2⟩, hi, he, hwi, hwe⟩

/-! ## Two trees -/

def memoryReg : FdtProp := .ofCells "reg" [0, 0x80000000, 0, 0x1000]

/-- A root with counts of 2 and a memory node below it. -/
def memoryTree (nodeProps : List FdtProp) : Fdt :=
  [⟨"", 0, [.ofCells "#address-cells" [2], .ofCells "#size-cells" [2]]⟩,
    ⟨"memory", 1, memoryReg :: nodeProps⟩]

theorem reg_readers_exact_memory :
    ReadersAgree (memoryTree []) 1 memoryReg ↔
      CountFromParent (memoryTree []) 1 "#address-cells" (addressCells (memoryTree []) 1) ∧
      CountFromParent (memoryTree []) 1 "#size-cells" (sizeCells (memoryTree []) 1) ∧
      RegFits memoryReg (addressCells (memoryTree []) 1).toNat (sizeCells (memoryTree []) 1).toNat :=
  reg_readers_exact rfl (by decide)

/-- With counts for its own children, the node has another address for each reader. -/
theorem reg_readers_fail :
    ¬ ReadersAgree (memoryTree [.ofCells "#address-cells" [1], .ofCells "#size-cells" [1]]) 1
      memoryReg := by
  intro h
  have hsame := h.info.trans h.entry.symm
  revert hsame
  decide +kernel

end HyperCore.Boot
