import Mathlib

/-!
# Reading a device tree

The lookups of libfdt that the boot code uses, and the helpers of `init.c` and `fdt_helper.c` on
top of them. A tree is the list of its nodes in the order of the structure block, each with its
depth, and a node is named by its place in the list as libfdt names it by its offset. Negative
offsets are `none`.

A property's value is read at any distance from its start: the helpers check lengths, but a cell
count from 2^31 on makes the checked length negative.
-/

namespace HyperCore.Boot

/-! ## The tree -/

/-- A property: `byte i` is the byte `i` places after the start of its value. -/
structure FdtProp where
  name : String
  len : Nat
  byte : Int → BitVec 8

structure FdtNode where
  name : String
  depth : Nat
  props : List FdtProp

/-- The nodes in the order of the structure block. -/
abbrev Fdt := List FdtNode

/-- The bytes of a C string, its NUL included. -/
def cString (s : String) : List (BitVec 8) := (s.toList.map fun c => BitVec.ofNat 8 c.toNat) ++ [0]

/-- `memcmp` of the value from `start` on finds no difference. -/
def FdtProp.holds (p : FdtProp) (start : Nat) (bytes : List (BitVec 8)) : Bool :=
  (List.range bytes.length).all fun i => bytes[i]? == some (p.byte ((start + i : Nat) : Int))

/-- `fdt32_to_cpu(prop[i])` -/
def FdtProp.cell (p : FdtProp) (i : Int) : BitVec 32 :=
  p.byte (4 * i) ++ p.byte (4 * i + 1) ++ p.byte (4 * i + 2) ++ p.byte (4 * i + 3)

/-! ## libfdt -/

def fdtGetprop (fdt : Fdt) (node : Nat) (name : String) : Option FdtProp :=
  fdt[node]?.bind fun n => n.props.find? fun p => p.name == name

/-- The depth of a node. -/
def fdtNodeDepth (fdt : Fdt) (node : Nat) : Option Nat := fdt[node]?.map FdtNode.depth

def fdtParentOffset (fdt : Fdt) (node : Nat) : Option Nat :=
  (List.range node).reverse.find? fun m =>
    (fdtNodeDepth fdt m).map (· + 1) == fdtNodeDepth fdt node

/-- The first node after `start` that passes the test; `none` starts before the root. -/
def fdtNextNodeWith (fdt : Fdt) (start : Option Nat) (test : Nat → Bool) : Option Nat :=
  (List.range fdt.length).find? fun n => start.all (· < n) && test n

/-- The rounds of `fdt_stringlist_contains`: the list is read from byte `pos` on. -/
def stringlistContains (p : FdtProp) (str : String) : (fuel pos : Nat) → Bool
  | 0, _ => false
  | fuel + 1, pos =>
    if p.len < pos + str.length then false
    else if p.holds pos (cString str) then true
    else
      match (List.range (p.len - pos)).find? fun i => p.byte ((pos + i : Nat) : Int) == 0 with
      | none => false
      | some i => stringlistContains p str fuel (pos + i + 1)

/-- `fdt_node_check_compatible`; every round but the last takes a byte off the list. -/
def fdtNodeIsCompatible (fdt : Fdt) (compat : String) (node : Nat) : Bool :=
  (fdtGetprop fdt node "compatible").any fun p => stringlistContains p compat (p.len + 2) 0

def fdtNodeOffsetByCompatible (fdt : Fdt) (start : Option Nat) (compat : String) : Option Nat :=
  fdtNextNodeWith fdt start (fdtNodeIsCompatible fdt compat)

/-- The value given is a C string, and its length counts the NUL. -/
def fdtNodeOffsetByPropValue (fdt : Fdt) (start : Option Nat) (name value : String) : Option Nat :=
  fdtNextNodeWith fdt start fun n =>
    (fdtGetprop fdt n name).any fun p =>
      p.len == (cString value).length && p.holds 0 (cString value)

/-- The nodes below `node`, in the order of the tree. -/
def fdtDescendants (fdt : Fdt) (node : Nat) : List Nat :=
  match fdtNodeDepth fdt node with
  | none => []
  | some d => ((List.range fdt.length).drop (node + 1)).takeWhile fun m =>
      (fdtNodeDepth fdt m).any (d < ·)

/-- The nodes that a loop over `fdt_first_subnode` and `fdt_next_subnode` visits. -/
def fdtSubnodes (fdt : Fdt) (node : Nat) : List Nat :=
  (fdtDescendants fdt node).filter fun m =>
    fdtNodeDepth fdt m == (fdtNodeDepth fdt node).map (· + 1)

/-- `fdt_nodename_eq_`: a unit address after the name does not count. -/
def fdtNodenameEq (fdt : Fdt) (name : String) (node : Nat) : Bool :=
  fdt[node]?.any fun n =>
    name.toList.isPrefixOf n.name.toList &&
      match n.name.toList[name.length]? with
      | none => true
      | some c => !name.toList.contains '@' && c == '@'

/-- `fdt_path_offset` of a path of one component. -/
def fdtPathOffset (fdt : Fdt) (name : String) : Option Nat :=
  (fdtSubnodes fdt 0).find? (fdtNodenameEq fdt name)

/-! ## `init.c` -/

def fdtReadCells (p : FdtProp) (start count : Int) : BitVec 64 :=
  (List.range count.toNat).foldl (fun value i => value <<< 32 ||| (p.cell (start + i)).setWidth 64) 0

/-- `fdt_get_inherited_cell_count`, from `node` upwards; a parent stands before its child. -/
def inheritedCellCount (fdt : Fdt) (name : String) (default : Int) : (fuel : Nat) → Option Nat → Int
  | fuel + 1, some node =>
    match (fdtGetprop fdt node name).filter fun p => 4 ≤ p.len with
    | some p => (p.cell 0).toInt
    | none => inheritedCellCount fdt name default fuel (fdtParentOffset fdt node)
  | _, _ => default

def fdtGetInheritedCellCount (fdt : Fdt) (node : Option Nat) (name : String) : Int :=
  inheritedCellCount fdt name 2 fdt.length node

/-- Address and size of an entry of `reg`. -/
def fdtGetRegEntry (fdt : Fdt) (node : Nat) (index : Nat) : Option (BitVec 64 × BitVec 64) :=
  let parent := fdtParentOffset fdt node
  let na := fdtGetInheritedCellCount fdt parent "#address-cells"
  let ns := fdtGetInheritedCellCount fdt parent "#size-cells"
  let off := index * (na + ns)
  match fdtGetprop fdt node "reg" with
  | none => none
  | some p =>
    if (p.len : Int) < (off + (na + ns)) * 4 then none
    else some (fdtReadCells p off na, fdtReadCells p (off + na) ns)

def fdtReadU32Prop (fdt : Fdt) (node : Nat) (name : String) : Option (BitVec 32) :=
  ((fdtGetprop fdt node name).filter fun p => 4 ≤ p.len).map fun p => p.cell 0

def fdtReadU64Prop (fdt : Fdt) (node : Nat) (name : String) : Option (BitVec 64) :=
  ((fdtGetprop fdt node name).filter fun p => 4 ≤ p.len).map fun p =>
    fdtReadCells p 0 (if 8 ≤ p.len then 2 else 1)

/-- An SPI is `GIC_SPI_INTID` of its number, a PPI is 16 more than it. -/
def fdtReadGicInterrupt (fdt : Fdt) (node : Nat) (index : Nat) : Option (BitVec 32) :=
  match fdtGetprop fdt node "interrupts" with
  | none => none
  | some p =>
    if p.len < (3 * index + 3) * 4 then none
    else
      let irq := p.cell (3 * index + 1)
      if p.cell (3 * index) = 0 then some (32 + irq)
      else if p.cell (3 * index) = 1 then some (16 + irq)
      else none

def findGuestMemoryNode (fdt : Fdt) (guestNode : Nat) : Option Nat :=
  (fdtNodeOffsetByPropValue fdt (some guestNode) "device_type" "memory").or
    (fdtNodeOffsetByPropValue fdt (some guestNode) "device_memory" "memory")

def fdtDirectChildByCompatible (fdt : Fdt) (parent : Nat) (compat : String) : Option Nat :=
  (fdtSubnodes fdt parent).find? (fdtNodeIsCompatible fdt compat)

/-! ## `fdt_helper.c` -/

/-- `get_tree_prop`: the property at the node or at the nearest node above it. -/
def getTreeProp (fdt : Fdt) (name : String) : (fuel : Nat) → Option Nat → Option FdtProp
  | fuel + 1, some node =>
    (fdtGetprop fdt node name).or (getTreeProp fdt name fuel (fdtParentOffset fdt node))
  | _, _ => none

/-- `fdt_get_cur_as` -/
def fdtGetCurAs (fdt : Fdt) (node : Nat) (name : String) : Int :=
  ((getTreeProp fdt name fdt.length (some node)).map fun p => (p.cell 0).toInt).getD 2

/-- A count of 2 is read as one 64-bit number, every other count as one cell. -/
def fdtGetRegInfo (fdt : Fdt) (node : Nat) : Option (BitVec 64 × BitVec 64) :=
  let na := fdtGetCurAs fdt node "#address-cells"
  let ns := fdtGetCurAs fdt node "#size-cells"
  match fdtGetprop fdt node "reg" with
  | none => none
  | some p =>
    if (p.len : Int) < (BitVec.ofInt 32 (4 * (na + ns))).toInt then none
    else
      some (fdtReadCells p 0 (if na = 2 then 2 else 1), fdtReadCells p na (if ns = 2 then 2 else 1))

end HyperCore.Boot
