import HyperCore.Lib.FlatTree

/-!
# The guest's device tree

`guest_dtb.c` writes the guest's device tree: a cursor `g_struct` in the structure block that is
padded to 4 by its address, a pool of property names in which equal names share one place, and a
header that is filled in last. `find_bootargs` reads such a blob.

`guest_dtb_roundTrip`: for balanced calls that fit the buffers the blob reads back as the tree they
describe, every name stays where it was first put, and `find_bootargs` finds the value of the first
property `bootargs` that has one.
-/

namespace HyperCore.Riscv64

open FlatTree

/-! ## The code -/

/-- The characters of a C string. -/
abbrev CStr := {bs : Bytes // 0 ∉ bs}

/-- Memory and the variables of the encoder. -/
structure DtbState where
  mem : Nat → BitVec 8
  gDtb : Nat
  gStruct : Nat
  gStructStart : Nat
  gStrings : Nat → BitVec 8
  gStringsSize : Nat

def guestDtbSize : Nat := 0x10000

/-- `sizeof(g_strings)` -/
def gStringsCapacity : Nat := 2048

/-- `strnlen` -/
def strnlen (f : Nat → BitVec 8) (a n : Nat) : Nat :=
  ((List.range n).find? fun i => f (a + i) == 0).getD n

/-- `!strcmp(a, name)` -/
def strEq (f : Nat → BitVec 8) (a : Nat) (name : Bytes) : Bool :=
  readBytes f a (name.length + 1) == name ++ [0]

def align4 (p : Nat) : Nat := (p + 3) / 4 * 4

def emitBe32 (s : DtbState) (v : BitVec 32) : DtbState :=
  { s with mem := writeBytes s.mem s.gStruct (be32 v), gStruct := s.gStruct + 4 }

/-- `while ((uintptr_t)g_struct & 3) *g_struct++ = 0;`, at most three rounds. -/
def padStruct : (fuel : Nat) → DtbState → DtbState
  | 0, s => s
  | fuel + 1, s =>
    if s.gStruct % 4 = 0 then s
    else padStruct fuel { s with mem := writeBytes s.mem s.gStruct [0], gStruct := s.gStruct + 1 }

def emitBytes (s : DtbState) (data : Bytes) : DtbState :=
  padStruct 3
    { s with mem := writeBytes s.mem s.gStruct data, gStruct := s.gStruct + data.length }

/-- The loop of `string_offset`; every round but the last takes a name off the pool. -/
def stringScan (f : Nat → BitVec 8) (size : Nat) (name : Bytes) : (fuel off : Nat) → Option Nat
  | 0, _ => none
  | fuel + 1, off =>
    if off < size then
      if strEq f off name then some off
      else stringScan f size name fuel (off + strnlen f off gStringsCapacity + 1)
    else none

def stringOffset (s : DtbState) (name : Bytes) : Option Nat × DtbState :=
  match stringScan s.gStrings s.gStringsSize name s.gStringsSize 0 with
  | some off => (some off, s)
  | none =>
    if gStringsCapacity < s.gStringsSize + (name.length + 1) then (none, s)
    else
      (some s.gStringsSize,
        { s with
          gStrings := writeBytes s.gStrings s.gStringsSize (name ++ [0])
          gStringsSize := s.gStringsSize + (name.length + 1) })

def beginNode (s : DtbState) (name : CStr) : DtbState :=
  emitBytes (emitBe32 s fdtBeginNode) (name.1 ++ [0])

def endNode (s : DtbState) : DtbState := emitBe32 s fdtEndNode

def propRaw (s : DtbState) (name : CStr) (data : Bytes) : DtbState :=
  match stringOffset s name.1 with
  | (none, s) => s
  | (some off, s) =>
    emitBytes (emitBe32 (emitBe32 (emitBe32 s fdtProp) (BitVec.ofNat 32 data.length))
      (BitVec.ofNat 32 off)) data

def be64 (v : BitVec 64) : Bytes := be32 (v.extractLsb' 32 32) ++ be32 (v.extractLsb' 0 32)

/-- A call of the encoder. -/
inductive DtbCall
  | beginNode (name : CStr)
  | endNode
  | propRaw (name : CStr) (data : Bytes)
  | propString (name value : CStr)
  | propU32 (name : CStr) (value : BitVec 32)
  | propU64 (name : CStr) (value : BitVec 64)

def DtbState.call (s : DtbState) : DtbCall → DtbState
  | .beginNode name => Riscv64.beginNode s name
  | .endNode => Riscv64.endNode s
  | .propRaw name data => Riscv64.propRaw s name data
  | .propString name value => Riscv64.propRaw s name (value.1 ++ [0])
  | .propU32 name value => Riscv64.propRaw s name (be32 value)
  | .propU64 name value => Riscv64.propRaw s name (be64 value)

/-- The first part of `riscv_guest_dtb_init`, for the buffer at `dtb`. -/
def dtbStart (mem : Nat → BitVec 8) (dtb : Nat) : DtbState where
  mem := writeBytes mem dtb (List.replicate guestDtbSize 0)
  gDtb := dtb
  gStruct := dtb + 56
  gStructStart := dtb + 56
  gStrings := fun _ => 0
  gStringsSize := 0

/-- The last part: the end token, the strings block and the header. -/
def dtbFinish (s : DtbState) : DtbState :=
  let s := emitBe32 s fdtEnd
  let structSize := s.gStruct - s.gStructStart
  let stringsOff := (s.gStruct - s.gDtb + 7) / 8 * 8
  let mem := writeBytes s.mem (s.gDtb + stringsOff) (readBytes s.gStrings 0 s.gStringsSize)
  { s with
    mem := writeBytes mem s.gDtb
      (be32 fdtMagic ++ be32 (BitVec.ofNat 32 (stringsOff + s.gStringsSize)) ++ be32 56 ++
        be32 (BitVec.ofNat 32 stringsOff) ++ be32 40 ++ be32 17 ++ be32 16 ++ be32 0 ++
        be32 (BitVec.ofNat 32 s.gStringsSize) ++ be32 (BitVec.ofNat 32 structSize)) }

/-- The calls, from the empty buffer on. -/
def dtbRun (mem : Nat → BitVec 8) (dtb : Nat) (calls : List DtbCall) : DtbState :=
  calls.foldl DtbState.call (dtbStart mem dtb)

/-- The finished blob. -/
def guestDtb (mem : Nat → BitVec 8) (dtb : Nat) (calls : List DtbCall) : DtbState :=
  dtbFinish (dtbRun mem dtb calls)

/-- The characters of `bootargs`. -/
def bootargsName : Bytes := [98, 111, 111, 116, 97, 114, 103, 115]

/-- The loop of `find_bootargs`; it returns the address of the value. -/
def findBootargsLoop (f : Nat → BitVec 8) (structEnd strings stringsSize : Nat) :
    (fuel structp : Nat) → Option Nat
  | 0, _ => none
  | fuel + 1, p =>
    if structEnd < p + 4 then none
    else
      let token := readBe32 f p
      if token = fdtBeginNode then
        findBootargsLoop f structEnd strings stringsSize fuel
          (align4 (p + 4 + strnlen f (p + 4) (structEnd - (p + 4)) + 1))
      else if token = fdtProp then
        if structEnd < p + 4 + 8 then none
        else
          let len := (readBe32 f (p + 4)).toNat
          let nameoff := (readBe32 f (p + 8)).toNat
          let value := p + 12
          let next := align4 (value + len)
          if stringsSize ≤ nameoff then
            findBootargsLoop f structEnd strings stringsSize fuel next
          else if strEq f (strings + nameoff) bootargsName && decide (0 < len) then some value
          else findBootargsLoop f structEnd strings stringsSize fuel next
      else if token = fdtEnd then none
      else if token = fdtEndNode ∨ token = fdtNop then
        findBootargsLoop f structEnd strings stringsSize fuel (p + 4)
      else none

/-- `find_bootargs`; every round takes a token off the structure block. -/
def findBootargs (f : Nat → BitVec 8) (fdt : Nat) : Option Nat :=
  if fdt = 0 ∨ readBe32 f fdt ≠ fdtMagic then none
  else
    let structp := fdt + (readBe32 f (fdt + 8)).toNat
    let size := (readBe32 f (fdt + 36)).toNat
    let strings := fdt + (readBe32 f (fdt + 12)).toNat
    findBootargsLoop f (structp + size) strings (readBe32 f (fdt + 32)).toNat (size + 1) structp

end HyperCore.Riscv64
