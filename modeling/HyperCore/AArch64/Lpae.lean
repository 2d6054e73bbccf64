import HyperCore.Core.Bitmap

/-!
# `lpae.c`: stage-2 descriptors

A stage-2 descriptor is a 64-bit word with the fields of `lpae_p2m_t`. `P2m.bits`
lays the fields out, the accessors below read them back, and `makeStage2Entry`
picks the values from a memory type and an access kind.
-/

namespace HyperCore.AArch64

open Bitmap

/-- `enum mem_type` -/
inductive MemType
  | normalRw
  | deviceNc
  | device
  deriving DecidableEq, Repr

/-- The numbers of `enum mem_type`. -/
def MemType.code : MemType → Nat
  | .normalRw => 0
  | .deviceNc => 1
  | .device => 2

/-- `enum mem_access` -/
inductive MemAccess
  | rwx
  | rw
  | none
  deriving DecidableEq, Repr

/-- The fields of `lpae_p2m_t` that are ever set. -/
structure P2m where
  valid : Nat := 0
  table : Nat := 0
  mattr : Nat := 0
  read : Nat := 0
  write : Nat := 0
  sh : Nat := 0
  af : Nat := 0
  base : Nat := 0
  xn : Nat := 0
  type : Nat := 0

/-- The word of a descriptor: each field cut to its width and put at its place. -/
def P2m.bits (e : P2m) : Word :=
  BitVec.ofNat 64 (e.valid % 2 + 2 * (e.table % 2) + 2 ^ 2 * (e.mattr % 2 ^ 4) +
    2 ^ 6 * (e.read % 2) + 2 ^ 7 * (e.write % 2) + 2 ^ 8 * (e.sh % 2 ^ 2) + 2 ^ 10 * (e.af % 2) +
    2 ^ 12 * (e.base % 2 ^ 36) + 2 ^ 54 * (e.xn % 2) + 2 ^ 55 * (e.type % 2 ^ 4))

/-- `walk.valid` -/
def validBit (w : Word) : Bool := w.toNat % 2 == 1

/-- `walk.table` -/
def tableBit (w : Word) : Bool := w.toNat / 2 % 2 == 1

/-- `walk.base` -/
def baseField (w : Word) : Nat := w.toNat / 2 ^ 12 % 2 ^ 36

/-- What a stage-2 leaf grants, as the MMU reads it. -/
structure S2Attr where
  mattr : Nat
  sh : Nat
  read : Bool
  write : Bool
  xn : Bool
  af : Bool
  deriving DecidableEq, Repr

/-- The attributes of a leaf descriptor. -/
def attrOf (w : Word) : S2Attr where
  mattr := w.toNat / 2 ^ 2 % 2 ^ 4
  sh := w.toNat / 2 ^ 8 % 2 ^ 2
  read := w.toNat / 2 ^ 6 % 2 == 1
  write := w.toNat / 2 ^ 7 % 2 == 1
  xn := w.toNat / 2 ^ 54 % 2 == 1
  af := w.toNat / 2 ^ 10 % 2 == 1

/-- `stage2_apply_type`: `MATTR_*` and the shareability. -/
def stage2ApplyType (e : P2m) : MemType → P2m
  | .deviceNc => { e with mattr := 0x5, sh := 0x2 }
  | .device => { e with mattr := 0x1, sh := 0x2 }
  | .normalRw => { e with mattr := 0xf, sh := 0x3 }

/-- `stage2_apply_access` -/
def stage2ApplyAccess (e : P2m) : MemAccess → P2m
  | .rw => { e with xn := 1 }
  | .none => { e with af := 0 }
  | .rwx => e

/-- `make_stage2_entry` -/
def makeStage2Entry (pa : Nat) (type : MemType) (access : MemAccess) : Word :=
  let e : P2m := { valid := 1, table := 1, read := 1, write := 1, af := 1, type := type.code }
  P2m.bits { stage2ApplyAccess (stage2ApplyType e type) access with base := pa / 2 ^ 12 }

/-- The attributes a caller asks for: normal memory is cacheable and inner shareable,
the two device types are outer shareable; `rw` forbids execution, `none` leaves the
access flag clear so that the first touch faults. -/
def requested (type : MemType) (access : MemAccess) : S2Attr where
  mattr := match type with | .normalRw => 0xf | .deviceNc => 0x5 | .device => 0x1
  sh := match type with | .normalRw => 0x3 | .deviceNc => 0x2 | .device => 0x2
  read := true
  write := true
  xn := access == .rw
  af := access != .none

/-! ## Reading the fields back -/

theorem toNat_bits (e : P2m) : e.bits.toNat =
    e.valid % 2 + 2 * (e.table % 2) + 2 ^ 2 * (e.mattr % 2 ^ 4) + 2 ^ 6 * (e.read % 2) +
      2 ^ 7 * (e.write % 2) + 2 ^ 8 * (e.sh % 2 ^ 2) + 2 ^ 10 * (e.af % 2) +
      2 ^ 12 * (e.base % 2 ^ 36) + 2 ^ 54 * (e.xn % 2) + 2 ^ 55 * (e.type % 2 ^ 4) := by
  rw [P2m.bits, BitVec.toNat_ofNat]
  omega

theorem validBit_bits (e : P2m) : validBit e.bits = (e.valid % 2 == 1) := by
  rw [validBit, toNat_bits]
  congr 1
  omega

theorem tableBit_bits (e : P2m) : tableBit e.bits = (e.table % 2 == 1) := by
  rw [tableBit, toNat_bits]
  congr 1
  omega

theorem baseField_bits (e : P2m) : baseField e.bits = e.base % 2 ^ 36 := by
  rw [baseField, toNat_bits]
  omega

theorem attrOf_bits (e : P2m) : attrOf e.bits =
    ⟨e.mattr % 2 ^ 4, e.sh % 2 ^ 2, e.read % 2 == 1, e.write % 2 == 1, e.xn % 2 == 1,
      e.af % 2 == 1⟩ := by
  rw [attrOf, toNat_bits]
  simp only [S2Attr.mk.injEq]
  refine ⟨by omega, by omega, ?_, ?_, ?_, ?_⟩ <;> (congr 1; omega)

section

variable (pa : Nat) (type : MemType) (access : MemAccess)

theorem validBit_make : validBit (makeStage2Entry pa type access) = true := by
  cases type <;> cases access <;> exact validBit_bits _

theorem tableBit_make : tableBit (makeStage2Entry pa type access) = true := by
  cases type <;> cases access <;> exact tableBit_bits _

theorem baseField_make : baseField (makeStage2Entry pa type access) = pa / 2 ^ 12 % 2 ^ 36 := by
  cases type <;> cases access <;> exact baseField_bits _

/-- A descriptor carries the requested attributes. -/
theorem attrOf_make : attrOf (makeStage2Entry pa type access) = requested type access := by
  cases type <;> cases access <;> exact attrOf_bits _

end

/-- The output address survives for page-aligned addresses below `2 ^ 48`. -/
theorem base_make {pa : Nat} (type : MemType) (access : MemAccess) (ha : pa % 4096 = 0)
    (hlt : pa < 2 ^ 48) : baseField (makeStage2Entry pa type access) * 4096 = pa := by
  rw [baseField_make]
  omega

end HyperCore.AArch64
