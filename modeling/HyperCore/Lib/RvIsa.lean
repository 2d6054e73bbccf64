import Mathlib

/-!
# Integer loads and stores of RV64IC

What the encoding of each integer load and store has in its fields, what it moves between which
register and memory, and the transformed instruction that a trap shows of it.
-/

namespace RvIsa

/-! ## Fields -/

def quadrant (bits : BitVec 32) : BitVec 2 := bits.extractLsb' 0 2
def opcode (bits : BitVec 32) : BitVec 7 := bits.extractLsb' 0 7
def funct3 (bits : BitVec 32) : BitVec 3 := bits.extractLsb' 12 3
def rd (bits : BitVec 32) : BitVec 5 := bits.extractLsb' 7 5
def rs2 (bits : BitVec 32) : BitVec 5 := bits.extractLsb' 20 5

/-- `funct3` of a compressed instruction. -/
def cfunct3 (bits : BitVec 32) : BitVec 3 := bits.extractLsb' 13 3

/-- The 3-bit register of C.LW, C.LD, C.SW and C.SD. -/
def crs2 (bits : BitVec 32) : BitVec 3 := bits.extractLsb' 2 3

/-- The 5-bit source of C.SWSP and C.SDSP. -/
def cssRs2 (bits : BitVec 32) : BitVec 5 := bits.extractLsb' 2 5

/-- The register of a 3-bit field: x8 to x15. -/
def creg (r : BitVec 3) : BitVec 5 := 8 + r.setWidth 5

/-! ## The instructions -/

inductive Width
  | byte | half | word | double

def Width.bytes : Width → Nat
  | .byte => 1
  | .half => 2
  | .word => 4
  | .double => 8

/-- SB to SD, C.SW and C.SD, C.SWSP and C.SDSP, each with its register field. -/
inductive Store
  | sb (r : BitVec 5) | sh (r : BitVec 5) | sw (r : BitVec 5) | sd (r : BitVec 5)
  | csw (r : BitVec 3) | csd (r : BitVec 3)
  | cswsp (r : BitVec 5) | csdsp (r : BitVec 5)

namespace Store

def width : Store → Width
  | sb _ => .byte
  | sh _ => .half
  | sw _ | csw _ | cswsp _ => .word
  | sd _ | csd _ | csdsp _ => .double

/-- The register that is stored. -/
def src : Store → BitVec 5
  | sb r | sh r | sw r | sd r | cswsp r | csdsp r => r
  | csw r | csd r => creg r

/-- The length of the encoding. -/
def len : Store → Nat
  | sb _ | sh _ | sw _ | sd _ => 4
  | csw _ | csd _ | cswsp _ | csdsp _ => 2

/-- `funct3` of the instruction, or of the one it stands for. -/
def code : Store → BitVec 3
  | sb _ => 0b000
  | sh _ => 0b001
  | sw _ | csw _ | cswsp _ => 0b010
  | sd _ | csd _ | csdsp _ => 0b011

/-- A 16-bit encoding has zeros above it. -/
def Encodes (bits : BitVec 32) : Store → Prop
  | sb r => opcode bits = 0b0100011 ∧ funct3 bits = 0b000 ∧ rs2 bits = r
  | sh r => opcode bits = 0b0100011 ∧ funct3 bits = 0b001 ∧ rs2 bits = r
  | sw r => opcode bits = 0b0100011 ∧ funct3 bits = 0b010 ∧ rs2 bits = r
  | sd r => opcode bits = 0b0100011 ∧ funct3 bits = 0b011 ∧ rs2 bits = r
  | csw r => bits.toNat < 2 ^ 16 ∧ quadrant bits = 0b00 ∧ cfunct3 bits = 0b110 ∧ crs2 bits = r
  | csd r => bits.toNat < 2 ^ 16 ∧ quadrant bits = 0b00 ∧ cfunct3 bits = 0b111 ∧ crs2 bits = r
  | cswsp r => bits.toNat < 2 ^ 16 ∧ quadrant bits = 0b10 ∧ cfunct3 bits = 0b110 ∧ cssRs2 bits = r
  | csdsp r => bits.toNat < 2 ^ 16 ∧ quadrant bits = 0b10 ∧ cfunct3 bits = 0b111 ∧ cssRs2 bits = r

/-- The transformed instruction: the 32-bit store, with bit 1 clear for a compressed one. -/
def Transformed (bits : BitVec 32) (i : Store) : Prop :=
  opcode bits = (if i.len = 2 then 0b0100001 else 0b0100011) ∧ funct3 bits = i.code ∧
    rs2 bits = i.src

theorem Encodes.full {bits : BitVec 32} {i : Store} (h : i.Encodes bits) (hlen : i.len = 4) :
    opcode bits = 0b0100011 ∧ funct3 bits = i.code ∧ rs2 bits = i.src := by
  cases i with
  | sb r | sh r | sw r | sd r => exact h
  | csw r | csd r | cswsp r | csdsp r => cases hlen

/-- The fields that a compressed store has whichever its format. -/
theorem Encodes.short {bits : BitVec 32} {i : Store} (h : i.Encodes bits) (hlen : i.len = 2) :
    bits.toNat < 2 ^ 16 ∧ (quadrant bits = 0b00 ∨ quadrant bits = 0b10) ∧
      cfunct3 bits = 4 + i.code := by
  cases i with
  | sb r | sh r | sw r | sd r => cases hlen
  | csw r | csd r => exact ⟨h.1, .inl h.2.1, h.2.2.1⟩
  | cswsp r | csdsp r => exact ⟨h.1, .inr h.2.1, h.2.2.1⟩

end Store

/-- LB to LWU, C.LW and C.LD, C.LWSP and C.LDSP, each with its register field. -/
inductive Load
  | lb (r : BitVec 5) | lh (r : BitVec 5) | lw (r : BitVec 5) | ld (r : BitVec 5)
  | lbu (r : BitVec 5) | lhu (r : BitVec 5) | lwu (r : BitVec 5)
  | clw (r : BitVec 3) | cld (r : BitVec 3)
  | clwsp (r : BitVec 5) | cldsp (r : BitVec 5)

namespace Load

def width : Load → Width
  | lb _ | lbu _ => .byte
  | lh _ | lhu _ => .half
  | lw _ | lwu _ | clw _ | clwsp _ => .word
  | ld _ | cld _ | cldsp _ => .double

/-- The register that is loaded. -/
def dst : Load → BitVec 5
  | lb r | lh r | lw r | ld r | lbu r | lhu r | lwu r | clwsp r | cldsp r => r
  | clw r | cld r => creg r

def len : Load → Nat
  | lb _ | lh _ | lw _ | ld _ | lbu _ | lhu _ | lwu _ => 4
  | clw _ | cld _ | clwsp _ | cldsp _ => 2

def code : Load → BitVec 3
  | lb _ => 0b000
  | lh _ => 0b001
  | lw _ | clw _ | clwsp _ => 0b010
  | ld _ | cld _ | cldsp _ => 0b011
  | lbu _ => 0b100
  | lhu _ => 0b101
  | lwu _ => 0b110

/-- What the register gets: the low bits of the value, extended by sign or by zeros. -/
def extend : Load → BitVec 64 → BitVec 64
  | lb _, v => (v.setWidth 8).signExtend 64
  | lh _, v => (v.setWidth 16).signExtend 64
  | lw _, v | clw _, v | clwsp _, v => (v.setWidth 32).signExtend 64
  | ld _, v | cld _, v | cldsp _, v => v
  | lbu _, v => (v.setWidth 8).setWidth 64
  | lhu _, v => (v.setWidth 16).setWidth 64
  | lwu _, v => (v.setWidth 32).setWidth 64

def Encodes (bits : BitVec 32) : Load → Prop
  | lb r => opcode bits = 0b0000011 ∧ funct3 bits = 0b000 ∧ rd bits = r
  | lh r => opcode bits = 0b0000011 ∧ funct3 bits = 0b001 ∧ rd bits = r
  | lw r => opcode bits = 0b0000011 ∧ funct3 bits = 0b010 ∧ rd bits = r
  | ld r => opcode bits = 0b0000011 ∧ funct3 bits = 0b011 ∧ rd bits = r
  | lbu r => opcode bits = 0b0000011 ∧ funct3 bits = 0b100 ∧ rd bits = r
  | lhu r => opcode bits = 0b0000011 ∧ funct3 bits = 0b101 ∧ rd bits = r
  | lwu r => opcode bits = 0b0000011 ∧ funct3 bits = 0b110 ∧ rd bits = r
  | clw r => bits.toNat < 2 ^ 16 ∧ quadrant bits = 0b00 ∧ cfunct3 bits = 0b010 ∧ crs2 bits = r
  | cld r => bits.toNat < 2 ^ 16 ∧ quadrant bits = 0b00 ∧ cfunct3 bits = 0b011 ∧ crs2 bits = r
  | clwsp r => bits.toNat < 2 ^ 16 ∧ quadrant bits = 0b10 ∧ cfunct3 bits = 0b010 ∧ rd bits = r
  | cldsp r => bits.toNat < 2 ^ 16 ∧ quadrant bits = 0b10 ∧ cfunct3 bits = 0b011 ∧ rd bits = r

def Transformed (bits : BitVec 32) (i : Load) : Prop :=
  opcode bits = (if i.len = 2 then 0b0000001 else 0b0000011) ∧ funct3 bits = i.code ∧
    rd bits = i.dst

theorem Encodes.full {bits : BitVec 32} {i : Load} (h : i.Encodes bits) (hlen : i.len = 4) :
    opcode bits = 0b0000011 ∧ funct3 bits = i.code ∧ rd bits = i.dst := by
  cases i with
  | lb r | lh r | lw r | ld r | lbu r | lhu r | lwu r => exact h
  | clw r | cld r | clwsp r | cldsp r => cases hlen

theorem Encodes.short {bits : BitVec 32} {i : Load} (h : i.Encodes bits) (hlen : i.len = 2) :
    bits.toNat < 2 ^ 16 ∧ (quadrant bits = 0b00 ∨ quadrant bits = 0b10) ∧
      cfunct3 bits = i.code := by
  cases i with
  | lb r | lh r | lw r | ld r | lbu r | lhu r | lwu r => cases hlen
  | clw r | cld r => exact ⟨h.1, .inl h.2.1, h.2.2.1⟩
  | clwsp r | cldsp r => exact ⟨h.1, .inr h.2.1, h.2.2.1⟩

end Load

/-- The short source field is the lower part of the long one. -/
theorem crs2_eq_cssRs2 (bits : BitVec 32) : crs2 bits = (cssRs2 bits).setWidth 3 := by
  unfold crs2 cssRs2
  apply BitVec.eq_of_getLsbD_eq
  intro i hi
  interval_cases i <;> simp

/-! ## Masks -/

/-- The bits of `opcode` and `funct3`. -/
theorem and_opcode_funct3 (bits : BitVec 32) :
    bits &&& 0x707f#32 = (funct3 bits).setWidth 32 <<< 12 ||| (opcode bits).setWidth 32 := by
  apply BitVec.eq_of_getLsbD_eq
  intro i hi
  unfold funct3 opcode
  interval_cases i <;> simp

/-- The bits of the quadrant and the compressed `funct3`. -/
theorem and_quadrant_cfunct3 (bits : BitVec 32) :
    bits &&& 0xe003#32 = (cfunct3 bits).setWidth 32 <<< 13 ||| (quadrant bits).setWidth 32 := by
  apply BitVec.eq_of_getLsbD_eq
  intro i hi
  unfold cfunct3 quadrant
  interval_cases i <;> simp

theorem and_quadrant (bits : BitVec 32) : bits &&& 3#32 = (quadrant bits).setWidth 32 := by
  apply BitVec.eq_of_getLsbD_eq
  intro i hi
  unfold quadrant
  interval_cases i <;> simp

theorem quadrant_of_opcode (bits : BitVec 32) : quadrant bits = (opcode bits).setWidth 2 := by
  unfold quadrant opcode
  apply BitVec.eq_of_getLsbD_eq
  intro i hi
  interval_cases i <;> simp

end RvIsa
