import HyperCore.Lib.RvIsa
import HyperCore.Riscv64.GuestRam

/-!
# The emulation of a trapped access

`vcpu_emulate_mmio` decodes the load or store that hit an emulated device, calls the device's
driver and writes a loaded value into the saved frame. The registers of the frame lie where the
register number times eight is the offset, so that `sepc` is where x0 would be.
-/

namespace HyperCore.Riscv64

open ArchPage ReadLog

/-! ## The frame -/

/-- `struct cpu_user_regs` by words: `sepc`, x1 to x31, and four more. -/
abbrev CpuUserRegs := Fin 36 → BitVec 64

instance neZero_words : NeZero 36 := ⟨by decide⟩

/-- `REG_OFFSET`: the byte offset that the field at `pos` gives. -/
def regOffset (inst : BitVec 32) (pos : Nat) : BitVec 32 := inst >>> (pos - 3) &&& 0xf8#32

theorem regOffset_div_lt (inst : BitVec 32) (pos : Nat) : (regOffset inst pos).toNat / 8 < 36 := by
  have hle : (regOffset inst pos).toNat ≤ 0xf8 := by
    rw [regOffset, BitVec.toNat_and]
    exact Nat.and_le_right
  omega

/-- The word that `REG_PTR` points at. -/
def regPtr (inst : BitVec 32) (pos : Nat) : Fin 36 :=
  ⟨(regOffset inst pos).toNat / 8, regOffset_div_lt inst pos⟩

theorem rs2c_slot_lt (inst : BitVec 32) : 8 + (inst >>> 2 &&& 7#32).toNat < 36 := by
  have hle : (inst >>> 2 &&& 7#32).toNat ≤ 7 := by
    rw [BitVec.toNat_and]
    exact Nat.and_le_right
  omega

/-- The word of `x(8 + rs2')`. -/
def rs2cSlot (inst : BitVec 32) : Fin 36 := ⟨8 + (inst >>> 2 &&& 7#32).toNat, rs2c_slot_lt inst⟩

namespace CpuUserRegs

def sepc (regs : CpuUserRegs) : BitVec 64 := regs 0

def set (regs : CpuUserRegs) (i : Fin 36) (v : BitVec 64) : CpuUserRegs :=
  fun j => if j = i then v else regs j

def setSepc (regs : CpuUserRegs) (v : BitVec 64) : CpuUserRegs := regs.set 0 v

@[simp] theorem set_same (regs : CpuUserRegs) (i : Fin 36) (v : BitVec 64) : regs.set i v i = v :=
  if_pos rfl

@[simp] theorem set_ne (regs : CpuUserRegs) {i j : Fin 36} (v : BitVec 64) (h : j ≠ i) :
    regs.set i v j = regs j :=
  if_neg h

@[simp] theorem sepc_setSepc (regs : CpuUserRegs) (v : BitVec 64) : (regs.setSepc v).sepc = v :=
  set_same regs 0 v

theorem setSepc_ne (regs : CpuUserRegs) {i : Fin 36} (v : BitVec 64) (h : i ≠ 0) :
    regs.setSepc v i = regs i :=
  set_ne regs v h

end CpuUserRegs

/-! ## The decoder -/

/-- `INSN_LEN` -/
def insnLen (inst : BitVec 32) : BitVec 64 := if insnIs16Bit inst then 2 else 4

def instToAccessLen (inst : BitVec 32) : Nat :=
  if insnIs16Bit inst then
    if inst &&& 0xe003#32 = 0x6000#32 ∨ inst &&& 0xe003#32 = 0xe000#32 ∨ inst &&& 0xe003#32 = 0x6002#32 ∨
        inst &&& 0xe003#32 = 0xe002#32 then 8
    else if inst &&& 0xe003#32 = 0x4000#32 ∨ inst &&& 0xe003#32 = 0xc000#32 ∨ inst &&& 0xe003#32 = 0x4002#32 ∨
        inst &&& 0xe003#32 = 0xc002#32 then 4
    else 4
  else if inst &&& 0x707f#32 = 0x3003#32 ∨ inst &&& 0x707f#32 = 0x3023#32 then 8
  else if inst &&& 0x707f#32 = 0x2003#32 ∨ inst &&& 0x707f#32 = 0x2023#32 then 4
  else if inst &&& 0x707f#32 = 0x1003#32 ∨ inst &&& 0x707f#32 = 0x1023#32 then 2
  else if inst &&& 0x707f#32 = 0x3#32 ∨ inst &&& 0x707f#32 = 0x23#32 then 1
  else if inst &&& 0x707f#32 = 0x4003#32 then 1
  else if inst &&& 0x707f#32 = 0x5003#32 ∨ inst &&& 0x707f#32 = 0x6003#32 then 4
  else 4

def instIsStore (inst : BitVec 32) : Bool :=
  if insnIs16Bit inst then
    decide (inst &&& 0xe003#32 = 0xc000#32 ∨ inst &&& 0xe003#32 = 0xe000#32 ∨ inst &&& 0xe003#32 = 0xc002#32 ∨
      inst &&& 0xe003#32 = 0xe002#32)
  else
    decide (inst &&& 0x707f#32 = 0x23#32 ∨ inst &&& 0x707f#32 = 0x1023#32 ∨ inst &&& 0x707f#32 = 0x2023#32 ∨
      inst &&& 0x707f#32 = 0x3023#32)

def instGetRd (inst : BitVec 32) : BitVec 32 := inst >>> 7 &&& 0x1f#32

/-! ## `vcpu_emulate_mmio` -/

/-- The instruction that is decoded: one from `htinst` may lack bit 1. -/
def decodeInst (htinst : BitVec 64) (inst : BitVec 32) : BitVec 32 :=
  if htinst ≠ 0 ∧ inst &&& 3#32 = 1#32 then inst ||| 2#32 else inst

/-- A call of the driver of an emulated device. -/
inductive Access
  | write (addr : BitVec 64) (len : Nat) (value : BitVec 64)
  | read (addr : BitVec 64) (len : Nat)
deriving DecidableEq

/-- What a successful emulation has done: the calls in their order, and the frame. -/
structure Emulated where
  calls : List Access
  regs : CpuUserRegs

/-- `htinst` is the value of the CSR; `read addr len` is what the device's `read` returns, and
the result `none` stands for `-1`. -/
def vcpuEmulateMmio (L : Layout) (mem : Nat → BitVec 8) (regions : List MemRegion)
    (read : BitVec 64 → Nat → BitVec 64) (htinst : BitVec 64) (regs : CpuUserRegs)
    (faultAddr : BitVec 64) (isWrite : Bool) : Reads (Option Emulated) := do
  let inst ← vcpuFetchInst L mem regs.sepc htinst
  let decoded := decodeInst htinst inst
  let len := instToAccessLen decoded
  let accessIsStore := instIsStore decoded || isWrite
  match guestMemFindRegion regions faultAddr.toNat with
  | none => pure none
  | some region =>
    if !region.dev then pure none
    else if accessIsStore then
      let value :=
        -- every compressed store is taken to have its source in bits 4:2
        if insnIs16Bit decoded then regs (rs2cSlot decoded) else regs (regPtr decoded 20)
      pure (some ⟨[.write faultAddr len value], regs.setSepc (regs.sepc + insnLen inst)⟩)
    else
      let value := read faultAddr len
      let regs' := if instGetRd decoded ≠ 0 then regs.set (regPtr decoded 7) value else regs
      pure (some ⟨[.read faultAddr len], regs'.setSepc (regs'.sepc + insnLen inst)⟩)

end HyperCore.Riscv64
