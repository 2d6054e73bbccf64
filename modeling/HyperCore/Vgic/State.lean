import HyperCore.Lib.ByteMem
import HyperCore.Lib.MachineInt

/-!
# The emulated GICv3

`struct gic_emul_v3_state` as the bytes it occupies, and the MMIO handlers over it:
`gic3_read` and `gic3_write` choose between the distributor and a redistributor
frame, which choose a register or a window of a table.

| part          | offsets      | one row holds               |
|---------------|--------------|-----------------------------|
| distributor   | 0 .. 9735    | the whole array             |
| redistributor | 9736 .. 9991 | the array of one vCPU       |

The handlers return 0 on every path, so only the value they read is modelled.
-/

namespace HyperCore.Vgic

open ByteMem MachineInt

/-! ## The state -/

/-- The members of `struct gic_emul_v3_state`. -/
inductive Field
  | distCtlr | group | enable | pending | active | config | priority | router
  | rCtlr | rWaker | rGroup | rEnable | rPending | rActive | rConfig | rPriority
deriving DecidableEq, Repr

/-- `HYPER_MAX_VCPUS` -/
def hyperMaxVcpus : Nat := 4

/-- `offsetof(struct gic_emul_v3_state, _member)` -/
def Field.offset : Field → Nat
  | distCtlr => 0
  | group => 4
  | enable => 132
  | pending => 260
  | active => 388
  | config => 516
  | priority => 772
  | router => 1800
  | rCtlr => 9736
  | rWaker => 9752
  | rGroup => 9768
  | rEnable => 9784
  | rPending => 9800
  | rActive => 9816
  | rConfig => 9832
  | rPriority => 9864

/-- The size of the member, or of one vCPU's row of it. -/
def Field.rowSize : Field → Nat
  | distCtlr => 4
  | group | enable | pending | active => 128
  | config => 256
  | priority => 1024
  | router => 7936
  | rCtlr | rWaker | rGroup | rEnable | rPending | rActive => 4
  | rConfig => 8
  | rPriority => 32

/-- `struct hyper_guest_vgic_config`, with the vCPU list that `gicr_typer` reads. -/
structure VgicConfig where
  gicdBase : Nat
  gicdSize : Nat
  gicrBase : Nat
  gicrSize : Nat
  gicrStride : Nat
  vcpuCount : Nat
  vcpuMpidr : Nat → Nat

/-- The default windows of the QEMU board. -/
def qemuVgic : VgicConfig where
  gicdBase := 0x08000000
  gicdSize := 0x00010000
  gicrBase := 0x080a0000
  gicrSize := 0x00f60000
  gicrStride := 0x00020000
  vcpuCount := 4
  vcpuMpidr := id

/-! ## Access primitives -/

/-- `access_size` -/
def accessSize (len : Nat) : Nat := 1 <<< len

/-- `in_range` -/
def inRange (off base span : Nat) : Bool := base ≤ off && off < base + span

/-- `read_bytes` -/
def readBytes (base off len : Nat) : MemM Nat := load (base + off) (accessSize len)

/-- `write_bytes` -/
def writeBytes (base off len value : Nat) : MemM Unit := store (base + off) value (accessSize len)

/-- `reg_index` -/
def regIndex (off base : Nat) : Nat := toUInt32 ((off - base) / 4 : Nat)

/-- A `u32` read through a pointer. -/
def readWord (a : Nat) : MemM Nat := load a 4

/-- `*p = (u32)value` -/
def writeWord (a value : Nat) : MemM Unit := store a (value % 2 ^ 32) 4

/-- `*p |= (u32)value` -/
def setWord (a value : Nat) : MemM Unit := do
  let old ← readWord a
  writeWord a (old ||| value % 2 ^ 32)

/-- `*p &= ~(u32)value` -/
def clearWord (a value : Nat) : MemM Unit := do
  let old ← readWord a
  writeWord a (old &&& (0xffffffff ^^^ value % 2 ^ 32))

/-- `frame_index` -/
def frameIndex (cfg : VgicConfig) (addr : Nat) : Nat :=
  toUInt32 (toUInt64 ((addr : Int) - cfg.gicrBase) / cfg.gicrStride : Nat)

/-- `frame_offset` -/
def frameOffset (cfg : VgicConfig) (addr : Nat) : Nat :=
  toUInt64 ((addr : Int) - cfg.gicrBase) % cfg.gicrStride

/-- `dist_offset` -/
def distOffset (cfg : VgicConfig) (addr : Nat) : Nat := toUInt64 ((addr : Int) - cfg.gicdBase)

/-- `gicr_typer` -/
def gicrTyper (cfg : VgicConfig) (frame : Nat) : Nat :=
  let mpidr := if frame < cfg.vcpuCount then cfg.vcpuMpidr frame &&& 0xffffffff else frame
  let typer := (frame &&& 0xffff) <<< 8 ||| mpidr <<< 32
  if cfg.vcpuCount ≠ 0 ∧ frame = cfg.vcpuCount - 1 then typer ||| 1 <<< 4 else typer

/-! ## The distributor -/

/-- `enum gicd_mode` -/
inductive GicdMode
  | rawBytes | w1s | w1c
deriving DecidableEq, Repr

/-- `struct gicd_window` -/
structure GicdWindow where
  base : Nat
  span : Nat
  bytes : Nat
  mode : GicdMode
deriving DecidableEq, Repr

def gicdIgroupr : Nat := 0x0080
def gicdIsenabler : Nat := 0x0100
def gicdIcenabler : Nat := 0x0180
def gicdIspendr : Nat := 0x0200
def gicdIcpendr : Nat := 0x0280
def gicdIsactiver : Nat := 0x0300
def gicdIcactiver : Nat := 0x0380
def gicdIpriorityr : Nat := 0x0400
def gicdIcfgr : Nat := 0x0c00
def gicdIrouter : Nat := 0x6000
def gicdPidr2 : Nat := 0xffe8

/-- A window over the whole of a member. -/
def Field.gicdWindow (f : Field) (base : Nat) (mode : GicdMode) : GicdWindow :=
  ⟨base, f.rowSize, f.offset, mode⟩

/-- `gicd_table` -/
def gicdTable : List GicdWindow :=
  [Field.group.gicdWindow gicdIgroupr .rawBytes,
    Field.enable.gicdWindow gicdIsenabler .w1s,
    Field.enable.gicdWindow gicdIcenabler .w1c,
    Field.pending.gicdWindow gicdIspendr .w1s,
    Field.pending.gicdWindow gicdIcpendr .w1c,
    Field.active.gicdWindow gicdIsactiver .w1s,
    Field.active.gicdWindow gicdIcactiver .w1c,
    Field.priority.gicdWindow gicdIpriorityr .rawBytes,
    Field.config.gicdWindow gicdIcfgr .rawBytes,
    Field.router.gicdWindow gicdIrouter .rawBytes]

/-- The window the dispatch loops pick: the first that holds the offset. -/
def gicdFind (off : Nat) : Option GicdWindow :=
  gicdTable.find? fun w => inRange off w.base w.span

/-- `dist_read` -/
def distRead (off len : Nat) : MemM Nat :=
  if off = 0x0000 then readWord Field.distCtlr.offset
  else if off = 0x0004 then pure (9 <<< 19 ||| 31)
  else if off = 0x0008 then pure 0x43b
  else if off = gicdPidr2 then pure 0x30
  else match gicdFind off with
    | some w => readBytes w.bytes (toUInt32 (off - w.base : Nat)) len
    | none => pure 0

/-- `dist_write` -/
def distWrite (off len value : Nat) : MemM Unit :=
  if off = 0x0000 then writeWord Field.distCtlr.offset value
  else match gicdFind off with
    | some w => match w.mode with
      | .rawBytes => writeBytes w.bytes (toUInt32 (off - w.base : Nat)) len value
      | .w1s => setWord (w.bytes + 4 * regIndex off w.base) value
      | .w1c => clearWord (w.bytes + 4 * regIndex off w.base) value
    | none => pure ()

/-! ## The redistributors -/

/-- `enum gicr_mode` -/
inductive GicrMode
  | rawBytesPrio | rawBytesConfig | w1sWord | w1cWord | rawWord
deriving DecidableEq, Repr

/-- `struct gicr_window` -/
structure GicrWindow where
  base : Nat
  span : Nat
  fieldOff : Nat
  mode : GicrMode
deriving DecidableEq, Repr

/-- A window over one row of a per-vCPU member. -/
def Field.gicrWindow (f : Field) (base : Nat) (mode : GicrMode) : GicrWindow :=
  ⟨base, f.rowSize, f.offset, mode⟩

/-- `gicr_table` -/
def gicrTable : List GicrWindow :=
  [Field.rGroup.gicrWindow gicdIgroupr .rawWord,
    Field.rEnable.gicrWindow gicdIsenabler .w1sWord,
    Field.rEnable.gicrWindow gicdIcenabler .w1cWord,
    Field.rPending.gicrWindow gicdIspendr .w1sWord,
    Field.rPending.gicrWindow gicdIcpendr .w1cWord,
    Field.rActive.gicrWindow gicdIsactiver .w1sWord,
    Field.rActive.gicrWindow gicdIcactiver .w1cWord,
    Field.rPriority.gicrWindow gicdIpriorityr .rawBytesPrio,
    Field.rConfig.gicrWindow gicdIcfgr .rawBytesConfig]

def gicrFind (off : Nat) : Option GicrWindow :=
  gicrTable.find? fun w => inRange off w.base w.span

/-- `redist_word_field` -/
def redistWordField (frame fieldOff : Nat) : Nat := fieldOff + 4 * frame

/-- `redist_byte_array` -/
def redistByteArray (frame fieldOff rowStride : Nat) : Nat := fieldOff + frame * rowStride

/-- `redist_sgi_read` -/
def redistSgiRead (frame off len : Nat) : MemM Nat :=
  if hyperMaxVcpus ≤ frame then pure 0
  else match gicrFind off with
    | some w => match w.mode with
      | .rawBytesPrio =>
        readBytes (redistByteArray frame w.fieldOff 32) (toUInt32 (off - w.base : Nat)) len
      | .rawBytesConfig =>
        readBytes (redistByteArray frame w.fieldOff 8) (toUInt32 (off - w.base : Nat)) len
      | .rawWord | .w1sWord | .w1cWord => readWord (redistWordField frame w.fieldOff)
    | none => pure 0

/-- `redist_sgi_write` -/
def redistSgiWrite (frame off len value : Nat) : MemM Unit :=
  if hyperMaxVcpus ≤ frame then pure ()
  else match gicrFind off with
    | some w => match w.mode with
      | .rawWord => writeWord (redistWordField frame w.fieldOff) value
      | .w1sWord => setWord (redistWordField frame w.fieldOff) value
      | .w1cWord => clearWord (redistWordField frame w.fieldOff) value
      | .rawBytesPrio =>
        writeBytes (redistByteArray frame w.fieldOff 32) (toUInt32 (off - w.base : Nat)) len value
      | .rawBytesConfig =>
        writeBytes (redistByteArray frame w.fieldOff 8) (toUInt32 (off - w.base : Nat)) len value
    | none => pure ()

/-- `VGIC_RDIST_SGI_BASE` -/
def vgicRdistSgiBase : Nat := 0x10000

/-- `redist_read` -/
def redistRead (cfg : VgicConfig) (addr len : Nat) : MemM Nat :=
  let frame := frameIndex cfg addr
  let off := frameOffset cfg addr
  if hyperMaxVcpus ≤ frame then pure 0
  else if vgicRdistSgiBase ≤ off then redistSgiRead frame (off - vgicRdistSgiBase) len
  else if off = 0x0000 then readWord (Field.rCtlr.offset + 4 * frame)
  else if off = 0x0004 then pure 0x43b
  else if off = 0x0008 then pure (gicrTyper cfg frame)
  else if off = 0x0014 then do
    let waker ← readWord (Field.rWaker.offset + 4 * frame)
    pure (waker &&& 0xfffffffb)
  else if off = gicdPidr2 then pure 0x30
  else pure 0

/-- `redist_write` -/
def redistWrite (cfg : VgicConfig) (addr len value : Nat) : MemM Unit :=
  let frame := frameIndex cfg addr
  let off := frameOffset cfg addr
  if hyperMaxVcpus ≤ frame then pure ()
  else if vgicRdistSgiBase ≤ off then redistSgiWrite frame (off - vgicRdistSgiBase) len value
  else if off = 0x0000 then writeWord (Field.rCtlr.offset + 4 * frame) value
  else if off = 0x0014 then writeWord (Field.rWaker.offset + 4 * frame) (value &&& 1 <<< 1)
  else pure ()

/-! ## The tables -/

theorem inRange_iff {off base span : Nat} :
    inRange off base span = true ↔ base ≤ off ∧ off < base + span := by
  simp [inRange]

/-- In a table of disjoint windows the loop finds the window that holds the offset. -/
theorem find?_inRange {α : Type} {table : List α} {base span : α → Nat} {off : Nat}
    (hapart : ∀ v ∈ table, ∀ w ∈ table,
      base v + span v ≤ base w ∨ base w + span w ≤ base v ∨ v = w)
    {w : α} (hw : w ∈ table) (hin : base w ≤ off ∧ off < base w + span w) :
    (table.find? fun v => inRange off (base v) (span v)) = some w := by
  have hsome : (table.find? fun v => inRange off (base v) (span v)).isSome :=
    List.find?_isSome.mpr ⟨w, hw, inRange_iff.mpr hin⟩
  obtain ⟨v, hv⟩ := Option.isSome_iff_exists.mp hsome
  have hvin := List.find?_some hv
  simp only [inRange_iff] at hvin
  rw [hv]
  rcases hapart v (List.mem_of_find?_eq_some hv) w hw with h | h | h
  · omega
  · omega
  · rw [h]

theorem gicdFind_eq {off : Nat} {w : GicdWindow} (hw : w ∈ gicdTable)
    (hin : w.base ≤ off ∧ off < w.base + w.span) : gicdFind off = some w :=
  find?_inRange (by decide) hw hin

theorem gicrFind_eq {off : Nat} {w : GicrWindow} (hw : w ∈ gicrTable)
    (hin : w.base ≤ off ∧ off < w.base + w.span) : gicrFind off = some w :=
  find?_inRange (by decide) hw hin

theorem toUInt32_of_lt {n : Nat} (h : n < 2 ^ 32) : toUInt32 n = n := by
  simp only [toUInt32]
  omega

/-! ## The handlers -/

/-- The test that sends an address to the redistributors. -/
def inGicr (cfg : VgicConfig) (addr : Nat) : Bool :=
  cfg.gicrBase ≤ addr && addr < toUInt64 ((cfg.gicrBase : Int) + cfg.gicrSize)

/-- `gic3_read` -/
def gic3Read (cfg : VgicConfig) (addr len : Nat) : MemM Nat :=
  if inGicr cfg addr then redistRead cfg addr len else distRead (distOffset cfg addr) len

/-- `gic3_write` -/
def gic3Write (cfg : VgicConfig) (addr len value : Nat) : MemM Unit :=
  if inGicr cfg addr then redistWrite cfg addr len value
  else distWrite (distOffset cfg addr) len value

/-- Inside the window the subtractions do not wrap; only the frame number is cut. -/
theorem frameIndex_eq {cfg : VgicConfig} {addr : Nat} (h : inGicr cfg addr = true) :
    frameIndex cfg addr = (addr - cfg.gicrBase) / cfg.gicrStride % 2 ^ 32 ∧
      frameOffset cfg addr = (addr - cfg.gicrBase) % cfg.gicrStride := by
  have hlt : toUInt64 ((cfg.gicrBase : Int) + cfg.gicrSize) < 2 ^ 64 := by
    simp only [toUInt64]
    omega
  simp only [inGicr, Bool.and_eq_true, decide_eq_true_eq] at h
  have hsub : toUInt64 ((addr : Int) - cfg.gicrBase) = addr - cfg.gicrBase := by
    simp only [toUInt64]
    omega
  refine ⟨?_, ?_⟩
  · rw [frameIndex, hsub]
    simp only [toUInt32]
    omega
  · rw [frameOffset, hsub]

/-- `gic_register_emul`: the state before the first access. -/
def gicRegisterEmul (a : Nat) : BitVec 8 :=
  if inRange a Field.priority.offset Field.priority.rowSize ||
    inRange a Field.rPriority.offset (hyperMaxVcpus * Field.rPriority.rowSize) then 0xa0 else 0

end HyperCore.Vgic
