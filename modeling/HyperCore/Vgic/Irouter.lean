import HyperCore.Vgic.Containment
import HyperCore.Vgic.Refinement

/-!
# IROUTER

IROUTER<n> is at 0x6000 + 8n of the distributor, for the SPIs n ≥ 32.

* The emulated array has an entry for each of 992 interrupts, but its window starts at 0x6000, the
  place of IROUTER<0>. The entries 0 to 31 belong to no SPI and the SPIs from 992 on have none
  (`router_holds_iff`).
* `gicv3_enable_host_irq` takes 32 off the number of the interrupt and starts at 0x6000 as well, so
  it routes the wrong interrupt (`host_routes_other`).
-/

namespace HyperCore.Vgic

open ByteMem MachineInt

/-! ## The emulated distributor -/

section

variable {cfg : VgicConfig} {n : Nat}

/-- The guest address of IROUTER<n>. -/
def irouterAddr (cfg : VgicConfig) (n : Nat) : Nat := cfg.gicdBase + (gicdIrouter + 8 * n)

/-- GICD_TYPER.ITLinesNumber, as the guest reads it. -/
def itLinesNumber (cfg : VgicConfig) (bytes : Nat → BitVec 8) : Nat :=
  (gic3Read cfg (cfg.gicdBase + 0x0004) 2 ⟨bytes, []⟩).1 % 2 ^ 5

/-- The SPIs that the distributor says it has; the numbers from 1020 on are special. -/
def SpiAvailable (cfg : VgicConfig) (bytes : Nat → BitVec 8) (n : Nat) : Prop :=
  32 ≤ n ∧ n < 1020 ∧ n < 32 * (itLinesNumber cfg bytes + 1)

/-- An access of the guest, with its size code. -/
structure GuestAccess where
  addr : Nat
  len : Nat
  kind : Access

/-- The state after an access. -/
def GuestAccess.after (cfg : VgicConfig) (bytes : Nat → BitVec 8) (acc : GuestAccess) :
    Nat → BitVec 8 :=
  (acc.kind.run cfg acc.addr acc.len ⟨bytes, []⟩).2.bytes

/-- An access of 4 or 8 bytes that does not meet the 8 bytes at `reg`. -/
def GuestAccess.Elsewhere (reg : Nat) (acc : GuestAccess) : Prop :=
  acc.addr < 2 ^ 64 ∧ (acc.len = 2 ∨ acc.len = 3) ∧
    (acc.addr + 2 ^ acc.len ≤ reg ∨ reg + 8 ≤ acc.addr)

/-- Whatever else the guest accesses, a 64-bit read of IROUTER<n> gives the last value written. -/
def RouterHolds (cfg : VgicConfig) (n : Nat) : Prop :=
  ∀ (bytes : Nat → BitVec 8) (value : Nat) (accs : List GuestAccess), value < 2 ^ 64 →
    (∀ acc ∈ accs, acc.Elsewhere (irouterAddr cfg n)) →
    (gic3Read cfg (irouterAddr cfg n) 3
      ⟨accs.foldl (GuestAccess.after cfg)
        (GuestAccess.after cfg bytes ⟨irouterAddr cfg n, 3, .write value⟩), []⟩).1 = value

/-! ### Nothing but the touched bytes changes -/

theorem framed_distRead (off len : Nat) : Framed (distRead off len) := by
  unfold distRead
  repeat' split
  all_goals first | exact .load _ _ | exact .pure _

theorem framed_distWrite (off len value : Nat) : Framed (distWrite off len value) := by
  unfold distWrite
  repeat' split
  all_goals first
    | exact .store _ _ _
    | exact .pure _
    | exact .bind (.load _ _) fun _ => .store _ _ _

theorem framed_redistRead (cfg : VgicConfig) (addr len : Nat) : Framed (redistRead cfg addr len) := by
  unfold redistRead redistSgiRead
  dsimp only
  repeat' split
  all_goals first | exact .load _ _ | exact .pure _ | exact .bind (.load _ _) fun _ => .pure _

theorem framed_redistWrite (cfg : VgicConfig) (addr len value : Nat) :
    Framed (redistWrite cfg addr len value) := by
  unfold redistWrite redistSgiWrite
  dsimp only
  repeat' split
  all_goals first
    | exact .store _ _ _
    | exact .pure _
    | exact .bind (.load _ _) fun _ => .store _ _ _

theorem framed_access (cfg : VgicConfig) (addr len : Nat) (acc : Access) :
    Framed (acc.run cfg addr len) := by
  cases acc with
  | read =>
    simp only [Access.run, gic3Read]
    split
    · exact framed_redistRead cfg addr len
    · exact framed_distRead _ len
  | write value =>
    refine .bind ?_ fun _ => .pure 0
    simp only [gic3Write]
    split
    · exact framed_redistWrite cfg addr len value
    · exact framed_distWrite _ len value

/-! ### Where the entries are -/

/-- Only the last window reaches the routing array. -/
theorem gicdTable_router : ∀ w ∈ gicdTable,
    (w.base = gicdIrouter ∧ w.bytes = Field.router.offset ∧ w.mode = .rawBytes) ∨
      w.bytes + w.span ≤ Field.router.offset := by
  decide

theorem gicrTable_router : ∀ w ∈ gicrTable,
    Field.router.offset + Field.router.rowSize ≤ w.fieldOff := by
  decide

/-- A distributor access that misses IROUTER<n> misses its entry. A bytewise access may run on
from the priorities into the routing array, but not as far as the entry of an SPI. -/
theorem distTouched_apart {acc : Access} {off len a : Nat} (hspi : 32 ≤ n)
    (hlen : len = 2 ∨ len = 3)
    (hoff : off + 2 ^ len ≤ gicdIrouter + 8 * n ∨ gicdIrouter + 8 * n + 8 ≤ off)
    (ha : distTouched acc off len a) : ¬ Bytes (Field.router.offset + 8 * n) 8 a := by
  have hsize : 2 ^ len ≤ 8 := by rcases hlen with rfl | rfl <;> decide
  simp only [Field.offset, gicdIrouter] at *
  rintro ⟨hlo, hhi⟩
  rcases ha with ⟨-, ha⟩ | ⟨w, hw, ha⟩
  · have := ha.2
    simp only [Field.offset] at this
    omega
  · obtain ⟨f, -, -, -, hmod, h1, h2, -, -⟩ := gicdFind_some hw
    rcases gicdTable_router w (List.mem_of_find?_eq_some hw) with ⟨hbase, hbytes, hmode⟩ | hbelow
    · have hbytewise : acc.bytewise w.mode = true := by
        rw [hmode]
        cases acc <;> rfl
      rw [if_pos hbytewise, hbase, hbytes] at ha
      simp only [Bytes, Field.offset, gicdIrouter] at ha hbase
      omega
    · simp only [Field.offset] at hbelow
      split at ha
      · simp only [Bytes] at ha
        omega
      · simp only [Bytes] at ha
        omega

/-- A redistributor access is behind the routing array. -/
theorem frameTouched_apart {frame off len a : Nat} (hn : n < 992)
    (ha : frameTouched frame off len a) : ¬ Bytes (Field.router.offset + 8 * n) 8 a := by
  rintro ⟨hlo, hhi⟩
  simp only [Field.offset] at hlo hhi
  unfold frameTouched at ha
  split at ha
  · obtain ⟨w, hw, ha⟩ := ha
    have hbehind := gicrTable_router w (List.mem_of_find?_eq_some hw)
    simp only [Field.offset, Field.rowSize] at hbehind
    split at ha
    · simp only [Bytes] at ha
      omega
    · simp only [Bytes] at ha
      omega
  · rcases ha with ⟨-, ha⟩ | ⟨-, ha⟩
    · simp only [Bytes, Field.offset] at ha
      omega
    · simp only [Bytes, Field.offset] at ha
      omega

variable (hwin : Windows cfg) (hroom : gicdIrouter + 8 * n + 8 ≤ cfg.gicdSize)

include hwin hroom

/-- Outside of the redistributors, an access that misses the register has an offset that does. -/
theorem distOffset_apart {acc : GuestAccess} (hacc : acc.Elsewhere (irouterAddr cfg n)) :
    distOffset cfg acc.addr + 2 ^ acc.len ≤ gicdIrouter + 8 * n ∨
      gicdIrouter + 8 * n + 8 ≤ distOffset cfg acc.addr := by
  have hend := hwin.gicd
  obtain ⟨haddr, -, hmiss⟩ := hacc
  simp only [irouterAddr] at hmiss
  by_cases hle : cfg.gicdBase ≤ acc.addr
  · have hoff : distOffset cfg acc.addr = acc.addr - cfg.gicdBase := by
      simp only [distOffset, toUInt64]
      omega
    omega
  · -- below the base the difference wraps to the far end of the address space
    have hoff : distOffset cfg acc.addr = acc.addr + 2 ^ 64 - cfg.gicdBase := by
      simp only [distOffset, toUInt64]
      omega
    omega

theorem after_elsewhere (hspi : 32 ≤ n) (hn : n < 992) {acc : GuestAccess}
    (hacc : acc.Elsewhere (irouterAddr cfg n)) (bytes : Nat → BitVec 8) {a : Nat}
    (ha : Bytes (Field.router.offset + 8 * n) 8 a) : acc.after cfg bytes a = bytes a := by
  refine (touches_access cfg acc.addr acc.len acc.kind).frame
    (framed_access cfg acc.addr acc.len acc.kind) bytes fun hspan => ?_
  unfold accessSpan at hspan
  split at hspan
  · exact frameTouched_apart hn hspan.2 ha
  · exact distTouched_apart hspi hacc.2.1 (distOffset_apart hwin hroom hacc) hspan ha

theorem run_elsewhere (hspi : 32 ≤ n) (hn : n < 992) (accs : List GuestAccess)
    (haccs : ∀ acc ∈ accs, acc.Elsewhere (irouterAddr cfg n)) (bytes : Nat → BitVec 8) {a : Nat}
    (ha : Bytes (Field.router.offset + 8 * n) 8 a) :
    accs.foldl (GuestAccess.after cfg) bytes a = bytes a := by
  induction accs generalizing bytes with
  | nil => rfl
  | cons acc accs ih =>
    rw [List.forall_mem_cons] at haccs
    rw [List.foldl_cons, ih haccs.2]
    exact after_elsewhere hwin hroom hspi hn haccs.1 bytes ha

/-- The register's address and offset. -/
theorem irouter_route : inGicr cfg (irouterAddr cfg n) = false ∧
    distOffset cfg (irouterAddr cfg n) = gicdIrouter + 8 * n :=
  not_inGicr hwin (by omega)

/-- An entry of the array is read and written as a whole. -/
theorem router_access (hn : n < 992) (bytes : Nat → BitVec 8) (value : Nat) :
    (gic3Read cfg (irouterAddr cfg n) 3 ⟨bytes, []⟩).1 =
        littleEndian bytes (Field.router.offset + 8 * n) 8 ∧
      GuestAccess.after cfg bytes ⟨irouterAddr cfg n, 3, .write value⟩ =
        put bytes (Field.router.offset + 8 * n) value 8 := by
  obtain ⟨hin, hoff⟩ := irouter_route hwin hroom
  have hfind : gicdFind (gicdIrouter + 8 * n) =
      some (Field.router.gicdWindow gicdIrouter .rawBytes) := by
    refine gicdFind_eq (by decide) ⟨Nat.le_add_right _ _, ?_⟩
    simp only [Field.gicdWindow, Field.rowSize]
    omega
  have hindex : toUInt32 ((gicdIrouter + 8 * n - gicdIrouter : Nat) : Int) = 8 * n := by
    rw [Nat.add_sub_cancel_left]
    exact toUInt32_of_lt (by omega)
  have hctlr : gicdIrouter + 8 * n ≠ 0x0000 := by
    simp only [gicdIrouter]
    omega
  refine ⟨?_, ?_⟩
  · have hreg : gicdIrouter + 8 * n ≠ 0x0004 ∧ gicdIrouter + 8 * n ≠ 0x0008 ∧
        gicdIrouter + 8 * n ≠ gicdPidr2 := by
      simp only [gicdIrouter, gicdPidr2]
      omega
    have hread : gic3Read cfg (irouterAddr cfg n) 3 = load (Field.router.offset + 8 * n) 8 := by
      rw [gic3Read, hin, hoff, distRead, if_neg hctlr, if_neg hreg.1, if_neg hreg.2.1,
        if_neg hreg.2.2, hfind]
      simp only [Field.gicdWindow, hindex, readBytes, Bool.false_eq_true, if_false]
      rfl
    rw [hread, load_run]
  · have hwrite : gic3Write cfg (irouterAddr cfg n) 3 value =
        store (Field.router.offset + 8 * n) value 8 := by
      rw [gic3Write, hin, hoff, distWrite, if_neg hctlr, hfind]
      simp only [Field.gicdWindow, hindex, writeBytes, Bool.false_eq_true, if_false]
      rfl
    change (gic3Write cfg (irouterAddr cfg n) 3 value ⟨bytes, []⟩).2.bytes = _
    rw [hwrite, store_run]

/-- Past the array the register is read as zero. -/
theorem router_missing (hn : 992 ≤ n) (hlt : n < 1024) (bytes : Nat → BitVec 8) :
    (gic3Read cfg (irouterAddr cfg n) 3 ⟨bytes, []⟩).1 = 0 := by
  obtain ⟨hin, hoff⟩ := irouter_route hwin hroom
  have hfind : gicdFind (gicdIrouter + 8 * n) = none := by
    have hends : ∀ w ∈ gicdTable, w.base + w.span ≤ 0x7f00 := by decide
    refine List.find?_eq_none.mpr fun w hw hrange => ?_
    have hend := hends w hw
    have hin' := (inRange_iff.mp hrange).2
    simp only [gicdIrouter] at hin'
    omega
  have hreg : gicdIrouter + 8 * n ≠ 0x0000 ∧ gicdIrouter + 8 * n ≠ 0x0004 ∧
      gicdIrouter + 8 * n ≠ 0x0008 ∧ gicdIrouter + 8 * n ≠ gicdPidr2 := by
    simp only [gicdIrouter, gicdPidr2]
    omega
  rw [gic3Read, hin, hoff, distRead, if_neg hreg.1, if_neg hreg.2.1, if_neg hreg.2.2.1,
    if_neg hreg.2.2.2, hfind]
  rfl

/-- The register keeps its value exactly when the array has an entry for it. -/
theorem router_holds_iff (hspi : 32 ≤ n) (hlt : n < 1024) : RouterHolds cfg n ↔ n < 992 := by
  constructor
  · intro hholds
    by_contra hn
    have hone := hholds (fun _ => 0) 1 [] (by decide) (List.forall_mem_nil _)
    rw [router_missing hwin hroom (Nat.not_lt.mp hn) hlt] at hone
    exact absurd hone Nat.zero_ne_one
  · intro hn bytes value accs hvalue haccs
    have hread := fun b => (router_access hwin hroom hn b value).1
    have hwrite := (router_access hwin hroom hn bytes value).2
    rw [hread, littleEndian_congr fun x hlo hhi =>
      run_elsewhere hwin hroom hspi hn accs haccs _ ⟨hlo, hhi⟩, hwrite, littleEndian_put]
    exact Nat.mod_eq_of_lt hvalue

end

/-! ## The host's distributor -/

/-- A write to a device. -/
structure MmioWrite where
  addr : BitVec 64
  size : Nat
  value : BitVec 64
deriving DecidableEq, Repr

/-- The bit of an interrupt in a register of 32. -/
def irqBit (id : BitVec 32) : BitVec 64 := (1 : BitVec 64) <<< (id &&& 31).toNat

/-- The offset of an interrupt's word in a register array. -/
def irqWord (id : BitVec 32) : BitVec 64 := BitVec.zeroExtend 64 ((id >>> 5) <<< 2)

def gicdSetIcpendr (base : BitVec 64) (id : BitVec 32) : MmioWrite :=
  ⟨base + 0x280 + irqWord id, 4, irqBit id⟩

def gicdSetIcactiver (base : BitVec 64) (id : BitVec 32) : MmioWrite :=
  ⟨base + 0x380 + irqWord id, 4, irqBit id⟩

def gicdSetIpriorityr (base : BitVec 64) (id : BitVec 32) (pri : BitVec 64) : MmioWrite :=
  ⟨base + 0x400 + id.zeroExtend 64, 1, pri &&& 0xff⟩

def gicdSetIsenabler (base : BitVec 64) (id : BitVec 32) : MmioWrite :=
  ⟨base + 0x100 + irqWord id, 4, irqBit id⟩

/-- `GICD_IROUTER` of gicv3_atf.h. -/
def hostGicdIrouter : BitVec 64 := 0x6000

/-- `gicv3_enable_host_irq`, with the reads of 32 bits of the device and MPIDR_EL1: its writes. -/
def gicv3EnableHostIrq (read32 : BitVec 64 → BitVec 32) (mpidrEl1 base : BitVec 64)
    (intid : BitVec 32) : List MmioWrite :=
  let groupReg := base + 0x80 + irqWord intid
  let routerReg := base + hostGicdIrouter + BitVec.zeroExtend 64 (((intid - 32) &&& 0x3ff) <<< 3)
  [⟨groupReg, 4, (read32 groupReg).zeroExtend 64 ||| irqBit intid⟩,
    ⟨routerReg, 8, mpidrEl1 &&& 0xff00ffffff⟩,
    gicdSetIcpendr base intid, gicdSetIcactiver base intid, gicdSetIpriorityr base intid 0xa0,
    gicdSetIsenabler base intid]

/-- A write routes the interrupt `n`: 64 bits to IROUTER<n>. -/
def Routes (base : BitVec 64) (w : MmioWrite) (n : Nat) : Prop :=
  w.size = 8 ∧ w.addr = base + hostGicdIrouter + BitVec.ofNat 64 (8 * n)

/-- Among the writes, one interrupt is routed. -/
def RoutesOnly (base : BitVec 64) (writes : List MmioWrite) (intid : Nat) : Prop :=
  ∀ n < 2 ^ 32, (∃ w ∈ writes, Routes base w n) ↔ n = intid

/-- The interrupt that is routed is the one 32 below. -/
theorem host_routes (read32 : BitVec 64 → BitVec 32) (mpidrEl1 base : BitVec 64)
    (intid : BitVec 32) :
    RoutesOnly base (gicv3EnableHostIrq read32 mpidrEl1 base intid)
      ((intid.toNat + 992) % 1024) := by
  have hindex : (BitVec.zeroExtend 64 (((intid - 32) &&& 0x3ff) <<< 3)).toNat =
      8 * ((intid.toNat + 992) % 1024) := by
    have hmask : ((intid - 32) &&& 0x3ff).toNat = (intid.toNat + 992) % 1024 := by
      rw [BitVec.toNat_and]
      change (intid - 32).toNat &&& (2 ^ 10 - 1) = _
      rw [Nat.and_two_pow_sub_one_eq_mod, BitVec.toNat_sub]
      have hlt := intid.isLt
      change (2 ^ 32 - 32 + intid.toNat) % 2 ^ 32 % 2 ^ 10 = _
      omega
    rw [BitVec.toNat_setWidth, BitVec.toNat_shiftLeft, hmask, Nat.shiftLeft_eq]
    omega
  intro n hn
  have hroutes : (∃ w ∈ gicv3EnableHostIrq read32 mpidrEl1 base intid, Routes base w n) ↔
      base + hostGicdIrouter + BitVec.zeroExtend 64 (((intid - 32) &&& 0x3ff) <<< 3) =
        base + hostGicdIrouter + BitVec.ofNat 64 (8 * n) := by
    simp [gicv3EnableHostIrq, Routes, gicdSetIcpendr, gicdSetIcactiver, gicdSetIpriorityr,
      gicdSetIsenabler]
  rw [hroutes, BitVec.add_right_inj, ← BitVec.toNat_inj, hindex, BitVec.toNat_ofNat]
  omega

theorem host_routes_other (read32 : BitVec 64 → BitVec 32) (mpidrEl1 base : BitVec 64)
    (intid : BitVec 32) :
    ¬ RoutesOnly base (gicv3EnableHostIrq read32 mpidrEl1 base intid) intid.toNat := by
  intro hown
  have hother := host_routes read32 mpidrEl1 base intid
  have hlt : (intid.toNat + 992) % 1024 < 2 ^ 32 := by omega
  have hsame := (hown _ hlt).mp ((hother _ hlt).mpr rfl)
  omega

/-! ## Both -/

/-- The guest's IROUTER<n> is a register of its own exactly for the SPIs below 992, and the host
routes another interrupt than the one it enables, whichever that is. -/
theorem irouter_law_iff {cfg : VgicConfig} {n : Nat} (hwin : Windows cfg)
    (hroom : gicdIrouter + 8 * n + 8 ≤ cfg.gicdSize) {bytes : Nat → BitVec 8}
    (hspi : SpiAvailable cfg bytes n) (read32 : BitVec 64 → BitVec 32) (mpidrEl1 base : BitVec 64)
    (intid : BitVec 32) :
    (RouterHolds cfg n ↔ n < 992) ∧
      RoutesOnly base (gicv3EnableHostIrq read32 mpidrEl1 base intid)
        ((intid.toNat + 992) % 1024) ∧
      ¬ RoutesOnly base (gicv3EnableHostIrq read32 mpidrEl1 base intid) intid.toNat :=
  ⟨router_holds_iff hwin hroom hspi.1 (Nat.lt_trans hspi.2.1 (by decide)),
    host_routes read32 mpidrEl1 base intid, host_routes_other read32 mpidrEl1 base intid⟩

theorem spiAvailable_qemu {n : Nat} (hlo : 32 ≤ n) (hhi : n < 1020) :
    SpiAvailable qemuVgic gicRegisterEmul n := by
  refine ⟨hlo, hhi, ?_⟩
  have hlines : itLinesNumber qemuVgic gicRegisterEmul = 31 := by decide
  rw [hlines]
  omega

theorem irouter_law_iff_first : RouterHolds qemuVgic 32 := by
  have hwin : Windows qemuVgic := by constructor <;> decide
  exact (irouter_law_iff hwin (by decide) (spiAvailable_qemu (by decide) (by decide))
    (fun _ => 0) 0 0 33).1.mpr (by decide)

/-- The last SPI has no routing register, and the host routes interrupt 1 when it enables the UART's
interrupt 33. -/
theorem last_spi_not_routed :
    (SpiAvailable qemuVgic gicRegisterEmul 1019 ∧ ¬ RouterHolds qemuVgic 1019) ∧
      Routes 0x08000000 ⟨0x08006008, 8, 0⟩ 1 ∧
      ⟨0x08006008, 8, 0⟩ ∈ gicv3EnableHostIrq (fun _ => 0) 0 0x08000000 33 := by
  have hwin : Windows qemuVgic := by constructor <;> decide
  refine ⟨⟨spiAvailable_qemu (by decide) (by decide), fun hholds => ?_⟩, ⟨rfl, rfl⟩, by decide⟩
  exact absurd ((router_holds_iff hwin (by decide) (by decide) (by decide)).mp hholds) (by decide)

end HyperCore.Vgic
