import HyperCore.AArch64.GuestMemory
import HyperCore.Boot.DeviceTree
import HyperCore.Sched.Psci
import HyperCore.Vgic.State

/-!
# The hypervisor's configuration

`load_dtb` fills `g_hyper_config` from the host's device tree, over defaults, and
`validate_guest_dtb_config` compares it with the guest's device tree. A panic is an error with its
text. The return code of `load_dtb` is not looked at, so a tree that is not the hypervisor's leaves
the defaults, unchecked.
-/

namespace HyperCore.Boot

open Vgic

/-! ## `struct hyper_config` -/

structure HyperMemConfig where
  base : BitVec 64
  size : BitVec 64

structure HyperGicConfig where
  gicdBase : BitVec 64
  gicdSize : BitVec 64
  gicrBase : BitVec 64
  gicrSize : BitVec 64
  gicrStride : BitVec 64
  gicrCount : BitVec 32

structure HyperTimerConfig where
  hypTimerPpi : BitVec 32
  guestVirtTimerPpi : BitVec 32

structure HyperUartConfig where
  hostBase : BitVec 64
  hostSize : BitVec 64
  hostIrq : BitVec 32
  guestBase : BitVec 64
  guestSize : BitVec 64
  guestIrq : BitVec 32
  enabled : Bool

structure HyperGuestVgicConfig where
  gicdBase : BitVec 64
  gicdSize : BitVec 64
  gicrBase : BitVec 64
  gicrSize : BitVec 64
  gicrStride : BitVec 64

/-- The first `vcpuCount` entries of `vcpu_mpidr`, an array of `HYPER_MAX_VCPUS`, are in use. -/
structure HyperGuestConfig where
  entry : BitVec 64
  dtbAddr : BitVec 64
  memory : HyperMemConfig
  vcpuCount : Nat
  vcpuMpidr : Nat → BitVec 64
  vgic : HyperGuestVgicConfig
  vcpuCount_le : vcpuCount ≤ hyperMaxVcpus

/-- `memory` is `none` where `load_dtb` stores two variables that it has not set. -/
structure HyperConfig where
  memory : Option HyperMemConfig
  hostGic : HyperGicConfig
  timer : HyperTimerConfig
  guest : HyperGuestConfig
  uart : HyperUartConfig

/-- What the calls of PSCI read. -/
def HyperGuestConfig.psci (g : HyperGuestConfig) : Sched.GuestConfig where
  vcpuCount := g.vcpuCount
  vcpuMpidr := g.vcpuMpidr
  entry := g.entry
  dtbAddr := g.dtbAddr

/-- What the regions of a vCPU are made of. -/
def HyperConfig.regions (cfg : HyperConfig) : AArch64.HyperConfig where
  uartEnabled := cfg.uart.enabled
  uartGuestBase := cfg.uart.guestBase.toNat
  uartGuestSize := cfg.uart.guestSize.toNat
  gicdBase := cfg.guest.vgic.gicdBase.toNat
  gicrBase := cfg.guest.vgic.gicrBase.toNat
  gicrSize := cfg.guest.vgic.gicrSize.toNat
  memoryBase := cfg.guest.memory.base.toNat
  memorySize := cfg.guest.memory.size.toNat

/-- What the emulated GIC reads. -/
def HyperGuestConfig.vgicConfig (g : HyperGuestConfig) : VgicConfig where
  gicdBase := g.vgic.gicdBase.toNat
  gicdSize := g.vgic.gicdSize.toNat
  gicrBase := g.vgic.gicrBase.toNat
  gicrSize := g.vgic.gicrSize.toNat
  gicrStride := g.vgic.gicrStride.toNat
  vcpuCount := g.vcpuCount
  vcpuMpidr := fun i => (g.vcpuMpidr i).toNat

/-! ## Parsing -/

theorem default_vcpuCount_le : 2 ≤ hyperMaxVcpus := by
  decide

/-- `hyper_config_set_defaults` -/
def hyperConfigSetDefaults : HyperConfig where
  memory := some ⟨0, 0⟩
  hostGic := ⟨0x08000000, 0x00010000, 0x080a0000, 0x00200000, 0x00020000, 16⟩
  timer := ⟨26, 27⟩
  uart := ⟨0x09000000, 0x1000, 33, 0x09000000, 0x1000, 33, true⟩
  guest :=
    { entry := 0x50200000
      dtbAddr := 0x65000000
      memory := ⟨0x40000000, 0x20000000⟩
      vcpuCount := 2
      vcpuMpidr := fun i => BitVec.ofNat 64 i
      vgic := ⟨0x08000000, 0x00010000, 0x080a0000, 0x00f60000, 0x00020000⟩
      vcpuCount_le := default_vcpuCount_le }

def parseHostGicCfg (fdt : Fdt) (rootNode : Nat) (gic : HyperGicConfig) : HyperGicConfig :=
  match fdtNodeOffsetByCompatible fdt (some rootNode) "arm,gic-v3" with
  | none => gic
  | some node =>
    let gicd := (fdtGetRegEntry fdt node 0).getD (gic.gicdBase, gic.gicdSize)
    let gicr := (fdtGetRegEntry fdt node 1).getD (gic.gicrBase, gic.gicrSize)
    let stride := (fdtReadU64Prop fdt node "redistributor-stride").getD gic.gicrStride
    { gicdBase := gicd.1
      gicdSize := gicd.2
      gicrBase := gicr.1
      gicrSize := gicr.2
      gicrStride := stride
      gicrCount := if stride = 0 then gic.gicrCount else (gicr.2 / stride).setWidth 32 }

def parseHostUartCfg (fdt : Fdt) (rootNode : Nat) (uart : HyperUartConfig) : HyperUartConfig :=
  match fdtDirectChildByCompatible fdt rootNode "arm,pl011" with
  | none => uart
  | some node =>
    let reg := fdtGetRegEntry fdt node 0
    { uart with
      hostBase := (reg.map Prod.fst).getD uart.hostBase
      hostSize := (reg.map Prod.snd).getD uart.hostSize
      enabled := reg.isSome || uart.enabled
      hostIrq := (fdtReadGicInterrupt fdt node 0).getD uart.hostIrq }

def parseGuestUartCfg (fdt : Fdt) (guestNode : Nat) (uart : HyperUartConfig) : HyperUartConfig :=
  match fdtDirectChildByCompatible fdt guestNode "arm,pl011" with
  | none => uart
  | some node =>
    let reg := fdtGetRegEntry fdt node 0
    { uart with
      guestBase := (reg.map Prod.fst).getD uart.guestBase
      guestSize := (reg.map Prod.snd).getD uart.guestSize
      enabled := reg.isSome || uart.enabled
      guestIrq := (fdtReadGicInterrupt fdt node 0).getD uart.guestIrq }

/-- The two timer properties of one node. -/
def parseTimerProps (fdt : Fdt) (node : Nat) (timer : HyperTimerConfig) : HyperTimerConfig where
  hypTimerPpi := (fdtReadU32Prop fdt node "hyp-timer-ppi").getD timer.hypTimerPpi
  guestVirtTimerPpi := (fdtReadU32Prop fdt node "guest-virt-timer-ppi").getD timer.guestVirtTimerPpi

def parseTimerCfg (fdt : Fdt) (rootNode : Nat) (guestNode : Option Nat)
    (timer : HyperTimerConfig) : HyperTimerConfig :=
  let timer := parseTimerProps fdt rootNode timer
  match guestNode with
  | none => timer
  | some node => parseTimerProps fdt node timer

/-- The first part of `parse_guest_vcpus`: a count numbers the vCPUs from 0 on. -/
def parseVcpuCount (fdt : Fdt) (guestNode : Nat) (guest : HyperGuestConfig) : HyperGuestConfig :=
  match fdtReadU32Prop fdt guestNode "vcpu-count" with
  | none => guest
  | some count =>
    let n := min count.toNat hyperMaxVcpus
    { guest with
      vcpuCount := n
      vcpuMpidr := fun i => if i < n then BitVec.ofNat 64 i else guest.vcpuMpidr i
      vcpuCount_le := Nat.min_le_right count.toNat hyperMaxVcpus }

/-- The second part: a list replaces the count, with two cells for each vCPU. -/
def parseVcpuMpidrs (fdt : Fdt) (guestNode : Nat) (guest : HyperGuestConfig) : HyperGuestConfig :=
  match fdtGetprop fdt guestNode "vcpu-mpidrs" with
  | none => guest
  | some p =>
    let n := min (p.len / 8) hyperMaxVcpus
    { guest with
      vcpuCount := n
      vcpuMpidr := fun i =>
        if i < n then fdtReadCells p ((2 * i : Nat) : Int) 2 else guest.vcpuMpidr i
      vcpuCount_le := Nat.min_le_right (p.len / 8) hyperMaxVcpus }

def parseGuestVcpus (fdt : Fdt) (guestNode : Nat) (guest : HyperGuestConfig) : HyperGuestConfig :=
  parseVcpuMpidrs fdt guestNode (parseVcpuCount fdt guestNode guest)

def parseGuestVgicCfg (fdt : Fdt) (guestNode : Nat) (vgic : HyperGuestVgicConfig) :
    HyperGuestVgicConfig :=
  match fdtNodeOffsetByCompatible fdt (some guestNode) "hypervisor,vgic-v3" with
  | none => vgic
  | some node =>
    let gicd := (fdtGetRegEntry fdt node 0).getD (vgic.gicdBase, vgic.gicdSize)
    let gicr := (fdtGetRegEntry fdt node 1).getD (vgic.gicrBase, vgic.gicrSize)
    { gicdBase := gicd.1
      gicdSize := gicd.2
      gicrBase := gicr.1
      gicrSize := gicr.2
      gicrStride := (fdtReadU64Prop fdt node "redistributor-stride").getD vgic.gicrStride }

/-- Without a guest node or without its memory what was parsed so far stays; the caller does not
look at the return code. -/
def parseGuestCfg (fdt : Fdt) (guestNode : Option Nat) (cfg : HyperConfig) : HyperConfig :=
  match guestNode with
  | none => cfg
  | some node =>
    let guest := { cfg.guest with
      entry := (fdtReadU64Prop fdt node "guest-entry").getD cfg.guest.entry
      dtbAddr := (fdtReadU64Prop fdt node "guest-dtb").getD cfg.guest.dtbAddr }
    let guest := parseGuestVcpus fdt node guest
    let guest := { guest with vgic := parseGuestVgicCfg fdt node guest.vgic }
    let memory := (findGuestMemoryNode fdt node).bind (fdtGetRegInfo fdt)
    let guest := { guest with
      memory := (memory.map fun reg => HyperMemConfig.mk reg.1 reg.2).getD guest.memory }
    { cfg with guest := guest, uart := parseGuestUartCfg fdt node cfg.uart }

/-! ## Checking the guest's tree -/

def guestDtbMpidrConfigured (guest : HyperGuestConfig) (mpidr : BitVec 64) : Bool :=
  (List.range guest.vcpuCount).any fun i =>
    guest.vcpuMpidr i &&& 0xff00ffffff == mpidr &&& 0xff00ffffff

/-- The test of `device_type` in the loop over the children of `/cpus`. -/
def isCpuNode (fdt : Fdt) (node : Nat) : Bool :=
  (fdtGetprop fdt node "device_type").any fun p => p.holds 0 (cString "cpu")

/-- The loop over the children of `/cpus`; it returns `cpu_count`. -/
def checkCpuNodes (guest : HyperGuestConfig) (fdt : Fdt) : List Nat → Except String Nat
  | [] => .ok 0
  | node :: nodes =>
    if isCpuNode fdt node then
      match fdtGetRegEntry fdt node 0 with
      | none => .error "invalid guest dtb"
      | some (addr, _) =>
        if guestDtbMpidrConfigured guest addr then
          (checkCpuNodes guest fdt nodes).map (· + 1)
        else .error "invalid guest dtb"
    else checkCpuNodes guest fdt nodes

/-- `panic` unless the test holds. -/
def require (test : Bool) : Except String Unit := if test then .ok () else .error "invalid guest dtb"

/-- `fdt` is what lies at `guest.dtb_addr`, if `fdt_check_header` accepts it. -/
def validateGuestDtbConfig (cfg : HyperConfig) (fdt : Option Fdt) : Except String Unit := do
  match fdt with
  | none => .error "invalid guest dtb"
  | some fdt =>
    match fdtPathOffset fdt "cpus" with
    | none => .error "invalid guest dtb"
    | some cpusNode =>
      let cpuCount ← checkCpuNodes cfg.guest fdt (fdtSubnodes fdt cpusNode)
      require (cpuCount == cfg.guest.vcpuCount)
      match fdtNodeOffsetByCompatible fdt none "arm,gic-v3" with
      | none => .error "invalid guest dtb"
      | some gic =>
        require (fdtGetRegEntry fdt gic 0 == some (cfg.guest.vgic.gicdBase, cfg.guest.vgic.gicdSize))
        require (fdtGetRegEntry fdt gic 1 == some (cfg.guest.vgic.gicrBase, cfg.guest.vgic.gicrSize))
        if cfg.uart.enabled then
          match fdtNodeOffsetByCompatible fdt none "arm,pl011" with
          | none => .error "invalid guest dtb"
          | some uart =>
            require (fdtGetRegEntry fdt uart 0 == some (cfg.uart.guestBase, cfg.uart.guestSize))
            require (fdtReadGicInterrupt fdt uart 0 == some cfg.uart.guestIrq)

/-- `load_dtb` up to the check of the guest's tree; `none` where it stops with the defaults. -/
def parseDtb (host : Fdt) : Except String (Option HyperConfig) := do
  let cfg := hyperConfigSetDefaults
  match fdtNodeOffsetByCompatible host none "hypervisor,platform" with
  | none => .ok none
  | some rootNode =>
    match fdtNodeOffsetByPropValue host (some rootNode) "device_type" "memory" with
    | none => .error "invalid device tree"
    | some node =>
      let guestNode := fdtNodeOffsetByCompatible host (some rootNode) "hypervisor,guest"
      let cfg := { cfg with
        memory := (fdtGetRegInfo host node).map fun reg => HyperMemConfig.mk reg.1 reg.2
        hostGic := parseHostGicCfg host rootNode cfg.hostGic
        uart := parseHostUartCfg host rootNode cfg.uart }
      let cfg := parseGuestCfg host guestNode cfg
      .ok (some { cfg with timer := parseTimerCfg host rootNode guestNode cfg.timer })

/-- `load_dtb`: what it leaves in `g_hyper_config`, where `guestDtb` is the memory. -/
def loadDtb (host : Fdt) (guestDtb : BitVec 64 → Option Fdt) : Except String HyperConfig := do
  match ← parseDtb host with
  | none => .ok hyperConfigSetDefaults
  | some cfg =>
    validateGuestDtbConfig cfg (guestDtb cfg.guest.dtbAddr)
    .ok cfg

end HyperCore.Boot
