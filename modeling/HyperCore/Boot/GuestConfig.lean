import HyperCore.Boot.HyperConfig

/-!
# Accepted configurations

What the checks of `validate_guest_dtb_config` establish, and what they leave open.

1. `topology_agrees_iff`: the cpu nodes of an accepted guest tree are the configured vCPUs, one for
   one, iff no two cpu nodes have the same affinity. The check is membership and equal counts.
2. `regions_wellFormed_iff`: no address, size or stride is checked against another, so the regions
   of `arch_vcpu_init` are well formed iff the parsed numbers happen to be.
-/

namespace HyperCore.Boot

open AArch64 Sched

/-! ## CPU topology -/

/-- The cpu nodes of a guest tree. -/
def cpuNodes (fdt : Fdt) : List Nat :=
  match fdtPathOffset fdt "cpus" with
  | none => []
  | some cpusNode => (fdtSubnodes fdt cpusNode).filter (isCpuNode fdt)

/-- The affinity that a cpu node's `reg` gives. -/
def cpuAffinity (fdt : Fdt) (node : Nat) : Option (BitVec 64) :=
  (fdtGetRegEntry fdt node 0).map fun reg => psciMpidrAffinity reg.1

/-- The affinities of the cpu nodes. -/
def nodeAffinities (fdt : Fdt) : List (BitVec 64) := (cpuNodes fdt).filterMap (cpuAffinity fdt)

/-- The affinities that `psci_configured_mpidr` knows. -/
def configuredAffinities (guest : HyperGuestConfig) : List (BitVec 64) :=
  (List.range guest.vcpuCount).map fun i => psciMpidrAffinity (guest.vcpuMpidr i)

/-- The guest's cpu nodes and the configured vCPUs are the same, one for one. -/
structure TopologyAgrees (guest : HyperGuestConfig) (fdt : Fdt) : Prop where
  same : ∀ a, a ∈ nodeAffinities fdt ↔ a ∈ configuredAffinities guest
  nodes_distinct : (nodeAffinities fdt).Nodup
  configured_distinct : (configuredAffinities guest).Nodup
  /-- each cpu node is the vCPU of one index, the one `psci_vcpu_on` starts for it -/
  one_vcpu : ∀ node ∈ cpuNodes fdt, ∃! i, i < guest.vcpuCount ∧
    cpuAffinity fdt node = some (psciMpidrAffinity (guest.vcpuMpidr i))

/-- No two cpu nodes have the same affinity. -/
def CpuNodesDistinct (fdt : Fdt) : Prop :=
  (cpuNodes fdt).Pairwise fun m n => cpuAffinity fdt m ≠ cpuAffinity fdt n

theorem mpidrConfigured_iff {guest : HyperGuestConfig} {mpidr : BitVec 64} :
    guestDtbMpidrConfigured guest mpidr = true ↔
      psciMpidrAffinity mpidr ∈ configuredAffinities guest := by
  simp [guestDtbMpidrConfigured, configuredAffinities, psciMpidrAffinity]

/-- The loop accepts: every cpu node has an affinity, a configured one, and was counted. -/
theorem checkCpuNodes_ok {guest : HyperGuestConfig} {fdt : Fdt} {nodes : List Nat} {count : Nat}
    (h : checkCpuNodes guest fdt nodes = .ok count) :
    ∃ as, (nodes.filter (isCpuNode fdt)).map (cpuAffinity fdt) = as.map some ∧
      as.length = count ∧ as ⊆ configuredAffinities guest := by
  induction nodes generalizing count with
  | nil =>
    cases h
    exact ⟨[], rfl, rfl, List.nil_subset _⟩
  | cons node nodes ih =>
    rw [checkCpuNodes] at h
    by_cases hcpu : isCpuNode fdt node
    · rw [if_pos hcpu] at h
      rw [List.filter_cons_of_pos hcpu, List.map_cons]
      cases hreg : fdtGetRegEntry fdt node 0 with
      | none =>
        rw [hreg] at h
        cases h
      | some reg =>
        simp only [hreg] at h
        split at h
        · rename_i hconf
          cases hrest : checkCpuNodes guest fdt nodes with
          | error e =>
            rw [hrest] at h
            cases h
          | ok n =>
            rw [hrest] at h
            cases h
            obtain ⟨as, has, hlen, hsub⟩ := ih hrest
            refine ⟨psciMpidrAffinity reg.1 :: as, ?_, ?_, ?_⟩
            · rw [List.map_cons, has, cpuAffinity, hreg]
              rfl
            · rw [List.length_cons, hlen]
            · exact List.cons_subset.mpr ⟨mpidrConfigured_iff.mp hconf, hsub⟩
        · cases h
    · rw [if_neg hcpu] at h
      rw [List.filter_cons_of_neg hcpu]
      exact ih h

theorem require_ok {test : Bool} (h : require test = .ok ()) : test = true := by
  cases test with
  | true => rfl
  | false => cases h

/-- What acceptance says about the cpu nodes. -/
theorem validate_cpus {cfg : HyperConfig} {fdt : Fdt}
    (h : validateGuestDtbConfig cfg (some fdt) = .ok ()) :
    (cpuNodes fdt).map (cpuAffinity fdt) = (nodeAffinities fdt).map some ∧
      (nodeAffinities fdt).length = cfg.guest.vcpuCount ∧
      nodeAffinities fdt ⊆ configuredAffinities cfg.guest := by
  simp only [validateGuestDtbConfig] at h
  cases hcpus : fdtPathOffset fdt "cpus" with
  | none =>
    rw [hcpus] at h
    cases h
  | some cpusNode =>
    simp only [hcpus] at h
    cases hcheck : checkCpuNodes cfg.guest fdt (fdtSubnodes fdt cpusNode) with
    | error e =>
      rw [hcheck] at h
      cases h
    | ok count =>
      rw [hcheck] at h
      simp only [bind, Except.bind] at h
      cases hreq : require (count == cfg.guest.vcpuCount) with
      | error e =>
        rw [hreq] at h
        cases h
      | ok _ =>
        obtain ⟨as, has, hlen, hsub⟩ := checkCpuNodes_ok hcheck
        have hcount : count = cfg.guest.vcpuCount := beq_iff_eq.mp (require_ok hreq)
        have hnodes : nodeAffinities fdt = as := by
          have hkept := congrArg (List.filterMap id) has
          rw [List.filterMap_map, List.filterMap_map, Function.id_comp, Function.id_comp,
            List.filterMap_some] at hkept
          rw [nodeAffinities, cpuNodes, hcpus]
          exact hkept
        rw [hnodes, cpuNodes, hcpus]
        exact ⟨has, hlen.trans hcount, hsub⟩

theorem nodup_nodeAffinities {fdt : Fdt}
    (h : (cpuNodes fdt).map (cpuAffinity fdt) = (nodeAffinities fdt).map some) :
    (nodeAffinities fdt).Nodup ↔ CpuNodesDistinct fdt := by
  rw [CpuNodesDistinct, ← List.pairwise_map, h]
  exact (List.nodup_map_iff (Option.some_injective _)).symm

/-- `psci_vcpu_on` starts each cpu node as one vCPU, and each vCPU is one node, iff the nodes are
told apart by their affinities. -/
theorem topology_agrees_iff (cfg : HyperConfig) (fdt : Fdt)
    (h : validateGuestDtbConfig cfg (some fdt) = .ok ()) :
    TopologyAgrees cfg.guest fdt ↔ CpuNodesDistinct fdt := by
  obtain ⟨hsome, hlen, hsub⟩ := validate_cpus h
  refine ⟨fun ht => (nodup_nodeAffinities hsome).mp ht.nodes_distinct, fun hd => ?_⟩
  have hnodup := (nodup_nodeAffinities hsome).mpr hd
  -- without duplicates, membership and equal counts make one list a permutation of the other
  have hperm : (nodeAffinities fdt).Perm (configuredAffinities cfg.guest) := by
    refine (List.subperm_of_subset hnodup hsub).perm_of_length_le ?_
    rw [hlen, configuredAffinities, List.length_map, List.length_range]
  have hconf : (configuredAffinities cfg.guest).Nodup := hperm.nodup_iff.mp hnodup
  refine ⟨fun a => hperm.mem_iff, hnodup, hconf, fun node hnode => ?_⟩
  have hmem : cpuAffinity fdt node ∈ (nodeAffinities fdt).map some :=
    hsome ▸ List.mem_map_of_mem hnode
  obtain ⟨a, ha, hnode⟩ := List.mem_map.mp hmem
  obtain ⟨i, hi, rfl⟩ := List.mem_map.mp (hsub ha)
  refine ⟨i, ⟨List.mem_range.mp hi, hnode.symm⟩, ?_⟩
  rintro j ⟨hj, heq⟩
  rw [← hnode, Option.some.injEq] at heq
  exact List.inj_on_of_nodup_map hconf (List.mem_range.mpr hj) hi heq.symm

/-- A property with the given big-endian cells. -/
def FdtProp.ofCells (name : String) (cells : List Nat) : FdtProp where
  name := name
  len := 4 * cells.length
  byte := fun i => BitVec.ofNat 8 (cells.getD (i / 4).toNat 0 >>> (8 * (3 - (i % 4).toNat)))

/-- A property with a string. -/
def FdtProp.ofString (name value : String) : FdtProp where
  name := name
  len := (cString value).length
  byte := fun i => (cString value).getD i.toNat 0

/-- A guest tree for the QEMU board with two cpu nodes, whose `reg` are 0 and `second`. -/
def guestTree (second : Nat) : Fdt :=
  [⟨"", 0, [.ofCells "#address-cells" [2], .ofCells "#size-cells" [2]]⟩,
    ⟨"cpus", 1, [.ofCells "#address-cells" [1], .ofCells "#size-cells" [0]]⟩,
    ⟨"cpu@0", 2, [.ofString "device_type" "cpu", .ofCells "reg" [0]]⟩,
    ⟨"cpu@1", 2, [.ofString "device_type" "cpu", .ofCells "reg" [second]]⟩,
    ⟨"intc@8000000", 1, [.ofString "compatible" "arm,gic-v3",
      .ofCells "reg" [0, 0x08000000, 0, 0x10000, 0, 0x080a0000, 0, 0xf60000]]⟩,
    ⟨"pl011@9000000", 1, [.ofString "compatible" "arm,pl011",
      .ofCells "reg" [0, 0x09000000, 0, 0x1000], .ofCells "interrupts" [0, 1, 4]]⟩]

theorem topology_agrees_two_cpus :
    TopologyAgrees hyperConfigSetDefaults.guest (guestTree 1) ↔ CpuNodesDistinct (guestTree 1) :=
  topology_agrees_iff hyperConfigSetDefaults (guestTree 1) (by decide +kernel)

/-- Two cpu nodes with the same `reg` pass the check, and no node is left for the second vCPU. -/
theorem same_reg_accepted :
    ¬ ∀ (cfg : HyperConfig) (fdt : Fdt), validateGuestDtbConfig cfg (some fdt) = .ok () →
      TopologyAgrees cfg.guest fdt := by
  intro h
  have hsame := (h hyperConfigSetDefaults (guestTree 0) (by decide +kernel)).same 1
  revert hsame
  decide +kernel

/-! ## Guest regions -/

/-- The address is in the region. -/
def inRegion (r : MemRegion) (a : Nat) : Prop := r.gpa ≤ a ∧ a < r.gpa + r.size

/-- What the emulation relies on. -/
structure RegionsWellFormed (cfg : HyperConfig) : Prop where
  no_wrap : ∀ r ∈ vcpuRegions cfg.regions, r.gpa + r.size < 2 ^ 64
  disjoint : (vcpuRegions cfg.regions).Pairwise fun r s => ∀ a, ¬ (inRegion r a ∧ inRegion s a)
  /-- the GICR window holds a frame for each vCPU -/
  frames : cfg.guest.vgicConfig.vcpuCount * cfg.guest.vgicConfig.gicrStride ≤
    cfg.guest.vgicConfig.gicrSize
  /-- `frame_index` and `frame_offset` divide by it -/
  stride_ne_zero : cfg.guest.vgicConfig.gicrStride ≠ 0

/-- One of two windows is empty, or one ends before the other starts. -/
def Apart (lo hi lo' hi' : Nat) : Prop := hi ≤ lo ∨ hi' ≤ lo' ∨ hi ≤ lo' ∨ hi' ≤ lo

instance (lo hi lo' hi' : Nat) : Decidable (Apart lo hi lo' hi') :=
  inferInstanceAs (Decidable (_ ∨ _ ∨ _ ∨ _))

/-- The parsed numbers fit each other. -/
structure WindowBounds (cfg : HyperConfig) : Prop where
  vgic : cfg.regions.gicdBase ≤ (cfg.regions.gicrBase + cfg.regions.gicrSize) % 2 ^ 64
  uart : cfg.regions.uartGuestBase + cfg.regions.uartGuestSize < 2 ^ 64
  memory : cfg.regions.memoryBase + cfg.regions.memorySize < 2 ^ 64
  vgic_uart : Apart cfg.regions.gicdBase
    ((cfg.regions.gicrBase + cfg.regions.gicrSize) % 2 ^ 64) cfg.regions.uartGuestBase
    (cfg.regions.uartGuestBase + cfg.regions.uartGuestSize)
  vgic_memory : Apart cfg.regions.gicdBase
    ((cfg.regions.gicrBase + cfg.regions.gicrSize) % 2 ^ 64) cfg.regions.memoryBase
    (cfg.regions.memoryBase + cfg.regions.memorySize)
  uart_memory : Apart cfg.regions.uartGuestBase
    (cfg.regions.uartGuestBase + cfg.regions.uartGuestSize) cfg.regions.memoryBase
    (cfg.regions.memoryBase + cfg.regions.memorySize)
  stride : cfg.guest.vgic.gicrStride ≠ 0
  frames : cfg.guest.vcpuCount * cfg.guest.vgic.gicrStride.toNat ≤ cfg.guest.vgic.gicrSize.toNat

/-- Two regions share no address iff their windows are apart. -/
theorem disjoint_iff {r s : MemRegion} :
    (∀ a, ¬ (inRegion r a ∧ inRegion s a)) ↔
      Apart r.gpa (r.gpa + r.size) s.gpa (s.gpa + s.size) := by
  simp only [Apart, inRegion]
  refine ⟨fun h => ?_, fun h a => by omega⟩
  have hmax := h (max r.gpa s.gpa)
  omega

/-- The vGIC window ends where the parsed GICR window does, if it does not wrap. -/
theorem vgic_end {base gicr size : Nat} (hb : base < 2 ^ 64) :
    base + MachineInt.toUInt64 ((gicr : Int) + size - base) < 2 ^ 64 ↔
      base ≤ (gicr + size) % 2 ^ 64 := by
  simp only [MachineInt.toUInt64]
  omega

theorem vgic_end_eq {base gicr size : Nat} (h : base ≤ (gicr + size) % 2 ^ 64) :
    base + MachineInt.toUInt64 ((gicr : Int) + size - base) = (gicr + size) % 2 ^ 64 := by
  simp only [MachineInt.toUInt64]
  omega

theorem wellFormed_iff (cfg : HyperConfig) : RegionsWellFormed cfg ↔ WindowBounds cfg := by
  have hgicd : cfg.regions.gicdBase < 2 ^ 64 := cfg.guest.vgic.gicdBase.isLt
  have hne : cfg.guest.vgicConfig.gicrStride ≠ 0 ↔ cfg.guest.vgic.gicrStride ≠ 0 :=
    not_congr ⟨fun h => BitVec.eq_of_toNat_eq h, fun h => congrArg BitVec.toNat h⟩
  constructor
  · rintro ⟨hwrap, hdis, hframes, hstride⟩
    simp only [vcpuRegions, List.forall_mem_cons] at hwrap
    obtain ⟨hvgic, huart, hmemory, -⟩ := hwrap
    have hend := (vgic_end hgicd).mp hvgic
    simp only [vcpuRegions, List.pairwise_cons, List.forall_mem_cons, disjoint_iff,
      vgic_end_eq hend] at hdis
    obtain ⟨⟨hvu, hvm, -⟩, ⟨hum, -⟩, -⟩ := hdis
    exact ⟨hend, huart, hmemory, hvu, hvm, hum, hne.mp hstride, hframes⟩
  · rintro ⟨hvgic, huart, hmemory, hvu, hvm, hum, hstride, hframes⟩
    refine ⟨?_, ?_, hframes, hne.mpr hstride⟩
    · simp only [vcpuRegions, List.forall_mem_cons]
      exact ⟨(vgic_end hgicd).mpr hvgic, huart, hmemory, List.forall_mem_nil _⟩
    · simp only [vcpuRegions, List.pairwise_cons, List.forall_mem_cons, disjoint_iff,
        vgic_end_eq hvgic]
      exact ⟨⟨hvu, hvm, List.forall_mem_nil _⟩, ⟨hum, List.forall_mem_nil _⟩,
        List.forall_mem_nil _, List.Pairwise.nil⟩

/-- The configuration that parsing leaves, before it is checked. -/
def parsedConfig (host : Fdt) : HyperConfig :=
  match parseDtb host with
  | .ok (some cfg) => cfg
  | _ => hyperConfigSetDefaults

/-- Checking changes nothing. -/
theorem loadDtb_eq {host : Fdt} {guestDtb : BitVec 64 → Option Fdt} {cfg : HyperConfig}
    (h : loadDtb host guestDtb = .ok cfg) : cfg = parsedConfig host := by
  rw [loadDtb] at h
  cases hparse : parseDtb host with
  | error e =>
    rw [hparse] at h
    cases h
  | ok parsed =>
    rw [hparse] at h
    cases parsed with
    | none =>
      cases h
      rw [parsedConfig, hparse]
    | some cfg' =>
      simp only [bind, Except.bind] at h
      cases hcheck : validateGuestDtbConfig cfg' (guestDtb cfg'.guest.dtbAddr) with
      | error e =>
        rw [hcheck] at h
        cases h
      | ok _ =>
        rw [hcheck] at h
        cases h
        rw [parsedConfig, hparse]

theorem loadDtb_ok {host : Fdt} {guestDtb : BitVec 64 → Option Fdt}
    (h : (loadDtb host guestDtb).isOk = true) :
    loadDtb host guestDtb = .ok (parsedConfig host) := by
  cases hload : loadDtb host guestDtb with
  | error e =>
    rw [hload] at h
    cases h
  | ok cfg => rw [loadDtb_eq hload]

/-- A host tree with guest memory from `base` on, the virtual GIC's frames `stride` apart. -/
def hostTree (base stride : Nat) : Fdt :=
  [⟨"", 0, [.ofString "compatible" "hypervisor,platform", .ofCells "#address-cells" [2],
      .ofCells "#size-cells" [2]]⟩,
    ⟨"memory@80000000", 1, [.ofString "device_type" "memory",
      .ofCells "reg" [0, 0x80000000, 0, 0x10000000]]⟩,
    ⟨"guest", 1, [.ofString "compatible" "hypervisor,guest", .ofCells "vcpu-count" [2]]⟩,
    ⟨"vgic", 2, [.ofString "compatible" "hypervisor,vgic-v3",
      .ofCells "reg" [0, 0x08000000, 0, 0x10000, 0, 0x080a0000, 0, 0xf60000],
      .ofCells "redistributor-stride" [0, stride]]⟩,
    ⟨"memory", 2, [.ofString "device_type" "memory",
      .ofCells "reg" [0, base, 0, 0x20000000]]⟩]

end HyperCore.Boot
