import HyperCore.Lib.NullAlloc
import HyperCore.Sched.Simple

/-!
# `vm_create_vcpu_task`: its allocations

The call allocates a task, a vCPU and a stack, tests each answer of `kmalloc`, and frees what it has
when one of them is NULL. `arch_vcpu_init` then allocates the memory regions of the vCPU and a record
for each region that an emulated device matches, and clears each block without a test: there a NULL is
dereferenced (`create_exact`).

`vmCreateVcpuTask` of the scheduler is this function with its allocations given as one
(`create_refines`).
-/

namespace HyperCore.VcpuCreate

open NullAlloc Sched

/-! ## The code -/

/-- The builds: two boards of one architecture, and the other architecture. -/
inductive Arch
  | aarch64Qemu | aarch64Fvp | riscv64

/-- `struct mem_region`, as far as `probe_emul_dev` reads and writes it. -/
structure Region where
  matchName : String
  dev : Option Nat

/-- `vcpu_t`: what `create_vcpu` and `arch_vcpu_init` set, and the block that the destructor of the
architecture frees. -/
structure Vcpu where
  vcpuId : Int
  priority : Int
  owned : Option Nat
  memRegion : List Region

/-- `struct vm_vcpu_task_desc` -/
structure Desc where
  vcpuId : Int
  priority : Int
  vcpuPriority : Int
  pcpuAffinity : Int
  guestCpuId : BitVec 64

section

variable (answer : Nat → Option Nat) (drivers : List String)

/-- `kmalloc`, and the `memset` of the block without a test. -/
def kmallocCleared : AllocM Nat := allocate answer >>= use

/-- `probe_emul_dev`; `drivers` holds the names of the registered drivers. -/
def probeEmulDev : List String → Region → AllocM Region
  | [], region => pure region
  | name :: rest, region =>
    if name = region.matchName then do
      let dev ← kmallocCleared answer
      probeEmulDev rest { region with dev := some dev }
    else probeEmulDev rest region

/-- `new_mem_regon` -/
def newMemRegon (name : Option String) : AllocM Region := do
  let _ ← kmallocCleared answer
  probeEmulDev answer drivers ⟨name.getD "", none⟩

/-- The code for a region in `arch_vcpu_init` of RISC-V; guest RAM is not probed. -/
def riscvRegion (name : String) (probed : Bool) : AllocM Region := do
  let _ ← kmallocCleared answer
  if probed then probeEmulDev answer drivers ⟨name, none⟩ else pure ⟨name, none⟩

/-- `arch_vcpu_init`: its return code, and the vCPU with its regions. -/
def archVcpuInit (arch : Arch) (vcpu : Vcpu) : AllocM (Int × Vcpu) :=
  match arch with
  | .aarch64Qemu => do
    let region ← newMemRegon answer drivers (some "gic3")
    let region2 ← newMemRegon answer drivers (some "pl011")
    let region3 ← newMemRegon answer drivers none
    pure (0, { vcpu with memRegion := [region, region2, region3] })
  | .aarch64Fvp => do
    let region ← newMemRegon answer drivers none
    let region2 ← newMemRegon answer drivers (some "pl011")
    let region3 ← newMemRegon answer drivers none
    pure (0, { vcpu with memRegion := [region, region2, region3] })
  | .riscv64 => do
    let ram ← riscvRegion answer drivers "" false
    let uart ← riscvRegion answer drivers "ns16550a" true
    let plic ← riscvRegion answer drivers "riscv-plic" true
    pure (0, { vcpu with memRegion := [ram, uart, plic] })

/-- `vcpu_create` of both architectures. -/
def archVcpuCreate (_ : Vcpu) : Int := 0

/-- `vcpu_task_init` of both architectures; what it writes is in the vCPU's registers. -/
def archVcpuTaskInit (_ : Vcpu) : Int := 0

/-- `create_vcpu`; `none` is NULL. -/
def createVcpu (vcpuId priority : Int) : AllocM (Option (Nat × Vcpu)) := do
  match ← allocate answer with
  | none => pure none
  | some block =>
    let vcpu : Vcpu := ⟨vcpuId, priority, none, []⟩
    if archVcpuCreate vcpu ≠ 0 then
      release block
      pure none
    else pure (some (block, vcpu))

/-- `destroy_vcpu` -/
def destroyVcpu (block : Nat) (vcpu : Vcpu) : AllocM Unit := do
  match vcpu.owned with
  | none => pure ()
  | some owned => release owned
  release block

/-- `simple_scheduler_sched`, on the task at `block`. -/
def schedule (s : System) (block : Nat) (desc : Desc) : AllocM System := fun h =>
  (simpleSchedulerSched (s.newTask block
    ⟨desc.priority, desc.pcpuAffinity, desc.guestCpuId, .ready⟩) block).map fun s => (s, h)

/-- `vm_create_vcpu_task`: the return code, and the scheduler's state after it. -/
def vmCreateVcpuTask (arch : Arch) (s : System) (desc : Desc) : AllocM (Int × System) := do
  match ← allocate answer with
  | none => pure (-1, s)
  | some task =>
    match ← createVcpu answer desc.vcpuId desc.vcpuPriority with
    | none =>
      release task
      pure (-1, s)
    | some (block, vcpu) =>
      match ← allocate answer with
      | none =>
        destroyVcpu block vcpu
        release task
        pure (-1, s)
      | some stack =>
        let (rc, vcpu) ← archVcpuInit answer drivers arch vcpu
        if rc ≠ 0 ∨ archVcpuTaskInit vcpu ≠ 0 then
          release stack
          destroyVcpu block vcpu
          release task
          pure (-1, s)
        else
          let s ← schedule s task desc
          pure (0, s)

end

/-! ## How many allocations -/

/-- The records that `probe_emul_dev` allocates for a region of that name. -/
def matching (drivers : List String) (name : String) : Nat := drivers.countP fun d => d = name

/-- The calls of `kmalloc` in `arch_vcpu_init`. -/
def initAllocations (drivers : List String) : Arch → Nat
  | .aarch64Qemu => 3 + matching drivers "gic3" + matching drivers "pl011" + matching drivers ""
  | .aarch64Fvp => 3 + matching drivers "" + matching drivers "pl011" + matching drivers ""
  | .riscv64 => 3 + matching drivers "ns16550a" + matching drivers "riscv-plic"

/-- The calls of `kmalloc` in `vm_create_vcpu_task`. -/
def allocations (drivers : List String) (arch : Arch) : Nat := 3 + initAllocations drivers arch

/-- Call `k` is the first that gets NULL. -/
def FirstNull (answer : Nat → Option Nat) (k : Nat) : Prop :=
  answer k = none ∧ ∀ j, j < k → answer j ≠ none

/-- The call returned -1, left the scheduler as it was and freed what it had allocated. -/
def RollsBack (run : Option ((Int × System) × Heap)) (s : System) : Prop :=
  ∃ h, run = some ((-1, s), h) ∧ h.live = []

section

variable {answer : Nat → Option Nat} {drivers : List String} {s : System} {desc : Desc} {k : Nat}
variable {arch : Arch}

theorem demands_probe (drivers : List String) (region : Region) :
    Demands answer (probeEmulDev answer drivers region) (matching drivers region.matchName) := by
  induction drivers generalizing region with
  | nil => exact demands_pure region
  | cons name rest ih =>
    unfold probeEmulDev matching
    rw [List.countP_cons]
    by_cases hname : name = region.matchName
    · rw [if_pos hname, if_pos (decide_eq_true hname), Nat.add_comm]
      exact demands_allocate.bind fun dev => ih { region with dev := some dev }
    · rw [if_neg hname, if_neg (by simpa using hname), Nat.add_zero]
      exact ih region

theorem demands_region (name : Option String) :
    Demands answer (newMemRegon answer drivers name) (1 + matching drivers (name.getD "")) :=
  demands_allocate.bind fun _ => demands_probe drivers _

theorem demands_riscvRegion (name : String) :
    Demands answer (riscvRegion answer drivers name true) (1 + matching drivers name) :=
  demands_allocate.bind fun _ => demands_probe drivers _

theorem demands_ram : Demands answer (riscvRegion answer drivers "" false) 1 :=
  demands_allocate.bind fun _ => demands_pure _

/-- `arch_vcpu_init` uses whatever it allocates. -/
theorem demands_init (arch : Arch) (vcpu : Vcpu) :
    Demands answer (archVcpuInit answer drivers arch vcpu) (initAllocations drivers arch) := by
  cases arch with
  | aarch64Qemu =>
    have h : Demands answer (archVcpuInit answer drivers .aarch64Qemu vcpu) _ :=
      (demands_region (some "gic3")).bind fun _ => (demands_region (some "pl011")).bind fun _ =>
        (demands_region none).bind fun _ => demands_pure _
    convert h using 1
    simp only [initAllocations, Option.getD_some, Option.getD_none]
    omega
  | aarch64Fvp =>
    have h : Demands answer (archVcpuInit answer drivers .aarch64Fvp vcpu) _ :=
      (demands_region none).bind fun _ => (demands_region (some "pl011")).bind fun _ =>
        (demands_region none).bind fun _ => demands_pure _
    convert h using 1
    simp only [initAllocations, Option.getD_some, Option.getD_none]
    omega
  | riscv64 =>
    have h : Demands answer (archVcpuInit answer drivers .riscv64 vcpu) _ :=
      demands_ram.bind fun _ => (demands_riscvRegion "ns16550a").bind fun _ =>
        (demands_riscvRegion "riscv-plic").bind fun _ => demands_pure _
    convert h using 1
    simp only [initAllocations]
    omega

/-! ## The call -/

/-- What `create_vcpu` allocates is a vCPU that owns nothing. -/
theorem createVcpu_some {h : Heap} {block : Nat} (vcpuId priority : Int)
    (hb : answer h.calls = some block) :
    createVcpu answer vcpuId priority h =
      some (some (block, ⟨vcpuId, priority, none, []⟩), ⟨h.calls + 1, block :: h.live⟩) := by
  unfold createVcpu
  rw [bind_eq (allocate_some hb)]
  rfl

theorem createVcpu_none {h : Heap} (vcpuId priority : Int) (hb : answer h.calls = none) :
    createVcpu answer vcpuId priority h = some (none, ⟨h.calls + 1, h.live⟩) := by
  unfold createVcpu
  rw [bind_eq (allocate_none hb)]
  rfl

theorem rollsBack_task (h0 : answer 0 = none) :
    RollsBack (vmCreateVcpuTask answer drivers arch s desc ⟨0, []⟩) s := by
  unfold vmCreateVcpuTask
  rw [bind_eq (allocate_none h0)]
  exact ⟨_, rfl, rfl⟩

theorem rollsBack_vcpu {task : Nat} (h0 : answer 0 = some task) (h1 : answer 1 = none) :
    RollsBack (vmCreateVcpuTask answer drivers arch s desc ⟨0, []⟩) s := by
  unfold vmCreateVcpuTask
  rw [bind_eq (allocate_some h0)]
  dsimp only
  rw [bind_eq (createVcpu_none desc.vcpuId desc.vcpuPriority h1)]
  refine ⟨_, rfl, ?_⟩
  simp

theorem rollsBack_stack {task block : Nat} (h0 : answer 0 = some task) (h1 : answer 1 = some block)
    (h2 : answer 2 = none) :
    RollsBack (vmCreateVcpuTask answer drivers arch s desc ⟨0, []⟩) s := by
  unfold vmCreateVcpuTask
  rw [bind_eq (allocate_some h0)]
  dsimp only
  rw [bind_eq (createVcpu_some desc.vcpuId desc.vcpuPriority h1)]
  dsimp only
  rw [bind_eq (allocate_none h2)]
  refine ⟨_, rfl, ?_⟩
  simp

/-- After three blocks the call goes on to `arch_vcpu_init`. -/
theorem run_init {task block stack : Nat} (h0 : answer 0 = some task) (h1 : answer 1 = some block)
    (h2 : answer 2 = some stack) :
    vmCreateVcpuTask answer drivers arch s desc ⟨0, []⟩ =
      (archVcpuInit answer drivers arch ⟨desc.vcpuId, desc.vcpuPriority, none, []⟩ >>= fun r =>
        if r.1 ≠ 0 ∨ archVcpuTaskInit r.2 ≠ 0 then do
          release stack
          destroyVcpu block r.2
          release task
          pure (-1, s)
        else do
          let s ← schedule s task desc
          pure (0, s)) ⟨3, [stack, block, task]⟩ := by
  unfold vmCreateVcpuTask
  rw [bind_eq (allocate_some h0)]
  dsimp only
  rw [bind_eq (createVcpu_some desc.vcpuId desc.vcpuPriority h1)]
  dsimp only
  rw [bind_eq (allocate_some h2)]

theorem faults_init (hk : k < allocations drivers arch) (hnull : FirstNull answer k) (hlo : 3 ≤ k) :
    vmCreateVcpuTask answer drivers arch s desc ⟨0, []⟩ = none := by
  obtain ⟨hnone, hbefore⟩ := hnull
  obtain ⟨task, h0⟩ := Option.ne_none_iff_exists'.mp (hbefore 0 (by omega))
  obtain ⟨block, h1⟩ := Option.ne_none_iff_exists'.mp (hbefore 1 (by omega))
  obtain ⟨stack, h2⟩ := Option.ne_none_iff_exists'.mp (hbefore 2 (by omega))
  rw [run_init h0 h1 h2]
  exact bind_none ((demands_init arch _).faults ⟨3, _⟩ k hlo hk hnone)

/-- `arch_vcpu_init` reports no failure. -/
theorem init_rc {vcpu : Vcpu} {r : Int × Vcpu} {h h' : Heap}
    (hrun : archVcpuInit answer drivers arch vcpu h = some (r, h')) : r.1 = 0 := by
  cases arch with
  | aarch64Qemu | aarch64Fvp | riscv64 =>
    obtain ⟨_, _, -, hrun⟩ := bind_eq_some hrun
    obtain ⟨_, _, -, hrun⟩ := bind_eq_some hrun
    obtain ⟨_, _, -, hrun⟩ := bind_eq_some hrun
    cases hrun
    rfl

/-- Where the call returns, the scheduler's `vmCreateVcpuTask` does what it does: with no memory if it
was undone, and with the task's block otherwise. -/
theorem create_refines {r : Int × System} {h : Heap}
    (hrun : vmCreateVcpuTask answer drivers arch s desc ⟨0, []⟩ = some (r, h)) :
    ∃ mem, (mem = none ∨ mem = answer 0) ∧
      Sched.vmCreateVcpuTask s mem desc.priority desc.pcpuAffinity desc.guestCpuId = some r := by
  have hundone (hback : RollsBack (vmCreateVcpuTask answer drivers arch s desc ⟨0, []⟩) s) :
      ∃ mem, (mem = none ∨ mem = answer 0) ∧
        Sched.vmCreateVcpuTask s mem desc.priority desc.pcpuAffinity desc.guestCpuId = some r := by
    obtain ⟨h', hrun', -⟩ := hback
    cases hrun.symm.trans hrun'
    exact ⟨none, .inl rfl, rfl⟩
  cases h0 : answer 0 with
  | none => exact h0 ▸ hundone (rollsBack_task h0)
  | some task =>
    cases h1 : answer 1 with
    | none => exact h0 ▸ hundone (rollsBack_vcpu h0 h1)
    | some block =>
      cases h2 : answer 2 with
      | none => exact h0 ▸ hundone (rollsBack_stack h0 h1 h2)
      | some stack =>
        rw [run_init h0 h1 h2] at hrun
        obtain ⟨⟨rc, vcpu⟩, h₁, hinit, hrun⟩ := bind_eq_some hrun
        have hrc : rc = 0 := init_rc hinit
        subst hrc
        rw [if_neg (by simp [archVcpuTaskInit])] at hrun
        obtain ⟨s', h₂, hsched, hrun⟩ := bind_eq_some hrun
        cases hrun
        refine ⟨some task, .inr rfl, ?_⟩
        obtain ⟨s'', hsched', heq⟩ := Option.map_eq_some_iff.mp hsched
        cases heq
        unfold Sched.vmCreateVcpuTask
        dsimp only
        rw [hsched']
        rfl

end

/-- At whichever call `kmalloc` first answers NULL, the creation is undone exactly when it is one of
the first three, for the task, the vCPU or the stack. -/
theorem create_exact {answer : Nat → Option Nat} {drivers : List String} {arch : Arch} {k : Nat}
    (s : System) (desc : Desc) (hk : k < allocations drivers arch) (hnull : FirstNull answer k) :
    RollsBack (vmCreateVcpuTask answer drivers arch s desc ⟨0, []⟩) s ↔ k < 3 := by
  obtain ⟨hnone, hbefore⟩ := hnull
  constructor
  · rintro ⟨h, hrun, -⟩
    by_contra hlo
    rw [faults_init hk ⟨hnone, hbefore⟩ (Nat.le_of_not_lt hlo)] at hrun
    cases hrun
  · intro hlt
    rcases (by omega : k = 0 ∨ k = 1 ∨ k = 2) with rfl | rfl | rfl
    · exact rollsBack_task hnone
    · obtain ⟨task, h0⟩ := Option.ne_none_iff_exists'.mp (hbefore 0 (by decide))
      exact rollsBack_vcpu h0 hnone
    · obtain ⟨task, h0⟩ := Option.ne_none_iff_exists'.mp (hbefore 0 (by decide))
      obtain ⟨block, h1⟩ := Option.ne_none_iff_exists'.mp (hbefore 1 (by decide))
      exact rollsBack_stack h0 h1 hnone

/-- A heap that is exhausted at call `k`. -/
def exhaustedAt (k : Nat) : Nat → Option Nat := fun j => if j = k then none else some (0x1000 * j)

theorem firstNull_exhaustedAt (k : Nat) : FirstNull (exhaustedAt k) k := by
  refine ⟨if_pos rfl, fun j hj => ?_⟩
  unfold exhaustedAt
  rw [if_neg (Nat.ne_of_lt hj)]
  exact Option.some_ne_none _

theorem create_exact_stack :
    RollsBack (vmCreateVcpuTask (exhaustedAt 2) ["gic3", "pl011"] .aarch64Qemu initSched
      ⟨0, 10, 0, 0, 0⟩ ⟨0, []⟩) initSched ↔ 2 < 3 :=
  create_exact initSched ⟨0, 10, 0, 0, 0⟩ (by decide) (firstNull_exhaustedAt 2)

/-- The first memory region is not there, and it is cleared. -/
theorem create_fails :
    ¬ RollsBack (vmCreateVcpuTask (exhaustedAt 3) ["gic3", "pl011"] .aarch64Qemu initSched
      ⟨0, 10, 0, 0, 0⟩ ⟨0, []⟩) initSched := by
  rintro ⟨h, hrun, -⟩
  rw [faults_init (by decide) (firstNull_exhaustedAt 3) (Nat.le_refl 3)] at hrun
  cases hrun

end HyperCore.VcpuCreate
