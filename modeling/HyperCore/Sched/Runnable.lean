import HyperCore.Sched.CpuOn

/-!
# Started vCPUs and the pCPUs they are pinned to

A task with an affinity other than -1 is picked only by the pCPU whose `cpu_id()` is that
number. Which numbers exist is settled when the secondaries are booted: `smp.c` and `head.S`
of AArch64, `smp.c` of RISC-V. What the firmware answers is a parameter; a CPU for which it
reports success enters the hypervisor at the given address.

`started_can_run`: a vCPU reported as started can run, in every run in which each CPU_ON
asks for a vCPU whose index in the configuration is the number of an online pCPU. RISC-V
takes the hart id modulo the number of online pCPUs and needs no such condition.
-/

namespace HyperCore.AArch64

open Sched (Cpu)

/-! ## Host CPUs of AArch64 -/

/-- A property made of cells: its length in bytes, and what lies at each cell from its start. -/
structure CellProp where
  len : Int
  cell : Nat → BitVec 32

/-- A subnode of `/cpus`. -/
structure CpuNode where
  reg : Option CellProp
  enableMethod : Option String

/-- The node `/cpus` of the host DTB. -/
structure CpusNode where
  addressCells : Option CellProp
  nodes : List CpuNode

/-- `SMP_MAX_CPUS` -/
def smpMaxCpus : Nat := 4

/-- `na`, 2 unless the parent says otherwise -/
def CpusNode.addressCellCount (cpus : CpusNode) : BitVec 32 :=
  match cpus.addressCells with
  | some p => if 4 ≤ p.len then p.cell 0 else 2
  | none => 2

/-- The MPIDR affinity of a subnode that `parse_host_cpus` does not skip. -/
def CpusNode.hostMpidr (cpus : CpusNode) (node : CpuNode) : Option (BitVec 64) := do
  let reg ← node.reg
  let na := cpus.addressCellCount
  if reg.len < (na * 4).toInt then none
  else
    let mpidr := (List.range na.toInt.toNat).foldl
      (fun (mpidr : BitVec 64) i => mpidr <<< 32 ||| (reg.cell i).setWidth 64) 0
    let method ← node.enableMethod
    -- the comparison stops after four characters
    if "psci".toList.isPrefixOf method.toList then pure (mpidr &&& 0xff00ffffff) else none

/-- `parse_host_cpus`: the MPIDRs in `host_cpus`, in order -/
def parseHostCpus (fdt : Option CpusNode) : List (BitVec 64) :=
  match fdt with
  | none => []
  | some cpus => cpus.nodes.foldl (fun hosts node =>
      if smpMaxCpus ≤ hosts.length then hosts
      else (cpus.hostMpidr node).elim hosts fun mpidr => hosts ++ [mpidr]) []

/-- `secondary_entry`: the number that `cpu_id()` will read; any other CPU hangs there. -/
def secondaryEntry (mpidr : BitVec 64) : Option Cpu :=
  if mpidr &&& 0xff00ffffff = 0 then some 0
  else if mpidr &&& 0xff00ffffff = 1 then some 1
  else none

/-- `secondary_start`: a CPU that is in `host_cpus` gets to its scheduler loop, any other
is parked. -/
def secondaryStart (hosts : List (BitVec 64)) (mpidr : BitVec 64) (cpu : Cpu) : Option Cpu :=
  if mpidr ∈ hosts then some cpu else none

/-- `smp_boot_secondaries`: the numbers of the secondaries that get to the scheduler;
`psciCpuOn` is what the firmware answers for an entry of `host_cpus`. -/
def smpBootSecondaries (hosts : List (BitVec 64)) (bootMpidr : BitVec 64)
    (psciCpuOn : Nat → Int) : List Cpu :=
  if hosts.length ≤ 1 then []
  else hosts.zipIdx.filterMap fun (mpidr, i) =>
    if mpidr = bootMpidr then none
    else if psciCpuOn i ≠ 0 then none
    else (secondaryEntry mpidr).bind (secondaryStart hosts mpidr)

/-- No secondary but the one with MPIDR 1 gets a number of its own. -/
theorem mem_smpBootSecondaries {hosts : List (BitVec 64)} {bootMpidr : BitVec 64}
    {psciCpuOn : Nat → Int} {c : Cpu} (h : c ∈ smpBootSecondaries hosts bootMpidr psciCpuOn) :
    c = 0 ∨ c = 1 := by
  unfold smpBootSecondaries at h
  split at h
  · exact absurd h List.not_mem_nil
  · obtain ⟨⟨mpidr, i⟩, _, hc⟩ := List.mem_filterMap.mp h
    dsimp only at hc
    split at hc
    · cases hc
    split at hc
    · cases hc
    obtain ⟨cpu, hentry, hstart⟩ := Option.bind_eq_some_iff.mp hc
    unfold secondaryStart at hstart
    split at hstart
    · obtain rfl := Option.some.inj hstart
      unfold secondaryEntry at hentry
      split at hentry
      · exact .inl (Option.some.inj hentry).symm
      · split at hentry
        · exact .inr (Option.some.inj hentry).symm
        · cases hentry
    · cases hstart

end HyperCore.AArch64

namespace HyperCore.Riscv64

/-! ## Harts of RISC-V -/

/-- `SMP_MAX_CPUS` -/
def smpMaxCpus : Nat := 4

/-- `smp_boot_secondaries`: `g_cpu_to_hart` up to `g_cpu_count`; `hartStart` is the error of
the SBI call for a hart. -/
def smpBootSecondaries (bootHart : Int) (hartStart : Nat → Int) : List Int :=
  (List.range smpMaxCpus).foldl (fun (harts : List Int) (hart : Nat) =>
    if (hart : Int) = bootHart then harts
    else if smpMaxCpus ≤ harts.length then harts
    else if hartStart hart ≠ 0 then harts
    else harts ++ [(hart : Int)]) [bootHart]

/-- The pCPU that `riscv_create_guest_vcpu` pins a hart's vCPU to. -/
def pcpuAffinity (onlineCpus : Nat) (hartid : BitVec 64) : Int :=
  ((hartid.toNat % (if onlineCpus = 0 then 1 else onlineCpus) : Nat) : Int)

theorem smpBootSecondaries_length (bootHart : Int) (hartStart : Nat → Int) :
    0 < (smpBootSecondaries bootHart hartStart).length ∧
      (smpBootSecondaries bootHart hartStart).length ≤ smpMaxCpus := by
  unfold smpBootSecondaries
  -- the count starts at one and stops growing at the maximum
  refine List.foldlRecOn (motive := fun harts : List Int => 0 < harts.length ∧ harts.length ≤ smpMaxCpus)
    _ _ ⟨Nat.one_pos, Nat.succ_le_succ (Nat.zero_le 3)⟩ fun harts ih hart _ => ?_
  split
  · exact ih
  split
  · exact ih
  split
  · exact ih
  · rename_i hroom _
    rw [List.length_append, List.length_singleton]
    exact ⟨Nat.succ_pos _, Nat.lt_of_not_le hroom⟩

end HyperCore.Riscv64

namespace HyperCore.Sched

/-! ## What can run where -/

/-- The machine below the hypervisor, with the answers of its firmware. -/
inductive Machine
  | aarch64 (fdt : Option AArch64.CpusNode) (bootMpidr : BitVec 64) (psciCpuOn : Nat → Int)
  | riscv64 (bootHart : Int) (hartStart : Nat → Int)

def Machine.arch : Machine → Arch
  | .aarch64 .. => .aarch64
  | .riscv64 .. => .riscv64

/-- The `cpu_id()`s of the pCPUs that execute the scheduler; the boot CPU is 0. -/
def Machine.online : Machine → List Cpu
  | .aarch64 fdt bootMpidr psciCpuOn =>
    0 :: AArch64.smpBootSecondaries (AArch64.parseHostCpus fdt) bootMpidr psciCpuOn
  | .riscv64 bootHart hartStart =>
    (List.finRange 4).filter fun c =>
      c.val < (Riscv64.smpBootSecondaries bootHart hartStart).length

/-- Some pCPU picks tasks with this affinity. -/
def Machine.Serves (m : Machine) (affinity : Int) : Prop :=
  affinity = -1 ∨ ∃ c ∈ m.online, affinity = c.val

/-- The tasks that are created with their id: the boot vCPU on AArch64, every vCPU that
`riscv_create_guest_vcpu` makes on RISC-V. -/
def Machine.Creates (m : Machine) (cfg : GuestConfig) (x : Task) : Prop :=
  match m with
  | .aarch64 .. => x = ⟨10, 0, psciMpidrAffinity (cfg.vcpuMpidr 0), .ready⟩
  | .riscv64 bootHart hartStart => ∃ priority hartid,
    x = ⟨priority,
      Riscv64.pcpuAffinity (Riscv64.smpBootSecondaries bootHart hartStart).length hartid,
      hartid, .ready⟩

/-- The steps that the code takes; there is no PSCI on RISC-V. -/
structure Feasible (m : Machine) (cfg : GuestConfig) (a : Action) : Prop where
  creates : ∀ t x vcpu, a = .create t x vcpu → m.Creates cfg x
  calls : ∀ c cpuId entry contextId, a = .cpuOn c cpuId entry contextId → m.arch = .aarch64

/-- The first vCPU of the configuration with the affinity of `cpuId`. -/
def FirstVcpu (cfg : GuestConfig) (cpuId : BitVec 64) (i : Nat) : Prop :=
  i < cfg.vcpuCount ∧ psciMpidrAffinity (cfg.vcpuMpidr i) = psciMpidrAffinity cpuId ∧
    ∀ j < i, psciMpidrAffinity (cfg.vcpuMpidr j) ≠ psciMpidrAffinity cpuId

/-- A CPU_ON call asks for a vCPU whose index is the number of an online pCPU. -/
def AsksOnline (m : Machine) (cfg : GuestConfig) (a : Action) : Prop :=
  ∀ c cpuId entry contextId i, a = .cpuOn c cpuId entry contextId → FirstVcpu cfg cpuId i →
    ∃ c' ∈ m.online, c'.val = i

/-- CPU_ON has returned SUCCESS for the task, or `riscv_create_guest_vcpu` 0. -/
def Reported (m : Machine) (s : Smp) (t : TaskId) : Prop :=
  match m.arch with
  | .aarch64 => (s.promised t).isSome
  | .riscv64 => (s.sys.task t).isSome

def CanRun (m : Machine) (s : Smp) (t : TaskId) : Prop :=
  ∃ x, s.sys.task t = some x ∧ m.Serves x.pcpuAffinity

theorem Machine.serves_zero (m : Machine) : m.Serves 0 := by
  refine .inr ⟨0, ?_, rfl⟩
  cases m with
  | aarch64 fdt bootMpidr psciCpuOn => exact List.mem_cons_self
  | riscv64 bootHart hartStart =>
    have hpos := (Riscv64.smpBootSecondaries_length bootHart hartStart).1
    simpa [online] using hpos

/-- Every task that is created with its id has an affinity that is served. -/
theorem Machine.Creates.serves {m : Machine} {cfg : GuestConfig} {x : Task}
    (h : m.Creates cfg x) : m.Serves x.pcpuAffinity := by
  cases m with
  | aarch64 fdt bootMpidr psciCpuOn =>
    obtain rfl := h
    exact serves_zero _
  | riscv64 bootHart hartStart =>
    obtain ⟨priority, hartid, rfl⟩ := h
    obtain ⟨hpos, hmax⟩ := Riscv64.smpBootSecondaries_length bootHart hartStart
    have hlt : hartid.toNat % (Riscv64.smpBootSecondaries bootHart hartStart).length <
        (Riscv64.smpBootSecondaries bootHart hartStart).length := Nat.mod_lt _ hpos
    refine .inr ⟨⟨_, hlt.trans_le hmax⟩, ?_, ?_⟩
    · simpa [online] using hlt
    · unfold Riscv64.pcpuAffinity
      rw [if_neg hpos.ne']

/-- The affinity that a CPU_ON call chooses is the index of the vCPU it asks for. -/
theorem psciPcpuAffinity_eq {cfg : GuestConfig} {cpuId : BitVec 64} {i : Nat}
    (h : FirstVcpu cfg cpuId i) : psciPcpuAffinity cfg (psciMpidrAffinity cpuId) = i := by
  obtain ⟨hi, heq, hfirst⟩ := h
  have hfind : (List.range cfg.vcpuCount).find? (fun i =>
      psciMpidrAffinity (cfg.vcpuMpidr i) == psciMpidrAffinity cpuId) = some i := by
    rw [List.find?_range_eq_some]
    refine ⟨beq_iff_eq.mpr heq, List.mem_range.mpr hi, fun j hj => ?_⟩
    rw [Bool.not_eq_true', beq_eq_false_iff_ne]
    exact hfirst j hj
  unfold psciPcpuAffinity
  rw [hfind]

/-- A call that is let through has such an index. -/
theorem exists_firstVcpu {cfg : GuestConfig} {cpuId target : BitVec 64}
    (h : psciConfiguredMpidr cfg cpuId = some target) : ∃ i, FirstVcpu cfg cpuId i := by
  have hex : ∃ i, i < cfg.vcpuCount ∧
      psciMpidrAffinity (cfg.vcpuMpidr i) = psciMpidrAffinity cpuId := by
    obtain ⟨i, hi, he⟩ := List.mem_map.mp (List.mem_of_find?_eq_some h)
    exact ⟨i, List.mem_range.mp hi, he.trans (psciConfiguredMpidr_eq h)⟩
  refine ⟨Nat.find hex, (Nat.find_spec hex).1, (Nat.find_spec hex).2, fun j hj he => ?_⟩
  exact Nat.find_min hex hj ⟨hj.trans (Nat.find_spec hex).1, he⟩

/-! ## Runs -/

/-- Every task and every call in progress has an affinity that is served. -/
structure Pinned (m : Machine) (cfg : GuestConfig) (s : Smp) : Prop where
  tasks : ∀ t x, s.sys.task t = some x → m.Serves x.pcpuAffinity
  calls : ∀ c call stage, s.phase c = .cpuOn call stage →
    (∃ val, stage = .returned val) ∨ m.Serves (psciPcpuAffinity cfg call.target)
  patched : ∀ c call t todo, s.phase c = .cpuOn call (.patch t todo) → (s.sys.task t).isSome
  promised : ∀ t, (s.promised t).isSome → (s.sys.task t).isSome

section

variable {m : Machine} {arch : Arch} {cfg : GuestConfig} {s s' : Smp}
  {q q' : ListHead → List TaskId} {a : Action} {c : Cpu}

/-- A pCPU goes on to a phase whose call, if it is one, is served. -/
theorem Pinned.setPhase (h : Pinned m cfg s) {p : Phase}
    (hcall : ∀ call stage, p = .cpuOn call stage →
      (∃ val, stage = .returned val) ∨ m.Serves (psciPcpuAffinity cfg call.target))
    (hpatch : ∀ call t todo, p = .cpuOn call (.patch t todo) → (s.sys.task t).isSome) :
    Pinned m cfg (s.setPhase c p) := by
  refine ⟨h.tasks, fun c' call stage hph => ?_, fun c' call t todo hph => ?_, h.promised⟩
  · change Function.update s.phase c p c' = .cpuOn call stage at hph
    rw [Function.update_apply] at hph
    split at hph
    · exact hcall call stage hph
    · exact h.calls c' call stage hph
  · change Function.update s.phase c p c' = .cpuOn call (.patch t todo) at hph
    rw [Function.update_apply] at hph
    split at hph
    · exact hpatch call t todo hph
    · exact h.patched c' call t todo hph

/-- A phase that is no call. -/
theorem Pinned.setQuiet (h : Pinned m cfg s) {p : Phase}
    (hp : ∀ call stage, p ≠ .cpuOn call stage) : Pinned m cfg (s.setPhase c p) :=
  h.setPhase (fun call stage he => absurd he (hp call stage))
    fun call t todo he => absurd he (hp call (.patch t todo))

/-- The stages of a call without a task to write to. -/
theorem Pinned.setStage (h : Pinned m cfg s) {call call' : OnCall} {stage stage' : OnStage}
    (hph : s.phase c = .cpuOn call stage) (htarget : call'.target = call.target)
    (hold : ∀ val, stage ≠ .returned val) (hnew : ∀ t todo, stage' ≠ .patch t todo) :
    Pinned m cfg (s.setPhase c (.cpuOn call' stage')) := by
  refine h.setPhase (fun call₁ stage₁ he => ?_) fun call₁ t todo he => ?_
  · obtain ⟨rfl, rfl⟩ := Phase.cpuOn.inj he
    rw [htarget]
    exact .inr ((h.calls c call stage hph).resolve_left fun ⟨val, hv⟩ => hold val hv)
  · exact absurd (Phase.cpuOn.inj he).2 (hnew t todo)

/-- The task table changes while every task stays live and served. -/
theorem Pinned.setTasks (h : Pinned m cfg s) (hphase : s'.phase = s.phase)
    (hprom : s'.promised = s.promised)
    (htasks : ∀ t x, s'.sys.task t = some x → m.Serves x.pcpuAffinity)
    (hlive : ∀ t, (s.sys.task t).isSome → (s'.sys.task t).isSome) : Pinned m cfg s' := by
  refine ⟨htasks, fun c call stage hph => ?_, fun c call t todo hph => ?_, fun t hp => ?_⟩
  · exact h.calls c call stage (hphase ▸ hph)
  · exact hlive t (h.patched c call t todo (hphase ▸ hph))
  · exact hlive t (h.promised t (hprom ▸ hp))

/-- Neither the tasks nor the calls change. -/
theorem Pinned.frame (h : Pinned m cfg s) (hphase : s'.phase = s.phase)
    (hprom : s'.promised = s.promised) (htask : s'.sys.task = s.sys.task) : Pinned m cfg s' :=
  h.setTasks hphase hprom (fun t x hx => h.tasks t x (htask ▸ hx)) fun _ ht => htask ▸ ht

/-- A new task. -/
theorem Pinned.newTask (h : Pinned m cfg s) {t : TaskId} {x : Task} {sys' : System}
    {vcpus : TaskId → Vcpu} (hsame : SameTasks (s.sys.newTask t x) sys')
    (hx : m.Serves x.pcpuAffinity) : Pinned m cfg { s with sys := sys', vcpu := vcpus } := by
  have htask : sys'.task = Function.update s.sys.task t (some x) := hsame.task
  refine h.setTasks rfl rfl (fun u y hy => ?_) fun u hu => ?_
  · change sys'.task u = some y at hy
    rw [htask, Function.update_apply] at hy
    split at hy
    · exact Option.some.inj hy ▸ hx
    · exact h.tasks u y hy
  · change (sys'.task u).isSome
    rw [htask, Function.update_apply]
    split
    · rfl
    · exact hu

/-- One write to a task, by a call that is served. -/
theorem Pinned.patchOp (h : Pinned m cfg s) {call : OnCall}
    (hcall : m.Serves (psciPcpuAffinity cfg call.target)) (vbar : BitVec 64) (t : TaskId)
    (o : PatchOp) : Pinned m cfg (patchOp cfg s call vbar t o) := by
  -- the three writes to the task leave it live, and what they write is served
  have hwrite : ∀ f : Task → Task, (∀ x, m.Serves x.pcpuAffinity → m.Serves (f x).pcpuAffinity) →
      Pinned m cfg (s.modifyTask t f) := by
    intro f hf
    refine h.setTasks rfl rfl (fun u y hy => ?_) fun u hu => ?_
    · rcases modifyTask_some hy with ⟨_, x, hx, rfl⟩ | ⟨_, hy⟩
      · exact hf x (h.tasks _ x hx)
      · exact h.tasks u y hy
    · change ((s.sys.modifyTask t f).task u).isSome
      rwa [modifyTask_isSome]
  cases o with
  | mpidr => exact hwrite _ fun _ hx => hx
  | anyPcpu => exact hwrite _ fun _ _ => .inl rfl
  | pcpu => exact hwrite _ fun _ _ => hcall
  | vmpidr => exact h.frame rfl rfl rfl
  | vbar => exact h.frame rfl rfl rfl
  | x0 => exact h.frame rfl rfl rfl

/-- One step. -/
theorem Pinned.step (h : Pinned m cfg s) (hcase : StepCase arch cfg s q a s' q')
    (hfeasible : Feasible m cfg a) (hasks : AsksOnline m cfg a) : Pinned m cfg s' := by
  -- a call that goes on is served
  have hserved : ∀ c call stage, s.phase c = .cpuOn call stage → (∀ val, stage ≠ .returned val) →
      m.Serves (psciPcpuAffinity cfg call.target) := fun c call stage hph hold =>
    (h.calls c call stage hph).resolve_left fun ⟨val, hv⟩ => hold val hv
  cases hcase with
  | nothing => exact h
  | take =>
    refine Pinned.setQuiet ?_ fun _ _ => nofun
    exact h.frame rfl rfl rfl
  | publish =>
    refine Pinned.setQuiet ?_ fun _ _ => rest_ne_cpuOn
    exact h.frame rfl rfl rfl
  | requeue hph hsame =>
    refine Pinned.setQuiet ?_ fun _ _ => rest_ne_cpuOn
    exact h.frame rfl rfl hsame.task
  | skip => exact h.setQuiet fun _ _ => rest_ne_cpuOn
  | save =>
    refine Pinned.setQuiet ?_ fun _ _ => rest_ne_cpuOn
    exact h.frame rfl rfl rfl
  | restore =>
    refine Pinned.setQuiet ?_ fun _ _ => rest_ne_cpuOn
    exact h.frame rfl rfl rfl
  | create hnone hsame => exact h.newTask hsame (hfeasible.creates _ _ _ rfl).serves
  | @callOn c cpuId entry contextId target hph hconf =>
    refine h.setPhase (fun call stage he => .inr ?_) fun call t todo he => ?_
    · obtain ⟨i, hi⟩ := exists_firstVcpu hconf
      obtain ⟨c', hc', hval⟩ := hasks c cpuId entry contextId i rfl hi
      obtain ⟨rfl, -⟩ := Phase.cpuOn.inj he
      rw [psciConfiguredMpidr_eq hconf, psciPcpuAffinity_eq hi]
      exact .inr ⟨c', hc', by rw [hval]⟩
    · cases (Phase.cpuOn.inj he).2
  | callInvalid =>
    refine h.setPhase (fun call stage he => .inl ⟨_, (Phase.cpuOn.inj he).2.symm⟩)
      fun call t todo he => ?_
    cases (Phase.cpuOn.inj he).2
  | checkMiss hph => exact h.setStage hph rfl (fun _ => nofun) fun _ _ => nofun
  | checkHit hph => exact h.setStage hph rfl (fun _ => nofun) fun _ _ => nofun
  | listMiss hph => exact h.setStage hph rfl (fun _ => nofun) fun _ _ => nofun
  | denied hph => exact h.setStage hph rfl (fun _ => nofun) fun _ _ => nofun
  | created hph _ hsame =>
    exact (h.newTask hsame m.serves_zero).setStage hph rfl (fun _ => nofun) fun _ _ => nofun
  | searchMiss hph => exact h.setStage hph rfl (fun _ => nofun) fun _ _ => nofun
  | searchHit hph _ hx =>
    refine h.setPhase (fun call stage he => .inr ?_) fun call t todo he => ?_
    · obtain ⟨rfl, -⟩ := Phase.cpuOn.inj he
      exact hserved _ _ _ hph fun _ => nofun
    · obtain ⟨rfl, -⟩ := OnStage.patch.inj (Phase.cpuOn.inj he).2
      exact Option.isSome_of_mem hx
  | @patch c mem vbar call t o todo hph =>
    have hcall := hserved _ _ _ hph fun _ => nofun
    refine (h.patchOp hcall vbar t o).setPhase (fun call₁ stage he => .inr ?_)
      fun call₁ u todo₁ he => ?_
    · obtain ⟨rfl, -⟩ := Phase.cpuOn.inj he
      exact hcall
    · obtain ⟨rfl, -⟩ := OnStage.patch.inj (Phase.cpuOn.inj he).2
      have hlive := h.patched c call t (o :: todo) hph
      cases o with
      | mpidr => exact (modifyTask_isSome _).trans hlive
      | anyPcpu => exact (modifyTask_isSome _).trans hlive
      | pcpu => exact (modifyTask_isSome _).trans hlive
      | vmpidr => exact hlive
      | vbar => exact hlive
      | x0 => exact hlive
  | @success c mem vbar call t hph =>
    have hmore : Pinned m cfg { s with promised := Function.update s.promised t (some call) } := by
      refine ⟨h.tasks, h.calls, h.patched, fun u hu => ?_⟩
      change (Function.update s.promised t (some call) u).isSome at hu
      rw [Function.update_apply] at hu
      split at hu
      · rename_i he
        exact he ▸ h.patched c call t [] hph
      · exact h.promised u hu
    exact hmore.setStage hph rfl (fun _ => nofun) fun _ _ => nofun
  | leave => exact h.setQuiet fun _ _ => nofun

theorem pinned_init : Pinned m cfg initSmp :=
  ⟨fun _ _ h => (nomatch h), fun _ _ _ h => (nomatch h), fun _ _ _ _ h => (nomatch h),
    fun _ h => (nomatch h)⟩

theorem SmpRun.pinned (hs : SmpRun m.arch cfg (fun _ a => Feasible m cfg a ∧ AsksOnline m cfg a) s) :
    Pinned m cfg s ∧ ∃ q, Owned m.arch s.sys s.phase q := by
  induction hs with
  | init => exact ⟨pinned_init, _, owned_init m.arch⟩
  | step hrun hok hstep ih =>
    obtain ⟨hp, q, ho⟩ := ih
    obtain ⟨q', hcase, ho'⟩ := ho.step hstep
    exact ⟨hp.step hcase hok.1 hok.2, q', ho'⟩

/-- A vCPU reported as started can run. -/
theorem started_can_run
    (hs : SmpRun m.arch cfg (fun _ a => Feasible m cfg a ∧ AsksOnline m cfg a) s) :
    ∀ t, Reported m s t → CanRun m s t := by
  intro t hrep
  obtain ⟨hp, -⟩ := hs.pinned
  have hlive : (s.sys.task t).isSome := by
    cases m with
    | aarch64 fdt bootMpidr psciCpuOn => exact hp.promised t hrep
    | riscv64 bootHart hartStart => exact hrep
  obtain ⟨x, hx⟩ := Option.isSome_iff_exists.mp hlive
  exact ⟨x, hx, hp.tasks t x hx⟩

/-- The steps of a call that turns a vCPU on, of a guest whose boot vCPU runs on pCPU 0. -/
def turnOn (cpuId : BitVec 64) : List Action :=
  [.create 1 ⟨10, 0, 0, .ready⟩ ⟨0, 0, 0, 0⟩, .pick 0] ++ switches 0 4 ++
  [.cpuOn 0 cpuId 0x50000000 7] ++ List.replicate 5 (.onStep 0 none 0) ++
  [.onStep 0 (some 2) 0] ++ List.replicate 8 (.onStep 0 none 0)

/-- These steps are possible on every AArch64 host. -/
theorem feasible_turnOn (fdt : Option AArch64.CpusNode) (bootMpidr : BitVec 64)
    (psciCpuOn : Nat → Int) (cpuId : BitVec 64) :
    ∀ a ∈ turnOn cpuId, Feasible (.aarch64 fdt bootMpidr psciCpuOn) defaultVcpus a := by
  intro a ha
  refine ⟨fun t x vcpu he => ?_, fun _ _ _ _ _ => rfl⟩
  subst he
  simp only [turnOn, switches, List.mem_append, List.mem_cons, List.mem_replicate,
    List.not_mem_nil, Action.create.injEq, reduceCtorEq, and_false, or_false] at ha
  obtain ⟨-, rfl, -⟩ := ha
  exact rfl

end

/-- A host with two CPUs that PSCI turns on. -/
def twoCpus : Machine :=
  .aarch64 (some ⟨some ⟨4, fun _ => 1⟩, [⟨some ⟨4, fun _ => 0⟩, some "psci"⟩,
    ⟨some ⟨4, fun _ => 1⟩, some "psci"⟩]⟩) 0 fun _ => 0

/-- vCPU 1 of a guest on two CPUs. -/
theorem started_can_run_two : ∃ s, Reported twoCpus s 2 ∧ CanRun twoCpus s 2 := by
  have hexec : ∃ s, initSmp.exec .aarch64 defaultVcpus (turnOn 1) = some s ∧
      Reported twoCpus s 2 := ⟨_, rfl, rfl⟩
  obtain ⟨s, hexec, hrep⟩ := hexec
  have hrun : SmpRun twoCpus.arch defaultVcpus
      (fun _ a => Feasible twoCpus defaultVcpus a ∧ AsksOnline twoCpus defaultVcpus a) s := by
    refine SmpRun.init.execAll (fun a ha _ => ⟨feasible_turnOn _ _ _ 1 a ha, ?_⟩) hexec
    intro c cpuId entry contextId i he hfirst
    subst he
    simp only [turnOn, switches, List.mem_append, List.mem_cons, List.mem_replicate,
      List.not_mem_nil, Action.cpuOn.injEq, reduceCtorEq, and_false, or_false, false_or] at ha
    obtain ⟨-, rfl, -⟩ := ha
    have hi : psciPcpuAffinity defaultVcpus 1 = i := psciPcpuAffinity_eq hfirst
    have hi' : (1 : Int) = i := hi
    exact ⟨1, by decide, Int.ofNat.inj hi'⟩
  exact ⟨s, hrep, started_can_run hrun 2 hrep⟩

/-- No host CPU ever gets the number 2, whatever the firmware starts: vCPU 2 stays queued. -/
theorem started_can_run_fails : ∃ s, ∀ fdt bootMpidr psciCpuOn,
    SmpRun .aarch64 defaultVcpus
      (fun _ a => Feasible (.aarch64 fdt bootMpidr psciCpuOn) defaultVcpus a) s ∧
    Reported (.aarch64 fdt bootMpidr psciCpuOn) s 2 ∧
    ¬ CanRun (.aarch64 fdt bootMpidr psciCpuOn) s 2 := by
  have hexec : ∃ s, initSmp.exec .aarch64 defaultVcpus (turnOn 2) = some s ∧
      (s.promised 2).isSome ∧ s.sys.task 2 = some ⟨10, 2, 2, .ready⟩ := ⟨_, rfl, rfl, rfl⟩
  obtain ⟨s, hexec, hrep, htask⟩ := hexec
  refine ⟨s, fun fdt bootMpidr psciCpuOn =>
    ⟨SmpRun.init.execAll (fun a ha _ => feasible_turnOn fdt bootMpidr psciCpuOn 2 a ha) hexec, hrep,
      ?_⟩⟩
  rintro ⟨x, hx, hserves⟩
  obtain rfl := Option.some.inj (htask.symm.trans hx)
  rcases hserves with h | ⟨c, hc, hval⟩
  · exact absurd h (by decide)
  · have htwo : c = 2 := Fin.ext (Int.ofNat.inj hval.symm)
    subst htwo
    rcases List.mem_cons.mp hc with h | h
    · exact absurd h (by decide)
    · rcases AArch64.mem_smpBootSecondaries h with h | h
      · exact absurd h (by decide)
      · exact absurd h (by decide)

/-- A call that returns SUCCESS for a vCPU without such a pCPU leaves a task that cannot run. -/
theorem cpuOn_serves_iff (m : Machine) {cfg : GuestConfig} {g : Guest}
    {q : ListHead → List TaskId} (hg : g.Settled q) {regs : Regs} {i : Nat}
    (hfirst : FirstVcpu cfg (regs.x 1) i) (hnew : ¬ TaskWith g.sys.task (regs.x 1)) {t : TaskId}
    (ht : g.sys.task t = none) (vbarEl1 : BitVec 64) :
    ∃ g' x, psciVcpuOn cfg g (some t) vbarEl1 regs = some (psciRetSuccess, g') ∧
      g'.sys.task t = some x ∧ (m.Serves x.pcpuAffinity ↔ ∃ c ∈ m.online, c.val = i) := by
  have hconf : Configured cfg (regs.x 1) := ⟨i, hfirst.1, hfirst.2.1⟩
  obtain ⟨g', q', hrun, -, htask⟩ := psciVcpuOn_success hg hconf hnew ht vbarEl1
  have haff : (onTask cfg (regs.x 1)).pcpuAffinity = i := psciPcpuAffinity_eq hfirst
  refine ⟨g', _, hrun, by rw [htask, Function.update_self], ?_⟩
  rw [haff]
  refine ⟨fun h => ?_, fun ⟨c, hc, hval⟩ => .inr ⟨c, hc, by rw [hval]⟩⟩
  rcases h with h | ⟨c, hc, hval⟩
  · omega
  · exact ⟨c, hc, (Int.ofNat.inj hval).symm⟩

end HyperCore.Sched
