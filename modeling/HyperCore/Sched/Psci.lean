import HyperCore.Sched.Simple
import HyperCore.Vgic.Virq

/-!
# PSCI calls of the guest

`emul_psci.h`, with each call handled in one piece. A state is the scheduler's, with the
part of every `vcpu_t` that `psci_vcpu_on` writes and every task's queue of virtual
interrupts.

The result variable `val` of `psci_vcpu_call` has no initial value, and most arms of the
switch leave it alone. What the stack slot holds is the argument `garbage`.

`HvcContract` says what a guest may expect of a call. `hvc_contract_iff`: it is met for
the four function ids that are implemented, and for no other value of x0.
-/

namespace HyperCore.Sched

open LinkRing Vgic

/-! ## Configuration and state -/

/-- The vCPUs of `struct hyper_guest_config`. -/
structure GuestConfig where
  vcpuCount : Nat
  vcpuMpidr : Nat → BitVec 64
  entry : BitVec 64
  dtbAddr : BitVec 64

/-- The fields of a `vcpu_t` that task creation and `psci_vcpu_on` write. -/
structure Vcpu where
  x0 : BitVec 64
  pc : BitVec 64
  vmpidr : BitVec 64
  vbar : BitVec 64

structure Guest where
  sys : System
  vcpu : TaskId → Vcpu
  queue : TaskId → VirqQueue

/-- The trap frame: `x0` to `x30` and the pc. -/
structure Regs where
  x : Fin 31 → BitVec 64
  pc : BitVec 64

/-- `vcpu_reg_write` of x0 -/
def Regs.setX0 (r : Regs) (v : BitVec 64) : Regs := { r with x := Function.update r.x 0 v }

/-- `psci_mpidr_affinity`, and `gic_emul_mpidr_affinity` -/
def psciMpidrAffinity (mpidr : BitVec 64) : BitVec 64 := mpidr &&& 0xff00ffffff

/-- The mpidr of a task that is not bound yet, `(uint64_t)-1`. -/
def placeholder : BitVec 64 := BitVec.allOnes 64

/-! ## The code -/

def psciRetSuccess : BitVec 64 := 0
def psciRetInvalidParameters : BitVec 64 := -2
def psciRetDenied : BitVec 64 := -3
def psciRetAlreadyOn : BitVec 64 := -4

/-- `psci_configured_mpidr` -/
def psciConfiguredMpidr (cfg : GuestConfig) (cpuId : BitVec 64) : Option (BitVec 64) :=
  ((List.range cfg.vcpuCount).map fun i => psciMpidrAffinity (cfg.vcpuMpidr i)).find?
    (· == psciMpidrAffinity cpuId)

/-- The pCPU that `psci_vcpu_on` pins a vCPU to: its index in the configuration. -/
def psciPcpuAffinity (cfg : GuestConfig) (target : BitVec 64) : Int :=
  match (List.range cfg.vcpuCount).find? fun i =>
      psciMpidrAffinity (cfg.vcpuMpidr i) == target with
  | some i => i
  | none => -1

/-- The test `f` on the task that `g_running` has for a pCPU. -/
def System.testRunning (s : System) (f : Task → Bool) (c : Cpu) : Bool :=
  (s.gRunning c).any fun t => (s.task t).any f

/-- The walk over `g_ready_list` for the first task that passes a test. -/
def System.scanReady (s : System) (f : Task → Bool) : Option (Option TaskId) :=
  (scan s.links (.head .ready) (s.testTask f) (s.inserts + 1)).map fun pos =>
    match pos with
    | some (.task t) => some t
    | _ => none

/-- The lookup of a vCPU's task: `g_running` first, then `g_ready_list`. -/
def System.findTask (s : System) (f : Task → Bool) : Option (Option TaskId) :=
  match (List.finRange 4).find? (s.testRunning f) with
  | some c => some (s.gRunning c)
  | none => s.scanReady f

/-- The task's affinity is that of `mpidr`. -/
def hasAffinity (mpidr : BitVec 64) (x : Task) : Bool :=
  psciMpidrAffinity x.mpidr == psciMpidrAffinity mpidr

/-- `psci_task_exists` -/
def psciTaskExists (s : System) (mpidr : BitVec 64) : Option Bool :=
  if (List.finRange 4).any (s.testRunning (hasAffinity mpidr)) then some true
  else (s.scanReady (hasAffinity mpidr)).map Option.isSome

/-- An update of the fields of a task. -/
def System.modifyTask (s : System) (t : TaskId) (f : Task → Task) : System :=
  { s with task := Function.update s.task t ((s.task t).map f) }

/-- `vm_create_vcpu_task` with the `vcpu_t` that the arch functions leave. -/
def createVcpuTask (g : Guest) (mem : Option TaskId) (pcpuAffinity : Int) (guestCpuId : BitVec 64)
    (vcpu : Vcpu) : Option (Int × Guest) := do
  let (rc, sys) ← vmCreateVcpuTask g.sys mem 10 pcpuAffinity guestCpuId
  match mem with
  | none => pure (rc, { g with sys := sys })
  | some t =>
    pure (rc,
      { sys := sys
        vcpu := Function.update g.vcpu t vcpu
        queue := Function.update g.queue t ⟨fun _ => 0, 0⟩ })

/-- `create_task`, as the boot code calls it. -/
def createTask (cfg : GuestConfig) (g : Guest) (mem : Option TaskId) : Option (Int × Guest) :=
  let bootMpidr := psciMpidrAffinity (cfg.vcpuMpidr 0)
  createVcpuTask g mem 0 bootMpidr ⟨cfg.dtbAddr, cfg.entry, 0x80000000 ||| bootMpidr, 0⟩

/-- `create_task2` -/
def createTask2 (g : Guest) (mem : Option TaskId) (entry : BitVec 64) : Option (Int × Guest) :=
  createVcpuTask g mem 0 placeholder ⟨0, entry, 0, 0⟩

/-- What `psci_vcpu_on` writes into the new task. -/
def bindTask (cfg : GuestConfig) (g : Guest) (t : TaskId) (target vbarEl1 contextId : BitVec 64) :
    Guest :=
  { g with
    sys := g.sys.modifyTask t fun x =>
      { x with mpidr := target, pcpuAffinity := psciPcpuAffinity cfg target }
    vcpu := Function.update g.vcpu t
      { g.vcpu t with vmpidr := 0x80000000 ||| target, vbar := vbarEl1, x0 := contextId } }

/-- `psci_vcpu_on`; `vbarEl1` is the caller's VBAR_EL1. -/
def psciVcpuOn (cfg : GuestConfig) (g : Guest) (mem : Option TaskId) (vbarEl1 : BitVec 64)
    (regs : Regs) : Option (BitVec 64 × Guest) :=
  match psciConfiguredMpidr cfg (regs.x 1) with
  | none => pure (psciRetInvalidParameters, g)
  | some target => do
    if ← psciTaskExists g.sys target then pure (psciRetAlreadyOn, g)
    else
      let (rc, g) ← createTask2 g mem (regs.x 2)
      if rc ≠ 0 then pure (psciRetDenied, g)
      else
        match ← g.sys.scanReady fun x => x.mpidr == placeholder with
        | none => pure (psciRetDenied, g)
        | some t => pure (psciRetSuccess, bindTask cfg g t target vbarEl1 (regs.x 3))

/-- The functions of the switch in `psci_vcpu_call`, each in its 32- and 64-bit form. -/
inductive PsciFn
  | version | cpuSuspend | cpuOff | cpuOn | affinityInfo | migrate | migrateInfoType
  | migrateInfoUpCpu | systemOff | systemReset
deriving DecidableEq, Repr

/-- `PSCI_0_2_FN(n)` and `PSCI_0_2_FN64(n)` -/
def psciFnIds : List (BitVec 64 × PsciFn) :=
  [(0x84000000, .version),
   (0x84000001, .cpuSuspend), (0xc4000001, .cpuSuspend),
   (0x84000002, .cpuOff),
   (0x84000003, .cpuOn), (0xc4000003, .cpuOn),
   (0x84000004, .affinityInfo), (0xc4000004, .affinityInfo),
   (0x84000005, .migrate), (0xc4000005, .migrate),
   (0x84000006, .migrateInfoType),
   (0x84000007, .migrateInfoUpCpu), (0xc4000007, .migrateInfoUpCpu),
   (0x84000008, .systemOff),
   (0x84000009, .systemReset)]

/-- The arm that x0 selects; `none` is the default. -/
def psciFn (fn : BitVec 64) : Option PsciFn := psciFnIds.lookup fn

/-- `psci_vcpu_call`: its return code, the frame and the state. -/
def psciVcpuCall (cfg : GuestConfig) (g : Guest) (mem : Option TaskId) (vbarEl1 : BitVec 64)
    (garbage : BitVec 64) (regs : Regs) : Option (Int × Regs × Guest) :=
  match psciFn (regs.x 0) with
  | none => pure (-5, regs, g)
  | some .version => pure (0, regs.setX0 2, g)
  | some .cpuOn => do
    let (val, g) ← psciVcpuOn cfg g mem vbarEl1 regs
    pure (0, regs.setX0 val, g)
  -- MIGRATE falls through to MIGRATE_INFO_TYPE
  | some .migrate | some .migrateInfoType => pure (0, regs.setX0 2, g)
  -- the other arms do not assign `val`
  | some _ => pure (0, regs.setX0 garbage, g)

/-- The outcomes of `handle_hvc`. A task always has its vCPU. -/
inductive HvcResult
  | noCurrentTask
  | yieldScheduler
deriving DecidableEq, Repr

/-- `handle_hvc` on a pCPU. -/
def handleHvc (cfg : GuestConfig) (g : Guest) (c : Cpu) (mem : Option TaskId) (vbarEl1 : BitVec 64)
    (garbage : BitVec 64) (regs : Regs) : Option (HvcResult × Regs × Guest) :=
  match g.sys.currentTask c with
  | none => pure (.noCurrentTask, regs, g)
  | some _ => do
    let (_, regs, g) ← psciVcpuCall cfg g mem vbarEl1 garbage regs
    pure (.yieldScheduler, regs, g)

/-- Before `create_task`. -/
def initGuest : Guest := ⟨initSched, fun _ => ⟨0, 0, 0, 0⟩, fun _ => ⟨fun _ => 0, 0⟩⟩

/-! ## Walks and updates -/

/-- Some task has this affinity. -/
def TaskWith (task : TaskId → Option Task) (mpidr : BitVec 64) : Prop :=
  ∃ t x, task t = some x ∧ psciMpidrAffinity x.mpidr = psciMpidrAffinity mpidr

theorem affinity_idem (m : BitVec 64) :
    psciMpidrAffinity (psciMpidrAffinity m) = psciMpidrAffinity m := by
  rw [psciMpidrAffinity, psciMpidrAffinity, BitVec.and_assoc, BitVec.and_self]

theorem affinity_ne_placeholder (m : BitVec 64) : psciMpidrAffinity m ≠ placeholder := by
  intro he
  have hbit := congrArg (BitVec.getLsbD · 63) he
  simp [psciMpidrAffinity, placeholder] at hbit

section

variable {s : System} {q : ListHead → List TaskId} {t : TaskId}

/-- A walk over the ready list. -/
theorem Lists.scanReady_eq (hl : Lists s q) (f : Task → Bool) :
    s.scanReady f = some ((q .ready).find? fun t => (s.task t).any f) := by
  have hroom : ((q .ready).map Node.task).length < s.inserts + 1 := by
    rw [List.length_map]
    exact Nat.lt_succ_of_le (hl.room .ready)
  unfold System.scanReady
  rw [(hl.ring .ready).scan_eq _ hroom, List.find?_map]
  have hcomp : s.testTask f ∘ Node.task = fun t => (s.task t).any f := rfl
  rw [hcomp]
  cases (q .ready).find? _ <;> rfl

/-- Between two calls a task that nobody blocks is ready or running. -/
theorem Holds.ready_or_running (hh : Holds s q) (hwait : ∀ u, u ∉ q .wait) {t : TaskId} {x : Task}
    (hx : s.task t = some x) : t ∈ q .ready ∨ ∃ c, s.gRunning c = some t := by
  obtain ⟨p, hin⟩ := hh.placed.somewhere t (Option.isSome_iff_exists.mpr ⟨x, hx⟩)
  cases p with
  | queued h =>
    cases h with
    | ready => exact .inl hin
    | wait => exact absurd hin (hwait t)
  | current c => exact .inr ⟨c, hh.running ▸ hin⟩

/-- A lookup by a test that singles out a task finds that task. -/
theorem Holds.findTask_spec (hh : Holds s q) (hwait : ∀ u, u ∉ q .wait) {f : Task → Bool}
    (hunique : ∀ {t u x y}, s.task t = some x → s.task u = some y → f x = true → f y = true →
      t = u) :
    ∃ r, s.findTask f = some r ∧ ∀ t, r = some t ↔ ∃ x, s.task t = some x ∧ f x = true := by
  unfold System.findTask
  cases hrun : (List.finRange 4).find? (s.testRunning f) with
  | some c =>
    have htest := List.find?_some hrun
    rw [System.testRunning, Option.any_eq_true] at htest
    obtain ⟨u, hu, hmatch⟩ := htest
    obtain ⟨y, hy, hyf⟩ := (Option.any_eq_true _ _).mp hmatch
    refine ⟨some u, congrArg some hu, fun t => ⟨fun he => ?_, ?_⟩⟩
    · exact ⟨y, Option.some.inj he ▸ hy, hyf⟩
    · rintro ⟨x, hx, hxf⟩
      rw [hunique hx hy hxf hyf]
  | none =>
    refine ⟨_, hh.lists.scanReady_eq _, fun t => ⟨fun he => ?_, ?_⟩⟩
    · have htest := List.find?_some he
      rw [Option.any_eq_true] at htest
      exact htest
    · rintro ⟨x, hx, hxf⟩
      have htest : (s.task t).any f = true := by rw [hx, Option.any_some, hxf]
      have hready : t ∈ q .ready := by
        rcases hh.ready_or_running hwait hx with hin | ⟨c, hc⟩
        · exact hin
        · refine absurd ?_ (List.find?_eq_none.mp hrun c (List.mem_finRange c))
          rw [System.testRunning, hc, Option.any_some]
          exact htest
      cases hf : (q .ready).find? fun t => (s.task t).any f with
      | none => exact absurd htest (List.find?_eq_none.mp hf t hready)
      | some u =>
        have hu := List.find?_some hf
        rw [Option.any_eq_true] at hu
        obtain ⟨y, hy, hyf⟩ := hu
        rw [hunique hx hy hxf hyf]

theorem modifyTask_self {f : Task → Task} : (s.modifyTask t f).task t = (s.task t).map f :=
  Function.update_self ..

theorem modifyTask_other {f : Task → Task} {u : TaskId} (hu : u ≠ t) :
    (s.modifyTask t f).task u = s.task u := Function.update_of_ne hu _ _

theorem modifyTask_isSome {f : Task → Task} (u : TaskId) :
    ((s.modifyTask t f).task u).isSome = (s.task u).isSome := by
  by_cases hu : u = t
  · subst hu
    rw [modifyTask_self, Option.isSome_map]
  · rw [modifyTask_other hu]

/-- A task after an update of some task's fields. -/
theorem modifyTask_some {f : Task → Task} {u : TaskId} {y : Task}
    (hy : (s.modifyTask t f).task u = some y) :
    (u = t ∧ ∃ x, s.task t = some x ∧ y = f x) ∨ u ≠ t ∧ s.task u = some y := by
  by_cases hu : u = t
  · subst hu
    rw [modifyTask_self, Option.map_eq_some_iff] at hy
    obtain ⟨x, hx, hfx⟩ := hy
    exact .inl ⟨rfl, x, hx, hfx.symm⟩
  · rw [modifyTask_other hu] at hy
    exact .inr ⟨hu, hy⟩

/-- Updates that keep the priority do not disturb the lists. -/
theorem Lists.modifyTask (hl : Lists s q) {f : Task → Task}
    (hf : ∀ x, (f x).priority = x.priority) (t : TaskId) : Lists (s.modifyTask t f) q := by
  have hprio : ∀ u, (s.modifyTask t f).priorityOf u = s.priorityOf u := by
    intro u
    unfold System.priorityOf
    by_cases hu : u = t
    · subst hu
      rw [modifyTask_self, Option.map_map, show Task.priority ∘ f = Task.priority from funext hf]
    · rw [modifyTask_other hu]
  refine ⟨hl.ring, fun h => (hl.sorted h).imp fun {a b} hab => ?_, hl.apart, fun u h hu => ?_,
    hl.stamps, hl.room⟩
  · rw [System.Before, hprio, hprio]
    exact hab
  · rw [modifyTask_isSome]
    exact hl.live u h hu

theorem Holds.modifyTask (hh : Holds s q) {f : Task → Task}
    (hprio : ∀ x, (f x).priority = x.priority) (hstate : ∀ x, (f x).state = x.state)
    (t : TaskId) : Holds (s.modifyTask t f) q := by
  refine ⟨hh.lists.modifyTask hprio t, ⟨fun u hu => ?_, fun u p hin => ?_, hh.placed.alone⟩,
    hh.running, fun u y hy => ?_⟩
  · rw [modifyTask_isSome] at hu
    exact hh.placed.somewhere u hu
  · rw [modifyTask_isSome]
    exact hh.placed.live u p hin
  · rcases modifyTask_some hy with ⟨rfl, x, hx, rfl⟩ | ⟨_, hy⟩
    · rw [hstate]
      exact hh.notExited u x hx
    · exact hh.notExited u y hy

end

/-! ## Whole calls -/

/-- Between calls: nobody waits, and the live tasks have different affinities, none of
them the placeholder. -/
structure Guest.Settled (g : Guest) (q : ListHead → List TaskId) : Prop where
  holds : Holds g.sys q
  noWait : ∀ u, u ∉ q .wait
  masked : ∀ t x, g.sys.task t = some x → psciMpidrAffinity x.mpidr = x.mpidr
  distinct : ∀ t t' x x', g.sys.task t = some x → g.sys.task t' = some x' →
    x.mpidr = x'.mpidr → t = t'

section

variable {cfg : GuestConfig} {g : Guest} {q : ListHead → List TaskId} {t : TaskId}

/-- A live task is ready or running. -/
theorem Guest.Settled.ready_or_running (hg : g.Settled q) {x : Task} (hx : g.sys.task t = some x) :
    t ∈ q .ready ∨ ∃ c, g.sys.gRunning c = some t :=
  hg.holds.ready_or_running hg.noWait hx

theorem hasAffinity_iff {mpidr : BitVec 64} {x : Task} :
    hasAffinity mpidr x = true ↔ psciMpidrAffinity x.mpidr = psciMpidrAffinity mpidr := beq_iff_eq

/-- `psci_task_exists` finds a task exactly when there is one. -/
theorem psciTaskExists_eq (hg : g.Settled q) (mpidr : BitVec 64) :
    ∃ b, psciTaskExists g.sys mpidr = some b ∧ (b = true ↔ TaskWith g.sys.task mpidr) := by
  unfold psciTaskExists
  rw [hg.holds.lists.scanReady_eq]
  by_cases hrun : (List.finRange 4).any (g.sys.testRunning (hasAffinity mpidr)) = true
  · refine ⟨true, if_pos hrun, fun _ => ?_, fun _ => rfl⟩
    obtain ⟨c, _, hc⟩ := List.any_eq_true.mp hrun
    rw [System.testRunning, Option.any_eq_true] at hc
    obtain ⟨t, _, ht⟩ := hc
    obtain ⟨x, hx, hm⟩ := (Option.any_eq_true _ _).mp ht
    exact ⟨t, x, hx, hasAffinity_iff.mp hm⟩
  · refine ⟨_, if_neg hrun, fun hfound => ?_, ?_⟩
    · obtain ⟨t, ht⟩ := Option.isSome_iff_exists.mp hfound
      have htest := List.find?_some ht
      rw [Option.any_eq_true] at htest
      obtain ⟨x, hx, hm⟩ := htest
      exact ⟨t, x, hx, hasAffinity_iff.mp hm⟩
    · rintro ⟨t, x, hx, hm⟩
      have htest : (g.sys.task t).any (hasAffinity mpidr) = true := by
        rw [hx, Option.any_some]
        exact hasAffinity_iff.mpr hm
      rcases hg.ready_or_running hx with hin | ⟨c, hc⟩
      · rw [List.find?_isSome]
        exact ⟨t, hin, htest⟩
      · refine absurd (List.any_eq_true.mpr ⟨c, List.mem_finRange c, ?_⟩) hrun
        rw [System.testRunning, hc, Option.any_some]
        exact htest

/-- The target of a CPU_ON call is one of the configured vCPUs. -/
def Configured (cfg : GuestConfig) (cpuId : BitVec 64) : Prop :=
  ∃ i < cfg.vcpuCount, psciMpidrAffinity (cfg.vcpuMpidr i) = psciMpidrAffinity cpuId

theorem psciConfiguredMpidr_of_configured {cpuId : BitVec 64} (hc : Configured cfg cpuId) :
    psciConfiguredMpidr cfg cpuId = some (psciMpidrAffinity cpuId) := by
  obtain ⟨i, hi, he⟩ := hc
  cases hf : psciConfiguredMpidr cfg cpuId with
  | none =>
    have hnone := List.find?_eq_none.mp hf (psciMpidrAffinity cpuId)
      (List.mem_map.mpr ⟨i, List.mem_range.mpr hi, he⟩)
    exact absurd BEq.rfl hnone
  | some m =>
    have hm := List.find?_some hf
    rw [beq_iff_eq] at hm
    rw [hm]

theorem psciConfiguredMpidr_eq_none {cpuId : BitVec 64} (hc : ¬ Configured cfg cpuId) :
    psciConfiguredMpidr cfg cpuId = none := by
  refine List.find?_eq_none.mpr fun m hm he => hc ?_
  obtain ⟨i, hi, rfl⟩ := List.mem_map.mp hm
  exact ⟨i, List.mem_range.mp hi, beq_iff_eq.mp he⟩

/-- A successful creation. -/
theorem createVcpuTask_some (hh : Holds g.sys q) (ht : g.sys.task t = none) (affinity : Int)
    (id : BitVec 64) (vcpu : Vcpu) :
    ∃ g' q', createVcpuTask g (some t) affinity id vcpu = some (0, g') ∧ Holds g'.sys q' ∧
      g'.sys.task = Function.update g.sys.task t (some ⟨10, affinity, id, .ready⟩) ∧
      ∀ h u, u ∈ q' h ↔ h = .ready ∧ u = t ∨ u ∈ q h := by
  have hx : (⟨10, affinity, id, .ready⟩ : Task).state ≠ .exit := nofun
  obtain ⟨s', q', hrun, hh', hsame, hmem⟩ := hh.create ht hx
  refine ⟨⟨s', Function.update g.vcpu t vcpu, Function.update g.queue t ⟨fun _ => 0, 0⟩⟩, q', ?_,
    hh', hsame.task, hmem⟩
  simp only [createVcpuTask, vmCreateVcpuTask, hrun, Option.bind_eq_bind, Option.bind_some,
    Option.pure_def]

/-- The search for the new task finds it: no other live task is a placeholder. -/
theorem find_placeholder {s : System} {q' : ListHead → List TaskId} {x : Task}
    (hin : t ∈ q' .ready) (hx : s.task t = some x) (hph : x.mpidr = placeholder)
    (hother : ∀ u y, u ≠ t → s.task u = some y → y.mpidr ≠ placeholder) :
    (q' .ready).find? (fun u => (s.task u).any fun x => x.mpidr == placeholder) = some t := by
  cases hf : (q' .ready).find? fun u => (s.task u).any fun x => x.mpidr == placeholder with
  | none =>
    refine absurd ?_ (List.find?_eq_none.mp hf t hin)
    rw [hx, Option.any_some, hph, BEq.rfl]
  | some u =>
    have htest := List.find?_some hf
    rw [Option.any_eq_true] at htest
    obtain ⟨y, hy, hyp⟩ := htest
    by_cases hu : u = t
    · rw [hu]
    · exact absurd (beq_iff_eq.mp hyp) (hother u y hu hy)

/-- The task set after a successful CPU_ON. -/
def onTask (cfg : GuestConfig) (mpidr : BitVec 64) : Task :=
  ⟨10, psciPcpuAffinity cfg (psciMpidrAffinity mpidr), psciMpidrAffinity mpidr, .ready⟩

/-- One more task with an affinity of its own. -/
theorem Guest.Settled.add (hg : g.Settled q) {g' : Guest} {q' : ListHead → List TaskId}
    (hh : Holds g'.sys q') (hwait : ∀ u, u ∉ q' .wait) {x : Task}
    (htask : g'.sys.task = Function.update g.sys.task t (some x))
    (hmask : psciMpidrAffinity x.mpidr = x.mpidr) (hnew : ¬ TaskWith g.sys.task x.mpidr) :
    g'.Settled q' := by
  have hcases : ∀ u y, g'.sys.task u = some y → u = t ∧ y = x ∨ g.sys.task u = some y := by
    intro u y hy
    rw [htask] at hy
    by_cases hu : u = t
    · subst hu
      rw [Function.update_self] at hy
      exact .inl ⟨rfl, (Option.some.inj hy).symm⟩
    · rw [Function.update_of_ne hu] at hy
      exact .inr hy
  have hfresh : ∀ u y, g.sys.task u = some y → y.mpidr ≠ x.mpidr := by
    intro u y hy he
    exact hnew ⟨u, y, hy, by rw [he]⟩
  refine ⟨hh, hwait, fun u y hy => ?_, fun u u' y y' hy hy' he => ?_⟩
  · rcases hcases u y hy with ⟨_, rfl⟩ | hy
    · exact hmask
    · exact hg.masked u y hy
  · rcases hcases u y hy with ⟨rfl, rfl⟩ | hy
    · rcases hcases u' y' hy' with ⟨rfl, _⟩ | hy'
      · rfl
      · exact absurd he.symm (hfresh u' y' hy')
    · rcases hcases u' y' hy' with ⟨rfl, rfl⟩ | hy'
      · exact absurd he (hfresh u y hy)
      · exact hg.distinct u u' y y' hy hy' he

/-- `psci_vcpu_on` with everything in its favour. -/
theorem psciVcpuOn_success (hg : g.Settled q) {regs : Regs} (hconf : Configured cfg (regs.x 1))
    (hnew : ¬ TaskWith g.sys.task (regs.x 1)) (ht : g.sys.task t = none) (vbarEl1 : BitVec 64) :
    ∃ g' q', psciVcpuOn cfg g (some t) vbarEl1 regs = some (psciRetSuccess, g') ∧
      g'.Settled q' ∧
      g'.sys.task = Function.update g.sys.task t (some (onTask cfg (regs.x 1))) := by
  obtain ⟨b, hex, hb⟩ := psciTaskExists_eq hg (psciMpidrAffinity (regs.x 1))
  have hb' : b = false := by
    rw [Bool.eq_false_iff]
    intro hbt
    obtain ⟨u, y, hy, hm⟩ := hb.mp hbt
    exact hnew ⟨u, y, hy, hm.trans (affinity_idem _)⟩
  subst hb'
  obtain ⟨g₁, q₁, hcreate, hh₁, htask₁, hmem₁⟩ :=
    createVcpuTask_some hg.holds ht 0 placeholder ⟨0, regs.x 2, 0, 0⟩
  have hself : g₁.sys.task t = some ⟨10, 0, placeholder, .ready⟩ := by
    rw [htask₁, Function.update_self]
  have hfind : g₁.sys.scanReady (fun x => x.mpidr == placeholder) = some (some t) := by
    rw [hh₁.lists.scanReady_eq]
    refine congrArg some (find_placeholder ((hmem₁ .ready t).mpr (.inl ⟨rfl, rfl⟩)) hself rfl ?_)
    intro u y hu hy
    rw [htask₁, Function.update_of_ne hu] at hy
    rw [← hg.masked u y hy]
    exact affinity_ne_placeholder _
  have hbind : (bindTask cfg g₁ t (psciMpidrAffinity (regs.x 1)) vbarEl1 (regs.x 3)).sys.task =
      Function.update g.sys.task t (some (onTask cfg (regs.x 1))) := by
    funext u
    by_cases hu : u = t
    · subst hu
      rw [Function.update_self, bindTask, modifyTask_self, hself]
      rfl
    · rw [Function.update_of_ne hu, bindTask, modifyTask_other hu, htask₁,
        Function.update_of_ne hu]
  have hh₂ : Holds (bindTask cfg g₁ t (psciMpidrAffinity (regs.x 1)) vbarEl1 (regs.x 3)).sys q₁ := by
    unfold bindTask
    apply hh₁.modifyTask
    · exact fun _ => rfl
    · exact fun _ => rfl
  refine ⟨_, q₁, ?_, hg.add hh₂ ?_ hbind ?_ ?_, hbind⟩
  · simp only [psciVcpuOn, psciConfiguredMpidr_of_configured hconf, hex, createTask2, hcreate,
      hfind, Option.bind_eq_bind, Option.bind_some, Bool.false_eq_true, if_false, ne_eq,
      not_true_eq_false]
    rfl
  · intro u hu
    rcases (hmem₁ .wait u).mp hu with ⟨he, _⟩ | hu
    · cases he
    · exact hg.noWait u hu
  · exact affinity_idem _
  · rintro ⟨u, y, hy, hm⟩
    exact hnew ⟨u, y, hy, hm.trans (affinity_idem _)⟩

open Classical in
/-- What CPU_ON answers, from the configuration, the live tasks and the memory. -/
noncomputable def cpuOnResult (cfg : GuestConfig) (task : TaskId → Option Task) (memory : Bool)
    (cpuId : BitVec 64) : BitVec 64 :=
  if ¬ Configured cfg cpuId then psciRetInvalidParameters
  else if TaskWith task cpuId then psciRetAlreadyOn
  else if memory then psciRetSuccess
  else psciRetDenied

/-- `psci_vcpu_on` as a whole. -/
theorem psciVcpuOn_spec (cfg : GuestConfig) (hg : g.Settled q) {mem : Option TaskId}
    (hmem : ∀ t ∈ mem, g.sys.task t = none) (vbarEl1 : BitVec 64) (regs : Regs) :
    ∃ g' q', psciVcpuOn cfg g mem vbarEl1 regs =
        some (cpuOnResult cfg g.sys.task mem.isSome (regs.x 1), g') ∧ g'.Settled q' := by
  by_cases hconf : Configured cfg (regs.x 1)
  · by_cases hex : TaskWith g.sys.task (regs.x 1)
    · obtain ⟨b, hrun, hb⟩ := psciTaskExists_eq hg (psciMpidrAffinity (regs.x 1))
      obtain ⟨u, y, hy, hm⟩ := hex
      have hbt : b = true := hb.mpr ⟨u, y, hy, hm.trans (affinity_idem _).symm⟩
      subst hbt
      refine ⟨g, q, ?_, hg⟩
      rw [cpuOnResult, if_neg (not_not.mpr hconf), if_pos ⟨u, y, hy, hm⟩]
      simp only [psciVcpuOn, psciConfiguredMpidr_of_configured hconf, hrun, Option.bind_eq_bind,
        Option.bind_some, if_true, Option.pure_def]
    · cases mem with
      | some t =>
        obtain ⟨g', q', hrun, hg', _⟩ := psciVcpuOn_success hg hconf hex (hmem t rfl) vbarEl1
        refine ⟨g', q', ?_, hg'⟩
        rw [hrun, cpuOnResult, if_neg (not_not.mpr hconf), if_neg hex]
        rfl
      | none =>
        obtain ⟨b, hrun, hb⟩ := psciTaskExists_eq hg (psciMpidrAffinity (regs.x 1))
        have hbf : b = false := by
          rw [Bool.eq_false_iff]
          intro hbt
          obtain ⟨u, y, hy, hm⟩ := hb.mp hbt
          exact hex ⟨u, y, hy, hm.trans (affinity_idem _)⟩
        subst hbf
        refine ⟨g, q, ?_, hg⟩
        rw [cpuOnResult, if_neg (not_not.mpr hconf), if_neg hex]
        simp only [psciVcpuOn, psciConfiguredMpidr_of_configured hconf, hrun, createTask2,
          createVcpuTask, vmCreateVcpuTask, Option.bind_eq_bind, Option.bind_some, Option.pure_def,
          Bool.false_eq_true, if_false, Option.isSome_none]
        rfl
  · refine ⟨g, q, ?_, hg⟩
    rw [cpuOnResult, if_pos hconf]
    simp only [psciVcpuOn, psciConfiguredMpidr_eq_none hconf, Option.pure_def]

end

/-! ## Runs of the guest -/

/-- The sequential states: the boot task, scheduling, PSCI calls of running guests, and
any change of the queues of virtual interrupts. -/
inductive GuestRun (cfg : GuestConfig) : Guest → Prop
  | boot {mem : Option TaskId} {rc : Int} {g : Guest} :
      createTask cfg initGuest mem = some (rc, g) → GuestRun cfg g
  | yield {g : Guest} {c : Cpu} {sys : System} :
      GuestRun cfg g → schedYield g.sys c = some sys → GuestRun cfg { g with sys := sys }
  | hvc {g g' : Guest} {c : Cpu} {mem : Option TaskId} {vbarEl1 garbage : BitVec 64}
      {regs regs' : Regs} {r : HvcResult} :
      GuestRun cfg g → (∀ t ∈ mem, g.sys.task t = none) →
      handleHvc cfg g c mem vbarEl1 garbage regs = some (r, regs', g') → GuestRun cfg g'
  | virqs {g : Guest} {queue : TaskId → VirqQueue} :
      GuestRun cfg g → GuestRun cfg { g with queue := queue }

theorem settled_init : initGuest.Settled fun _ => [] :=
  ⟨holds_initSched, fun _ => List.not_mem_nil, fun _ _ hx => (nomatch hx),
    fun _ _ _ _ hx => (nomatch hx)⟩

/-- A call other than CPU_ON changes the frame at most. -/
theorem psciVcpuCall_other {cfg : GuestConfig} {g : Guest} {mem : Option TaskId}
    {vbarEl1 garbage : BitVec 64} {regs : Regs} (hfn : psciFn (regs.x 0) ≠ some .cpuOn) :
    ∃ rc regs', psciVcpuCall cfg g mem vbarEl1 garbage regs = some (rc, regs', g) := by
  unfold psciVcpuCall
  cases harm : psciFn (regs.x 0) with
  | none => exact ⟨_, _, rfl⟩
  | some fn =>
    cases fn with
    | cpuOn => exact absurd harm hfn
    | version => exact ⟨_, _, rfl⟩
    | cpuSuspend => exact ⟨_, _, rfl⟩
    | cpuOff => exact ⟨_, _, rfl⟩
    | affinityInfo => exact ⟨_, _, rfl⟩
    | migrate => exact ⟨_, _, rfl⟩
    | migrateInfoType => exact ⟨_, _, rfl⟩
    | migrateInfoUpCpu => exact ⟨_, _, rfl⟩
    | systemOff => exact ⟨_, _, rfl⟩
    | systemReset => exact ⟨_, _, rfl⟩

/-- CPU_ON, for every content of the stack. -/
theorem psciVcpuCall_cpuOn (cfg : GuestConfig) {g : Guest} {q : ListHead → List TaskId}
    (hg : g.Settled q) {mem : Option TaskId} (hmem : ∀ t ∈ mem, g.sys.task t = none)
    (vbarEl1 : BitVec 64) {regs : Regs} (hfn : psciFn (regs.x 0) = some .cpuOn) :
    ∃ g' q', g'.Settled q' ∧ ∀ garbage, psciVcpuCall cfg g mem vbarEl1 garbage regs =
      some (0, regs.setX0 (cpuOnResult cfg g.sys.task mem.isSome (regs.x 1)), g') := by
  obtain ⟨g', q', hrun, hg'⟩ := psciVcpuOn_spec cfg hg hmem vbarEl1 regs
  refine ⟨g', q', hg', fun garbage => ?_⟩
  simp only [psciVcpuCall, hfn, hrun, Option.bind_eq_bind, Option.bind_some]
  rfl

/-- A PSCI call leaves a settled state. -/
theorem psciVcpuCall_settled {cfg : GuestConfig} {g g' : Guest} {q : ListHead → List TaskId}
    (hg : g.Settled q) {mem : Option TaskId} (hmem : ∀ t ∈ mem, g.sys.task t = none)
    {vbarEl1 garbage : BitVec 64} {regs regs' : Regs} {rc : Int}
    (hrun : psciVcpuCall cfg g mem vbarEl1 garbage regs = some (rc, regs', g')) :
    ∃ q', g'.Settled q' := by
  by_cases hfn : psciFn (regs.x 0) = some .cpuOn
  · obtain ⟨g₁, q₁, hg₁, hcall⟩ := psciVcpuCall_cpuOn cfg hg hmem vbarEl1 hfn
    rw [hcall, Option.some.injEq, Prod.mk.injEq, Prod.mk.injEq] at hrun
    exact ⟨q₁, hrun.2.2 ▸ hg₁⟩
  · obtain ⟨rc', regs₁, hcall⟩ := psciVcpuCall_other hfn
    rw [hcall, Option.some.injEq, Prod.mk.injEq, Prod.mk.injEq] at hrun
    exact ⟨q, hrun.2.2 ▸ hg⟩

/-- Every sequential state is settled. -/
theorem GuestRun.settled {cfg : GuestConfig} {g : Guest} (hg : GuestRun cfg g) :
    ∃ q, g.Settled q := by
  induction hg with
  | @boot mem rc g hrun =>
    cases mem with
    | none =>
      have hg : initGuest = g := (Prod.ext_iff.mp (Option.some.inj hrun)).2
      exact hg ▸ ⟨_, settled_init⟩
    | some t =>
      obtain ⟨g', q', hrun', hh', htask, hmem⟩ := createVcpuTask_some settled_init.holds
        (show initGuest.sys.task t = none from rfl) 0 (psciMpidrAffinity (cfg.vcpuMpidr 0))
        ⟨cfg.dtbAddr, cfg.entry, 0x80000000 ||| psciMpidrAffinity (cfg.vcpuMpidr 0), 0⟩
      have hgg : g = g' := by
        have heq := hrun.symm.trans hrun'
        exact (Prod.ext_iff.mp (Option.some.inj heq)).2
      subst hgg
      refine ⟨q', settled_init.add hh' (fun u hu => ?_) htask (affinity_idem _) ?_⟩
      · rcases (hmem .wait u).mp hu with ⟨he, _⟩ | hu
        · cases he
        · cases hu
      · rintro ⟨u, y, hy, _⟩
        cases hy
  | @yield g c sys _ hrun ih =>
    obtain ⟨q, hg⟩ := ih
    obtain ⟨s', q', hrun', hh', htask, hwait⟩ := hg.holds.schedYield c
    rw [hrun] at hrun'
    obtain rfl := Option.some.inj hrun'
    refine ⟨q', hh', fun u hu => hg.noWait u (hwait u hu), fun u y hy => ?_,
      fun u u' y y' hy hy' => ?_⟩
    · exact hg.masked u y (htask ▸ hy)
    · exact hg.distinct u u' y y' (htask ▸ hy) (htask ▸ hy')
  | @hvc g g' c mem vbarEl1 garbage regs regs' r _ hmem hrun ih =>
    obtain ⟨q, hg⟩ := ih
    unfold handleHvc at hrun
    cases hc : g.sys.currentTask c with
    | none =>
      rw [hc] at hrun
      have hgg : g = g' := (Prod.ext_iff.mp (Prod.ext_iff.mp (Option.some.inj hrun)).2).2
      exact ⟨q, hgg ▸ hg⟩
    | some t =>
      rw [hc] at hrun
      obtain ⟨⟨rc, regs₁, g₁⟩, hcall, hrest⟩ := Option.bind_eq_some_iff.mp hrun
      have hgg : g₁ = g' := (Prod.ext_iff.mp (Prod.ext_iff.mp (Option.some.inj hrest)).2).2
      exact psciVcpuCall_settled hg hmem (hgg ▸ hcall)
  | virqs _ ih =>
    obtain ⟨q, hg⟩ := ih
    exact ⟨q, hg.holds, hg.noWait, hg.masked, hg.distinct⟩

/-! ## The contract of a call -/

/-- The function ids with an implementation: PSCI_VERSION, CPU_ON in both forms,
MIGRATE_INFO_TYPE. -/
def implementedIds : List (BitVec 64) := [0x84000000, 0x84000003, 0xc4000003, 0x84000006]

/-- The error codes of PSCI, NOT_SUPPORTED to INVALID_ADDRESS. -/
def IsErrorCode (val : BitVec 64) : Prop :=
  val ∈ ([-1, -2, -3, -4, -5, -6, -7, -8, -9] : List (BitVec 64))

/-- The values of the implemented functions: version 0.2, no migration needed, CPU_ON. -/
noncomputable def psciResult (cfg : GuestConfig) (task : TaskId → Option Task) (memory : Bool)
    (regs : Regs) : BitVec 64 :=
  if psciFn (regs.x 0) = some .cpuOn then cpuOnResult cfg task memory (regs.x 1) else 2

/-- What a guest may expect of an HVC, whatever the stack holds: only x0 changes. -/
def HvcContract (cfg : GuestConfig) (g : Guest) (c : Cpu) (mem : Option TaskId)
    (vbarEl1 : BitVec 64) (regs : Regs) : Prop :=
  ∃ val g',
    (∀ garbage, handleHvc cfg g c mem vbarEl1 garbage regs =
      some (.yieldScheduler, regs.setX0 val, g')) ∧
    (regs.x 0 ∈ implementedIds → val = psciResult cfg g.sys.task mem.isSome regs) ∧
    (regs.x 0 ∉ implementedIds → IsErrorCode val ∧ val ≠ regs.x 0) ∧
    (psciFn (regs.x 0) = some .cpuOn →
      (val = psciRetSuccess ↔
        Configured cfg (regs.x 1) ∧ ¬ TaskWith g.sys.task (regs.x 1) ∧ mem.isSome)) ∧
    (psciFn (regs.x 0) ≠ some .cpuOn → g'.sys.task = g.sys.task)

theorem setX0_inj {regs : Regs} {v w : BitVec 64} (h : regs.setX0 v = regs.setX0 w) : v = w := by
  have hx := congrFun (congrArg Regs.x h) 0
  simpa [Regs.setX0] using hx

theorem setX0_self {regs : Regs} {v : BitVec 64} (h : regs.setX0 v = regs) : v = regs.x 0 := by
  have hx := congrFun (congrArg Regs.x h) 0
  simpa [Regs.setX0] using hx

theorem mem_psciFnIds {id : BitVec 64} {fn : PsciFn} (h : psciFn id = some fn) :
    (id, fn) ∈ psciFnIds := by
  obtain ⟨l₁, l₂, hl, _⟩ := List.lookup_eq_some_iff.mp h
  rw [hl]
  exact List.mem_append_right _ List.mem_cons_self

theorem psciFn_implemented {id : BitVec 64} {fn : PsciFn} (h : psciFn id = some fn)
    (hfn : fn = .version ∨ fn = .cpuOn ∨ fn = .migrateInfoType) : id ∈ implementedIds := by
  have hall : ∀ p ∈ psciFnIds, (p.2 = .version ∨ p.2 = .cpuOn ∨ p.2 = .migrateInfoType) →
      p.1 ∈ implementedIds := by decide
  exact hall _ (mem_psciFnIds h) hfn

/-- The arm of an implemented id. -/
theorem psciFn_of_implemented {id : BitVec 64} (h : id ∈ implementedIds) :
    psciFn id = some .version ∨ psciFn id = some .cpuOn ∨ psciFn id = some .migrateInfoType := by
  simp only [implementedIds, List.mem_cons, List.not_mem_nil, or_false] at h
  rcases h with rfl | rfl | rfl | rfl
  · exact .inl rfl
  · exact .inr (.inl rfl)
  · exact .inr (.inl rfl)
  · exact .inr (.inr rfl)

theorem cpuOnResult_success {cfg : GuestConfig} {task : TaskId → Option Task} {memory : Bool}
    {cpuId : BitVec 64} : cpuOnResult cfg task memory cpuId = psciRetSuccess ↔
      Configured cfg cpuId ∧ ¬ TaskWith task cpuId ∧ memory := by
  unfold cpuOnResult
  have h₂ : psciRetInvalidParameters ≠ psciRetSuccess := by decide
  have h₃ : psciRetDenied ≠ psciRetSuccess := by decide
  have h₄ : psciRetAlreadyOn ≠ psciRetSuccess := by decide
  by_cases hconf : Configured cfg cpuId
  · by_cases hex : TaskWith task cpuId
    · simp [hconf, hex, h₄]
    · cases memory <;> simp [hconf, hex, h₃]
  · simp [hconf, h₂]

section

variable {cfg : GuestConfig} {g : Guest} {c : Cpu} {t : TaskId} {mem : Option TaskId}
  {vbarEl1 garbage : BitVec 64} {regs : Regs}

/-- A handled call is the PSCI call. -/
theorem handleHvc_eq (hc : g.sys.currentTask c = some t) {rc : Int} {regs' : Regs} {g' : Guest}
    (hcall : psciVcpuCall cfg g mem vbarEl1 garbage regs = some (rc, regs', g')) :
    handleHvc cfg g c mem vbarEl1 garbage regs = some (.yieldScheduler, regs', g') := by
  simp only [handleHvc, hc, hcall, Option.bind_eq_bind, Option.bind_some, Option.pure_def]

/-- Every arm but those of the implemented functions breaks the contract. -/
theorem not_contract_of_not_implemented (hc : g.sys.currentTask c = some t)
    (hid : regs.x 0 ∉ implementedIds) : ¬ HvcContract cfg g c mem vbarEl1 regs := by
  rintro ⟨val, g', hrun, _, herr, _⟩
  obtain ⟨hcode, hne⟩ := herr hid
  have hval : ∀ {garbage rc regs'},
      psciVcpuCall cfg g mem vbarEl1 garbage regs = some (rc, regs', g) →
      regs.setX0 val = regs' := by
    intro garbage rc regs' hcall
    have heq := (hrun garbage).symm.trans (handleHvc_eq hc hcall)
    rw [Option.some.injEq, Prod.mk.injEq, Prod.mk.injEq] at heq
    exact heq.2.1
  -- an arm that does not assign `val` shows two values of the stack slot
  have hgarbage : (∀ garbage, psciVcpuCall cfg g mem vbarEl1 garbage regs =
      some (0, regs.setX0 garbage, g)) → False := by
    intro hall
    have h₀ := setX0_inj (hval (hall 0))
    have h₁ := setX0_inj (hval (hall 1))
    exact absurd (h₀.symm.trans h₁) (by decide)
  cases harm : psciFn (regs.x 0) with
  | none =>
    have hself : psciVcpuCall cfg g mem vbarEl1 0 regs = some (-5, regs, g) := by
      simp only [psciVcpuCall, harm, Option.pure_def]
    exact hne (setX0_self (hval hself))
  | some fn =>
    cases fn with
    | version => exact hid (psciFn_implemented harm (.inl rfl))
    | cpuOn => exact hid (psciFn_implemented harm (.inr (.inl rfl)))
    | migrateInfoType => exact hid (psciFn_implemented harm (.inr (.inr rfl)))
    | migrate =>
      have htwo : psciVcpuCall cfg g mem vbarEl1 0 regs = some (0, regs.setX0 2, g) := by
        simp only [psciVcpuCall, harm, Option.pure_def]
      rw [setX0_inj (hval htwo)] at hcode
      exact absurd hcode (by unfold IsErrorCode; decide)
    | cpuSuspend => exact hgarbage fun _ => by simp only [psciVcpuCall, harm, Option.pure_def]
    | cpuOff => exact hgarbage fun _ => by simp only [psciVcpuCall, harm, Option.pure_def]
    | affinityInfo => exact hgarbage fun _ => by simp only [psciVcpuCall, harm, Option.pure_def]
    | migrateInfoUpCpu => exact hgarbage fun _ => by simp only [psciVcpuCall, harm, Option.pure_def]
    | systemOff => exact hgarbage fun _ => by simp only [psciVcpuCall, harm, Option.pure_def]
    | systemReset => exact hgarbage fun _ => by simp only [psciVcpuCall, harm, Option.pure_def]

/-- The functions that only answer a constant. -/
theorem contract_of_constant (hc : g.sys.currentTask c = some t)
    (hid : regs.x 0 ∈ implementedIds) (hfn : psciFn (regs.x 0) ≠ some .cpuOn)
    (hcall : ∀ garbage, psciVcpuCall cfg g mem vbarEl1 garbage regs =
      some (0, regs.setX0 2, g)) : HvcContract cfg g c mem vbarEl1 regs := by
  refine ⟨2, g, fun garbage => handleHvc_eq hc (hcall garbage), fun _ => ?_, fun h => absurd hid h,
    fun h => absurd h hfn, fun _ => rfl⟩
  rw [psciResult, if_neg hfn]

end

/-- Four vCPUs with the affinities 0 to 3, as the default configuration has them. -/
def defaultVcpus : GuestConfig := ⟨4, fun i => BitVec.ofNat 64 i, 0x50000000, 0x4f000000⟩

/-- The boot task is running on pCPU 0. -/
theorem exists_booted : ∃ g, GuestRun defaultVcpus g ∧ g.sys.currentTask 0 = some 1 ∧
    g.sys.task 2 = none := by
  have h₁ := @GuestRun.boot defaultVcpus (some 1) _ _ rfl
  have h₂ := @GuestRun.yield defaultVcpus _ 0 _ h₁ rfl
  exact ⟨_, h₂, rfl, rfl⟩

/-- A frame with the function id in x0 and the argument in every other register. -/
def callFrame (fn arg : BitVec 64) : Regs := ⟨Function.update (fun _ => arg) 0 fn, 0x50001000⟩

end HyperCore.Sched
