import HyperCore.Sched.Sgi

/-!
# Several pCPUs in the scheduler

`sched_yield` and `psci_vcpu_on` as the pCPUs really interleave them: a critical section
of `g_sched_lock`, a `set_current`, a save, a restore or one unlocked access is a step,
and between two steps of one pCPU any other may take any number of its own.

After it has picked a task, `sched_yield` goes through the same four operations on both
architectures, in a different order:

| AArch64                          | RISC-V                           |
|----------------------------------|----------------------------------|
| `set_current(next)`              | requeue the outgoing task        |
| requeue the outgoing task        | save its registers               |
| save its registers               | restore the registers of `next`  |
| restore the registers of `next`  | `set_current(next)`              |

`Owned` is what holds of every interleaving: each live task is in the ready list, or
with one pCPU as the task it has taken, or with one pCPU as the outgoing task that is
not requeued yet.

The components `context`, `firstEntry` and `promised` of the state are records for the
statements; the code does not read them.
-/

namespace HyperCore.Sched

open LinkRing Places

/-! ## The machine -/

inductive Arch
  | aarch64 | riscv64
deriving DecidableEq, Repr

/-- The operations of `sched_yield` behind the pick. -/
inductive SwitchOp
  | publish | requeue | save | restore
deriving DecidableEq, Repr

/-- Their order in `sched.c` and in `sched_riscv.c`. -/
def Arch.switchOps : Arch → List SwitchOp
  | .aarch64 => [.publish, .requeue, .save, .restore]
  | .riscv64 => [.requeue, .save, .restore, .publish]

/-- The id that lookups compare: masked on AArch64, the hart id on RISC-V. -/
def Arch.vcpuId : Arch → BitVec 64 → BitVec 64
  | .aarch64, mpidr => psciMpidrAffinity mpidr
  | .riscv64, mpidr => mpidr

/-- The writes of `psci_vcpu_on` to the new task, in order. -/
inductive PatchOp
  | mpidr | anyPcpu | pcpu | vmpidr | vbar | x0
deriving DecidableEq, Repr

def patchOps : List PatchOp := [.mpidr, .anyPcpu, .pcpu, .vmpidr, .vbar, .x0]

/-- The arguments of a CPU_ON call, and the task it has created. -/
structure OnCall where
  target : BitVec 64
  entry : BitVec 64
  contextId : BitVec 64
  created : Option TaskId

/-- How far a CPU_ON call is. -/
inductive OnStage
  /-- in `psci_task_exists`, with these entries of `g_running` and then the list to read -/
  | check (unread : List Cpu)
  | create
  | search
  | patch (t : TaskId) (todo : List PatchOp)
  | returned (val : BitVec 64)

/-- What a pCPU does; `idle` is everything outside these two functions. -/
inductive Phase
  | idle
  | switch (old : Option TaskId) (next : TaskId) (todo : List SwitchOp)
  | cpuOn (call : OnCall) (stage : OnStage)

def Phase.isIdle : Phase → Bool
  | .idle => true
  | _ => false

theorem Phase.eq_idle {p : Phase} (h : p.isIdle = true) : p = .idle := by
  cases p with
  | idle => rfl
  | switch old next todo => cases h
  | cpuOn call stage => cases h

/-- A switch with these operations left. -/
def Phase.rest (old : Option TaskId) (next : TaskId) (todo : List SwitchOp) : Phase :=
  if todo = [] then .idle else .switch old next todo

/-- Where a task's register contents are. -/
inductive Context
  /-- never loaded yet -/
  | fresh
  /-- loaded by this pCPU and not saved since -/
  | live (c : Cpu)
  | saved
deriving DecidableEq

structure Smp where
  sys : System
  vcpu : TaskId → Vcpu
  phase : Cpu → Phase
  context : TaskId → Context
  /-- x0 and VMPIDR at the first entry into the guest -/
  firstEntry : TaskId → Option (BitVec 64 × BitVec 64)
  /-- the call that reported the task as turned on -/
  promised : TaskId → Option OnCall

def Smp.setPhase (s : Smp) (c : Cpu) (p : Phase) : Smp :=
  { s with phase := Function.update s.phase c p }

def Smp.setVcpu (s : Smp) (t : TaskId) (v : Vcpu) : Smp :=
  { s with vcpu := Function.update s.vcpu t v }

def Smp.modifyTask (s : Smp) (t : TaskId) (f : Task → Task) : Smp :=
  { s with sys := s.sys.modifyTask t f }

/-- The save of an outgoing task; VMPIDR is not read back. -/
def Smp.saveContext (s : Smp) (c : Cpu) (t : TaskId) (regs : Vcpu) : Smp :=
  { s.setVcpu t { regs with vmpidr := (s.vcpu t).vmpidr } with
    context :=
      if s.context t = Context.live c then Function.update s.context t .saved else s.context }

/-- The restore of a task, after which the guest goes on. -/
def Smp.restoreContext (s : Smp) (c : Cpu) (t : TaskId) : Smp :=
  { s with
    context := Function.update s.context t (.live c)
    firstEntry :=
      if s.context t = Context.fresh then
        Function.update s.firstEntry t (some ((s.vcpu t).x0, (s.vcpu t).vmpidr))
      else s.firstEntry }

/-- One operation of a switch from `old` to `next` on pCPU `c`; `regs` is what the guest
left in the registers. -/
def switchOp (s : Smp) (c : Cpu) (old : Option TaskId) (next : TaskId) (regs : Vcpu) :
    SwitchOp → Option Smp
  | .publish => some { s with sys := setCurrent s.sys c (some next) }
  | .requeue =>
    match old with
    | none => some s
    | some t => do
      let x ← s.sys.task t
      if x.state = .exit then pure s
      else
        let sys ← simpleSchedulerSched s.sys t
        pure { s with sys := sys }
  | .save =>
    match old with
    | none => some s
    | some t => some (s.saveContext c t regs)
  | .restore => some (s.restoreContext c next)

/-- One write to the new task. -/
def patchOp (cfg : GuestConfig) (s : Smp) (call : OnCall) (vbarEl1 : BitVec 64) (t : TaskId) :
    PatchOp → Smp
  | .mpidr => s.modifyTask t fun x => { x with mpidr := call.target }
  | .anyPcpu => s.modifyTask t fun x => { x with pcpuAffinity := -1 }
  | .pcpu => s.modifyTask t fun x => { x with pcpuAffinity := psciPcpuAffinity cfg call.target }
  | .vmpidr => s.setVcpu t { s.vcpu t with vmpidr := 0x80000000 ||| call.target }
  | .vbar => s.setVcpu t { s.vcpu t with vbar := vbarEl1 }
  | .x0 => s.setVcpu t { s.vcpu t with x0 := call.contextId }

/-- One step of a CPU_ON call; `mem` is what the allocations of `create_task2` give. -/
def onStep (cfg : GuestConfig) (s : Smp) (c : Cpu) (call : OnCall) (mem : Option TaskId)
    (vbarEl1 : BitVec 64) : OnStage → Option Smp
  | .check (c' :: unread) =>
    if s.sys.testRunning (hasAffinity call.target) c' then
      pure (s.setPhase c (.cpuOn call (.returned psciRetAlreadyOn)))
    else pure (s.setPhase c (.cpuOn call (.check unread)))
  | .check [] => do
    match ← s.sys.scanReady (hasAffinity call.target) with
    | some _ => pure (s.setPhase c (.cpuOn call (.returned psciRetAlreadyOn)))
    | none => pure (s.setPhase c (.cpuOn call .create))
  | .create => do
    let (rc, sys) ← vmCreateVcpuTask s.sys mem 10 0 placeholder
    if rc ≠ 0 then pure (s.setPhase c (.cpuOn call (.returned psciRetDenied)))
    else
      let vcpu := mem.elim s.vcpu fun t => Function.update s.vcpu t ⟨0, call.entry, 0, 0⟩
      pure ({ s with sys := sys, vcpu := vcpu }.setPhase c
        (.cpuOn { call with created := mem } .search))
  | .search => do
    match ← s.sys.scanReady fun x => x.mpidr == placeholder with
    | none => pure (s.setPhase c (.cpuOn call (.returned psciRetDenied)))
    | some t => pure (s.setPhase c (.cpuOn call (.patch t patchOps)))
  | .patch t (o :: todo) =>
    pure ((patchOp cfg s call vbarEl1 t o).setPhase c (.cpuOn call (.patch t todo)))
  | .patch t [] =>
    pure ({ s with promised := Function.update s.promised t (some call) }.setPhase c
      (.cpuOn call (.returned psciRetSuccess)))
  | .returned _ => pure (s.setPhase c .idle)

inductive Action
  /-- `simple_scheduler_next_no_publish`, the start of `sched_yield` -/
  | pick (c : Cpu)
  /-- the next operation of a switch -/
  | switch (c : Cpu) (regs : Vcpu)
  /-- a vCPU created with its id, at boot or by a hart start -/
  | create (t : TaskId) (x : Task) (vcpu : Vcpu)
  /-- a guest calls CPU_ON -/
  | cpuOn (c : Cpu) (cpuId entry contextId : BitVec 64)
  /-- the next step of a CPU_ON call -/
  | onStep (c : Cpu) (mem : Option TaskId) (vbarEl1 : BitVec 64)

def Smp.step (arch : Arch) (cfg : GuestConfig) (s : Smp) : Action → Option Smp
  | .pick c =>
    match s.phase c with
    | .idle => do
      let (next, sys) ← simpleSchedulerNextNoPublish s.sys c
      match next with
      | none => pure s
      | some t =>
        pure ({ s with sys := sys }.setPhase c (.switch (s.sys.currentTask c) t arch.switchOps))
    | _ => none
  | .switch c regs =>
    match s.phase c with
    | .switch old next (o :: todo) => do
      let s ← switchOp s c old next regs o
      pure (s.setPhase c (.rest old next todo))
    | _ => none
  | .create t x vcpu =>
    if (s.sys.task t).isNone ∧ x.state = .ready then do
      let sys ← simpleSchedulerSched (s.sys.newTask t x) t
      pure { s with sys := sys, vcpu := Function.update s.vcpu t vcpu }
    else none
  | .cpuOn c cpuId entry contextId =>
    match s.phase c, s.sys.currentTask c, psciConfiguredMpidr cfg cpuId with
    | .idle, some _, some target =>
      pure (s.setPhase c (.cpuOn ⟨target, entry, contextId, none⟩ (.check (List.finRange 4))))
    | .idle, some _, none =>
      pure (s.setPhase c
        (.cpuOn ⟨cpuId, entry, contextId, none⟩ (.returned psciRetInvalidParameters)))
    | _, _, _ => none
  | .onStep c mem vbarEl1 =>
    match s.phase c with
    | .cpuOn call stage =>
      if mem.all fun t => (s.sys.task t).isNone then onStep cfg s c call mem vbarEl1 stage else none
    | _ => none

def initSmp : Smp where
  sys := initSched
  vcpu _ := ⟨0, 0, 0, 0⟩
  phase _ := .idle
  context _ := .fresh
  firstEntry _ := none
  promised _ := none

/-- The states reached by steps that meet `ok`. -/
inductive SmpRun (arch : Arch) (cfg : GuestConfig) (ok : Smp → Action → Prop) : Smp → Prop
  | init : SmpRun arch cfg ok initSmp
  | step {s s' : Smp} {a : Action} :
      SmpRun arch cfg ok s → ok s a → s.step arch cfg a = some s' → SmpRun arch cfg ok s'

/-- Steps one after the other. -/
def Smp.exec (arch : Arch) (cfg : GuestConfig) (s : Smp) (actions : List Action) : Option Smp :=
  actions.foldlM (Smp.step arch cfg) s

/-- Steps that meet the condition wherever they are taken. -/
theorem SmpRun.execAll {arch : Arch} {cfg : GuestConfig} {ok : Smp → Action → Prop} {s s' : Smp}
    {actions : List Action} (hs : SmpRun arch cfg ok s) (hok : ∀ a ∈ actions, ∀ s, ok s a)
    (h : s.exec arch cfg actions = some s') : SmpRun arch cfg ok s' := by
  induction actions generalizing s with
  | nil => exact Option.some.inj h ▸ hs
  | cons a actions ih =>
    simp only [Smp.exec, List.foldlM_cons, Option.bind_eq_bind, Option.bind_eq_some_iff] at h
    obtain ⟨s₁, hstep, hrest⟩ := h
    exact ih (hs.step (hok a List.mem_cons_self s) hstep)
      (fun b hb => hok b (List.mem_cons_of_mem a hb)) hrest

theorem SmpRun.exec {arch : Arch} {cfg : GuestConfig} {s s' : Smp} {actions : List Action}
    (hs : SmpRun arch cfg (fun _ _ => True) s) (h : s.exec arch cfg actions = some s') :
    SmpRun arch cfg (fun _ _ => True) s' :=
  hs.execAll (fun _ _ _ => trivial) h

/-! ## Who has a task -/

/-- The task that a pCPU runs, or has taken to run it. -/
def taken (sys : System) (phase : Cpu → Phase) (c : Cpu) : Option TaskId :=
  match phase c with
  | .switch _ next _ => some next
  | _ => sys.currentTask c

/-- The outgoing task, as long as it is not requeued. -/
def leaving (phase : Cpu → Phase) (c : Cpu) : Option TaskId :=
  match phase c with
  | .switch old _ todo => if .requeue ∈ todo then old else none
  | _ => none

inductive SmpPlace
  | ready
  | taken (c : Cpu)
  | leaving (c : Cpu)

def SmpAt (sys : System) (phase : Cpu → Phase) (q : ListHead → List TaskId) (t : TaskId) :
    SmpPlace → Prop
  | .ready => t ∈ q .ready
  | .taken c => taken sys phase c = some t
  | .leaving c => leaving phase c = some t

/-- The invariant of all interleavings. -/
structure Owned (arch : Arch) (sys : System) (phase : Cpu → Phase)
    (q : ListHead → List TaskId) : Prop where
  lists : Lists sys q
  noWait : ∀ u, u ∉ q .wait
  places : OnePlace (fun t => (sys.task t).isSome = true) (SmpAt sys phase q)
  shape : ∀ c old next todo, phase c = .switch old next todo →
    todo <:+ arch.switchOps ∧ todo ≠ [] ∧
      sys.currentTask c = if .publish ∈ todo then old else some next
  running : sys.gRunning = sys.currentTask
  notExited : ∀ t x, sys.task t = some x → x.state ≠ .exit

def Phase.isSwitch : Phase → Bool
  | .switch _ _ _ => true
  | _ => false

theorem switchOps_nodup (arch : Arch) : arch.switchOps.Nodup := by
  cases arch <;> decide

section

variable {arch : Arch} {sys : System} {phase : Cpu → Phase} {q : ListHead → List TaskId}
  {c : Cpu} {t : TaskId}

theorem taken_of_not_switch (h : (phase c).isSwitch = false) :
    taken sys phase c = sys.currentTask c := by
  unfold taken
  cases hp : phase c with
  | switch old next todo =>
    rw [hp] at h
    cases h
  | idle => rfl
  | cpuOn call stage => rfl

theorem leaving_of_not_switch (h : (phase c).isSwitch = false) : leaving phase c = none := by
  unfold leaving
  cases hp : phase c with
  | switch old next todo =>
    rw [hp] at h
    cases h
  | idle => rfl
  | cpuOn call stage => rfl

theorem taken_update_of_ne {c' : Cpu} {p : Phase} (h : c' ≠ c) :
    taken sys (Function.update phase c p) c' = taken sys phase c' := by
  rw [taken, taken, Function.update_of_ne h]

theorem leaving_update_of_ne {c' : Cpu} {p : Phase} (h : c' ≠ c) :
    leaving (Function.update phase c p) c' = leaving phase c' := by
  rw [leaving, leaving, Function.update_of_ne h]

/-- The current task of a pCPU is live. -/
theorem Owned.current_live (ho : Owned arch sys phase q) (hc : (phase c).isSwitch = false)
    (ht : sys.currentTask c = some t) : (sys.task t).isSome :=
  ho.places.live t (.taken c) ((taken_of_not_switch hc).trans ht)

/-- A pCPU goes on outside a switch. -/
theorem Owned.setPhase (ho : Owned arch sys phase q) (hc : (phase c).isSwitch = false) {p : Phase}
    (hp : p.isSwitch = false) : Owned arch sys (Function.update phase c p) q := by
  have hpc : (Function.update phase c p c).isSwitch = false := by rw [Function.update_self, hp]
  refine ⟨ho.lists, ho.noWait, ho.places.congr (fun u pl => ?_) fun _ => Iff.rfl,
    fun c' old next todo hph => ?_, ho.running, ho.notExited⟩
  · cases pl with
    | ready => exact Iff.rfl
    | taken c' =>
      by_cases hcc : c' = c
      · subst hcc
        rw [SmpAt, SmpAt, taken_of_not_switch hpc, taken_of_not_switch hc]
      · rw [SmpAt, SmpAt, taken_update_of_ne hcc]
    | leaving c' =>
      by_cases hcc : c' = c
      · subst hcc
        rw [SmpAt, SmpAt, leaving_of_not_switch hpc, leaving_of_not_switch hc]
      · rw [SmpAt, SmpAt, leaving_update_of_ne hcc]
  · by_cases hcc : c' = c
    · subst hcc
      rw [Function.update_self] at hph
      rw [hph] at hp
      cases hp
    · rw [Function.update_of_ne hcc] at hph
      exact ho.shape c' old next todo hph

/-- Updates of a task's other fields. -/
theorem Owned.modifyTask (ho : Owned arch sys phase q) {f : Task → Task}
    (hprio : ∀ x, (f x).priority = x.priority) (hstate : ∀ x, (f x).state = x.state)
    (t : TaskId) : Owned arch (sys.modifyTask t f) phase q := by
  refine ⟨ho.lists.modifyTask hprio t, ho.noWait, ho.places.congr (fun u pl => ?_) fun u => ?_,
    ho.shape, ho.running, fun u y hy => ?_⟩
  · cases pl <;> exact Iff.rfl
  · rw [modifyTask_isSome]
  · rcases modifyTask_some hy with ⟨rfl, x, hx, rfl⟩ | ⟨_, hy⟩
    · rw [hstate]
      exact ho.notExited u x hx
    · exact ho.notExited u y hy

/-- A new task enters the ready list. -/
theorem Owned.newTask (ho : Owned arch sys phase q) (ht : sys.task t = none) {x : Task}
    (hx : x.state ≠ .exit) :
    ∃ sys' q', simpleSchedulerSched (sys.newTask t x) t = some sys' ∧ Owned arch sys' phase q' ∧
      SameTasks (sys.newTask t x) sys' ∧ ∀ g u, u ∈ q' g ↔ g = .ready ∧ u = t ∨ u ∈ q g := by
  have hdead : ∀ p, ¬ SmpAt sys phase q t p := by
    intro p hin
    have hlive := ho.places.live t p hin
    rw [ht] at hlive
    exact Bool.false_ne_true hlive
  have hfree : ∀ g, t ∉ q g := by
    intro g
    cases g with
    | ready => exact hdead .ready
    | wait => exact ho.noWait t
  have htask : (sys.newTask t x).task t = some x := Function.update_self ..
  have hother : ∀ u, u ≠ t → (sys.newTask t x).task u = sys.task u :=
    fun u hu => Function.update_of_ne hu _ _
  obtain ⟨sys', q', hrun, hl', hsame, hmem⟩ := (ho.lists.newTask ht x).insert .ready htask hfree
  have hcur : sys'.currentTask = sys.currentTask := hsame.currentTask
  have htaken : ∀ c, taken sys' phase c = taken sys phase c := by
    intro c
    unfold taken
    rw [hcur]
  refine ⟨sys', q', hrun, ⟨hl', fun u hu => ?_, ?_, ?_, ?_, ?_⟩, hsame, hmem⟩
  · rcases (hmem .wait u).mp hu with ⟨he, _⟩ | hu
    · cases he
    · exact ho.noWait u hu
  · refine ho.places.moveOne t .ready (fun p => ?_) (fun u p hu => ?_) (fun u => ?_)
    · cases p with
      | ready => exact ⟨fun _ => rfl, fun _ => (hmem .ready t).mpr (.inl ⟨rfl, rfl⟩)⟩
      | taken c =>
        rw [SmpAt, htaken]
        exact ⟨fun hin => absurd hin (hdead (.taken c)), fun he => nomatch he⟩
      | leaving c => exact ⟨fun hin => absurd hin (hdead (.leaving c)), fun he => nomatch he⟩
    · cases p with
      | ready =>
        rw [SmpAt, SmpAt, hmem]
        exact ⟨fun hin => hin.resolve_left fun he => hu he.2, .inr⟩
      | taken c => rw [SmpAt, SmpAt, htaken]
      | leaving c => exact Iff.rfl
    · rw [hsame.task]
      by_cases hu : u = t
      · subst hu
        simp only [htask, Option.isSome_some, true_or]
      · simp only [hother u hu, hu, false_or]
  · intro c old next todo hph
    rw [hcur]
    exact ho.shape c old next todo hph
  · rw [hsame.gRunning, hcur]
    exact ho.running
  · intro u y hy
    rw [hsame.task] at hy
    by_cases hu : u = t
    · subst hu
      rw [htask] at hy
      exact Option.some.inj hy ▸ hx
    · exact ho.notExited u y ((hother u hu).symm.trans hy)

/-- `simple_scheduler_next_no_publish`: the taken task leaves the ready list, and the
current one becomes the outgoing one. -/
theorem Owned.pick (ho : Owned arch sys phase q) (hc : phase c = .idle) :
    simpleSchedulerNextNoPublish sys c = some (none, sys) ∨
      ∃ t x q', t ∈ q .ready ∧ sys.task t = some x ∧
        (x.pcpuAffinity = -1 ∨ x.pcpuAffinity = c.val) ∧
        simpleSchedulerNextNoPublish sys c =
          some (some t, { sys with links := chainExtractTask sys.links t }) ∧
        Owned arch { sys with links := chainExtractTask sys.links t }
          (Function.update phase c (.switch (sys.currentTask c) t arch.switchOps)) q' ∧
        ∀ g u, u ∈ q' g ↔ u ≠ t ∧ u ∈ q g := by
  have hidle : (phase c).isSwitch = false := by rw [hc]; rfl
  rcases ho.lists.next c (fun t => ho.current_live hidle) with hnone | ⟨t, x, hin, hx, haff, hrun⟩
  · exact .inl hnone
  obtain ⟨q', hl', hmem⟩ := ho.lists.extract hin
  refine .inr ⟨t, x, q', hin, hx, haff, hrun, ⟨hl', fun u hu => ?_, ?_, ?_, ho.running,
    ho.notExited⟩, hmem⟩
  · exact ho.noWait u ((hmem .wait u).mp hu).2
  · have hrequeue : SwitchOp.requeue ∈ arch.switchOps := by cases arch <;> decide
    have hold : taken sys phase c = sys.currentTask c := taken_of_not_switch hidle
    have hnone : leaving phase c = none := leaving_of_not_switch hidle
    have htaken : ∀ c' u, taken { sys with links := chainExtractTask sys.links t }
        (Function.update phase c (.switch (sys.currentTask c) t arch.switchOps)) c' = some u ↔
        c' = c ∧ u = t ∨ c' ≠ c ∧ taken sys phase c' = some u := by
      intro c' u
      by_cases hcc : c' = c
      · subst hcc
        rw [taken, Function.update_self]
        simp only [Option.some.injEq, true_and, ne_eq, not_true_eq_false, false_and, or_false]
        exact eq_comm
      · rw [taken_update_of_ne hcc]
        simp only [hcc, false_and, ne_eq, not_false_eq_true, true_and, false_or]
        rfl
    have hleaving : ∀ c' u, leaving
        (Function.update phase c (.switch (sys.currentTask c) t arch.switchOps)) c' = some u ↔
        c' = c ∧ sys.currentTask c = some u ∨ c' ≠ c ∧ leaving phase c' = some u := by
      intro c' u
      by_cases hcc : c' = c
      · subst hcc
        rw [leaving, Function.update_self]
        simp only [hrequeue, if_true, true_and, ne_eq, not_true_eq_false, false_and, or_false]
      · rw [leaving_update_of_ne hcc]
        simp only [hcc, false_and, ne_eq, not_false_eq_true, true_and, false_or]
    have hnot : ∀ p, SmpAt sys phase q t p → p = .ready := fun p hp =>
      ho.places.alone t p .ready hp hin
    refine ho.places.move (fun u => if u = t then some (.taken c) else
      if sys.currentTask c = some u then some (.leaving c) else none) (fun u p => ?_) (fun u => ?_)
    · by_cases hu : u = t
      · subst hu
        rw [if_pos rfl, Option.elim_some]
        cases p with
        | ready =>
          rw [SmpAt, hmem]
          simp only [ne_eq, not_true_eq_false, false_and, reduceCtorEq]
        | taken c' =>
          rw [SmpAt, htaken, SmpPlace.taken.injEq]
          simp only [and_true, or_iff_left_iff_imp]
          exact fun h => nomatch hnot (.taken c') h.2
        | leaving c' =>
          rw [SmpAt, hleaving]
          simp only [reduceCtorEq, iff_false, not_or, not_and]
          refine ⟨fun _ hcur => ?_, fun _ hl => nomatch hnot (.leaving c') hl⟩
          cases hnot (.taken c) (hold.trans hcur)
      · rw [if_neg hu]
        by_cases hcur : sys.currentTask c = some u
        · rw [if_pos hcur, Option.elim_some]
          have halone : ∀ p, SmpAt sys phase q u p → p = .taken c := fun p hp =>
            ho.places.alone u p (.taken c) hp (hold.trans hcur)
          cases p with
          | ready =>
            rw [SmpAt, hmem]
            simp only [reduceCtorEq, iff_false, not_and]
            exact fun _ hin' => nomatch halone .ready hin'
          | taken c' =>
            rw [SmpAt, htaken]
            simp only [hu, and_false, false_or, reduceCtorEq, iff_false, not_and]
            exact fun hne ht' => hne (SmpPlace.taken.inj (halone (.taken c') ht'))
          | leaving c' =>
            rw [SmpAt, hleaving, SmpPlace.leaving.injEq]
            simp only [hcur, and_true, or_iff_left_iff_imp]
            exact fun h => nomatch halone (.leaving c') h.2
        · rw [if_neg hcur, Option.elim_none]
          cases p with
          | ready =>
            rw [SmpAt, hmem]
            simp only [ne_eq, hu, not_false_eq_true, true_and]
            rfl
          | taken c' =>
            rw [SmpAt, htaken, SmpAt]
            simp only [hu, and_false, false_or, and_iff_right_iff_imp]
            rintro ht' rfl
            exact hcur (hold.symm.trans ht')
          | leaving c' =>
            rw [SmpAt, hleaving, SmpAt]
            simp only [hcur, and_false, false_or, and_iff_right_iff_imp]
            rintro hl rfl
            cases hnone.symm.trans hl
    · refine ⟨.inr, fun h => h.elim (fun hd => ?_) id⟩
      by_cases hu : u = t
      · exact hu ▸ ho.places.live t .ready hin
      · rw [if_neg hu] at hd
        by_cases hcur : sys.currentTask c = some u
        · exact ho.current_live hidle hcur
        · rw [if_neg hcur] at hd
          exact absurd hd Bool.false_ne_true
  · intro c' old next todo hph
    by_cases hcc : c' = c
    · subst hcc
      rw [Function.update_self, Phase.switch.injEq] at hph
      obtain ⟨rfl, rfl, rfl⟩ := hph
      have hpublish : SwitchOp.publish ∈ arch.switchOps := by cases arch <;> decide
      refine ⟨List.suffix_refl _, List.ne_nil_of_mem hpublish, ?_⟩
      rw [if_pos hpublish]
    · rw [Function.update_of_ne hcc] at hph
      exact ho.shape c' old next todo hph

section

variable {old : Option TaskId} {next : TaskId} {o : SwitchOp} {todo : List SwitchOp}

theorem leaving_rest : leaving (Function.update phase c (.rest old next todo)) c =
    if .requeue ∈ todo then old else none := by
  rw [leaving, Function.update_self, Phase.rest]
  by_cases h : todo = []
  · subst h
    rfl
  · rw [if_neg h]

theorem taken_rest (h : todo = [] → sys.currentTask c = some next) :
    taken sys (Function.update phase c (.rest old next todo)) c = some next := by
  rw [taken, Function.update_self, Phase.rest]
  by_cases hnil : todo = []
  · rw [if_pos hnil]
    exact h hnil
  · rw [if_neg hnil]

theorem taken_switch (hc : phase c = .switch old next todo) : taken sys phase c = some next := by
  rw [taken, hc]

theorem leaving_switch (hc : phase c = .switch old next todo) :
    leaving phase c = if .requeue ∈ todo then old else none := by
  rw [leaving, hc]

/-- What is left of a switch after one operation. -/
theorem Owned.todo_rest (ho : Owned arch sys phase q) (hc : phase c = .switch old next (o :: todo)) :
    o ∉ todo ∧ todo <:+ arch.switchOps := by
  have hsuf := (ho.shape c old next _ hc).1
  have hnd := (switchOps_nodup arch).sublist hsuf.sublist
  exact ⟨(List.nodup_cons.mp hnd).1, (List.suffix_cons o todo).trans hsuf⟩

/-- The shape of the phases after an operation that makes `current` what it should be. -/
theorem Owned.shape_rest (ho : Owned arch sys phase q)
    (hc : phase c = .switch old next (o :: todo)) {sys' : System}
    (hcur : sys'.currentTask c = if .publish ∈ todo then old else some next)
    (hother : ∀ c', c' ≠ c → sys'.currentTask c' = sys.currentTask c') (c' : Cpu)
    (old' : Option TaskId) (next' : TaskId) (todo' : List SwitchOp)
    (hph : Function.update phase c (.rest old next todo) c' = .switch old' next' todo') :
    todo' <:+ arch.switchOps ∧ todo' ≠ [] ∧
      sys'.currentTask c' = if .publish ∈ todo' then old' else some next' := by
  by_cases hcc : c' = c
  · subst hcc
    rw [Function.update_self, Phase.rest] at hph
    by_cases hnil : todo = []
    · rw [if_pos hnil] at hph
      cases hph
    · rw [if_neg hnil, Phase.switch.injEq] at hph
      obtain ⟨rfl, rfl, rfl⟩ := hph
      exact ⟨(ho.todo_rest hc).2, hnil, hcur⟩
  · rw [Function.update_of_ne hcc] at hph
    rw [hother c' hcc]
    exact ho.shape c' old' next' todo' hph

/-- An operation that moves no task: `set_current`, save, restore, and the requeueing when
there is no outgoing task. -/
theorem Owned.still (ho : Owned arch sys phase q) (hc : phase c = .switch old next (o :: todo))
    (ho' : o = .requeue → old = none) {sys' : System} (hlists : Lists sys' q)
    (htask : sys'.task = sys.task) (hrunning : sys'.gRunning = sys'.currentTask)
    (hcur : sys'.currentTask c = if .publish ∈ todo then old else some next)
    (hother : ∀ c', c' ≠ c → sys'.currentTask c' = sys.currentTask c') :
    Owned arch sys' (Function.update phase c (.rest old next todo)) q := by
  refine ⟨hlists, ho.noWait, ho.places.congr (fun u p => ?_) fun u => by rw [htask],
    ho.shape_rest hc hcur hother, hrunning, fun u y hy => ho.notExited u y (htask ▸ hy)⟩
  · cases p with
    | ready => exact Iff.rfl
    | taken c' =>
      by_cases hcc : c' = c
      · subst hcc
        rw [SmpAt, SmpAt, taken_switch hc, taken_rest]
        rintro rfl
        exact hcur
      · rw [SmpAt, SmpAt, taken_update_of_ne hcc]
        unfold taken
        cases hp : phase c' with
        | switch old' next' todo' => exact Iff.rfl
        | idle => exact (congrArg (· = some u) (hother c' hcc)).to_iff
        | cpuOn call stage => exact (congrArg (· = some u) (hother c' hcc)).to_iff
    | leaving c' =>
      by_cases hcc : c' = c
      · subst hcc
        rw [SmpAt, SmpAt, leaving_switch hc, leaving_rest]
        by_cases hreq : SwitchOp.requeue = o
        · rw [ho' hreq.symm]
          simp only [ite_self]
        · simp only [List.mem_cons, hreq, false_or]
      · rw [SmpAt, SmpAt, leaving_update_of_ne hcc]

/-- The outgoing task is put into the ready list. -/
theorem Owned.requeue (ho : Owned arch sys phase q)
    (hc : phase c = .switch (some t) next (.requeue :: todo)) :
    ∃ x sys' q', sys.task t = some x ∧ x.state ≠ .exit ∧
      simpleSchedulerSched sys t = some sys' ∧
      Owned arch sys' (Function.update phase c (.rest (some t) next todo)) q' ∧
      SameTasks sys sys' ∧ ∀ g u, u ∈ q' g ↔ g = .ready ∧ u = t ∨ u ∈ q g := by
  obtain ⟨hnot, hsuf⟩ := ho.todo_rest hc
  have hat : SmpAt sys phase q t (.leaving c) := by
    rw [SmpAt, leaving_switch hc, if_pos List.mem_cons_self]
  have halone : ∀ p, SmpAt sys phase q t p → p = .leaving c := fun p hp =>
    ho.places.alone t p (.leaving c) hp hat
  obtain ⟨x, hx⟩ := Option.isSome_iff_exists.mp (ho.places.live t (.leaving c) hat)
  have hfree : ∀ g, t ∉ q g := by
    intro g hin
    cases g with
    | ready => cases halone .ready hin
    | wait => exact ho.noWait t hin
  obtain ⟨sys', q', hrun, hl', hsame, hmem⟩ := ho.lists.insert .ready hx hfree
  have hcurrent : sys.currentTask c = if .publish ∈ todo then some t else some next := by
    rw [(ho.shape c _ _ _ hc).2.2]
    simp only [List.mem_cons, reduceCtorEq, false_or]
  refine ⟨x, sys', q', hx, ho.notExited t x hx, hrun, ⟨hl', fun u hu => ?_, ?_, ?_, ?_, ?_⟩,
    hsame, hmem⟩
  · rcases (hmem .wait u).mp hu with ⟨he, _⟩ | hu
    · cases he
    · exact ho.noWait u hu
  · refine ho.places.moveOne t .ready (fun p => ?_) (fun u p hu => ?_) (fun u => ?_)
    · cases p with
      | ready => exact ⟨fun _ => rfl, fun _ => (hmem .ready t).mpr (.inl ⟨rfl, rfl⟩)⟩
      | taken c' =>
        rw [SmpAt]
        refine ⟨fun hin => ?_, fun he => nomatch he⟩
        have hin' : taken sys phase c' = some t := by
          by_cases hcc : c' = c
          · subst hcc
            rw [taken_rest] at hin
            · rw [taken_switch hc, hin]
            · rintro rfl
              rw [hsame.currentTask]
              exact hcurrent
          · rw [taken_update_of_ne hcc, taken, hsame.currentTask] at hin
            exact hin
        cases halone (.taken c') hin'
      | leaving c' =>
        rw [SmpAt]
        refine ⟨fun hin => ?_, fun he => nomatch he⟩
        by_cases hcc : c' = c
        · subst hcc
          rw [leaving_rest, if_neg hnot] at hin
          cases hin
        · rw [leaving_update_of_ne hcc] at hin
          exact absurd (SmpPlace.leaving.inj (halone (.leaving c') hin)) hcc
    · cases p with
      | ready =>
        rw [SmpAt, SmpAt, hmem]
        exact ⟨fun hin => hin.resolve_left fun he => hu he.2, .inr⟩
      | taken c' =>
        rw [SmpAt, SmpAt]
        by_cases hcc : c' = c
        · subst hcc
          rw [taken_switch hc, taken_rest]
          rintro rfl
          rw [hsame.currentTask]
          exact hcurrent
        · rw [taken_update_of_ne hcc, taken, hsame.currentTask]
          rfl
      | leaving c' =>
        rw [SmpAt, SmpAt]
        by_cases hcc : c' = c
        · subst hcc
          rw [leaving_rest, if_neg hnot, leaving_switch hc, if_pos List.mem_cons_self]
          exact ⟨fun he => (nomatch he), fun he => absurd (Option.some.inj he).symm hu⟩
        · rw [leaving_update_of_ne hcc]
    · rw [hsame.task]
      exact ⟨.inr, fun h => h.elim (fun he => he ▸ Option.isSome_iff_exists.mpr ⟨x, hx⟩) id⟩
  · refine ho.shape_rest hc ?_ fun c' _ => congrFun hsame.currentTask c'
    rw [hsame.currentTask]
    exact hcurrent
  · rw [hsame.gRunning, hsame.currentTask]
    exact ho.running
  · intro u y hy
    rw [hsame.task] at hy
    exact ho.notExited u y hy

end

end

/-! ## What one step can do -/

section

variable (arch : Arch) (cfg : GuestConfig) (s : Smp) (q : ListHead → List TaskId)

/-- The steps from a state with ready list `q .ready`, with everything a guard has checked
and the lists afterwards. -/
inductive StepCase : Action → Smp → (ListHead → List TaskId) → Prop
  | nothing {c : Cpu} : s.phase c = .idle → StepCase (.pick c) s q
  | take {c : Cpu} {t : TaskId} {x : Task} {q' : ListHead → List TaskId} :
      s.phase c = .idle → t ∈ q .ready → s.sys.task t = some x →
      x.pcpuAffinity = -1 ∨ x.pcpuAffinity = c.val → (∀ g u, u ∈ q' g ↔ u ≠ t ∧ u ∈ q g) →
      simpleSchedulerNextNoPublish s.sys c =
        some (some t, { s.sys with links := chainExtractTask s.sys.links t }) →
      StepCase (.pick c)
        ({ s with sys := { s.sys with links := chainExtractTask s.sys.links t } }.setPhase c
          (.switch (s.sys.currentTask c) t arch.switchOps)) q'
  | publish {c : Cpu} {regs : Vcpu} {old : Option TaskId} {next : TaskId}
      {todo : List SwitchOp} :
      s.phase c = .switch old next (.publish :: todo) →
      StepCase (.switch c regs)
        ({ s with sys := setCurrent s.sys c (some next) }.setPhase c (.rest old next todo)) q
  | requeue {c : Cpu} {regs : Vcpu} {t next : TaskId} {todo : List SwitchOp} {sys' : System}
      {q' : ListHead → List TaskId} :
      s.phase c = .switch (some t) next (.requeue :: todo) → SameTasks s.sys sys' →
      (∀ g u, u ∈ q' g ↔ g = .ready ∧ u = t ∨ u ∈ q g) →
      StepCase (.switch c regs)
        ({ s with sys := sys' }.setPhase c (.rest (some t) next todo)) q'
  | skip {c : Cpu} {regs : Vcpu} {next : TaskId} {o : SwitchOp} {todo : List SwitchOp} :
      s.phase c = .switch none next (o :: todo) → o = .requeue ∨ o = .save →
      StepCase (.switch c regs) (s.setPhase c (.rest none next todo)) q
  | save {c : Cpu} {regs : Vcpu} {t next : TaskId} {todo : List SwitchOp} :
      s.phase c = .switch (some t) next (.save :: todo) →
      StepCase (.switch c regs)
        ((s.saveContext c t regs).setPhase c (.rest (some t) next todo)) q
  | restore {c : Cpu} {regs : Vcpu} {old : Option TaskId} {next : TaskId}
      {todo : List SwitchOp} :
      s.phase c = .switch old next (.restore :: todo) →
      StepCase (.switch c regs)
        ((s.restoreContext c next).setPhase c (.rest old next todo)) q
  | create {t : TaskId} {x : Task} {vcpu : Vcpu} {sys' : System} {q' : ListHead → List TaskId} :
      s.sys.task t = none → SameTasks (s.sys.newTask t x) sys' →
      (∀ g u, u ∈ q' g ↔ g = .ready ∧ u = t ∨ u ∈ q g) →
      StepCase (.create t x vcpu)
        { s with sys := sys', vcpu := Function.update s.vcpu t vcpu } q'
  | callOn {c : Cpu} {cpuId entry contextId target : BitVec 64} :
      s.phase c = .idle → psciConfiguredMpidr cfg cpuId = some target →
      StepCase (.cpuOn c cpuId entry contextId)
        (s.setPhase c (.cpuOn ⟨target, entry, contextId, none⟩ (.check (List.finRange 4)))) q
  | callInvalid {c : Cpu} {cpuId entry contextId : BitVec 64} :
      s.phase c = .idle →
      StepCase (.cpuOn c cpuId entry contextId)
        (s.setPhase c
          (.cpuOn ⟨cpuId, entry, contextId, none⟩ (.returned psciRetInvalidParameters))) q
  | checkMiss {c c' : Cpu} {mem : Option TaskId} {vbar : BitVec 64} {call : OnCall}
      {unread : List Cpu} :
      s.phase c = .cpuOn call (.check (c' :: unread)) →
      s.sys.testRunning (hasAffinity call.target) c' = false →
      StepCase (.onStep c mem vbar) (s.setPhase c (.cpuOn call (.check unread))) q
  | checkHit {c : Cpu} {mem : Option TaskId} {vbar : BitVec 64} {call : OnCall}
      {unread : List Cpu} :
      s.phase c = .cpuOn call (.check unread) →
      StepCase (.onStep c mem vbar)
        (s.setPhase c (.cpuOn call (.returned psciRetAlreadyOn))) q
  | listMiss {c : Cpu} {mem : Option TaskId} {vbar : BitVec 64} {call : OnCall} :
      s.phase c = .cpuOn call (.check []) →
      (∀ t ∈ q .ready, (s.sys.task t).any (hasAffinity call.target) = false) →
      StepCase (.onStep c mem vbar) (s.setPhase c (.cpuOn call .create)) q
  | denied {c : Cpu} {mem : Option TaskId} {vbar : BitVec 64} {call : OnCall} :
      s.phase c = .cpuOn call .create →
      StepCase (.onStep c mem vbar) (s.setPhase c (.cpuOn call (.returned psciRetDenied))) q
  | created {c : Cpu} {t : TaskId} {vbar : BitVec 64} {call : OnCall} {sys' : System}
      {q' : ListHead → List TaskId} :
      s.phase c = .cpuOn call .create → s.sys.task t = none →
      SameTasks (s.sys.newTask t ⟨10, 0, placeholder, .ready⟩) sys' →
      (∀ g u, u ∈ q' g ↔ g = .ready ∧ u = t ∨ u ∈ q g) →
      StepCase (.onStep c (some t) vbar)
        ({ s with sys := sys', vcpu := Function.update s.vcpu t ⟨0, call.entry, 0, 0⟩ }.setPhase c
          (.cpuOn { call with created := some t } .search)) q'
  | searchMiss {c : Cpu} {mem : Option TaskId} {vbar : BitVec 64} {call : OnCall} :
      s.phase c = .cpuOn call .search →
      (∀ t ∈ q .ready, (s.sys.task t).any (fun x => x.mpidr == placeholder) = false) →
      StepCase (.onStep c mem vbar) (s.setPhase c (.cpuOn call (.returned psciRetDenied))) q
  | searchHit {c : Cpu} {mem : Option TaskId} {vbar : BitVec 64} {call : OnCall} {t : TaskId}
      {x : Task} :
      s.phase c = .cpuOn call .search → t ∈ q .ready → s.sys.task t = some x →
      x.mpidr = placeholder →
      StepCase (.onStep c mem vbar) (s.setPhase c (.cpuOn call (.patch t patchOps))) q
  | patch {c : Cpu} {mem : Option TaskId} {vbar : BitVec 64} {call : OnCall} {t : TaskId}
      {o : PatchOp} {todo : List PatchOp} :
      s.phase c = .cpuOn call (.patch t (o :: todo)) →
      StepCase (.onStep c mem vbar)
        ((patchOp cfg s call vbar t o).setPhase c (.cpuOn call (.patch t todo))) q
  | success {c : Cpu} {mem : Option TaskId} {vbar : BitVec 64} {call : OnCall} {t : TaskId} :
      s.phase c = .cpuOn call (.patch t []) →
      StepCase (.onStep c mem vbar)
        ({ s with promised := Function.update s.promised t (some call) }.setPhase c
          (.cpuOn call (.returned psciRetSuccess))) q
  | leave {c : Cpu} {mem : Option TaskId} {vbar : BitVec 64} {call : OnCall} {val : BitVec 64} :
      s.phase c = .cpuOn call (.returned val) →
      StepCase (.onStep c mem vbar) (s.setPhase c .idle) q

end

section

variable {arch : Arch} {cfg : GuestConfig} {s s' : Smp} {q : ListHead → List TaskId}

/-- A step of the scheduler. -/
theorem Owned.pick_step (ho : Owned arch s.sys s.phase q) {c : Cpu}
    (h : s.step arch cfg (.pick c) = some s') :
    ∃ q', StepCase arch cfg s q (.pick c) s' q' ∧ Owned arch s'.sys s'.phase q' := by
  unfold Smp.step at h
  cases hph : s.phase c with
  | switch old next todo => simp [hph] at h
  | cpuOn call stage => simp [hph] at h
  | idle =>
    simp only [hph] at h
    rcases ho.pick hph with hrun | ⟨t, x, q', hin, hx, haff, hrun, ho', hmem⟩
    · simp only [hrun, Option.bind_eq_bind, Option.bind_some, Option.pure_def,
        Option.some.injEq] at h
      subst h
      exact ⟨q, .nothing hph, ho⟩
    · simp only [hrun, Option.bind_eq_bind, Option.bind_some, Option.pure_def,
        Option.some.injEq] at h
      subst h
      exact ⟨q', .take hph hin hx haff hmem hrun, ho'⟩

/-- The rest of a switch when nothing moved and `current` is as it was. -/
theorem Owned.rest (ho : Owned arch s.sys s.phase q) {c : Cpu} {old : Option TaskId}
    {next : TaskId} {o : SwitchOp} {todo : List SwitchOp}
    (hc : s.phase c = .switch old next (o :: todo)) (hpub : o ≠ .publish)
    (hreq : o = .requeue → old = none) :
    Owned arch s.sys (Function.update s.phase c (.rest old next todo)) q := by
  have hcur := (ho.shape c old next _ hc).2.2
  simp only [List.mem_cons, hpub.symm, false_or] at hcur
  exact ho.still hc hreq ho.lists rfl ho.running hcur fun _ _ => rfl

theorem Owned.switch_step (ho : Owned arch s.sys s.phase q) {c : Cpu} {regs : Vcpu}
    (h : s.step arch cfg (.switch c regs) = some s') :
    ∃ q', StepCase arch cfg s q (.switch c regs) s' q' ∧ Owned arch s'.sys s'.phase q' := by
  unfold Smp.step at h
  cases hph : s.phase c with
  | idle => simp [hph] at h
  | cpuOn call stage => simp [hph] at h
  | switch old next todo =>
    cases todo with
    | nil => simp [hph] at h
    | cons o todo =>
      simp only [hph, Option.bind_eq_bind, Option.pure_def] at h
      cases o with
      | publish =>
        simp only [switchOp, Option.bind_some, Option.some.injEq] at h
        subst h
        have hnot := (ho.todo_rest hph).1
        refine ⟨q, .publish hph, ho.still hph (by simp) (ho.lists.setCurrent c _) rfl ?_ ?_ ?_⟩
        · rw [setCurrent, ho.running]
          rfl
        · rw [if_neg hnot]
          exact Function.update_self ..
        · exact fun c' hcc => Function.update_of_ne hcc _ _
      | requeue =>
        cases old with
        | none =>
          simp only [switchOp, Option.bind_some, Option.some.injEq] at h
          subst h
          exact ⟨q, .skip hph (.inl rfl), ho.rest hph (by simp) fun _ => rfl⟩
        | some t =>
          obtain ⟨x, sys', q', hx, hexit, hrun, ho', hsame, hmem⟩ := ho.requeue hph
          simp only [switchOp, hx, hrun, if_neg hexit, Option.bind_eq_bind, Option.bind_some,
            Option.pure_def, Option.some.injEq] at h
          subst h
          exact ⟨q', .requeue hph hsame hmem, ho'⟩
      | save =>
        cases old with
        | none =>
          simp only [switchOp, Option.bind_some, Option.some.injEq] at h
          subst h
          exact ⟨q, .skip hph (.inr rfl), ho.rest hph (by simp) fun _ => rfl⟩
        | some t =>
          simp only [switchOp, Option.bind_some, Option.some.injEq] at h
          subst h
          exact ⟨q, .save hph, ho.rest hph (by simp) (by simp)⟩
      | restore =>
        simp only [switchOp, Option.bind_some, Option.some.injEq] at h
        subst h
        exact ⟨q, .restore hph, ho.rest hph (by simp) (by simp)⟩

theorem Owned.create_step (ho : Owned arch s.sys s.phase q) {t : TaskId} {x : Task} {vcpu : Vcpu}
    (h : s.step arch cfg (.create t x vcpu) = some s') :
    ∃ q', StepCase arch cfg s q (.create t x vcpu) s' q' ∧ Owned arch s'.sys s'.phase q' := by
  simp only [Smp.step] at h
  by_cases hg : (s.sys.task t).isNone = true ∧ x.state = .ready
  · rw [if_pos hg] at h
    have hnone := Option.isNone_iff_eq_none.mp hg.1
    have hexit : x.state ≠ .exit := by
      rw [hg.2]
      exact nofun
    obtain ⟨sys', q', hrun, ho', hsame, hmem⟩ := ho.newTask hnone hexit
    simp only [hrun, Option.bind_eq_bind, Option.bind_some, Option.pure_def,
      Option.some.injEq] at h
    subst h
    exact ⟨q', .create hnone hsame hmem, ho'⟩
  · rw [if_neg hg] at h
    cases h

theorem Owned.cpuOn_step (ho : Owned arch s.sys s.phase q) {c : Cpu}
    {cpuId entry contextId : BitVec 64}
    (h : s.step arch cfg (.cpuOn c cpuId entry contextId) = some s') :
    ∃ q', StepCase arch cfg s q (.cpuOn c cpuId entry contextId) s' q' ∧
      Owned arch s'.sys s'.phase q' := by
  unfold Smp.step at h
  cases hph : s.phase c with
  | switch old next todo => simp [hph] at h
  | cpuOn call stage => simp [hph] at h
  | idle =>
    have hidle : (s.phase c).isSwitch = false := by rw [hph]; rfl
    cases hcur : s.sys.currentTask c with
    | none => simp [hph, hcur] at h
    | some t =>
      cases hconf : psciConfiguredMpidr cfg cpuId with
      | none =>
        simp only [hph, hcur, hconf, Option.pure_def, Option.some.injEq] at h
        subst h
        exact ⟨q, .callInvalid hph, ho.setPhase hidle rfl⟩
      | some target =>
        simp only [hph, hcur, hconf, Option.pure_def, Option.some.injEq] at h
        subst h
        exact ⟨q, .callOn hph hconf, ho.setPhase hidle rfl⟩

/-- A write to the new task keeps the lists. -/
theorem Owned.patch (ho : Owned arch s.sys s.phase q) (call : OnCall) (vbar : BitVec 64)
    (t : TaskId) (o : PatchOp) : Owned arch (patchOp cfg s call vbar t o).sys s.phase q := by
  cases o with
  | mpidr =>
    apply ho.modifyTask
    · exact fun _ => rfl
    · exact fun _ => rfl
  | anyPcpu =>
    apply ho.modifyTask
    · exact fun _ => rfl
    · exact fun _ => rfl
  | pcpu =>
    apply ho.modifyTask
    · exact fun _ => rfl
    · exact fun _ => rfl
  | vmpidr => exact ho
  | vbar => exact ho
  | x0 => exact ho

theorem patchOp_phase (call : OnCall) (vbar : BitVec 64) (t : TaskId) (o : PatchOp) :
    (patchOp cfg s call vbar t o).phase = s.phase := by
  cases o <;> rfl

theorem patchOp_currentTask (call : OnCall) (vbar : BitVec 64) (t : TaskId) (o : PatchOp) :
    (patchOp cfg s call vbar t o).sys.currentTask = s.sys.currentTask := by
  cases o <;> rfl

theorem patchOp_gRunning (call : OnCall) (vbar : BitVec 64) (t : TaskId) (o : PatchOp) :
    (patchOp cfg s call vbar t o).sys.gRunning = s.sys.gRunning := by
  cases o <;> rfl

/-- A walk that found nothing. -/
theorem scan_miss {l : List TaskId} {p : TaskId → Bool} (h : l.find? p = none) :
    ∀ t ∈ l, p t = false :=
  fun t ht => Bool.eq_false_iff.mpr (List.find?_eq_none.mp h t ht)

theorem Owned.on_step (ho : Owned arch s.sys s.phase q) {c : Cpu} {mem : Option TaskId}
    {vbar : BitVec 64} (h : s.step arch cfg (.onStep c mem vbar) = some s') :
    ∃ q', StepCase arch cfg s q (.onStep c mem vbar) s' q' ∧ Owned arch s'.sys s'.phase q' := by
  unfold Smp.step at h
  cases hph : s.phase c with
  | idle => simp [hph] at h
  | switch old next todo => simp [hph] at h
  | cpuOn call stage =>
    simp only [hph] at h
    have hout : (s.phase c).isSwitch = false := by rw [hph]; rfl
    by_cases hmem : (mem.all fun t => (s.sys.task t).isNone) = true
    · rw [if_pos hmem] at h
      cases stage with
      | check unread =>
        cases unread with
        | nil =>
          simp only [onStep, ho.lists.scanReady_eq, Option.bind_eq_bind, Option.bind_some] at h
          cases hf : (q .ready).find? fun t => (s.sys.task t).any (hasAffinity call.target) with
          | none =>
            simp only [hf, Option.pure_def, Option.some.injEq] at h
            subst h
            exact ⟨q, .listMiss hph (scan_miss hf), ho.setPhase hout rfl⟩
          | some t =>
            simp only [hf, Option.pure_def, Option.some.injEq] at h
            subst h
            exact ⟨q, .checkHit hph, ho.setPhase hout rfl⟩
        | cons c' unread =>
          simp only [onStep, Option.pure_def] at h
          by_cases hrun : s.sys.testRunning (hasAffinity call.target) c' = true
          · rw [if_pos hrun, Option.some.injEq] at h
            subst h
            exact ⟨q, .checkHit hph, ho.setPhase hout rfl⟩
          · rw [if_neg hrun, Option.some.injEq] at h
            subst h
            exact ⟨q, .checkMiss hph (Bool.eq_false_iff.mpr hrun), ho.setPhase hout rfl⟩
      | create =>
        cases mem with
        | none =>
          simp only [onStep, vmCreateVcpuTask, Option.pure_def, Option.bind_eq_bind,
            Option.bind_some] at h
          rw [if_pos (by decide), Option.some.injEq] at h
          subst h
          exact ⟨q, .denied hph, ho.setPhase hout rfl⟩
        | some t =>
          rw [Option.all_some, Option.isNone_iff_eq_none] at hmem
          obtain ⟨sys', q', hrun, ho', hsame, hq'⟩ := ho.newTask hmem
            (show (⟨10, 0, placeholder, .ready⟩ : Task).state ≠ .exit by simp)
          simp only [onStep, vmCreateVcpuTask, hrun, Option.pure_def, Option.bind_eq_bind,
            Option.bind_some, ne_eq, not_true_eq_false, if_false, Option.elim_some,
            Option.some.injEq] at h
          subst h
          exact ⟨q', .created hph hmem hsame hq', ho'.setPhase hout rfl⟩
      | search =>
        simp only [onStep, ho.lists.scanReady_eq, Option.bind_eq_bind, Option.bind_some] at h
        cases hf : (q .ready).find? fun t =>
            (s.sys.task t).any fun x => x.mpidr == placeholder with
        | none =>
          simp only [hf, Option.pure_def, Option.some.injEq] at h
          subst h
          exact ⟨q, .searchMiss hph (scan_miss hf), ho.setPhase hout rfl⟩
        | some t =>
          simp only [hf, Option.pure_def, Option.some.injEq] at h
          subst h
          have htest := List.find?_some hf
          rw [Option.any_eq_true] at htest
          obtain ⟨x, hx, hxp⟩ := htest
          exact ⟨q, .searchHit hph (List.mem_of_find?_eq_some hf) hx (beq_iff_eq.mp hxp),
            ho.setPhase hout rfl⟩
      | patch t todo =>
        cases todo with
        | nil =>
          simp only [onStep, Option.pure_def, Option.some.injEq] at h
          subst h
          exact ⟨q, .success hph, ho.setPhase hout rfl⟩
        | cons o todo =>
          simp only [onStep, Option.pure_def, Option.some.injEq] at h
          subst h
          refine ⟨q, .patch hph, ?_⟩
          have hpatch : Owned arch (patchOp cfg s call vbar t o).sys s.phase q :=
            ho.patch call vbar t o
          rw [Smp.setPhase, patchOp_phase]
          exact hpatch.setPhase hout rfl
      | returned val =>
        simp only [onStep, Option.pure_def, Option.some.injEq] at h
        subst h
        exact ⟨q, .leave hph, ho.setPhase hout rfl⟩
    · rw [if_neg hmem] at h
      cases h

/-- What a step can do, and that it keeps the invariant. -/
theorem Owned.step (ho : Owned arch s.sys s.phase q) {a : Action}
    (h : s.step arch cfg a = some s') :
    ∃ q', StepCase arch cfg s q a s' q' ∧ Owned arch s'.sys s'.phase q' := by
  cases a with
  | pick c => exact ho.pick_step h
  | switch c regs => exact ho.switch_step h
  | create t x vcpu => exact ho.create_step h
  | cpuOn c cpuId entry contextId => exact ho.cpuOn_step h
  | onStep c mem vbar => exact ho.on_step h

end

theorem owned_init (arch : Arch) : Owned arch initSmp.sys initSmp.phase fun _ => [] := by
  refine ⟨holds_initSched.lists, fun _ => List.not_mem_nil, ⟨?_, ?_, ?_⟩, ?_, rfl, ?_⟩
  · exact fun t ht => nomatch ht
  · intro t p hin
    cases p with
    | ready => cases hin
    | taken c => cases hin
    | leaving c => cases hin
  · intro t p p' hin
    cases p with
    | ready => cases hin
    | taken c => cases hin
    | leaving c => cases hin
  · exact fun c old next todo hph => nomatch hph
  · exact fun t x hx => nomatch hx

/-- The invariant of every run. -/
theorem SmpRun.owned {arch : Arch} {cfg : GuestConfig} {ok : Smp → Action → Prop} {s : Smp}
    (hs : SmpRun arch cfg ok s) : ∃ q, Owned arch s.sys s.phase q := by
  induction hs with
  | init => exact ⟨_, owned_init arch⟩
  | step _ _ hstep ih =>
    obtain ⟨q, ho⟩ := ih
    obtain ⟨q', _, ho'⟩ := ho.step hstep
    exact ⟨q', ho'⟩

end HyperCore.Sched
