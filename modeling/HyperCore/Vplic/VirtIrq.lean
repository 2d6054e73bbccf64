import HyperCore.Sched.Psci
import HyperCore.Vplic.Index

/-!
# Virtual interrupts of RISC-V vCPUs

A vCPU has an image of its pending interrupts, `virt_irq_pending`. The harts' `hvip` is meant
to be a projection of it: an update of the image of the vCPU that a hart is running is made in
`hvip` too, and a context switch writes `hvip` from the image.

This module has `riscv_virt_irq_manager.c`, the part of `plic.c` that drives the output
lines into the images, the vCPU's timer, and the RISC-V `sched_yield`. A vCPU is named by its
task. The reschedule IPIs that go with a raised line are left out: they have no effect on the
images, and what a hart does on a soft interrupt is in `Vplic.Hvip`.
-/

namespace HyperCore.Vplic

open Sched

def irqVsSoft : Nat := 2
def irqVsTimer : Nat := 6
def irqVsExt : Nat := 10

/-! ## Images and `hvip` -/

/-- `virt_irq_pending` of each vCPU and `hvip` of each hart. -/
structure Virqs where
  image : TaskId → BitVec 64
  hvip : Cpu → BitVec 64

def riscvVirtIrqBit (irq : Nat) : BitVec 64 := if 64 ≤ irq then 0 else 1#64 <<< irq

/-- An update of the image of `t` on hart `c`, whose `current_task()` is `current`. `f` is what it
does to a register. -/
def Virqs.update (s : Virqs) (c : Cpu) (current : Option TaskId) (t : TaskId)
    (f : BitVec 64 → BitVec 64) : Virqs where
  image := Function.update s.image t (f (s.image t))
  hvip := if current = some t then Function.update s.hvip c (f (s.hvip c)) else s.hvip

def riscvVirtIrqAssert (s : Virqs) (c : Cpu) (current : Option TaskId) (t : TaskId) (irq : Nat) :
    Virqs :=
  let bit := riscvVirtIrqBit irq
  if bit = 0 then s else s.update c current t (· ||| bit)

def riscvVirtIrqClear (s : Virqs) (c : Cpu) (current : Option TaskId) (t : TaskId) (irq : Nat) :
    Virqs :=
  let bit := riscvVirtIrqBit irq
  if bit = 0 then s else s.update c current t (· &&& ~~~bit)

def riscvVirtIrqMaterialize (s : Virqs) (c : Cpu) (current : Option TaskId) (t : TaskId) : Virqs :=
  if current = some t then { s with hvip := Function.update s.hvip c (s.image t) } else s

/-- `csrw(CSR_HVIP, 0)` of `vcpu_context_save` and `vcpu_context_restore`. -/
def Virqs.clearHvip (s : Virqs) (c : Cpu) : Virqs :=
  { s with hvip := Function.update s.hvip c 0 }

theorem riscvVirtIrqBit_getLsbD {irq : Nat} (h : irq < 64) (j : Nat) :
    (riscvVirtIrqBit irq).getLsbD j = decide (j = irq) := by
  rw [riscvVirtIrqBit, if_neg (Nat.not_le.mpr h), show 1#64 <<< irq = BitVec.twoPow 64 irq from rfl,
    BitVec.getLsbD_twoPow, ← Bool.decide_and]
  exact decide_eq_decide.mpr ⟨fun h => h.2.symm, fun he => ⟨h, he.symm⟩⟩

theorem riscvVirtIrqBit_ne_zero {irq : Nat} (h : irq < 64) : riscvVirtIrqBit irq ≠ 0 := by
  intro h0
  have hbit := riscvVirtIrqBit_getLsbD h irq
  rw [h0, decide_eq_true rfl] at hbit
  exact absurd hbit (by simp)

theorem getLsbD_set {irq : Nat} (h : irq < 64) (x : BitVec 64) (j : Nat) :
    (x ||| riscvVirtIrqBit irq).getLsbD j = if j = irq then true else x.getLsbD j := by
  rw [BitVec.getLsbD_or, riscvVirtIrqBit_getLsbD h]
  by_cases hj : j = irq <;> simp [hj]

theorem getLsbD_clear {irq : Nat} (h : irq < 64) (x : BitVec 64) {j : Nat} (hj : j < 64) :
    (x &&& ~~~riscvVirtIrqBit irq).getLsbD j = if j = irq then false else x.getLsbD j := by
  rw [BitVec.getLsbD_and, BitVec.getLsbD_not, riscvVirtIrqBit_getLsbD h]
  by_cases he : j = irq <;> simp [he, hj]

section

variable {v : Virqs} {c : Cpu} {current : Option TaskId} {t u : TaskId} {i j : Nat}

theorem assert_image (h : i < 64) :
    ((riscvVirtIrqAssert v c current t i).image u).getLsbD j =
      if u = t ∧ j = i then true else (v.image u).getLsbD j := by
  simp only [riscvVirtIrqAssert, riscvVirtIrqBit_ne_zero h, if_false, Virqs.update,
    Function.update_apply]
  by_cases hu : u = t
  · rw [if_pos hu, getLsbD_set h, hu]
    simp
  · simp [hu]

theorem clear_image (h : i < 64) (hj : j < 64) :
    ((riscvVirtIrqClear v c current t i).image u).getLsbD j =
      if u = t ∧ j = i then false else (v.image u).getLsbD j := by
  simp only [riscvVirtIrqClear, riscvVirtIrqBit_ne_zero h, if_false, Virqs.update,
    Function.update_apply]
  by_cases hu : u = t
  · rw [if_pos hu, getLsbD_clear h _ hj, hu]
    simp
  · simp [hu]

theorem materialize_image : (riscvVirtIrqMaterialize v c current t).image = v.image := by
  unfold riscvVirtIrqMaterialize
  split <;> rfl

end

/-! ## The machine -/

/-- `carch.timer` -/
structure VcpuTimer where
  deadlineCycles : BitVec 64
  armed : Bool
  pending : Bool

/-- The scheduler, `g_vplic`, and the interrupts and timers of the vCPUs. -/
structure Machine where
  sys : System
  regs : Regs
  virqs : Virqs
  timer : TaskId → VcpuTimer

def riscvTimerRefresh (s : Machine) (c : Cpu) (t : TaskId) (now : BitVec 64) : Machine :=
  if (s.timer t).armed = false then s
  else if now < (s.timer t).deadlineCycles then s
  else
    { s with
      timer := Function.update s.timer t { s.timer t with armed := false, pending := true }
      virqs := riscvVirtIrqAssert s.virqs c (s.sys.currentTask c) t irqVsTimer }

def vplicSetTaskVseip (s : Machine) (c : Cpu) (task : Option TaskId) (asserted : Bool) : Machine :=
  match task with
  | none => s
  | some t =>
    if asserted then
      { s with virqs := riscvVirtIrqAssert s.virqs c (s.sys.currentTask c) t irqVsExt }
    else { s with virqs := riscvVirtIrqClear s.virqs c (s.sys.currentTask c) t irqVsExt }

/-- `vcpu_id` of a task's vCPU as a PLIC context. It is set to the hart id, like `mpidr`. -/
def vplicContext (x : Task) : Nat := (x.mpidr.setWidth 32).toNat

def riscvVplicRefresh (s : Machine) (c : Cpu) : Option Machine :=
  match s.sys.currentTask c with
  | none => some s
  | some t => do
    let x ← s.sys.task t
    pure (vplicSetTaskVseip s c (some t)
      (vplicContextHasDeliverableLocked (vplicContext x) ⟨s.regs, []⟩).1)

def riscvFindGuestVcpu (s : System) (hartid : BitVec 64) : Option (Option TaskId) :=
  s.findTask fun x => x.mpidr == hartid

/-- The loop of `vplic_update_all_vseip` that drives the lines, from `context` on. -/
def driveFrom (s : Machine) (c : Cpu) (context : Nat) : List Bool → Option Machine
  | [] => some s
  | asserted :: rest => do
    let task ← riscvFindGuestVcpu s.sys (BitVec.ofNat 64 context)
    driveFrom (vplicSetTaskVseip s c task asserted) c (context + 1) rest

/-- A call into the PLIC on hart `c`, with the lines it drives at its end. -/
def Machine.call (s : Machine) (c : Cpu) (op : Op) : Option Machine :=
  let s' := { s with regs := (op.run ⟨s.regs, []⟩).2.regs }
  match (op.run ⟨s.regs, []⟩).1.2 with
  | none => some s'
  | some asserted => driveFrom s' c 0 asserted

/-! ## Scheduling -/

/-- `__vcpu_switch` to `next`, at cycle `now`. -/
def vcpuSwitch (s : Machine) (c : Cpu) (next : TaskId) (now : BitVec 64) : Option Machine := do
  let s := { s with virqs := s.virqs.clearHvip c }
  let s := { s with sys := setCurrent s.sys c (some next) }
  let s := riscvTimerRefresh s c next now
  let s ← riscvVplicRefresh s c
  pure { s with virqs := riscvVirtIrqMaterialize s.virqs c (s.sys.currentTask c) next }

/-- The outgoing task goes back on the ready list, unless it has exited. -/
def requeue (sys : System) (current : Option TaskId) : Option System :=
  match current with
  | none => some sys
  | some u => do
    let x ← sys.task u
    if x.state = .exit then pure sys else simpleSchedulerSched sys u

/-- The RISC-V `sched_yield` on hart `c`, past the test that the boot vCPU has started. -/
def riscvSchedYield (s : Machine) (c : Cpu) (now : BitVec 64) : Option Machine := do
  let current := s.sys.currentTask c
  let (next, sys) ← simpleSchedulerNextNoPublish s.sys c
  match next with
  | none => pure { s with sys := sys }
  | some t => do
    let sys ← requeue sys current
    vcpuSwitch { s with sys := sys } c t now

/-- `riscv_create_guest_vcpu`, with the result of its allocation. The vCPU starts with no pending
interrupt and its timer off. -/
def riscvCreateGuestVcpu (s : Machine) (mem : Option TaskId) (onlineCpus : Nat)
    (hartid : BitVec 64) : Option Machine := do
  let affinity : Int := (hartid.toNat % onlineCpus : Nat)
  let (_, sys) ← vmCreateVcpuTask s.sys mem 10 affinity hartid
  match mem with
  | none => pure { s with sys := sys }
  | some t =>
    pure { s with
      sys := sys
      virqs := { s.virqs with image := Function.update s.virqs.image t 0 }
      timer := Function.update s.timer t ⟨0, false, false⟩ }

end HyperCore.Vplic
