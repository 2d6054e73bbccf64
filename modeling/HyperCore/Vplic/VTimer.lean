import HyperCore.Vplic.Lines

/-!
# The virtual timer

The guest arms its timer by an SBI call, and a timer interrupt or a context switch refreshes it.
The state is in two places: deadline, `armed` and `pending` in `carch.timer`, and the VS-timer bit
in the image of pending interrupts. An operation on the timer of one vCPU is a function of these
(`Tick`); what the other vCPUs and the other interrupts do in between does not touch them.

`vtimer_exact` has what the guest can rely on after every operation.
-/

namespace HyperCore.Vplic

open Sched

/-! ## The operations -/

def riscvTimerArm (s : Machine) (c : Cpu) (t : TaskId) (deadline now : BitVec 64) : Machine :=
  let s := { s with timer := Function.update s.timer t ⟨deadline, true, false⟩ }
  let s := { s with virqs := riscvVirtIrqClear s.virqs c (s.sys.currentTask c) t irqVsTimer }
  riscvTimerRefresh s c t now

def riscvTimerClear (s : Machine) (c : Cpu) (t : TaskId) : Machine :=
  let off := { s.timer t with armed := false, pending := false }
  let s := { s with timer := Function.update s.timer t off }
  { s with virqs := riscvVirtIrqClear s.virqs c (s.sys.currentTask c) t irqVsTimer }

/-- What happens to a vCPU: the operations of its timer, and an update of another interrupt. In
between the scheduler and the PLIC go on. -/
inductive TimerOp
  | arm (deadline : BitVec 64)
  | clear
  | refresh
  | virq (irq : Nat) (other : irq ≠ irqVsTimer ∧ irq < 64) (asserted : Bool)
  | elsewhere (sys : System) (regs : Regs)

/-- An operation on hart `hart`, for `vcpu`, when the cycle counter is `now`. -/
structure TimerEvent where
  hart : Cpu
  vcpu : TaskId
  now : BitVec 64
  op : TimerOp

def Machine.timerStep (s : Machine) (e : TimerEvent) : Machine :=
  match e.op with
  | .arm deadline => riscvTimerArm s e.hart e.vcpu deadline e.now
  | .clear => riscvTimerClear s e.hart e.vcpu
  | .refresh => riscvTimerRefresh s e.hart e.vcpu e.now
  | .virq irq _ true =>
    { s with virqs := riscvVirtIrqAssert s.virqs e.hart (s.sys.currentTask e.hart) e.vcpu irq }
  | .virq irq _ false =>
    { s with virqs := riscvVirtIrqClear s.virqs e.hart (s.sys.currentTask e.hart) e.vcpu irq }
  | .elsewhere sys regs => { s with sys := sys, regs := regs }

def Machine.timerRun (s : Machine) (es : List TimerEvent) : Machine := es.foldl Machine.timerStep s

/-- The deadline that the last `arm` for `t` gave. -/
def lastArmed (t : TaskId) (es : List TimerEvent) : Option (BitVec 64) :=
  es.foldl (fun last e =>
    match e.op with
    | .arm deadline => if e.vcpu = t then some deadline else last
    | _ => last) none

/-- The VS-timer bit of the image. -/
def Machine.timerBit (s : Machine) (t : TaskId) : Bool := (s.virqs.image t).getLsbD irqVsTimer

/-! ## One vCPU -/

/-- The timer of a vCPU with its bit of the image. -/
structure Tick where
  timer : VcpuTimer
  bit : Bool

def Machine.tick (s : Machine) (t : TaskId) : Tick := ⟨s.timer t, s.timerBit t⟩

def Tick.refresh (x : Tick) (now : BitVec 64) : Tick :=
  if x.timer.armed ∧ x.timer.deadlineCycles ≤ now then
    ⟨{ x.timer with armed := false, pending := true }, true⟩
  else x

def Tick.clear (x : Tick) : Tick := ⟨{ x.timer with armed := false, pending := false }, false⟩

def Tick.arm (deadline now : BitVec 64) : Tick :=
  Tick.refresh ⟨⟨deadline, true, false⟩, false⟩ now

/-- What an event does to the timer of the vCPU it is for. -/
def Tick.next (x : Tick) (e : TimerEvent) : Tick :=
  match e.op with
  | .arm deadline => Tick.arm deadline e.now
  | .clear => x.clear
  | .refresh => x.refresh e.now
  | .virq _ _ _ => x
  | .elsewhere _ _ => x

section

variable {s : Machine} {c : Cpu} {t u : TaskId} {now deadline clock : BitVec 64} {x : Tick}
  {e : TimerEvent} {es : List TimerEvent} {last : Option (BitVec 64)}

theorem refresh_tick : (riscvTimerRefresh s c t now).tick u =
    if u = t then (s.tick u).refresh now else s.tick u := by
  unfold riscvTimerRefresh
  by_cases harmed : (s.timer t).armed = false
  · rw [if_pos harmed]
    split
    · next hu =>
      rw [Tick.refresh, if_neg]
      rintro ⟨h, -⟩
      rw [hu] at h
      exact Bool.false_ne_true (harmed.symm.trans h)
    · rfl
  · rw [if_neg harmed]
    by_cases hnow : now < (s.timer t).deadlineCycles
    · rw [if_pos hnow]
      split
      · next hu =>
        rw [Tick.refresh, if_neg]
        rintro ⟨-, h⟩
        rw [hu] at h
        exact absurd hnow (BitVec.not_lt.mpr h)
      · rfl
    · rw [if_neg hnow]
      unfold Machine.tick Machine.timerBit
      simp only [Function.update_apply, assert_image (i := irqVsTimer) (by decide), and_true]
      split
      · next hu =>
        subst hu
        rw [Tick.refresh, if_pos ⟨Bool.eq_true_of_not_eq_false harmed, BitVec.not_lt.mp hnow⟩]
      · rfl

theorem clear_tick : (riscvTimerClear s c t).tick u =
    if u = t then (s.tick u).clear else s.tick u := by
  unfold riscvTimerClear Machine.tick Machine.timerBit
  simp only [Function.update_apply, clear_image (i := irqVsTimer) (j := irqVsTimer) (by decide)
    (by decide), and_true]
  split
  · next hu =>
    subst hu
    rfl
  · rfl

theorem arm_tick : (riscvTimerArm s c t deadline now).tick u =
    if u = t then Tick.arm deadline now else s.tick u := by
  unfold riscvTimerArm
  rw [refresh_tick]
  unfold Machine.tick Machine.timerBit
  simp only [Function.update_apply, clear_image (i := irqVsTimer) (j := irqVsTimer) (by decide)
    (by decide), and_true]
  split <;> rfl

/-- An event reaches the timer of its own vCPU only. -/
theorem timerStep_tick : (s.timerStep e).tick u =
    if u = e.vcpu then (s.tick u).next e else s.tick u := by
  unfold Machine.timerStep Tick.next
  cases e.op with
  | arm deadline => exact arm_tick
  | clear => exact clear_tick
  | refresh => exact refresh_tick
  | virq irq other asserted =>
    have hbit : ¬ (u = e.vcpu ∧ irqVsTimer = irq) := fun h => other.1 h.2.symm
    rw [ite_self]
    unfold Machine.tick Machine.timerBit
    cases asserted with
    | true => simp only [assert_image other.2, if_neg hbit]
    | false => simp only [clear_image (j := irqVsTimer) other.2 (by decide), if_neg hbit]
  | elsewhere sys regs => exact (ite_self _).symm

theorem lastArmed_snoc : lastArmed t (es ++ [e]) =
    match e.op with
    | .arm deadline => if e.vcpu = t then some deadline else lastArmed t es
    | _ => lastArmed t es := by
  unfold lastArmed
  rw [List.foldl_append]
  rfl

theorem timerRun_snoc : s.timerRun (es ++ [e]) = (s.timerRun es).timerStep e := by
  unfold Machine.timerRun
  rw [List.foldl_append]
  rfl

/-! ## The invariant -/

/-- `last` is the deadline armed last and `clock` the cycle counter. -/
structure TickInv (x : Tick) (last : Option (BitVec 64)) (clock : BitVec 64) : Prop where
  exclusive : ¬ (x.timer.armed = true ∧ x.timer.pending = true)
  image : x.bit = x.timer.pending
  armed : x.timer.armed = true → last = some x.timer.deadlineCycles
  pending : x.timer.pending = true → ∃ d, last = some d ∧ d ≤ clock

theorem TickInv.later (h : TickInv x last clock) (hle : clock ≤ now) : TickInv x last now where
  exclusive := h.exclusive
  image := h.image
  armed := h.armed
  pending hp := by
    obtain ⟨d, hd, hclock⟩ := h.pending hp
    exact ⟨d, hd, BitVec.le_trans hclock hle⟩

theorem TickInv.refresh (h : TickInv x last now) : TickInv (x.refresh now) last now := by
  unfold Tick.refresh
  split
  · next hdue =>
    exact {
      exclusive := fun hboth => Bool.false_ne_true hboth.1
      image := rfl
      armed := fun harmed => absurd harmed Bool.false_ne_true
      pending := fun _ => ⟨_, h.armed hdue.1, hdue.2⟩ }
  · exact h

theorem tickInv_clear : TickInv x.clear last clock where
  exclusive hboth := Bool.false_ne_true hboth.1
  image := rfl
  armed harmed := absurd harmed Bool.false_ne_true
  pending hp := absurd hp Bool.false_ne_true

theorem TickInv.arm : TickInv (Tick.arm deadline now) (some deadline) now :=
  TickInv.refresh {
    exclusive := fun hboth => Bool.false_ne_true hboth.2
    image := rfl
    armed := fun _ => rfl
    pending := fun hp => absurd hp Bool.false_ne_true }

/-- The step: an event at `e.now` for the vCPU itself or for another one. -/
theorem TickInv.step (h : TickInv (s.tick t) (lastArmed t es) e.now) :
    TickInv ((s.timerStep e).tick t) (lastArmed t (es ++ [e])) e.now := by
  rw [timerStep_tick, lastArmed_snoc]
  split
  · next ht =>
    unfold Tick.next
    cases e.op with
    | arm deadline =>
      simp only [if_pos ht.symm]
      exact TickInv.arm
    | clear => exact tickInv_clear
    | refresh => exact h.refresh
    | virq irq other asserted => exact h
    | elsewhere sys regs => exact h
  · next ht =>
    cases e.op with
    | arm deadline =>
      simp only [if_neg (Ne.symm ht)]
      exact h
    | clear | refresh | virq irq other asserted | elsewhere sys regs => exact h

theorem tick_init : initMachine.tick t = ⟨⟨0, false, false⟩, false⟩ := by
  have hbit : initMachine.timerBit t = false := BitVec.getLsbD_zero
  unfold Machine.tick
  rw [hbit]
  rfl

/-- The run. -/
theorem timerRun_inv (hclock : es.Pairwise fun a b => a.now ≤ b.now)
    (hle : ∀ e ∈ es, e.now ≤ clock) :
    TickInv ((initMachine.timerRun es).tick t) (lastArmed t es) clock := by
  induction es using List.reverseRecOn generalizing clock with
  | nil =>
    change TickInv (initMachine.tick t) none clock
    rw [tick_init]
    exact {
      exclusive := fun hboth => Bool.false_ne_true hboth.1
      image := rfl
      armed := fun harmed => absurd harmed Bool.false_ne_true
      pending := fun hp => absurd hp Bool.false_ne_true }
  | append_singleton es e ih =>
    obtain ⟨hbefore, -, hlast⟩ := List.pairwise_append.mp hclock
    have hinv := ih hbefore fun e' he' => hlast e' he' e (List.mem_singleton_self e)
    rw [timerRun_snoc]
    exact hinv.step.later (hle e (List.mem_append_right es (List.mem_singleton_self e)))

/-! ## What the guest sees -/

/-- An arm sets the bit at once when the deadline is past, and withdraws it otherwise. -/
theorem arm_bit : (Tick.arm deadline now).bit = decide (deadline ≤ now) := by
  unfold Tick.arm Tick.refresh
  by_cases hdue : deadline ≤ now
  · rw [if_pos ⟨rfl, hdue⟩, decide_eq_true hdue]
  · rw [if_neg fun h => hdue h.2, decide_eq_false hdue]

theorem refresh_bit (harmed : x.timer.armed = true) (hdue : x.timer.deadlineCycles ≤ now) :
    (x.refresh now).bit = true := by
  rw [Tick.refresh, if_pos ⟨harmed, hdue⟩]

/-- After any run and a last event `e`, the timer of `t` is armed or pending and not both, its bit
of the image is `pending`, a set bit means that the counter has reached the deadline armed last, and
the bit is set by an arm and by a refresh of an armed timer once the deadline is reached. -/
theorem vtimer_exact (t : TaskId) (hclock : (es ++ [e]).Pairwise fun a b => a.now ≤ b.now) :
    let before := initMachine.timerRun es
    let after := initMachine.timerRun (es ++ [e])
    (¬ ((after.timer t).armed = true ∧ (after.timer t).pending = true) ∧
      after.timerBit t = (after.timer t).pending) ∧
    (after.timerBit t = true → ∃ d, lastArmed t (es ++ [e]) = some d ∧ d ≤ e.now) ∧
    (∀ d, e.vcpu = t → e.op = .arm d →
      (after.timerBit t = true ↔ d ≤ e.now) ∧ (e.now < d → (after.timer t).pending = false)) ∧
    (e.vcpu = t → e.op = .refresh → (before.timer t).armed = true →
      ∃ d, lastArmed t es = some d ∧ (d ≤ e.now → after.timerBit t = true)) := by
  intro before after
  obtain ⟨hbefore, -, hlast⟩ := List.pairwise_append.mp hclock
  have hinv : TickInv (before.tick t) (lastArmed t es) e.now :=
    timerRun_inv hbefore fun e' he' => hlast e' he' e (List.mem_singleton_self e)
  have hafter : after = before.timerStep e := timerRun_snoc
  have hinv' : TickInv (after.tick t) (lastArmed t (es ++ [e])) e.now := by
    rw [hafter]
    exact hinv.step
  refine ⟨⟨hinv'.exclusive, hinv'.image⟩, fun hbit => hinv'.pending (hinv'.image.symm.trans hbit),
    fun d ht hop => ?_, fun ht hop harmed => ?_⟩
  · have htick : after.tick t = Tick.arm d e.now := by
      rw [hafter, timerStep_tick, if_pos ht.symm, Tick.next, hop]
    have hbit : after.timerBit t = decide (d ≤ e.now) := (congrArg Tick.bit htick).trans arm_bit
    refine ⟨by rw [hbit, decide_eq_true_iff], fun hlt => ?_⟩
    have hpending : after.timerBit t = (after.timer t).pending := hinv'.image
    rw [← hpending, hbit, decide_eq_false (BitVec.not_le.mpr hlt)]
  · have htick : after.tick t = (before.tick t).refresh e.now := by
      rw [hafter, timerStep_tick, if_pos ht.symm, Tick.next, hop]
    refine ⟨_, hinv.armed harmed, fun hdue => ?_⟩
    exact (congrArg Tick.bit htick).trans (refresh_bit harmed hdue)

end

/-- A timer is armed for cycle 10 at cycle 3, and refreshed at cycle 12. -/
theorem vtimer_exact_fires :
    (initMachine.timerRun ([⟨0, 0, 3, .arm 10⟩] ++ [⟨0, 0, 12, .refresh⟩])).timerBit 0 = true := by
  have hclock : ([⟨0, 0, 3, .arm 10⟩] ++ [⟨0, 0, 12, .refresh⟩] : List TimerEvent).Pairwise
      fun a b => a.now ≤ b.now := by decide
  have hrun := vtimer_exact 0 hclock
  obtain ⟨d, hd, hbit⟩ := hrun.2.2.2 rfl rfl (by decide +kernel)
  exact hbit (by
    cases hd
    decide)

end HyperCore.Vplic
