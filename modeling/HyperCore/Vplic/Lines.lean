import HyperCore.Vplic.VirtIrq

/-!
# The output lines of the PLIC

The VS-external bit of a vCPU's image is a cached answer to "is some irq deliverable to its
context". Every operation recomputes it for all contexts, and a context switch for the vCPU
that comes in. `vplic_line_exact` says that the cache is always right, for every sequence of
operations and switches, whatever the guest writes to the registers.

The invariant is `Driven`. Its `ids` and `distinct` make the lookup by hart id find each
vCPU, `line` is the result.
-/

namespace HyperCore.Vplic

open Sched LinkRing

/-! ## Runs -/

/-- `g_guest_vcpus`, from the boot argument `guest_vcpus` if there is one. -/
def guestVcpus (bootarg : Option (BitVec 64)) : Nat :=
  match bootarg with
  | none => 1
  | some n => if n < 1 then 1 else if 4 < n then 4 else n.toNat

def initMachine : Machine where
  sys := initSched
  regs := initRegs
  virqs := ⟨fun _ => 0, fun _ => 0⟩
  timer _ := ⟨0, false, false⟩

/-- Runs of the machine: `n` harts of the guest were created, and `accessed` tells whether the
PLIC was called yet. All vCPUs are created before that, in the order of their ids. -/
inductive MachineRun (vcpus onlineCpus : Nat) : Nat → Bool → Machine → Prop
  | init : MachineRun vcpus onlineCpus 0 false initMachine
  | create {n : Nat} {s s' : Machine} (mem : Option TaskId) :
      MachineRun vcpus onlineCpus n false s → n < vcpus → (∀ t ∈ mem, s.sys.task t = none) →
      riscvCreateGuestVcpu s mem onlineCpus (BitVec.ofNat 64 n) = some s' →
      MachineRun vcpus onlineCpus (n + 1) false s'
  | call {n : Nat} {accessed : Bool} {s s' : Machine} (c : Cpu) (op : Op) :
      MachineRun vcpus onlineCpus n accessed s → s.call c op = some s' →
      MachineRun vcpus onlineCpus n true s'
  | yield {n : Nat} {accessed : Bool} {s s' : Machine} (c : Cpu) (now : BitVec 64) :
      MachineRun vcpus onlineCpus n accessed s → riscvSchedYield s c now = some s' →
      MachineRun vcpus onlineCpus n accessed s'

/-- The VS-external bit of a vCPU's image. -/
def Machine.line (s : Machine) (t : TaskId) : Bool := (s.virqs.image t).getLsbD irqVsExt

structure Driven (s : Machine) (n : Nat) (accessed : Bool) (q : ListHead → List TaskId) :
    Prop where
  holds : Holds s.sys q
  noWait : ∀ u, u ∉ q .wait
  count : n ≤ vplicContexts
  ids : ∀ t x, s.sys.task t = some x → ∃ k, k < n ∧ x.mpidr = BitVec.ofNat 64 k
  distinct : ∀ t u x y, s.sys.task t = some x → s.sys.task u = some y → x.mpidr = y.mpidr → t = u
  untouched : accessed = false → s.regs = initRegs
  line : ∀ t x, s.sys.task t = some x → s.line t = hasDeliverable s.regs (vplicContext x)

/-! ## One line -/

section

variable {s s' : Machine} {c : Cpu} {t u : TaskId}

theorem vplicSetTaskVseip_sys (task : Option TaskId) (asserted : Bool) :
    (vplicSetTaskVseip s c task asserted).sys = s.sys := by
  cases task <;> cases asserted <;> rfl

theorem vplicSetTaskVseip_regs (task : Option TaskId) (asserted : Bool) :
    (vplicSetTaskVseip s c task asserted).regs = s.regs := by
  cases task <;> cases asserted <;> rfl

theorem vplicSetTaskVseip_line (task : Option TaskId) (asserted : Bool) :
    (vplicSetTaskVseip s c task asserted).line u = if task = some u then asserted else s.line u := by
  cases task with
  | none => rfl
  | some t =>
    have hiff : u = t ∧ irqVsExt = irqVsExt ↔ some t = some u :=
      ⟨fun h => congrArg some h.1.symm, fun h => ⟨(Option.some.inj h).symm, rfl⟩⟩
    cases asserted with
    | true => exact (assert_image (i := irqVsExt) (by decide)).trans (if_congr hiff rfl rfl)
    | false =>
      exact (clear_image (i := irqVsExt) (by decide) (by decide)).trans (if_congr hiff rfl rfl)

theorem riscvTimerRefresh_frame (now : BitVec 64) :
    (riscvTimerRefresh s c t now).sys = s.sys ∧ (riscvTimerRefresh s c t now).regs = s.regs ∧
      (riscvTimerRefresh s c t now).line u = s.line u := by
  unfold riscvTimerRefresh
  split
  · exact ⟨rfl, rfl, rfl⟩
  split
  · exact ⟨rfl, rfl, rfl⟩
  · have hother : ¬ (u = t ∧ irqVsExt = irqVsTimer) := fun h => absurd h.2 (by decide)
    exact ⟨rfl, rfl, (assert_image (i := irqVsTimer) (by decide)).trans (if_neg hother)⟩

theorem hasDeliverable_eq (r : Regs) (context : Nat) :
    (vplicContextHasDeliverableLocked context ⟨r, []⟩).1 = hasDeliverable r context := by
  rcases Nat.lt_or_ge context vplicContexts with hc | hc
  · exact (reads_hasDeliverable hc ⟨r, []⟩).1
  · rw [vplicContextHasDeliverableLocked, if_pos hc, hasDeliverable, eq_comm]
    refine List.any_eq_false.mpr fun irq _ => ?_
    simp [deliverable, Nat.not_lt.mpr hc]

/-- A bit of the image says what the scan over all irqs says. -/
theorem hasDeliverable_iff (r : Regs) (context : Nat) : hasDeliverable r context = true ↔
    ∃ irq, (vplicIrqDeliverableLocked context irq ⟨r, []⟩).1 = true := by
  rw [hasDeliverable, List.any_eq_true]
  refine exists_congr fun irq => ?_
  rw [(reads_deliverable context irq ⟨r, []⟩).1, List.mem_range'_1]
  refine and_iff_right_of_imp fun hd => ?_
  have hv := deliverable_valid hd
  omega

theorem riscvVplicRefresh_spec {x : Task} (hc : s.sys.currentTask c = some t)
    (hx : s.sys.task t = some x) : riscvVplicRefresh s c =
      some (vplicSetTaskVseip s c (some t) (hasDeliverable s.regs (vplicContext x))) := by
  simp only [riscvVplicRefresh, hc, hx, Option.bind_eq_bind, Option.bind_some, Option.pure_def,
    hasDeliverable_eq]

end

/-! ## All lines -/

theorem vplicContext_eq {x : Task} {k : Nat} (hx : x.mpidr = BitVec.ofNat 64 k)
    (hk : k < vplicContexts) : vplicContext x = k := by
  have hlt : k < 4 := hk
  rw [vplicContext, hx, BitVec.toNat_setWidth, BitVec.toNat_ofNat]
  omega

theorem ofNat_hartid_inj {j k : Nat} (hj : j < vplicContexts) (hk : k < vplicContexts) :
    BitVec.ofNat 64 j = BitVec.ofNat 64 k ↔ j = k := by
  have hj : j < 4 := hj
  have hk : k < 4 := hk
  rw [← BitVec.toNat_inj, BitVec.toNat_ofNat, BitVec.toNat_ofNat]
  omega

section

variable {s s' : Machine} {c : Cpu} {t u : TaskId} {n : Nat} {accessed : Bool}
  {q : ListHead → List TaskId}

theorem Driven.find (hd : Driven s n accessed q) (hartid : BitVec 64) :
    ∃ r, riscvFindGuestVcpu s.sys hartid = some r ∧
      ∀ t, r = some t ↔ ∃ x, s.sys.task t = some x ∧ x.mpidr = hartid := by
  obtain ⟨r, hr, hall⟩ := hd.holds.findTask_spec hd.noWait (f := fun x => x.mpidr == hartid)
    fun hx hy hxm hym => hd.distinct _ _ _ _ hx hy ((beq_iff_eq.mp hxm).trans (beq_iff_eq.mp hym).symm)
  refine ⟨r, hr, fun t => (hall t).trans (exists_congr fun x => and_congr_right fun _ => ?_)⟩
  exact beq_iff_eq

/-- Driving the lines of the contexts from `k` on. -/
theorem drive_spec {ls : List Bool} {k : Nat}
    (hfind : ∀ hartid, ∃ r, riscvFindGuestVcpu s.sys hartid = some r ∧
      ∀ t, r = some t ↔ ∃ x, s.sys.task t = some x ∧ x.mpidr = hartid)
    (hlen : k + ls.length ≤ vplicContexts) :
    ∃ s', driveFrom s c k ls = some s' ∧ s'.sys = s.sys ∧ s'.regs = s.regs ∧
      ∀ t x i, s.sys.task t = some x → x.mpidr = BitVec.ofNat 64 i → i < vplicContexts →
        s'.line t = if k ≤ i then (ls[i - k]?).getD (s.line t) else s.line t := by
  induction ls generalizing s k with
  | nil =>
    refine ⟨s, rfl, rfl, rfl, fun t x i _ _ _ => ?_⟩
    rw [List.getElem?_nil, Option.getD_none, ite_self]
  | cons a rest ih =>
    obtain ⟨r, hr, hall⟩ := hfind (BitVec.ofNat 64 k)
    rw [List.length_cons] at hlen
    obtain ⟨s', hs', hsys, hregs, hline⟩ := ih (s := vplicSetTaskVseip s c r a) (k := k + 1)
      (by rw [vplicSetTaskVseip_sys]; exact hfind) (by omega)
    rw [vplicSetTaskVseip_sys] at hsys hline
    rw [vplicSetTaskVseip_regs] at hregs
    refine ⟨s', ?_, hsys, hregs, fun t x i hx hid hi => ?_⟩
    · rw [driveFrom, hr]
      exact hs'
    · rw [hline t x i hx hid hi, vplicSetTaskVseip_line]
      have hself : r = some t ↔ i = k := by
        rw [hall t, ← ofNat_hartid_inj hi (by omega), ← hid]
        constructor
        · rintro ⟨y, hy, hyk⟩
          rw [Option.some.inj (hx.symm.trans hy), hyk]
        · exact fun h => ⟨x, hx, h⟩
      rcases Nat.lt_trichotomy i k with hlt | rfl | hgt
      · have hne : ¬ r = some t := fun h => Nat.ne_of_lt hlt (hself.mp h)
        rw [if_neg (Nat.not_le.mpr (Nat.lt_succ_of_lt hlt)), if_neg hne, if_neg (Nat.not_le.mpr hlt)]
      · rw [if_neg (Nat.not_succ_le_self i), if_pos (hself.mpr rfl), if_pos (Nat.le_refl _),
          Nat.sub_self]
        rfl
      · have hne : ¬ r = some t := fun h => Nat.ne_of_gt hgt (hself.mp h)
        rw [if_pos (Nat.succ_le_of_lt hgt), if_neg hne, if_pos (Nat.le_of_lt hgt),
          show i - k = i - (k + 1) + 1 by omega, List.getElem?_cons_succ]

theorem lines_getElem {r : Regs} {i : Nat} (hi : i < vplicContexts) :
    (lines r)[i]? = some (hasDeliverable r i) := by
  rw [lines, List.getElem?_map, List.getElem?_range hi, Option.map_some]

theorem lines_length (r : Regs) : (lines r).length = vplicContexts := by
  rw [lines, List.length_map, List.length_range]

/-- A call that is not ignored drives every line to what the arrays then say. -/
theorem Driven.call_step (hd : Driven s n accessed q) (c : Cpu) (op : Op) :
    ∃ s', s.call c op = some s' ∧ Driven s' n true q := by
  obtain ⟨v, hruns, -⟩ := op.runs
  obtain ⟨hval, hafter, -⟩ := hruns ⟨s.regs, []⟩
  have hlines : (op.run ⟨s.regs, []⟩).1.2 =
      if op.Ignored then none else some (lines (op.after s.regs)) := congrArg Prod.snd hval
  unfold Machine.call
  rw [hlines, hafter]
  cases hi : op.Ignored with
  | true =>
    have hsame : op.after s.regs = s.regs := by
      cases op with
      | raise irq | clear irq =>
        simp only [Op.Ignored, Bool.not_eq_true'] at hi
        simp only [Op.after, hi, Bool.false_eq_true, if_false]
      | read _ | write _ _ => cases hi
    refine ⟨_, rfl, hd.holds, hd.noWait, hd.count, hd.ids, hd.distinct, fun h => ?_, ?_⟩
    · cases h
    · intro t x hx
      exact (hd.line t x hx).trans (congrArg (hasDeliverable · (vplicContext x)) hsame.symm)
  | false =>
    have hlen : 0 + (lines (op.after s.regs)).length ≤ vplicContexts := by
      rw [lines_length, Nat.zero_add]
    obtain ⟨s', hs', hsys, hregs, hline⟩ := drive_spec (c := c)
      (s := { s with regs := op.after s.regs }) hd.find hlen
    refine ⟨s', hs', hsys ▸ hd.holds, hd.noWait, hd.count, hsys ▸ hd.ids, hsys ▸ hd.distinct,
      fun h => ?_, ?_⟩
    · cases h
    · intro t x hx
      rw [hsys] at hx
      obtain ⟨k, hk, hid⟩ := hd.ids t x hx
      have hkc := Nat.lt_of_lt_of_le hk hd.count
      rw [hline t x k hx hid hkc, if_pos (Nat.zero_le _), Nat.sub_zero, lines_getElem hkc,
        hregs, vplicContext_eq hid hkc]
      rfl

/-! ## Creation and switches -/

theorem hasDeliverable_init (context : Nat) : hasDeliverable initRegs context = false := by
  refine List.any_eq_false.mpr fun irq _ => ?_
  have hzero : pendingBit initRegs irq = false := by
    have hne : ¬ (Ref.pending (irq / 32)).offset ≤ plicMaxIrq := by
      simp only [Ref.offset]
      omega
    rw [pendingBit, initRegs, if_neg fun h => hne h.2]
    exact BitVec.getLsbD_zero
  simp [deliverable, hzero]

theorem driven_init : Driven initMachine 0 false fun _ => [] where
  holds := holds_initSched
  noWait _ h := absurd h List.not_mem_nil
  count := Nat.zero_le _
  ids t x hx := by cases hx
  distinct t u x y hx := by cases hx
  untouched _ := rfl
  line t x hx := by cases hx

theorem Driven.create_step (hd : Driven s n false q) {mem : Option TaskId} {online : Nat}
    (hn : n < vplicContexts) (hmem : ∀ t ∈ mem, s.sys.task t = none)
    (h : riscvCreateGuestVcpu s mem online (BitVec.ofNat 64 n) = some s') :
    ∃ q', Driven s' (n + 1) false q' := by
  have hids : ∀ t x, s.sys.task t = some x → ∃ k, k < n + 1 ∧ x.mpidr = BitVec.ofNat 64 k := by
    intro t x hx
    obtain ⟨k, hk, hid⟩ := hd.ids t x hx
    exact ⟨k, Nat.lt_succ_of_lt hk, hid⟩
  cases mem with
  | none =>
    simp only [riscvCreateGuestVcpu, vmCreateVcpuTask, Option.pure_def, Option.bind_eq_bind,
      Option.bind_some, Option.some.injEq] at h
    subst h
    exact ⟨q, hd.holds, hd.noWait, hn, hids, hd.distinct, hd.untouched, hd.line⟩
  | some t =>
    have ht := hmem t rfl
    obtain ⟨sys', q', hrun, hh, hsame, hq⟩ := hd.holds.create ht
      (x := ⟨10, ((BitVec.ofNat 64 n).toNat % online : Nat), BitVec.ofNat 64 n, .ready⟩) (by simp)
    simp only [riscvCreateGuestVcpu, vmCreateVcpuTask, hrun, Option.pure_def, Option.bind_eq_bind,
      Option.bind_some, Option.some.injEq] at h
    subst h
    have htask : sys'.task = Function.update s.sys.task t
        (some ⟨10, ((BitVec.ofNat 64 n).toNat % online : Nat), BitVec.ofNat 64 n, .ready⟩) :=
      hsame.task
    have hnew : ∀ u x, sys'.task u = some x →
        u = t ∧ x.mpidr = BitVec.ofNat 64 n ∨ u ≠ t ∧ s.sys.task u = some x := by
      intro u x hx
      rw [htask, Function.update_apply] at hx
      split at hx
      · next he => exact .inl ⟨he, by cases hx; rfl⟩
      · next he => exact .inr ⟨he, hx⟩
    have hother : ∀ u x, s.sys.task u = some x → x.mpidr ≠ BitVec.ofNat 64 n := by
      intro u x hx he
      obtain ⟨k, hk, hid⟩ := hd.ids u x hx
      rw [hid, ofNat_hartid_inj (Nat.lt_trans hk hn) hn] at he
      exact Nat.ne_of_lt hk he
    refine ⟨q', hh, fun u hu => ?_, hn, fun u x hx => ?_, fun u w x y hx hy he => ?_,
      hd.untouched, fun u x hx => ?_⟩
    · rcases (hq .wait u).mp hu with ⟨hw, -⟩ | hw
      · cases hw
      · exact hd.noWait u hw
    · rcases hnew u x hx with ⟨-, hid⟩ | ⟨-, hx⟩
      · exact ⟨n, Nat.lt_succ_self n, hid⟩
      · exact hids u x hx
    · rcases hnew u x hx with ⟨rfl, hidx⟩ | ⟨-, hux⟩
      · rcases hnew w y hy with ⟨rfl, -⟩ | ⟨-, hwy⟩
        · rfl
        · exact absurd (he.symm.trans hidx) (hother w y hwy)
      · rcases hnew w y hy with ⟨rfl, hidy⟩ | ⟨-, hwy⟩
        · exact absurd (he.trans hidy) (hother u x hux)
        · exact hd.distinct u w x y hux hwy he
    · rw [Machine.line]
      rcases hnew u x hx with ⟨rfl, -⟩ | ⟨hne, hx⟩
      · rw [hd.untouched rfl, hasDeliverable_init]
        change (Function.update s.virqs.image u 0 u).getLsbD _ = _
        rw [Function.update_self]
        exact BitVec.getLsbD_zero
      · rw [← hd.line u x hx]
        change (Function.update s.virqs.image t 0 u).getLsbD _ = _
        rw [Function.update_of_ne hne]
        rfl

/-- Publishing the next task and requeueing the old one commute. -/
theorem sched_setCurrent (sys : System) (c : Cpu) (o : Option TaskId) (u : TaskId) :
    simpleSchedulerSched (setCurrent sys c o) u =
      (simpleSchedulerSched sys u).map (setCurrent · c o) := by
  unfold simpleSchedulerSched insertTaskSorted
  change (do
    let new ← sys.task u
    let pos ← scan sys.links (.head .ready) (sys.testTask fun x => new.priority < x.priority)
      (sys.inserts + 1)
    let links ← insertBefore sys.links (.task u) (pos.getD (.head .ready))
    pure ((setCurrent sys c o).inserted links u)) = _
  cases sys.task u with
  | none => rfl
  | some new =>
    simp only [Option.bind_eq_bind, Option.bind_some]
    cases scan sys.links (.head .ready) (sys.testTask fun x => new.priority < x.priority)
      (sys.inserts + 1) with
    | none => rfl
    | some pos =>
      simp only [Option.bind_some]
      cases insertBefore sys.links (.task u) (pos.getD (.head .ready)) <;> rfl

/-- The RISC-V `sched_yield` picks and requeues as `sched_yield` does. -/
theorem schedYield_eq (sys : System) (c : Cpu) : schedYield sys c =
    (simpleSchedulerNextNoPublish sys c).bind fun r =>
      r.1.elim (some r.2) fun t =>
        (requeue r.2 (sys.currentTask c)).map (setCurrent · c (some t)) := by
  unfold schedYield requeue
  cases simpleSchedulerNextNoPublish sys c with
  | none => rfl
  | some r =>
    obtain ⟨next, sys₁⟩ := r
    cases next with
    | none => rfl
    | some t =>
      cases sys.currentTask c with
      | none => rfl
      | some u =>
        change (do let x ← sys₁.task u; _) = _
        cases hx : sys₁.task u with
        | none => simp [hx]
        | some x =>
          simp only [hx, Option.bind_eq_bind, Option.bind_some, Option.elim_some, Option.pure_def]
          split
          · rfl
          · exact sched_setCurrent sys₁ c (some t) u

theorem vcpuSwitch_spec {x : Task} (now : BitVec 64) (hx : s.sys.task t = some x) :
    ∃ s', vcpuSwitch s c t now = some s' ∧ s'.sys = setCurrent s.sys c (some t) ∧
      s'.regs = s.regs ∧
      ∀ u, s'.line u = if t = u then hasDeliverable s.regs (vplicContext x) else s.line u := by
  have hrun : vcpuSwitch s c t now = (riscvVplicRefresh (riscvTimerRefresh
      { s with sys := setCurrent s.sys c (some t), virqs := s.virqs.clearHvip c } c t now) c).bind
      fun s' => some { s' with
        virqs := riscvVirtIrqMaterialize s'.virqs c (s'.sys.currentTask c) t } := rfl
  rw [hrun]
  generalize hs₁ : ({ s with sys := setCurrent s.sys c (some t), virqs := s.virqs.clearHvip c } :
    Machine) = s₁
  have hsys₁ : s₁.sys = setCurrent s.sys c (some t) := by rw [← hs₁]
  have hregs₁ : s₁.regs = s.regs := by rw [← hs₁]
  have hline₁ (u : TaskId) : s₁.line u = s.line u := by
    rw [← hs₁]
    rfl
  obtain ⟨hsys₂, hregs₂, -⟩ := riscvTimerRefresh_frame (s := s₁) (c := c) (t := t) (u := t) now
  have hcur : (riscvTimerRefresh s₁ c t now).sys.currentTask c = some t := by
    rw [hsys₂, hsys₁]
    exact Function.update_self ..
  have htask : (riscvTimerRefresh s₁ c t now).sys.task t = some x := by
    rw [hsys₂, hsys₁]
    exact hx
  have hrefresh := riscvVplicRefresh_spec hcur htask
  rw [hregs₂, hregs₁] at hrefresh
  rw [hrefresh, Option.bind_some]
  refine ⟨_, rfl, ?_, ?_, fun u => ?_⟩
  · change (vplicSetTaskVseip _ c _ _).sys = _
    rw [vplicSetTaskVseip_sys, hsys₂, hsys₁]
  · change (vplicSetTaskVseip _ c _ _).regs = _
    rw [vplicSetTaskVseip_regs, hregs₂, hregs₁]
  · rw [Machine.line, materialize_image]
    refine (vplicSetTaskVseip_line (some t) _).trans ?_
    rw [(riscvTimerRefresh_frame now).2.2, hline₁]
    exact if_congr Option.some_inj rfl rfl

/-- A switch loads the line of the vCPU that comes in, and the others keep theirs. -/
theorem Driven.yield_step (hd : Driven s n accessed q) (c : Cpu) (now : BitVec 64) :
    ∃ s' q', riscvSchedYield s c now = some s' ∧ Driven s' n accessed q' := by
  obtain ⟨sys', q', hrun, hh, htask, hwait⟩ := hd.holds.schedYield c
  rw [schedYield_eq] at hrun
  unfold riscvSchedYield
  cases hnext : simpleSchedulerNextNoPublish s.sys c with
  | none => simp [hnext] at hrun
  | some r =>
    obtain ⟨next, sys⟩ := r
    rw [hnext, Option.bind_some] at hrun
    cases next with
    | none =>
      obtain rfl := Option.some.inj hrun
      exact ⟨_, q', rfl, hh, fun u hu => hd.noWait u (hwait u hu), hd.count, htask ▸ hd.ids,
        htask ▸ hd.distinct, hd.untouched, htask ▸ hd.line⟩
    | some t =>
      obtain ⟨sys₁, hreq, rfl⟩ := Option.map_eq_some_iff.mp hrun
      have htask₁ : sys₁.task = s.sys.task := htask
      obtain ⟨x, hx⟩ := Option.isSome_iff_exists.mp
        (hh.placed.live t (.current c) (Function.update_self ..))
      obtain ⟨s', hs', hsys, hregs, hline⟩ :=
        vcpuSwitch_spec (s := { s with sys := sys₁ }) (c := c) now hx
      refine ⟨s', q', ?_, hsys ▸ hh, fun u hu => hd.noWait u (hwait u hu), hd.count, ?_, ?_,
        fun h => hregs.trans (hd.untouched h), ?_⟩
      · simp only [Option.bind_eq_bind, Option.bind_some, hreq]
        exact hs'
      · rw [hsys]
        exact htask ▸ hd.ids
      · rw [hsys]
        exact htask ▸ hd.distinct
      · intro u y hy
        rw [hsys] at hy
        have hy' : s.sys.task u = some y := htask₁ ▸ hy
        rw [hline, hregs]
        split
        · next he =>
          subst he
          rw [Option.some.inj (hx.symm.trans hy)]
        · exact hd.line u y hy'

end

/-! ## Runs -/

theorem guestVcpus_le (bootarg : Option (BitVec 64)) : guestVcpus bootarg ≤ vplicContexts := by
  unfold guestVcpus
  split
  · decide
  split
  · decide
  split
  · exact Nat.le_refl _
  · next hle => exact Nat.le_of_not_lt hle

theorem MachineRun.driven {bootarg : Option (BitVec 64)} {online n : Nat} {accessed : Bool}
    {s : Machine} (h : MachineRun (guestVcpus bootarg) online n accessed s) :
    ∃ q, Driven s n accessed q := by
  induction h with
  | init => exact ⟨_, driven_init⟩
  | create mem _ hn hmem hs ih =>
    obtain ⟨q, hd⟩ := ih
    exact hd.create_step (Nat.lt_of_lt_of_le hn (guestVcpus_le bootarg)) hmem hs
  | call c op _ hs ih =>
    obtain ⟨q, hd⟩ := ih
    obtain ⟨s', hs', hd'⟩ := hd.call_step c op
    cases hs.symm.trans hs'
    exact ⟨q, hd'⟩
  | yield c now _ hs ih =>
    obtain ⟨q, hd⟩ := ih
    obtain ⟨s', q', hs', hd'⟩ := hd.yield_step c now
    cases hs.symm.trans hs'
    exact ⟨q', hd'⟩

/-- After every operation and every switch, the VS-external bit of the vCPU of a context is set
iff some irq is deliverable to the context; and no operation or switch gets stuck. -/
theorem vplic_line_exact {bootarg : Option (BitVec 64)} {online n : Nat} {accessed : Bool}
    {s : Machine} (h : MachineRun (guestVcpus bootarg) online n accessed s) :
    (∀ context t x, context < vplicContexts → s.sys.task t = some x →
      x.mpidr = BitVec.ofNat 64 context →
      ((s.virqs.image t).getLsbD irqVsExt = true ↔
        ∃ irq, (vplicIrqDeliverableLocked context irq ⟨s.regs, []⟩).1 = true)) ∧
    (∀ c op, ∃ s', s.call c op = some s') ∧ ∀ c now, ∃ s', riscvSchedYield s c now = some s' := by
  obtain ⟨q, hd⟩ := h.driven
  refine ⟨fun context t x hc hx hid => ?_, fun c op => ?_, fun c now => ?_⟩
  · rw [← hasDeliverable_iff, ← vplicContext_eq hid hc, ← hd.line t x hx]
    rfl
  · obtain ⟨s', hs', -⟩ := hd.call_step c op
    exact ⟨s', hs'⟩
  · obtain ⟨s', -, hs', -⟩ := hd.yield_step c now
    exact ⟨s', hs'⟩

/-- One vCPU is created and switched in, enables the UART's interrupt, and the UART raises it. -/
theorem vplic_line_exact_uart : ∃ s, MachineRun (guestVcpus none) 1 1 true s ∧
    ∃ irq, (vplicIrqDeliverableLocked 0 irq ⟨s.regs, []⟩).1 = true := by
  have hexec : ((riscvCreateGuestVcpu initMachine (some 1) 1 0).bind fun s =>
      (riscvSchedYield s 0 0).bind fun s => (s.call 0 (.write 0x0c002000 0x400)).bind fun s =>
      (s.call 0 (.raise 10)).map fun s =>
        ((s.sys.task 1).map Task.mpidr, (s.virqs.image 1).getLsbD irqVsExt)) =
      some (some 0, true) := by decide +kernel
  obtain ⟨s₁, h₁, hexec⟩ := Option.bind_eq_some_iff.mp hexec
  obtain ⟨s₂, h₂, hexec⟩ := Option.bind_eq_some_iff.mp hexec
  obtain ⟨s₃, h₃, hexec⟩ := Option.bind_eq_some_iff.mp hexec
  obtain ⟨s₄, h₄, hexec⟩ := Option.map_eq_some_iff.mp hexec
  obtain ⟨htask, hline⟩ := Prod.mk.inj hexec
  obtain ⟨x, hx, hid⟩ := Option.map_eq_some_iff.mp htask
  have hcreate : MachineRun (guestVcpus none) 1 1 false s₁ :=
    .create (some 1) .init (by decide) (fun _ _ => rfl) h₁
  have hrun := ((hcreate.yield 0 0 h₂).call 0 _ h₃).call 0 _ h₄
  exact ⟨s₄, hrun, ((vplic_line_exact hrun).1 0 1 x (by decide) hx hid).mp hline⟩

end HyperCore.Vplic
