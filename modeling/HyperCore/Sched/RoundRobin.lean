import HyperCore.Sched.Order

/-!
# Round robin on a pCPU

A pCPU `c` that only tasks of one priority may run, all pinned to it, takes them in turn:
each call of `sched_yield` on `c` makes the one current that has waited longest. `Turns` is
a run in which `c` makes such calls and the other pCPUs take steps in between.

`InTurn` is the order that such a run rotates: the tasks in the ready list by the time of
their last insertion, then the outgoing one, then the one that `c` has taken.

It needs that a task pinned to `c` is not with another pCPU (`Housed`). The scheduler keeps
that by itself; `psci_vcpu_on` does not, when it writes the affinity of a task that a pCPU
has already taken (`KeepsPins`).
-/

namespace HyperCore.Sched

open Places

/-! ## Tasks on the pCPUs they may run on -/

/-- The pCPU has the task: it runs it, has taken it, or has not requeued it yet. -/
def Has (s : Smp) (c : Cpu) (t : TaskId) : Prop :=
  taken s.sys s.phase c = some t ∨ leaving s.phase c = some t

/-- A pCPU has only tasks that it may run. -/
def Housed (s : Smp) : Prop := ∀ c t, Has s c t → s.sys.eligible c t

/-- The step is a write of a CPU_ON call to the affinity of `t`. -/
def WritesAffinity (s : Smp) (a : Action) (t : TaskId) : Prop :=
  ∃ c mem vbar call o todo, a = .onStep c mem vbar ∧
    s.phase c = .cpuOn call (.patch t (o :: todo)) ∧ (o = .anyPcpu ∨ o = .pcpu)

/-- A CPU_ON call writes the affinity of a task only while no pCPU has the task. -/
def KeepsPins (s : Smp) (a : Action) : Prop :=
  ∀ t, WritesAffinity s a t → ∀ c, ¬ Has s c t

/-- The pCPU that takes a step. -/
def Action.cpu : Action → Option Cpu
  | .pick c => some c
  | .switch c _ => some c
  | .create _ _ _ => none
  | .cpuOn c _ _ _ => some c
  | .onStep c _ _ => some c

/-- The tasks that a step may create. -/
def Action.creates : Action → List TaskId
  | .create t _ _ => [t]
  | .onStep _ mem _ => mem.toList
  | _ => []

section

variable {arch : Arch} {cfg : GuestConfig} {s s' : Smp} {q q' : ListHead → List TaskId}
  {a : Action} {c : Cpu} {t : TaskId}

/-- The tasks after a step: as before, with a new one, or with one write of a CPU_ON call. -/
theorem StepCase.task_cases (hcase : StepCase arch cfg s q a s' q') :
    s'.sys.task = s.sys.task ∨
      (∃ t x, t ∈ a.creates ∧ s.sys.task t = none ∧
        s'.sys.task = Function.update s.sys.task t (some x)) ∨
      ∃ c mem vbar call t o todo, a = .onStep c mem vbar ∧
        s.phase c = .cpuOn call (.patch t (o :: todo)) ∧
        s'.sys.task = (patchOp cfg s call vbar t o).sys.task := by
  cases hcase with
  | nothing => exact .inl rfl
  | take => exact .inl rfl
  | publish => exact .inl rfl
  | requeue _ hsame => exact .inl hsame.task
  | skip => exact .inl rfl
  | save => exact .inl rfl
  | restore => exact .inl rfl
  | create hnone hsame =>
    exact .inr (.inl ⟨_, _, List.mem_singleton_self _, hnone, hsame.task⟩)
  | callOn => exact .inl rfl
  | callInvalid => exact .inl rfl
  | checkMiss => exact .inl rfl
  | checkHit => exact .inl rfl
  | listMiss => exact .inl rfl
  | denied => exact .inl rfl
  | created _ hnone hsame =>
    exact .inr (.inl ⟨_, _, List.mem_singleton_self _, hnone, hsame.task⟩)
  | searchMiss => exact .inl rfl
  | searchHit => exact .inl rfl
  | patch hph => exact .inr (.inr ⟨_, _, _, _, _, _, _, rfl, hph, rfl⟩)
  | success => exact .inl rfl
  | leave => exact .inl rfl

/-- A pCPU's phase and current task change only by its own steps. -/
theorem StepCase.frame (hcase : StepCase arch cfg s q a s' q') (hne : a.cpu ≠ some c) :
    s'.phase c = s.phase c ∧ s'.sys.currentTask c = s.sys.currentTask c := by
  have hupdate : ∀ {d : Cpu} (p : Phase), some d ≠ some c → Function.update s.phase d p c = s.phase c :=
    fun p hd => Function.update_of_ne (fun he => hd (congrArg some he.symm)) p s.phase
  cases hcase with
  | nothing => exact ⟨rfl, rfl⟩
  | take => exact ⟨hupdate _ hne, rfl⟩
  | publish =>
    exact ⟨hupdate _ hne, Function.update_of_ne (fun he => hne (congrArg some he.symm)) _ _⟩
  | requeue _ hsame => exact ⟨hupdate _ hne, congrFun hsame.currentTask c⟩
  | skip => exact ⟨hupdate _ hne, rfl⟩
  | save => exact ⟨hupdate _ hne, rfl⟩
  | restore => exact ⟨hupdate _ hne, rfl⟩
  | create _ hsame => exact ⟨rfl, congrFun hsame.currentTask c⟩
  | callOn => exact ⟨hupdate _ hne, rfl⟩
  | callInvalid => exact ⟨hupdate _ hne, rfl⟩
  | checkMiss => exact ⟨hupdate _ hne, rfl⟩
  | checkHit => exact ⟨hupdate _ hne, rfl⟩
  | listMiss => exact ⟨hupdate _ hne, rfl⟩
  | denied => exact ⟨hupdate _ hne, rfl⟩
  | created _ _ hsame => exact ⟨hupdate _ hne, congrFun hsame.currentTask c⟩
  | searchMiss => exact ⟨hupdate _ hne, rfl⟩
  | searchHit => exact ⟨hupdate _ hne, rfl⟩
  | patch =>
    refine ⟨?_, congrFun (patchOp_currentTask ..) c⟩
    rw [Smp.setPhase, patchOp_phase]
    exact hupdate _ hne
  | success => exact ⟨hupdate _ hne, rfl⟩
  | leave => exact ⟨hupdate _ hne, rfl⟩

/-- A task stays in the ready list until it is taken. -/
theorem StepCase.ready_stays (hcase : StepCase arch cfg s q a s' q') (ht : t ∈ q .ready)
    (hnot : ¬ Takes s a t) : t ∈ q' .ready := by
  cases hcase with
  | take _ _ _ _ hmem hrun =>
    refine (hmem .ready t).mpr ⟨?_, ht⟩
    rintro rfl
    exact hnot ⟨_, _, rfl, hrun⟩
  | requeue _ _ hmem => exact (hmem .ready t).mpr (.inr ht)
  | create _ _ hmem => exact (hmem .ready t).mpr (.inr ht)
  | created _ _ _ hmem => exact (hmem .ready t).mpr (.inr ht)
  | nothing => exact ht
  | publish => exact ht
  | skip => exact ht
  | save => exact ht
  | restore => exact ht
  | callOn => exact ht
  | callInvalid => exact ht
  | checkMiss => exact ht
  | checkHit => exact ht
  | listMiss => exact ht
  | denied => exact ht
  | searchMiss => exact ht
  | searchHit => exact ht
  | patch => exact ht
  | success => exact ht
  | leave => exact ht

/-- The affinity of a task changes only by such a write. -/
theorem StepCase.eligible_stays (hcase : StepCase arch cfg s q a s' q')
    (hnot : ¬ WritesAffinity s a t) (h : s.sys.eligible c t) : s'.sys.eligible c t := by
  unfold System.eligible at h ⊢
  rcases hcase.task_cases with he | ⟨u, x, -, hnone, he⟩ | ⟨d, mem, vbar, call, u, o, todo, rfl, hph, he⟩
  · rwa [he]
  · rw [he, Function.update_of_ne]
    · exact h
    · rintro rfl
      rw [hnone] at h
      cases h
  · rw [he]
    -- a write to another task, or to this one but not to its affinity
    have hwrite : ∀ f : Task → Task, (∀ x, (f x).pcpuAffinity = x.pcpuAffinity) ∨ t ≠ u →
        ((s.sys.modifyTask u f).task t).any (fun x =>
          x.pcpuAffinity == (-1 : Int) || x.pcpuAffinity == (c.val : Int)) = true := by
      intro f hf
      by_cases htu : t = u
      · subst htu
        rw [modifyTask_self, Option.any_map]
        have hsame := hf.resolve_right fun hne => hne rfl
        simpa only [Function.comp_def, hsame] using h
      · rw [modifyTask_other htu]
        exact h
    have hother : o = .anyPcpu ∨ o = .pcpu → t ≠ u := by
      rintro ho rfl
      exact hnot ⟨d, mem, vbar, call, o, todo, rfl, hph, ho⟩
    cases o with
    | mpidr => exact hwrite _ (.inl fun _ => rfl)
    | anyPcpu => exact hwrite _ (.inr (hother (.inl rfl)))
    | pcpu => exact hwrite _ (.inr (hother (.inr rfl)))
    | vmpidr => exact h
    | vbar => exact h
    | x0 => exact h

/-- What a pCPU has after a step it has had before, or has just picked. -/
theorem SwitchView.has_step (hv : SwitchView arch s s' a) (h : Has s' c t) :
    Has s c t ∨ a = .pick c ∧ s.sys.eligible c t := by
  rcases h with h | h
  · rcases hv.taken_step h with h | ⟨ha, _, _, x, hx, haff⟩
    · exact .inl (.inl h)
    · refine .inr ⟨ha, ?_⟩
      unfold System.eligible
      rw [hx, Option.any_some, Bool.or_eq_true, beq_iff_eq, beq_iff_eq]
      exact haff
  · left
    cases hv with
    | quiet _ _ hphase =>
      rcases hphase c with he | ⟨_, hnot⟩
      · right
        rwa [leaving, he] at h
      · rw [leaving_of_not_switch hnot] at h
        cases h
    | @take d u x hidle _ _ _ _ _ hphase =>
      rw [hphase] at h
      by_cases hcd : c = d
      · subst hcd
        rw [leaving_switch (Function.update_self c _ s.phase)] at h
        split at h
        · exact .inl ((taken_of_not_switch (by rw [hidle]; rfl)).trans h)
        · cases h
      · exact .inr ((leaving_update_of_ne hcd).symm.trans h)
    | @op d regs old next o todo hph hphase =>
      rw [hphase] at h
      by_cases hcd : c = d
      · subst hcd
        rw [leaving_rest] at h
        right
        rw [leaving_switch hph]
        split at h
        · rename_i hin
          rwa [if_pos (List.mem_cons_of_mem o hin)]
        · cases h
      · exact .inr ((leaving_update_of_ne hcd).symm.trans h)

theorem Housed.step (hh : Housed s) (hcase : StepCase arch cfg s q a s' q')
    (hv : SwitchView arch s s' a) (hok : KeepsPins s a) : Housed s' := by
  intro c t h
  rcases hv.has_step h with hhas | ⟨rfl, hel⟩
  · exact hcase.eligible_stays (fun hw => hok t hw c hhas) (hh c t hhas)
  · refine hcase.eligible_stays ?_ hel
    rintro ⟨d, mem, vbar, call, o, todo, he, _⟩
    cases he

theorem SmpRun.housed (hs : SmpRun arch cfg KeepsPins s) :
    Housed s ∧ ∃ q, Owned arch s.sys s.phase q := by
  induction hs with
  | init =>
    refine ⟨fun c t h => ?_, _, owned_init arch⟩
    rcases h with h | h
    · cases h
    · cases h
  | step _ hok hstep ih =>
    obtain ⟨hh, q, ho⟩ := ih
    obtain ⟨q', hcase, ho'⟩ := ho.step hstep
    exact ⟨hh.step hcase (ho.switchView hcase) hok, q', ho'⟩

end

/-! ## The time of the last insertion -/

theorem insertTaskSorted_stamp {s s' : System} {h : ListHead} {t : TaskId}
    (hrun : insertTaskSorted s h t = some s') :
    s'.stamp = Function.update s.stamp t s.inserts := by
  unfold insertTaskSorted at hrun
  simp only [Option.bind_eq_bind, Option.bind_eq_some_iff, Option.pure_def,
    Option.some.injEq] at hrun
  obtain ⟨x, -, pos, -, links, -, rfl⟩ := hrun
  rfl

section

variable {arch : Arch} {cfg : GuestConfig} {s s' : Smp} {q q' : ListHead → List TaskId}
  {a : Action} {c : Cpu} {t u : TaskId}

/-- An operation of a switch inserts the outgoing task, or nothing. -/
theorem Owned.switch_stamp (ho : Owned arch s.sys s.phase q) {regs : Vcpu}
    {old : Option TaskId} {next : TaskId} {o : SwitchOp} {todo : List SwitchOp}
    (hph : s.phase c = .switch old next (o :: todo))
    (h : s.step arch cfg (.switch c regs) = some s') :
    (o = .requeue → ∀ u, old = some u →
        s'.sys.stamp = Function.update s.sys.stamp u s.sys.inserts) ∧
      (o = .requeue → old = none → s'.sys.stamp = s.sys.stamp) ∧
      (o ≠ .requeue → s'.sys.stamp = s.sys.stamp) := by
  unfold Smp.step at h
  simp only [hph, Option.bind_eq_bind, Option.pure_def] at h
  cases o with
  | requeue =>
    refine ⟨fun _ u hu => ?_, fun _ hold => ?_, fun hne => absurd rfl hne⟩
    · subst hu
      obtain ⟨x, sys', -, hx, hexit, hrun, -⟩ := ho.requeue hph
      simp only [switchOp, hx, hrun, if_neg hexit, Option.bind_eq_bind, Option.bind_some,
        Option.pure_def, Option.some.injEq] at h
      subst h
      exact insertTaskSorted_stamp hrun
    · subst hold
      simp only [switchOp, Option.bind_some, Option.some.injEq] at h
      subst h
      rfl
  | publish =>
    simp only [switchOp, Option.bind_some, Option.some.injEq] at h
    subst h
    exact ⟨fun he => (by cases he), fun he => (by cases he), fun _ => rfl⟩
  | save =>
    cases old with
    | none =>
      simp only [switchOp, Option.bind_some, Option.some.injEq] at h
      subst h
      exact ⟨fun he => (by cases he), fun he => (by cases he), fun _ => rfl⟩
    | some u =>
      simp only [switchOp, Option.bind_some, Option.some.injEq] at h
      subst h
      exact ⟨fun he => (by cases he), fun he => (by cases he), fun _ => rfl⟩
  | restore =>
    simp only [switchOp, Option.bind_some, Option.some.injEq] at h
    subst h
    exact ⟨fun he => (by cases he), fun he => (by cases he), fun _ => rfl⟩

/-- A step of a CPU_ON call inserts the task that it creates, or nothing. -/
theorem onStep_stamp {mem : Option TaskId} {vbar : BitVec 64}
    (ho : Owned arch s.sys s.phase q) (hcase : StepCase arch cfg s q (.onStep c mem vbar) s' q')
    (h : s.step arch cfg (.onStep c mem vbar) = some s') :
    s'.sys.stamp = s.sys.stamp ∨ ∃ u, s.sys.task u = none ∧
      s'.sys.stamp = Function.update s.sys.stamp u s.sys.inserts := by
  cases hcase with
  | checkMiss => exact .inl rfl
  | checkHit => exact .inl rfl
  | listMiss => exact .inl rfl
  | denied => exact .inl rfl
  | searchMiss => exact .inl rfl
  | searchHit => exact .inl rfl
  | @patch _ _ _ _ _ o _ _ => exact .inl (by cases o <;> rfl)
  | success => exact .inl rfl
  | leave => exact .inl rfl
  | @created c u vbar call sys' q' hph hnone =>
    right
    refine ⟨u, hnone, ?_⟩
    have hmem : ((some u).all fun t => (s.sys.task t).isNone) = true := by
      rw [Option.all_some, hnone]
      rfl
    obtain ⟨sys₁, -, hrun, -⟩ := ho.newTask hnone
      (show (⟨10, 0, placeholder, .ready⟩ : Task).state ≠ .exit by simp)
    unfold Smp.step at h
    simp only [hph, if_pos hmem, onStep, vmCreateVcpuTask, hrun, Option.pure_def,
      Option.bind_eq_bind, Option.bind_some, ne_eq, not_true_eq_false, if_false,
      Option.elim_some, Option.some.injEq] at h
    have hsys : sys₁ = sys' := congrArg Smp.sys h
    subst hsys
    exact insertTaskSorted_stamp (s := s.sys.newTask u ⟨10, 0, placeholder, .ready⟩) hrun

/-- Nobody inserts a task that is in the ready list. -/
theorem Owned.ready_stamp (ho : Owned arch s.sys s.phase q) (ht : t ∈ q .ready)
    (hcase : StepCase arch cfg s q a s' q') (h : s.step arch cfg a = some s') :
    s'.sys.stamp t = s.sys.stamp t := by
  have hlive := ho.places.live t .ready ht
  have hdead : ∀ u, s.sys.task u = none →
      Function.update s.sys.stamp u s.sys.inserts t = s.sys.stamp t := by
    intro u hnone
    refine Function.update_of_ne ?_ _ _
    rintro rfl
    rw [hnone] at hlive
    cases hlive
  cases a with
  | pick c =>
    cases hcase with
    | nothing => rfl
    | take => rfl
  | cpuOn c cpuId entry contextId =>
    cases hcase with
    | callOn => rfl
    | callInvalid => rfl
  | create u x vcpu =>
    cases hcase with
    | @create _ _ _ sys' _ hnone =>
      have hrun : simpleSchedulerSched (s.sys.newTask u x) u = some sys' := by
        unfold Smp.step at h
        simp only at h
        split at h
        · simp only [Option.bind_eq_bind, Option.bind_eq_some_iff, Option.pure_def,
            Option.some.injEq] at h
          obtain ⟨sys₁, hrun, hs⟩ := h
          have hsys : sys₁ = sys' := congrArg Smp.sys hs
          exact hsys ▸ hrun
        · cases h
      exact (congrFun (insertTaskSorted_stamp hrun) t).trans (hdead u hnone)
  | onStep c mem vbar =>
    rcases onStep_stamp ho hcase h with he | ⟨u, hnone, he⟩
    · rw [he]
    · rw [he, hdead u hnone]
  | switch c regs =>
    have hop : ∃ old next o todo, s.phase c = .switch old next (o :: todo) := by
      cases hcase with
      | publish hph => exact ⟨_, _, _, _, hph⟩
      | requeue hph => exact ⟨_, _, _, _, hph⟩
      | skip hph => exact ⟨_, _, _, _, hph⟩
      | save hph => exact ⟨_, _, _, _, hph⟩
      | restore hph => exact ⟨_, _, _, _, hph⟩
    obtain ⟨old, next, o, todo, hph⟩ := hop
    obtain ⟨hsome, hnone, hother⟩ := ho.switch_stamp hph h
    by_cases hreq : o = .requeue
    · subst hreq
      cases old with
      | none => rw [hnone rfl rfl]
      | some u =>
        rw [hsome rfl u rfl]
        refine Function.update_of_ne ?_ _ _
        rintro rfl
        have hleaving : leaving s.phase c = some t := by
          rw [leaving_switch hph, if_pos List.mem_cons_self]
        cases ho.places.alone t .ready (.leaving c) ht hleaving
    · rw [hother hreq]

end

/-! ## Turns -/

/-- The guard of `sched_yield`: on RISC-V the other pCPUs wait for the boot vCPU. -/
def Arch.letsIn (arch : Arch) (started : Bool) (c : Cpu) : Bool :=
  match arch with
  | .aarch64 => true
  | .riscv64 => c == 0 || started

/-- The tasks `ts` share the pCPU: they have priority `p` and are pinned to `c`, and no
other task may run on `c`. -/
structure Sharing (s : Smp) (c : Cpu) (p : Int) (ts : List TaskId) : Prop where
  pinned : ∀ t ∈ ts, ∃ x, s.sys.task t = some x ∧ x.priority = p ∧ x.pcpuAffinity = c.val
  only : ∀ t, s.sys.eligible c t → t ∈ ts

/-- The current task of `c`, where a step of `c` has ended its call of `sched_yield`. -/
def Action.ended (c : Cpu) (s' : Smp) (a : Action) : List (Option TaskId) :=
  if a.cpu = some c then
    match s'.phase c with
    | .idle => [s'.sys.currentTask c]
    | _ => []
  else []

/-- The runs from `s₀` in which `c` calls `sched_yield` and nothing else and the other pCPUs
take steps that meet `ok`, with what was current on `c` after each call. -/
inductive Turns (arch : Arch) (cfg : GuestConfig) (ok : Smp → Action → Prop) (started : Bool)
    (c : Cpu) (p : Int) (ts : List TaskId) (s₀ : Smp) : List (Option TaskId) → Smp → Prop
  | start : Turns arch cfg ok started c p ts s₀ [] s₀
  | turnedAway {log : List (Option TaskId)} {s : Smp} :
      Turns arch cfg ok started c p ts s₀ log s → s.phase c = .idle →
      arch.letsIn started c = false →
      Turns arch cfg ok started c p ts s₀ (log ++ [s.sys.currentTask c]) s
  | step {log : List (Option TaskId)} {s s' : Smp} {a : Action} :
      Turns arch cfg ok started c p ts s₀ log s → ok s a →
      (a = .pick c → arch.letsIn started c = true) →
      (∀ cpuId entry contextId, a ≠ .cpuOn c cpuId entry contextId) →
      s.step arch cfg a = some s' → Sharing s' c p ts →
      Turns arch cfg ok started c p ts s₀ (log ++ a.ended c s') s'

/-- The tasks of `ts` in the order of the ready list, then the one that is current. -/
def queueOrder (s : Smp) (q : ListHead → List TaskId) (c : Cpu) (ts : List TaskId) :
    List TaskId :=
  (q .ready).filter (· ∈ ts) ++ (s.sys.currentTask c).toList.filter (· ∈ ts)

/-- Once the boot vCPU has started, two or more tasks that share `c` take turns: no call of
`sched_yield` gets stuck, and as many calls as there are tasks make each current once, in
queue order. -/
def RoundRobin (arch : Arch) (cfg : GuestConfig) (ok : Smp → Action → Prop) (s : Smp)
    (q : ListHead → List TaskId) (c : Cpu) : Prop :=
  ∀ p ts, ts.Nodup → 2 ≤ ts.length → Sharing s c p ts →
    ∀ log s', Turns arch cfg ok true c p ts s log s' →
      (∃ a s'', (a = .pick c ∨ ∃ regs, a = .switch c regs) ∧ s'.step arch cfg a = some s'') ∧
      (log.length = ts.length →
        log.Perm (ts.map some) ∧ log = (queueOrder s q c ts).map some)

/-- The order in which the tasks that share `c` come next. -/
structure InTurn (s : Smp) (q : ListHead → List TaskId) (c : Cpu) (ts order : List TaskId) :
    Prop where
  perm : order.Perm ts
  split : ∃ r, order = r ++ (leaving s.phase c).toList ++ (taken s.sys s.phase c).toList ∧
    (∀ t ∈ r, t ∈ q .ready) ∧ r.Pairwise fun a b => s.sys.stamp a < s.sys.stamp b

section

variable {arch : Arch} {cfg : GuestConfig} {s s' : Smp} {q q' : ListHead → List TaskId}
  {a : Action} {c d : Cpu} {t : TaskId} {p : Int} {ts order : List TaskId}

theorem Sharing.eligible (hs : Sharing s c p ts) (ht : t ∈ ts) (d : Cpu) :
    s.sys.eligible d t ↔ d = c := by
  obtain ⟨x, hx, -, haff⟩ := hs.pinned t ht
  unfold System.eligible
  rw [hx, Option.any_some, haff, Bool.or_eq_true, beq_iff_eq, beq_iff_eq]
  constructor
  · rintro (h | h)
    · omega
    · exact Fin.ext (Int.ofNat.inj h).symm
  · rintro rfl
    exact .inr rfl

/-- Steps of the other pCPUs leave the order as it is. -/
theorem InTurn.others (hi : InTurn s q c ts order) (ho : Owned arch s.sys s.phase q)
    (hs : Sharing s c p ts) (hcase : StepCase arch cfg s q a s' q')
    (hstep : s.step arch cfg a = some s') (hne : a.cpu ≠ some c) : InTurn s' q' c ts order := by
  obtain ⟨r, horder, hready, hsorted⟩ := hi.split
  obtain ⟨hphase, hcur⟩ := hcase.frame hne
  have hin : ∀ t ∈ r, t ∈ ts := fun t ht => hi.perm.subset (horder ▸ List.mem_append_left _
    (List.mem_append_left _ ht))
  refine ⟨hi.perm, r, ?_, fun t ht => ?_, ?_⟩
  · rw [leaving, taken, hphase, hcur]
    exact horder
  · refine hcase.ready_stays (hready t ht) fun htakes => ?_
    obtain ⟨d, x, rfl, -, hx, haff⟩ := ho.takes_affinity hstep htakes
    have hel : s.sys.eligible d t := by
      unfold System.eligible
      rw [hx, Option.any_some, Bool.or_eq_true, beq_iff_eq, beq_iff_eq]
      exact haff
    exact hne (congrArg some ((hs.eligible (hin t ht) d).mp hel))
  · refine hsorted.imp_of_mem fun {u v} hu hv huv => ?_
    rw [ho.ready_stamp (hready u hu) hcase hstep, ho.ready_stamp (hready v hv) hcase hstep]
    exact huv

/-- An operation of the switch that inserts nothing. -/
theorem InTurn.still (hi : InTurn s q c ts order) {old : Option TaskId} {next : TaskId}
    {o : SwitchOp} {todo : List SwitchOp} (hph : s.phase c = .switch old next (o :: todo))
    (hphase : s'.phase = Function.update s.phase c (.rest old next todo))
    (hlast : todo = [] → s'.sys.currentTask c = some next) (hreq : o = .requeue → old = none)
    (hstamp : s'.sys.stamp = s.sys.stamp) : InTurn s' q c ts order := by
  obtain ⟨r, horder, hready, hsorted⟩ := hi.split
  refine ⟨hi.perm, r, ?_, hready, ?_⟩
  · rw [hphase, leaving_rest, taken_rest hlast, horder, leaving_switch hph, taken_switch hph]
    by_cases ho : o = .requeue
    · rw [hreq ho, ite_self, ite_self]
    · simp only [List.mem_cons, Ne.symm ho, false_or]
  · rw [hstamp]
    exact hsorted

/-- An operation of the switch on `c`. -/
theorem InTurn.switch (hi : InTurn s q c ts order) (ho : Owned arch s.sys s.phase q)
    {regs : Vcpu} (hcase : StepCase arch cfg s q (.switch c regs) s' q')
    (hstep : s.step arch cfg (.switch c regs) = some s') : InTurn s' q' c ts order := by
  cases hcase with
  | publish hph =>
    exact hi.still hph rfl (fun _ => Function.update_self ..) nofun
      ((ho.switch_stamp hph hstep).2.2 nofun)
  | save hph =>
    exact hi.still hph rfl (ho.last_current hph nofun) nofun ((ho.switch_stamp hph hstep).2.2 nofun)
  | restore hph =>
    exact hi.still hph rfl (ho.last_current hph nofun) nofun ((ho.switch_stamp hph hstep).2.2 nofun)
  | @skip _ _ next o todo hph hor =>
    refine hi.still hph rfl (ho.last_current hph ?_) (fun _ => rfl) rfl
    rintro rfl
    rcases hor with h | h
    · cases h
    · cases h
  | @requeue _ _ u next todo sys' q' hph hsame hmem =>
    -- the outgoing task goes behind all the others
    obtain ⟨r, horder, hready, hsorted⟩ := hi.split
    have hstamp := (ho.switch_stamp hph hstep).1 rfl u rfl
    have hne : ∀ t ∈ r, t ≠ u := by
      rintro t ht rfl
      have hleaving : leaving s.phase c = some t := by
        rw [leaving_switch hph, if_pos List.mem_cons_self]
      cases ho.places.alone t .ready (.leaving c) (hready t ht) hleaving
    have hold : ∀ t ∈ r, ({ s with sys := sys' }.setPhase c (.rest (some u) next todo)).sys.stamp t =
        s.sys.stamp t := fun t ht => by rw [hstamp, Function.update_of_ne (hne t ht)]
    refine ⟨hi.perm, r ++ [u], ?_, fun t ht => ?_, List.pairwise_append.mpr
      ⟨hsorted.imp_of_mem fun {a b} ha hb hab => ?_, List.pairwise_singleton _ _, ?_⟩⟩
    · change order = _ ++ (leaving (Function.update s.phase c (.rest (some u) next todo)) c).toList ++
        (taken sys' (Function.update s.phase c (.rest (some u) next todo)) c).toList
      rw [leaving_rest, if_neg (ho.todo_rest hph).1, taken_rest, horder, leaving_switch hph,
        taken_switch hph, if_pos List.mem_cons_self, Option.toList_none, List.append_nil]
      · rfl
      · intro hnil
        rw [hsame.currentTask]
        exact ho.last_current hph nofun hnil
    · rcases List.mem_append.mp ht with h | h
      · exact (hmem .ready t).mpr (.inr (hready t h))
      · exact (hmem .ready t).mpr (.inl ⟨rfl, List.mem_singleton.mp h⟩)
    · rw [hold a ha, hold b hb]
      exact hab
    · intro t ht v hv
      obtain rfl := List.mem_singleton.mp hv
      rw [hold t ht, hstamp, Function.update_self]
      exact ho.lists.stamps t .ready (hready t ht)

/-- The priority of the tasks that share `c`. -/
theorem Sharing.priority (hs : Sharing s c p ts) (ht : t ∈ ts) : s.sys.priorityOf t = p := by
  obtain ⟨x, hx, hp, -⟩ := hs.pinned t ht
  rw [priorityOf_eq hx, hp]

/-- A pick on `c` takes the one whose turn it is, and the current one will come last but
for it. -/
theorem InTurn.pick (hi : InTurn s q c ts order) (ho : Owned arch s.sys s.phase q)
    (hh : Housed s) (hs : Sharing s c p ts) (hn : 2 ≤ ts.length) (hidle : s.phase c = .idle)
    (hcase : StepCase arch cfg s q (.pick c) s' q') (hstep : s.step arch cfg (.pick c) = some s') :
    InTurn s' q' c ts (order.rotate 1) ∧
      ∃ t, s'.phase c = .switch (s.sys.currentTask c) t arch.switchOps := by
  have hout : (s.phase c).isSwitch = false := by rw [hidle]; rfl
  obtain ⟨r, horder, hready, hsorted⟩ := hi.split
  rw [leaving_of_not_switch hout, taken_of_not_switch hout, Option.toList_none,
    List.append_nil] at horder
  cases r with
  | nil =>
    -- one task alone would be no sharing
    have hlen := hi.perm.length_eq
    rw [horder, List.nil_append] at hlen
    have := Option.length_toList_le (o := s.sys.currentTask c)
    omega
  | cons t r =>
    have hmine : ∀ u ∈ order, u ∈ ts := fun u hu => hi.perm.subset hu
    have htts : t ∈ ts := hmine t (horder ▸ List.mem_cons_self)
    have hhome : ∀ u, s.sys.currentTask c = some u → u ∈ ts := fun u hu =>
      hs.only u (hh c u (.inl ((taken_of_not_switch hout).trans hu)))
    have hfirst : s.sys.FirstFor q c t := by
      refine ⟨hready t List.mem_cons_self, (hs.eligible htts c).mpr rfl, fun u hu hel => ?_⟩
      have hin : u ∈ order := hi.perm.symm.subset (hs.only u hel)
      rw [horder, List.cons_append, List.mem_cons, List.mem_append, Option.mem_toList] at hin
      rcases hin with rfl | hin | hin
      · exact .inl rfl
      · refine .inr (.inr ⟨?_, (List.pairwise_cons.mp hsorted).1 u hin⟩)
        rw [hs.priority htts, hs.priority (hs.only u hel)]
      · cases ho.places.alone u .ready (.taken c) hu ((taken_of_not_switch hout).trans hin)
    have hbeats : ¬ s.sys.CurrentBeats c t := by
      rintro ⟨u, hu, hlt⟩
      rw [hs.priority htts, hs.priority (hhome u hu)] at hlt
      exact Int.lt_irrefl p hlt
    obtain ⟨links, hrun, -, -⟩ :=
      (ho.lists.picksFirst c fun u => ho.current_live hout).takes t hfirst hbeats
    cases hcase with
    | nothing =>
      unfold Smp.step at hstep
      simp only [hidle, hrun, Option.bind_eq_bind, Option.bind_some, Option.pure_def,
        Option.some.injEq] at hstep
      have hphase := congrArg (fun s => Smp.phase s c) hstep
      simp only [Smp.setPhase, Function.update_self, hidle, reduceCtorEq] at hphase
    | @take _ t' x q' _ _ _ _ hmem hrun' =>
      rw [hrun, Option.some.injEq, Prod.mk.injEq, Option.some.injEq] at hrun'
      obtain ⟨rfl, -⟩ := hrun'
      have hpast : ∀ u ∈ r, s.sys.stamp t < s.sys.stamp u := (List.pairwise_cons.mp hsorted).1
      have hrequeue : SwitchOp.requeue ∈ arch.switchOps := by cases arch <;> decide
      refine ⟨⟨(List.rotate_perm order 1).trans hi.perm, r, ?_, fun u hu => ?_,
        (List.pairwise_cons.mp hsorted).2⟩, t, Function.update_self ..⟩
      · have hphase : ({ s with sys := { s.sys with links := chainExtractTask s.sys.links t } }.setPhase
            c (.switch (s.sys.currentTask c) t arch.switchOps)).phase c =
            .switch (s.sys.currentTask c) t arch.switchOps := Function.update_self ..
        rw [leaving_switch hphase, taken_switch hphase, if_pos hrequeue, horder,
          List.cons_append, List.rotate_cons_succ, List.rotate_zero]
        rfl
      · refine (hmem .ready u).mpr ⟨?_, hready u (List.mem_cons_of_mem t hu)⟩
        rintro rfl
        exact Nat.lt_irrefl _ (hpast u hu)

/-- A pCPU that is in no call can take its next step. -/
theorem Owned.goes_on (ho : Owned arch s.sys s.phase q)
    (hc : ∀ call stage, s.phase c ≠ .cpuOn call stage) :
    ∃ a s', (a = .pick c ∨ ∃ regs, a = .switch c regs) ∧ s.step arch cfg a = some s' := by
  cases hph : s.phase c with
  | cpuOn call stage => exact absurd hph (hc call stage)
  | idle =>
    have hpick : ∃ s', s.step arch cfg (.pick c) = some s' := by
      unfold Smp.step
      rcases ho.pick hph with hrun | ⟨t, x, q', -, -, -, hrun, -⟩
      · simp only [hph, hrun]
        exact ⟨_, rfl⟩
      · simp only [hph, hrun]
        exact ⟨_, rfl⟩
    obtain ⟨s', hs'⟩ := hpick
    exact ⟨.pick c, s', .inl rfl, hs'⟩
  | switch old next todo =>
    refine ⟨.switch c ⟨0, 0, 0, 0⟩, ?_⟩
    cases todo with
    | nil => exact absurd rfl (ho.shape c old next [] hph).2.1
    | cons o todo =>
      have hop : ∃ s', switchOp s c old next ⟨0, 0, 0, 0⟩ o = some s' := by
        cases o with
        | publish => exact ⟨_, rfl⟩
        | restore => exact ⟨_, rfl⟩
        | save => cases old <;> exact ⟨_, rfl⟩
        | requeue =>
          cases old with
          | none => exact ⟨_, rfl⟩
          | some t =>
            obtain ⟨x, sys', -, hx, hexit, hrun, -⟩ := ho.requeue hph
            refine ⟨{ s with sys := sys' }, ?_⟩
            simp only [switchOp, hx, hrun, if_neg hexit, Option.bind_eq_bind, Option.bind_some,
              Option.pure_def]
      obtain ⟨s', hs'⟩ := hop
      unfold Smp.step
      simp only [hph, hs']
      exact ⟨_, .inr ⟨_, rfl⟩, rfl⟩

/-- The last of an order that was rotated to it. -/
theorem last_of_rotate {α : Type} {l r : List α} {x : α} {k : Nat}
    (h : l.rotate (k + 1) = r ++ [x]) : l[k % l.length]? = some x := by
  have hlen : l.length = r.length + 1 := by
    rw [← List.length_rotate l (k + 1), h, List.length_append, List.length_singleton]
  have hlast : (l.rotate (k + 1))[r.length]? = some x := by rw [h, List.getElem?_concat_length]
  have hlt : r.length < l.length := by omega
  rw [List.getElem?_rotate hlt] at hlast
  rw [← hlast]
  congr 1
  rw [hlen, show r.length + (k + 1) = k + (r.length + 1) by omega, Nat.add_mod_right]

/-- What holds in every state of such a run: as many calls as the log has entries have gone
through the order, and one more is under way while `c` is in a switch. -/
structure TurnsTo (arch : Arch) (c : Cpu) (p : Int) (ts first : List TaskId)
    (log : List (Option TaskId)) (s : Smp) (q : ListHead → List TaskId) : Prop where
  owned : Owned arch s.sys s.phase q
  housed : Housed s
  sharing : Sharing s c p ts
  turn : s.phase c = .idle ∧ InTurn s q c ts (first.rotate log.length) ∨
    (s.phase c).isSwitch ∧ InTurn s q c ts (first.rotate (log.length + 1))
  logged : ∀ i < log.length, log[i]? = some first[i % first.length]?

theorem ended_busy (h : (s'.phase c).isSwitch) : a.ended c s' = [] := by
  unfold Action.ended
  split
  · split
    · rename_i hph
      rw [hph] at h
      cases h
    · rfl
  · rfl

theorem ended_idle (ha : a.cpu = some c) (h : s'.phase c = .idle) :
    a.ended c s' = [s'.sys.currentTask c] := by
  unfold Action.ended
  rw [if_pos ha, h]

/-- The phase after an operation of a switch. -/
theorem Owned.switch_rest (ho : Owned arch s.sys s.phase q) {regs : Vcpu}
    (hcase : StepCase arch cfg s q (.switch c regs) s' q') :
    (s.phase c).isSwitch ∧ ((s'.phase c).isSwitch ∨
      s'.phase c = .idle ∧ ∃ t, s'.sys.currentTask c = some t) := by
  have hrest : ∃ old next o todo, s.phase c = .switch old next (o :: todo) ∧
      s'.phase c = .rest old next todo ∧ (todo = [] → s'.sys.currentTask c = some next) := by
    cases hcase with
    | publish hph =>
      exact ⟨_, _, _, _, hph, Function.update_self .., fun _ => Function.update_self ..⟩
    | requeue hph hsame =>
      refine ⟨_, _, _, _, hph, Function.update_self .., fun hnil => ?_⟩
      exact (congrFun hsame.currentTask c).trans (ho.last_current hph nofun hnil)
    | skip hph hor =>
      refine ⟨_, _, _, _, hph, Function.update_self .., ho.last_current hph ?_⟩
      rintro rfl
      rcases hor with h | h
      · cases h
      · cases h
    | save hph => exact ⟨_, _, _, _, hph, Function.update_self .., ho.last_current hph nofun⟩
    | restore hph => exact ⟨_, _, _, _, hph, Function.update_self .., ho.last_current hph nofun⟩
  obtain ⟨old, next, o, todo, hph, hph', hlast⟩ := hrest
  refine ⟨by rw [hph]; rfl, ?_⟩
  rw [hph', Phase.rest]
  split
  · rename_i hnil
    exact .inr ⟨rfl, next, hlast hnil⟩
  · exact .inl rfl

section

variable {first : List TaskId} {log : List (Option TaskId)}

/-- A pick on `c` takes a task, so it does not end the call. -/
theorem TurnsTo.pick (ht : TurnsTo arch c p ts first log s q) (hn : 2 ≤ ts.length)
    (ho' : Owned arch s'.sys s'.phase q') (hh' : Housed s') (hs' : Sharing s' c p ts)
    (hcase : StepCase arch cfg s q (.pick c) s' q') (hstep : s.step arch cfg (.pick c) = some s') :
    TurnsTo arch c p ts first (log ++ Action.ended c s' (.pick c)) s' q' := by
  have hidle : s.phase c = .idle := by
    cases hcase with
    | nothing hph => exact hph
    | take hph => exact hph
  obtain ⟨-, hi⟩ := ht.turn.resolve_right fun h => by
    rw [hidle] at h
    cases h.1
  obtain ⟨hi', t, hph'⟩ := hi.pick ht.owned ht.housed ht.sharing hn hidle hcase hstep
  have hswitch : (s'.phase c).isSwitch = true := by rw [hph']; rfl
  rw [List.rotate_rotate] at hi'
  rw [ended_busy hswitch, List.append_nil]
  exact ⟨ho', hh', hs', .inr ⟨hswitch, hi'⟩, ht.logged⟩

/-- An operation of the switch on `c`; the last one ends the call. -/
theorem TurnsTo.op (ht : TurnsTo arch c p ts first log s q) {regs : Vcpu}
    (ho' : Owned arch s'.sys s'.phase q') (hh' : Housed s') (hs' : Sharing s' c p ts)
    (hcase : StepCase arch cfg s q (.switch c regs) s' q')
    (hstep : s.step arch cfg (.switch c regs) = some s') :
    TurnsTo arch c p ts first (log ++ Action.ended c s' (.switch c regs)) s' q' := by
  obtain ⟨hswitch, hafter⟩ := ht.owned.switch_rest hcase
  obtain ⟨-, hi⟩ := ht.turn.resolve_left fun h => by
    rw [h.1] at hswitch
    cases hswitch
  have hi' := hi.switch ht.owned hcase hstep
  rcases hafter with hbusy | ⟨hidle, t, hcur⟩
  · rw [ended_busy hbusy, List.append_nil]
    exact ⟨ho', hh', hs', .inr ⟨hbusy, hi'⟩, ht.logged⟩
  · rw [ended_idle rfl hidle, hcur]
    have hout : (s'.phase c).isSwitch = false := by rw [hidle]; rfl
    obtain ⟨r, horder, -, -⟩ := hi'.split
    rw [leaving_of_not_switch hout, taken_of_not_switch hout, hcur, Option.toList_none,
      List.append_nil, Option.toList_some] at horder
    refine ⟨ho', hh', hs', .inl ⟨hidle, ?_⟩, fun i hlt => ?_⟩
    · rw [List.length_append, List.length_singleton]
      exact hi'
    · rw [List.length_append, List.length_singleton] at hlt
      rcases Nat.lt_succ_iff_lt_or_eq.mp hlt with h | rfl
      · rw [List.getElem?_append_left h]
        exact ht.logged i h
      · rw [List.getElem?_concat_length, last_of_rotate horder]

/-- One step of the other pCPUs, or of a call of `sched_yield` on `c`. -/
theorem TurnsTo.step (ht : TurnsTo arch c p ts first log s q) (hn : 2 ≤ ts.length)
    (hok : KeepsPins s a) (hcall : ∀ cpuId entry contextId, a ≠ .cpuOn c cpuId entry contextId)
    (hstep : s.step arch cfg a = some s') (hs' : Sharing s' c p ts) :
    ∃ q', TurnsTo arch c p ts first (log ++ a.ended c s') s' q' := by
  have ho := ht.owned
  obtain ⟨q', hcase, ho'⟩ := ho.step hstep
  have hh' := ht.housed.step hcase (ho.switchView hcase) hok
  refine ⟨q', ?_⟩
  by_cases hcpu : a.cpu = some c
  · cases a with
    | pick d =>
      obtain rfl := Option.some.inj hcpu
      exact ht.pick hn ho' hh' hs' hcase hstep
    | switch d regs =>
      obtain rfl := Option.some.inj hcpu
      exact ht.op ho' hh' hs' hcase hstep
    | create t x vcpu => cases hcpu
    | cpuOn d cpuId entry contextId =>
      obtain rfl := Option.some.inj hcpu
      exact absurd rfl (hcall cpuId entry contextId)
    | onStep d mem vbar =>
      -- `c` is in no CPU_ON call
      obtain rfl := Option.some.inj hcpu
      unfold Smp.step at hstep
      rcases ht.turn with ⟨hph, -⟩ | ⟨hph, -⟩
      · simp [hph] at hstep
      · cases hphase : s.phase d with
        | idle => simp [hphase] at hstep
        | switch old next todo => simp [hphase] at hstep
        | cpuOn call stage =>
          rw [hphase] at hph
          cases hph
  · obtain ⟨hphase, -⟩ := hcase.frame hcpu
    have hended : a.ended c s' = [] := if_neg hcpu
    rw [hended, List.append_nil]
    refine ⟨ho', hh', hs', ?_, ht.logged⟩
    rw [hphase]
    exact ht.turn.imp (And.imp_right fun hi => hi.others ho ht.sharing hcase hstep hcpu)
      (And.imp_right fun hi => hi.others ho ht.sharing hcase hstep hcpu)

/-- A run of turns. -/
theorem Turns.turnsTo {s₀ : Smp} (hn : 2 ≤ ts.length)
    (h₀ : ∃ q, TurnsTo arch c p ts first [] s₀ q)
    (h : Turns arch cfg KeepsPins true c p ts s₀ log s) :
    ∃ q, TurnsTo arch c p ts first log s q := by
  induction h with
  | start => exact h₀
  | turnedAway _ _ hguard =>
    have hopen : arch.letsIn true c = true := by
      cases arch with
      | aarch64 => rfl
      | riscv64 => exact Bool.or_true _
    cases hopen.symm.trans hguard
  | step _ hok _ hcall hstep hs' ih =>
    obtain ⟨q, ht⟩ := ih
    exact ht.step hn hok hcall hstep hs'

/-- The order at the start. -/
theorem inTurn_queueOrder (ho : Owned arch s.sys s.phase q) (hh : Housed s)
    (hs : Sharing s c p ts) (hnd : ts.Nodup) (hidle : s.phase c = .idle) :
    InTurn s q c ts (queueOrder s q c ts) := by
  have hout : (s.phase c).isSwitch = false := by rw [hidle]; rfl
  have htaken : taken s.sys s.phase c = s.sys.currentTask c := taken_of_not_switch hout
  have hhome : ∀ u, s.sys.currentTask c = some u → u ∈ ts := fun u hu =>
    hs.only u (hh c u (.inl (htaken.trans hu)))
  have hcur : (s.sys.currentTask c).toList.filter (· ∈ ts) = (s.sys.currentTask c).toList :=
    List.filter_eq_self.mpr fun u hu => decide_eq_true (hhome u (Option.mem_toList.mp hu))
  have horder : queueOrder s q c ts =
      (q .ready).filter (· ∈ ts) ++ (s.sys.currentTask c).toList := congrArg _ hcur
  have hmem : ∀ u, u ∈ queueOrder s q c ts ↔ u ∈ ts := by
    intro u
    rw [horder, List.mem_append, List.mem_filter, decide_eq_true_eq, Option.mem_toList]
    refine ⟨fun h => h.elim And.right (hhome u), fun hu => ?_⟩
    -- a task that is pinned to `c` waits, or `c` has it
    obtain ⟨x, hx, -, -⟩ := hs.pinned u hu
    obtain ⟨pl, hin⟩ := ho.places.somewhere u (Option.isSome_of_mem hx)
    have hself : ∀ d, Has s d u → d = c := fun d hd => (hs.eligible hu d).mp (hh d u hd)
    cases pl with
    | ready => exact .inl ⟨hin, hu⟩
    | taken d =>
      obtain rfl := hself d (.inl hin)
      exact .inr (htaken.symm.trans hin)
    | leaving d =>
      obtain rfl := hself d (.inr hin)
      cases (leaving_of_not_switch hout).symm.trans hin
  have hnodup : (queueOrder s q c ts).Nodup := by
    rw [horder, List.nodup_append]
    have hone : (s.sys.currentTask c).toList.Nodup := by
      cases s.sys.currentTask c with
      | none => exact List.nodup_nil
      | some u => exact List.nodup_singleton u
    refine ⟨(ho.lists.nodup .ready).filter _, hone, ?_⟩
    rintro u hu v hv rfl
    have hat := htaken.trans (Option.mem_toList.mp hv)
    cases ho.places.alone u .ready (.taken c) (List.mem_filter.mp hu).1 hat
  refine ⟨(List.perm_ext_iff_of_nodup hnodup hnd).mpr hmem, (q .ready).filter (· ∈ ts), ?_,
    fun t ht => (List.mem_filter.mp ht).1, ?_⟩
  · rw [leaving_of_not_switch hout, htaken, Option.toList_none, List.append_nil]
    exact horder
  · refine ((ho.lists.sorted .ready).filter _).imp_of_mem fun {a b} ha hb hab => ?_
    have hmine : ∀ u ∈ (q .ready).filter (· ∈ ts), s.sys.priorityOf u = p := fun u hu =>
      hs.priority (of_decide_eq_true (List.mem_filter.mp hu).2)
    rcases hab with hlt | ⟨_, hlt⟩
    · rw [hmine a ha, hmine b hb] at hlt
      exact absurd hlt (Int.lt_irrefl p)
    · exact hlt

theorem roundRobin (ho : Owned arch s.sys s.phase q) (hh : Housed s) (hidle : s.phase c = .idle) :
    RoundRobin arch cfg KeepsPins s q c := by
  intro p ts hnd hn hs
  have hi := inTurn_queueOrder ho hh hs hnd hidle
  intro log s' hturns
  have h₀ : TurnsTo arch c p ts (queueOrder s q c ts) [] s q :=
    ⟨ho, hh, hs, .inl ⟨hidle, by rwa [List.length_nil, List.rotate_zero]⟩, nofun⟩
  obtain ⟨q', ht⟩ := hturns.turnsTo hn ⟨q, h₀⟩
  refine ⟨ht.owned.goes_on (c := c) fun call stage hph => ?_, fun hlen => ?_⟩
  · rcases ht.turn with ⟨h, -⟩ | ⟨h, -⟩
    · cases h.symm.trans hph
    · rw [hph] at h
      cases h
  · have hlog : log = (queueOrder s q c ts).map some := by
      refine List.ext_getElem? fun i => ?_
      rw [List.getElem?_map]
      rcases Nat.lt_or_ge i log.length with hlt | hge
      · have hlt' : i < (queueOrder s q c ts).length := by
          rw [hi.perm.length_eq, ← hlen]
          exact hlt
        rw [ht.logged i hlt, Nat.mod_eq_of_lt hlt', List.getElem?_eq_getElem hlt']
        rfl
      · have hge' : (queueOrder s q c ts).length ≤ i := by
          rw [hi.perm.length_eq, ← hlen]
          exact hge
        rw [List.getElem?_eq_none hge, List.getElem?_eq_none hge']
        rfl
    exact ⟨hlog ▸ hi.perm.map some, hlog⟩

end

end

/-- The order of scheduling: every choice of a next task takes the first one, and tasks that
share a pCPU take turns on it, in every run in which no CPU_ON call writes the affinity of a
task that a pCPU has. -/
theorem scheduling_order {arch : Arch} {cfg : GuestConfig} {s : Smp}
    (hs : SmpRun arch cfg (fun _ _ => True) s) :
    ∃ q, Lists s.sys q ∧ ∀ c, s.phase c = .idle → PicksFirst s.sys q c ∧
      (SmpRun arch cfg KeepsPins s → RoundRobin arch cfg KeepsPins s q c) := by
  obtain ⟨q, ho⟩ := hs.owned
  refine ⟨q, ho.lists, fun c hidle => ?_⟩
  have hout : (s.phase c).isSwitch = false := by rw [hidle]; rfl
  exact ⟨ho.lists.picksFirst c fun u => ho.current_live hout,
    fun hk => roundRobin ho hk.housed.1 hidle⟩

section

variable {arch : Arch} {cfg : GuestConfig} {s s' : Smp} {q : ListHead → List TaskId}
  {t : TaskId} {c : Cpu}

/-- The live tasks after some steps: those from before, and created ones. -/
theorem exec_live {actions : List Action} (ho : Owned arch s.sys s.phase q)
    (h : s.exec arch cfg actions = some s') (ht : (s'.sys.task t).isSome) :
    (s.sys.task t).isSome ∨ t ∈ actions.flatMap Action.creates := by
  induction actions generalizing s q with
  | nil => exact .inl (Option.some.inj h ▸ ht)
  | cons a actions ih =>
    simp only [Smp.exec, List.foldlM_cons, Option.bind_eq_bind, Option.bind_eq_some_iff] at h
    obtain ⟨s₁, hstep, hrest⟩ := h
    obtain ⟨q₁, hcase, ho₁⟩ := ho.step hstep
    rw [List.flatMap_cons, List.mem_append]
    rcases ih ho₁ hrest with hlive | hin
    · rcases hcase.task_cases with he | ⟨u, x, hu, -, he⟩ | ⟨d, mem, vbar, call, u, o, todo, -, -, he⟩
      · exact .inl (he ▸ hlive)
      · rw [he, Function.update_apply] at hlive
        split at hlive
        · rename_i htu
          exact .inr (.inl (htu ▸ hu))
        · exact .inl hlive
      · left
        rw [he] at hlive
        cases o with
        | mpidr => exact (modifyTask_isSome t).symm.trans hlive
        | anyPcpu => exact (modifyTask_isSome t).symm.trans hlive
        | pcpu => exact (modifyTask_isSome t).symm.trans hlive
        | vmpidr => exact hlive
        | vbar => exact hlive
        | x0 => exact hlive
    · exact .inr (.inr hin)

/-- The sharing is a matter of the task table. -/
theorem Sharing.congr {p : Int} {ts : List TaskId} (hs : Sharing s c p ts)
    (h : s'.sys.task = s.sys.task) : Sharing s' c p ts := by
  refine ⟨fun t ht => ?_, fun t hel => hs.only t ?_⟩
  · rw [h]
    exact hs.pinned t ht
  · unfold System.eligible at hel ⊢
    rwa [h] at hel

/-- What is current on `c` at the ends of its calls, when only `c` takes steps. -/
def ownLog (arch : Arch) (cfg : GuestConfig) (c : Cpu) : Smp → List Action → List (Option TaskId)
  | _, [] => []
  | s, a :: actions =>
    match s.step arch cfg a with
    | some s' => a.ended c s' ++ ownLog arch cfg c s' actions
    | none => []

/-- Steps of `c` alone are turns. -/
theorem Turns.exec {p : Int} {ts : List TaskId} {s₀ : Smp} {log : List (Option TaskId)}
    {actions : List Action}
    (h : Turns .aarch64 cfg (fun _ _ => True) true c p ts s₀ log s)
    (ho : Owned .aarch64 s.sys s.phase q) (hs : Sharing s c p ts)
    (hown : ∀ a ∈ actions, a = .pick c ∨ ∃ regs, a = .switch c regs)
    (hexec : s.exec .aarch64 cfg actions = some s') :
    Turns .aarch64 cfg (fun _ _ => True) true c p ts s₀
      (log ++ ownLog .aarch64 cfg c s actions) s' := by
  induction actions generalizing s q log with
  | nil =>
    obtain rfl := Option.some.inj hexec
    rwa [ownLog, List.append_nil]
  | cons a actions ih =>
    simp only [Smp.exec, List.foldlM_cons, Option.bind_eq_bind, Option.bind_eq_some_iff] at hexec
    obtain ⟨s₁, hstep, hrest⟩ := hexec
    obtain ⟨q₁, hcase, ho₁⟩ := ho.step hstep
    have ha := hown a List.mem_cons_self
    have htask : s₁.sys.task = s.sys.task := by
      rcases hcase.task_cases with he | ⟨u, x, hu, -⟩ | ⟨d, mem, vbar, call, u, o, todo, rfl, -⟩
      · exact he
      · rcases ha with rfl | ⟨regs, rfl⟩
        · exact absurd hu List.not_mem_nil
        · exact absurd hu List.not_mem_nil
      · rcases ha with he | ⟨regs, he⟩
        · cases he
        · cases he
    have hcall : ∀ cpuId entry contextId, a ≠ .cpuOn c cpuId entry contextId := by
      rintro cpuId entry contextId rfl
      rcases ha with he | ⟨regs, he⟩
      · cases he
      · cases he
    have hs₁ := hs.congr htask
    have hnext := ih (h.step trivial (fun _ => rfl) hcall hstep hs₁) ho₁ hs₁
      (fun b hb => hown b (List.mem_cons_of_mem a hb)) hrest
    rw [ownLog, hstep]
    rwa [List.append_assoc] at hnext

end

/-- Two tasks on pCPU 1 of a RISC-V host. -/
theorem scheduling_order_two : ∃ s q, SmpRun .riscv64 defaultVcpus (fun _ _ => True) s ∧
    Sharing s 1 10 [1, 2] ∧ RoundRobin .riscv64 defaultVcpus KeepsPins s q 1 := by
  have hexec : ∃ s, initSmp.exec .riscv64 defaultVcpus
      [.create 1 ⟨10, 1, 1, .ready⟩ ⟨0, 0, 0, 0⟩, .create 2 ⟨10, 1, 5, .ready⟩ ⟨0, 0, 0, 0⟩] = some s ∧
      s.sys.task 1 = some ⟨10, 1, 1, .ready⟩ ∧ s.sys.task 2 = some ⟨10, 1, 5, .ready⟩ ∧
      s.phase 1 = .idle := ⟨_, rfl, rfl, rfl, rfl⟩
  obtain ⟨s, hexec, h1, h2, hidle⟩ := hexec
  have hpins : SmpRun .riscv64 defaultVcpus KeepsPins s := by
    refine SmpRun.init.execAll (fun a ha s t => ?_) hexec
    rintro ⟨c, mem, vbar, call, o, todo, rfl, -⟩
    simp at ha
  obtain ⟨q, -, horder⟩ := scheduling_order (SmpRun.init.exec hexec)
  refine ⟨s, q, SmpRun.init.exec hexec, ⟨fun t ht => ?_, fun t hel => ?_⟩, (horder 1 hidle).2 hpins⟩
  · rcases List.mem_cons.mp ht with rfl | ht
    · exact ⟨_, h1, rfl, rfl⟩
    · obtain rfl := List.mem_singleton.mp ht
      exact ⟨_, h2, rfl, rfl⟩
  · have hlive : (s.sys.task t).isSome := by
      unfold System.eligible at hel
      obtain ⟨x, hx, -⟩ := Option.any_eq_true _ _ |>.mp hel
      exact Option.isSome_of_mem hx
    exact (exec_live (owned_init .riscv64) hexec hlive).resolve_left nofun

/-- Two tasks get pinned to pCPU 1, one of them while pCPU 0 has it. -/
def pinnedElsewhere : List Action := List.flatten [
  [.create 1 bootTask ⟨0, 0, 0, 0⟩, .pick 0], switches 0 4,
  -- the boot vCPU turns on vCPU 2, which pCPU 1 takes while its affinity is -1
  [.cpuOn 0 2 0x50000000 0], List.replicate 5 (.onStep 0 none 0), [.onStep 0 (some 3) 0],
  List.replicate 3 (.onStep 0 none 0), [.pick 1], switches 1 4, List.replicate 6 (.onStep 0 none 0),
  -- vCPU 2 turns on vCPU 1, which pCPU 0 takes while its affinity is 0
  [.cpuOn 1 1 0x50000000 0], List.replicate 5 (.onStep 1 none 0), [.onStep 1 (some 2) 0],
  [.onStep 1 none 0, .pick 0], switches 0 4, List.replicate 8 (.onStep 1 none 0),
  -- once more, while nobody sees vCPU 1 because pCPU 0 is switching away from it
  [.pick 0], switches 0 1, [.cpuOn 1 1 0x50000000 0], List.replicate 5 (.onStep 1 none 0), switches 0 3,
  [.onStep 1 (some 4) 0], [.onStep 1 none 0, .pick 0], switches 0 4, List.replicate 8 (.onStep 1 none 0)]

/-- Two calls on pCPU 1 make the same task current twice: the other one is with pCPU 0. -/
theorem scheduling_order_fails : ∃ s q, SmpRun .aarch64 defaultVcpus (fun _ _ => True) s ∧
    Lists s.sys q ∧ s.phase 1 = .idle ∧
    ¬ RoundRobin .aarch64 defaultVcpus (fun _ _ => True) s q 1 := by
  have hcheck : ((initSmp.exec .aarch64 defaultVcpus pinnedElsewhere).map fun s =>
      ([1, 2, 3, 4].map s.sys.task, (s.phase 1).isIdle,
        (s.exec .aarch64 defaultVcpus ([.pick 1] ++ switches 1 4 ++ [.pick 1])).isSome,
        ownLog .aarch64 defaultVcpus 1 s ([.pick 1] ++ switches 1 4 ++ [.pick 1]))) =
      some ([some bootTask, some ⟨10, 1, 1, .ready⟩, some ⟨10, 2, 2, .ready⟩, some ⟨10, 1, 1, .ready⟩],
        true, true, [some 2, some 2]) := by decide +kernel
  obtain ⟨s, hexec, hfacts⟩ := Option.map_eq_some_iff.mp hcheck
  simp only [List.map_cons, List.map_nil, Prod.mk.injEq, List.cons.injEq, and_true] at hfacts
  obtain ⟨⟨h1, h2, h3, h4⟩, hidle, htwo, hlog⟩ := hfacts
  have hidle := Phase.eq_idle hidle
  obtain ⟨s', htwo⟩ := Option.isSome_iff_exists.mp htwo
  obtain ⟨q, ho⟩ := (SmpRun.init.exec hexec).owned
  have hsharing : Sharing s 1 10 [2, 4] := by
    refine ⟨fun t ht => ?_, fun t hel => ?_⟩
    · rcases List.mem_cons.mp ht with rfl | ht
      · exact ⟨_, h2, rfl, rfl⟩
      · obtain rfl := List.mem_singleton.mp ht
        exact ⟨_, h4, rfl, rfl⟩
    · have hlive : (s.sys.task t).isSome := by
        unfold System.eligible at hel
        obtain ⟨x, hx, -⟩ := (Option.any_eq_true _ _).mp hel
        exact Option.isSome_of_mem hx
      have hin := (exec_live (owned_init .aarch64) hexec hlive).resolve_left nofun
      have hids : pinnedElsewhere.flatMap Action.creates = [1, 3, 2, 4] := rfl
      rw [hids] at hin
      unfold System.eligible at hel
      simp only [List.mem_cons, List.not_mem_nil, or_false] at hin
      rcases hin with rfl | rfl | rfl | rfl
      · rw [h1] at hel
        exact absurd hel (by decide)
      · rw [h3] at hel
        exact absurd hel (by decide)
      · exact List.mem_cons_self
      · exact List.mem_cons_of_mem 2 List.mem_cons_self
  refine ⟨s, q, SmpRun.init.exec hexec, ho.lists, hidle, fun hrr => ?_⟩
  have hown : ∀ a ∈ [Action.pick 1] ++ switches 1 4 ++ [Action.pick 1],
      a = .pick 1 ∨ ∃ regs, a = .switch 1 regs := by
    intro a ha
    simp only [switches, List.mem_append, List.mem_singleton, List.mem_replicate] at ha
    rcases ha with (rfl | ⟨-, rfl⟩) | rfl
    · exact .inl rfl
    · exact .inr ⟨_, rfl⟩
    · exact .inl rfl
  have hturns := Turns.start.exec ho hsharing hown htwo
  rw [hlog] at hturns
  have hperm := ((hrr 10 [2, 4] (by decide) (by decide) hsharing _ _ hturns).2 rfl).1
  exact absurd (hperm.symm.subset (by decide : some 4 ∈ [2, 4].map some)) (by decide)

end HyperCore.Sched
