import HyperCore.Sched.Findable

/-!
# Registers across pCPUs

`sched_yield` requeues the outgoing task before it has saved its registers, so another
pCPU could take the task and restore what was saved the time before. On RISC-V the task
is also still `current` on the old pCPU until the end of the switch.

Two conditions keep this away. The first one is about the moment of a pick: nobody is
still on the way out of the task (`TakesReleased`). The second one is the reason why it
holds as a rule: the scheduler takes only tasks that are pinned to a pCPU and that no
CPU_ON call has still to write to (`TakesPinned`). `psci_vcpu_on` publishes its task with
affinity 0 and then makes the affinity -1 for a moment, so neither holds of every run.
-/

namespace HyperCore.Sched

open Places

/-- Pcpu `c` is switching away from `t`, and has not saved it or still has it as `current`. -/
def Releasing (s : Smp) (c : Cpu) (t : TaskId) : Prop :=
  ∃ next todo, s.phase c = .switch (some t) next todo ∧
    (SwitchOp.save ∈ todo ∨ SwitchOp.publish ∈ todo)

/-- The task has an id, and no CPU_ON call has still to write to it. -/
def Built (s : Smp) (t : TaskId) : Prop :=
  (∃ x, s.sys.task t = some x ∧ x.mpidr ≠ placeholder) ∧
    ∀ c call o todo, s.phase c ≠ .cpuOn call (.patch t (o :: todo))

/-- A task that is taken is one that every pCPU has let go. -/
def TakesReleased (s : Smp) (a : Action) : Prop :=
  ∀ t, Takes s a t → ∀ c, ¬ Releasing s c t

/-- A task that is taken is complete and pinned. -/
def TakesPinned (s : Smp) (a : Action) : Prop :=
  ∀ t, Takes s a t → Built s t ∧ ∃ x, s.sys.task t = some x ∧ x.pcpuAffinity ≠ -1

/-- The registers that a pCPU is about to restore are not in another pCPU, nor in this
one, and the task is `current` nowhere else. -/
def RestoresSaved (s : Smp) : Prop :=
  ∀ c old next todo, s.phase c = .switch old next (.restore :: todo) →
    (∀ c', s.context next ≠ .live c') ∧ ∀ c', c' ≠ c → s.sys.currentTask c' ≠ some next

/-! ## The part of a step that switches -/

/-- What a step does to the switches: nothing, a pick, or one operation of a switch. -/
inductive SwitchView (arch : Arch) (s s' : Smp) : Action → Prop
  | quiet {a : Action} :
      s'.context = s.context → s'.sys.currentTask = s.sys.currentTask →
      (∀ c, s'.phase c = s.phase c ∨
        (s.phase c).isSwitch = false ∧ (s'.phase c).isSwitch = false) →
      SwitchView arch s s' a
  | take {c : Cpu} {t : TaskId} {x : Task} :
      s.phase c = .idle → Takes s (.pick c) t → s.sys.task t = some x →
      x.pcpuAffinity = -1 ∨ x.pcpuAffinity = c.val →
      s'.context = s.context → s'.sys.currentTask = s.sys.currentTask →
      s'.phase = Function.update s.phase c (.switch (s.sys.currentTask c) t arch.switchOps) →
      SwitchView arch s s' (.pick c)
  | op {c : Cpu} {regs : Vcpu} {old : Option TaskId} {next : TaskId} {o : SwitchOp}
      {todo : List SwitchOp} :
      s.phase c = .switch old next (o :: todo) →
      s'.phase = Function.update s.phase c (.rest old next todo) →
      (∀ c', c' ≠ c → s'.sys.currentTask c' = s.sys.currentTask c') →
      (todo = [] → s'.sys.currentTask c = some next) →
      (∀ t c', s'.context t = .live c' →
        s.context t = .live c' ∧ (o = .save → old = some t → c' ≠ c) ∨
          o = .restore ∧ t = next ∧ c' = c) →
      (∀ t, s'.context t = .fresh ↔ s.context t = .fresh ∧ (o = .restore → t ≠ next)) →
      SwitchView arch s s' (.switch c regs)

section

variable {arch : Arch} {cfg : GuestConfig} {s s' : Smp} {q q' : ListHead → List TaskId}
  {a : Action} {c : Cpu} {t : TaskId} {x : Task}

/-- A step of a pCPU that is in no switch. -/
theorem SwitchView.ofPhase (hcontext : s'.context = s.context)
    (hcurrent : s'.sys.currentTask = s.sys.currentTask) {p : Phase}
    (hphase : s'.phase = Function.update s.phase c p) (hc : (s.phase c).isSwitch = false)
    (hp : p.isSwitch = false) : SwitchView arch s s' a := by
  refine .quiet hcontext hcurrent fun c' => ?_
  rw [hphase]
  by_cases hcc : c' = c
  · subst hcc
    rw [Function.update_self]
    exact .inr ⟨hc, hp⟩
  · rw [Function.update_of_ne hcc]
    exact .inl rfl

theorem saveContext_live {regs : Vcpu} {u : TaskId} {c' : Cpu}
    (h : (s.saveContext c t regs).context u = .live c') :
    s.context u = .live c' ∧ (t = u → c' ≠ c) := by
  change (if s.context t = Context.live c then Function.update s.context t .saved
    else s.context) u = .live c' at h
  by_cases hl : s.context t = Context.live c
  · rw [if_pos hl] at h
    by_cases hu : u = t
    · subst hu
      rw [Function.update_self] at h
      cases h
    · rw [Function.update_of_ne hu] at h
      exact ⟨h, fun he => absurd he.symm hu⟩
  · rw [if_neg hl] at h
    refine ⟨h, ?_⟩
    rintro rfl rfl
    exact hl h

theorem saveContext_fresh {regs : Vcpu} {u : TaskId} :
    (s.saveContext c t regs).context u = .fresh ↔ s.context u = .fresh := by
  change (if s.context t = Context.live c then Function.update s.context t .saved
    else s.context) u = .fresh ↔ _
  by_cases hl : s.context t = Context.live c
  · rw [if_pos hl]
    by_cases hu : u = t
    · subst hu
      rw [Function.update_self, hl]
      exact ⟨nofun, nofun⟩
    · rw [Function.update_of_ne hu]
  · rw [if_neg hl]

theorem restoreContext_fresh {u : TaskId} :
    (s.restoreContext c t).context u = .fresh ↔ s.context u = .fresh ∧ u ≠ t := by
  change Function.update s.context t (.live c) u = .fresh ↔ _
  by_cases hu : u = t
  · subst hu
    rw [Function.update_self]
    exact ⟨nofun, fun h => absurd rfl h.2⟩
  · rw [Function.update_of_ne hu]
    exact ⟨fun h => ⟨h, hu⟩, fun h => h.1⟩

theorem restoreContext_live {u : TaskId} {c' : Cpu}
    (h : (s.restoreContext c t).context u = .live c') :
    s.context u = .live c' ∨ u = t ∧ c' = c := by
  change Function.update s.context t (.live c) u = .live c' at h
  by_cases hu : u = t
  · subst hu
    rw [Function.update_self] at h
    exact .inr ⟨rfl, (Context.live.inj h).symm⟩
  · rw [Function.update_of_ne hu] at h
    exact .inl h

theorem Owned.switchView (ho : Owned arch s.sys s.phase q)
    (hcase : StepCase arch cfg s q a s' q') : SwitchView arch s s' a := by
  cases hcase with
  | nothing => exact .quiet rfl rfl fun _ => .inl rfl
  | take hph hin hx haff hmem hrun => exact .take hph ⟨_, _, rfl, hrun⟩ hx haff rfl rfl rfl
  | publish hph =>
    exact .op hph rfl (fun c' hcc => Function.update_of_ne hcc _ _)
      (fun _ => Function.update_self ..) (fun t c' h => .inl ⟨h, nofun⟩)
      fun t => (and_iff_left nofun).symm
  | requeue hph hsame hmem =>
    refine .op hph rfl (fun c' _ => congrFun hsame.currentTask c') (fun hnil => ?_)
      (fun t c' h => .inl ⟨h, nofun⟩) fun t => (and_iff_left nofun).symm
    exact (congrFun hsame.currentTask _).trans (ho.last_current hph nofun hnil)
  | skip hph ho' =>
    rcases ho' with rfl | rfl
    · exact .op hph rfl (fun _ _ => rfl) (ho.last_current hph nofun)
        (fun t c' h => .inl ⟨h, nofun⟩) fun t => (and_iff_left nofun).symm
    · exact .op hph rfl (fun _ _ => rfl) (ho.last_current hph nofun)
        (fun t c' h => .inl ⟨h, fun _ => nofun⟩) fun t => (and_iff_left nofun).symm
  | @save c regs t next todo hph =>
    refine .op hph rfl (fun _ _ => rfl) (ho.last_current hph nofun) (fun u c' h => ?_) fun u => ?_
    · obtain ⟨hl, hne⟩ := @saveContext_live s c t regs u c' h
      exact .inl ⟨hl, fun _ he => hne (Option.some.inj he)⟩
    · exact (@saveContext_fresh s c t regs u).trans (and_iff_left nofun).symm
  | restore hph =>
    refine .op hph rfl (fun _ _ => rfl) (ho.last_current hph nofun) (fun t c' h => ?_) fun t => ?_
    · exact (restoreContext_live h).imp (fun hl => ⟨hl, nofun⟩) fun he => ⟨rfl, he⟩
    · refine restoreContext_fresh.trans (and_congr_right fun _ => ?_)
      exact ⟨fun h _ => h, fun h => h rfl⟩
  | create _ hsame => exact .quiet rfl hsame.currentTask fun _ => .inl rfl
  | callOn hph => exact .ofPhase rfl rfl rfl (by rw [hph]; rfl) rfl
  | callInvalid hph => exact .ofPhase rfl rfl rfl (by rw [hph]; rfl) rfl
  | checkMiss hph => exact .ofPhase rfl rfl rfl (by rw [hph]; rfl) rfl
  | checkHit hph => exact .ofPhase rfl rfl rfl (by rw [hph]; rfl) rfl
  | listMiss hph => exact .ofPhase rfl rfl rfl (by rw [hph]; rfl) rfl
  | denied hph => exact .ofPhase rfl rfl rfl (by rw [hph]; rfl) rfl
  | created hph _ hsame => exact .ofPhase rfl hsame.currentTask rfl (by rw [hph]; rfl) rfl
  | searchMiss hph => exact .ofPhase rfl rfl rfl (by rw [hph]; rfl) rfl
  | searchHit hph => exact .ofPhase rfl rfl rfl (by rw [hph]; rfl) rfl
  | @patch c mem vbar call t o todo hph =>
    refine .ofPhase (p := .cpuOn call (.patch t todo)) ?_ (patchOp_currentTask ..) ?_
      (by rw [hph]; rfl) rfl
    · cases o <;> rfl
    · rw [Smp.setPhase, patchOp_phase]
  | success hph => exact .ofPhase rfl rfl rfl (by rw [hph]; rfl) rfl
  | leave hph => exact .ofPhase rfl rfl rfl (by rw [hph]; rfl) rfl

end

/-! ## Where live registers are -/

/-- Pcpu `c` runs `t`, or has restored it, or has not saved it yet. -/
def InRegisters (s : Smp) (c : Cpu) (t : TaskId) : Prop :=
  match s.phase c with
  | .switch old next todo => next = t ∧ .restore ∉ todo ∨ old = some t ∧ .save ∈ todo
  | _ => s.sys.currentTask c = some t

/-- Live registers are with a pCPU that has the task, and nobody is on the way out of a
task that another pCPU has taken. -/
structure Loaded (s : Smp) : Prop where
  live : ∀ t c, s.context t = .live c → InRegisters s c t
  released : ∀ c c' t, taken s.sys s.phase c = some t → ¬ Releasing s c' t

section

variable {arch : Arch} {cfg : GuestConfig} {s s' : Smp} {q q' : ListHead → List TaskId}
  {a : Action} {c : Cpu} {t : TaskId} {old : Option TaskId} {next : TaskId} {o : SwitchOp}
  {todo : List SwitchOp}

theorem inRegisters_switch (hph : s.phase c = .switch old next todo) :
    InRegisters s c t ↔ next = t ∧ .restore ∉ todo ∨ old = some t ∧ .save ∈ todo := by
  rw [InRegisters, hph]

theorem inRegisters_of_not_switch (h : (s.phase c).isSwitch = false) :
    InRegisters s c t ↔ s.sys.currentTask c = some t := by
  unfold InRegisters
  cases hp : s.phase c with
  | switch old next todo =>
    rw [hp] at h
    cases h
  | idle => exact Iff.rfl
  | cpuOn call stage => exact Iff.rfl

/-- A pCPU that holds a task has taken it, or is on the way out of it. -/
theorem InRegisters.taken_or_releasing (h : InRegisters s c t) :
    taken s.sys s.phase c = some t ∨ Releasing s c t := by
  cases hp : s.phase c with
  | switch old next todo =>
    rcases (inRegisters_switch hp).mp h with ⟨rfl, _⟩ | ⟨rfl, hsave⟩
    · exact .inl (taken_switch hp)
    · exact .inr ⟨next, todo, hp, .inl hsave⟩
  | idle =>
    have hsw : (s.phase c).isSwitch = false := by rw [hp]; rfl
    exact .inl ((taken_of_not_switch hsw).trans ((inRegisters_of_not_switch hsw).mp h))
  | cpuOn call stage =>
    have hsw : (s.phase c).isSwitch = false := by rw [hp]; rfl
    exact .inl ((taken_of_not_switch hsw).trans ((inRegisters_of_not_switch hsw).mp h))

/-- A pCPU whose `current` is `t` has taken it, or is on the way out of it. -/
theorem Owned.current_taken (ho : Owned arch s.sys s.phase q)
    (hcur : s.sys.currentTask c = some t) :
    taken s.sys s.phase c = some t ∨ Releasing s c t := by
  cases hp : s.phase c with
  | switch old next todo =>
    have hshape := (ho.shape c old next todo hp).2.2
    rw [hcur] at hshape
    by_cases hpub : SwitchOp.publish ∈ todo
    · rw [if_pos hpub] at hshape
      subst hshape
      exact .inr ⟨next, todo, hp, .inr hpub⟩
    · rw [if_neg hpub] at hshape
      exact .inl ((taken_switch hp).trans hshape.symm)
  | idle => exact .inl ((taken_of_not_switch (by rw [hp]; rfl)).trans hcur)
  | cpuOn call stage => exact .inl ((taken_of_not_switch (by rw [hp]; rfl)).trans hcur)

theorem Loaded.restoresSaved (hl : Loaded s) (ho : Owned arch s.sys s.phase q) :
    RestoresSaved s := by
  intro c old next todo hph
  have htaken : taken s.sys s.phase c = some next := taken_switch hph
  have hsame : ∀ c', taken s.sys s.phase c' = some next → c' = c := fun c' h =>
    SmpPlace.taken.inj (ho.places.alone next (.taken c') (.taken c) h htaken)
  constructor
  · intro c' hlive
    have hreg := hl.live next c' hlive
    rcases hreg.taken_or_releasing with ht | hr
    · obtain rfl := hsame c' ht
      rcases (inRegisters_switch hph).mp hreg with ⟨_, hnot⟩ | ⟨rfl, hsave⟩
      · exact hnot List.mem_cons_self
      · exact hl.released c' c' next htaken ⟨next, _, hph, .inl hsave⟩
    · exact hl.released c c' next htaken hr
  · intro c' hne hcur
    rcases ho.current_taken hcur with ht | hr
    · exact hne (hsame c' ht)
    · exact hl.released c c' next htaken hr

/-- The switches of a pCPU that goes on with one. -/
theorem phase_rest_switch {phase : Cpu → Phase} {old' : Option TaskId} {next' : TaskId}
    {todo' : List SwitchOp}
    (h : Function.update phase c (.rest old next todo) c = .switch old' next' todo') :
    old' = old ∧ next' = next ∧ todo' = todo := by
  rw [Function.update_self, Phase.rest] at h
  by_cases hnil : todo = []
  · rw [if_pos hnil] at h
    cases h
  · rw [if_neg hnil, Phase.switch.injEq] at h
    exact ⟨h.1.symm, h.2.1.symm, h.2.2.symm⟩

/-- After a step a pCPU is on the way out of a task that it was on the way out of before,
or that it had when it picked another one. -/
theorem SwitchView.releasing (hv : SwitchView arch s s' a) (h : Releasing s' c t) :
    Releasing s c t ∨ taken s.sys s.phase c = some t ∧ leaving s'.phase c = some t := by
  obtain ⟨next', todo', hph', hleft⟩ := h
  cases hv with
  | quiet _ _ hphase =>
    rcases hphase c with he | ⟨_, hnot⟩
    · exact .inl ⟨next', todo', he ▸ hph', hleft⟩
    · rw [hph'] at hnot
      cases hnot
  | @take c₁ t₁ x hidle _ _ _ _ _ hphase =>
    have hrequeue : SwitchOp.requeue ∈ arch.switchOps := by cases arch <;> decide
    rw [hphase] at hph'
    by_cases hcc : c = c₁
    · subst hcc
      rw [Function.update_self, Phase.switch.injEq] at hph'
      refine .inr ⟨(taken_of_not_switch (by rw [hidle]; rfl)).trans hph'.1, ?_⟩
      rw [hphase, leaving, Function.update_self]
      exact (if_pos hrequeue).trans hph'.1
    · rw [Function.update_of_ne hcc] at hph'
      exact .inl ⟨next', todo', hph', hleft⟩
  | @op c₁ _ old next o todo hph hphase =>
    rw [hphase] at hph'
    by_cases hcc : c = c₁
    · subst hcc
      obtain ⟨rfl, rfl, rfl⟩ := phase_rest_switch hph'
      exact .inl ⟨next', _, hph, hleft.imp (List.mem_cons_of_mem o) (List.mem_cons_of_mem o)⟩
    · rw [Function.update_of_ne hcc] at hph'
      exact .inl ⟨next', todo', hph', hleft⟩

/-- After a step a pCPU has the task that it had before, or has picked one. -/
theorem SwitchView.taken_step (hv : SwitchView arch s s' a)
    (h : taken s'.sys s'.phase c = some t) :
    taken s.sys s.phase c = some t ∨
      a = .pick c ∧ s.phase c = .idle ∧ Takes s a t ∧
        ∃ x, s.sys.task t = some x ∧ (x.pcpuAffinity = -1 ∨ x.pcpuAffinity = c.val) := by
  cases hv with
  | quiet _ hcur hphase =>
    left
    rcases hphase c with he | ⟨hs, hs'⟩
    · rw [taken, he, hcur] at h
      exact h
    · rw [taken_of_not_switch hs', hcur] at h
      rw [taken_of_not_switch hs, h]
  | @take c₁ t₁ x hidle htakes hx haff _ hcur hphase =>
    rw [hphase] at h
    by_cases hcc : c = c₁
    · subst hcc
      rw [taken, Function.update_self, Option.some.injEq] at h
      subst h
      exact .inr ⟨rfl, hidle, htakes, x, hx, haff⟩
    · rw [taken_update_of_ne hcc, taken, hcur] at h
      exact .inl h
  | @op c₁ _ old next o todo hph hphase hother hlast =>
    left
    rw [hphase] at h
    by_cases hcc : c = c₁
    · subst hcc
      rw [taken_rest hlast] at h
      rw [taken_switch hph, h]
    · rw [taken_update_of_ne hcc, taken, hother c hcc] at h
      exact h

/-- After a step live registers are still with a pCPU that holds the task. -/
theorem Loaded.live_step (hl : Loaded s) (ho : Owned arch s.sys s.phase q)
    (hv : SwitchView arch s s' a) (h : s'.context t = .live c) : InRegisters s' c t := by
  cases hv with
  | quiet hcontext hcur hphase =>
    have hreg := hl.live t c (hcontext ▸ h)
    rcases hphase c with he | ⟨hs, hs'⟩
    · rw [InRegisters, he, hcur]
      exact hreg
    · rw [inRegisters_of_not_switch hs', hcur]
      exact (inRegisters_of_not_switch hs).mp hreg
  | @take c₁ t₁ x hidle _ _ _ hcontext hcur hphase =>
    have hreg := hl.live t c (hcontext ▸ h)
    by_cases hcc : c = c₁
    · subst hcc
      have hold := (inRegisters_of_not_switch (by rw [hidle]; rfl)).mp hreg
      have hph' : s'.phase c = .switch (s.sys.currentTask c) t₁ arch.switchOps := by
        rw [hphase, Function.update_self]
      rw [inRegisters_switch hph']
      refine .inr ⟨hold, ?_⟩
      cases arch <;> decide
    · rw [InRegisters, hphase, Function.update_of_ne hcc, hcur]
      exact hreg
  | @op c₁ _ old next o todo hph hphase hother hlast hcontext _ =>
    by_cases hcc : c = c₁
    · subst hcc
      have hnext : next = t ∧ .restore ∉ todo ∨ old = some t ∧ .save ∈ todo := by
        rcases hcontext t c h with ⟨hlive, hsave⟩ | ⟨rfl, rfl, _⟩
        · refine ((inRegisters_switch hph).mp (hl.live t c hlive)).imp ?_ ?_
          · exact fun h => ⟨h.1, fun hin => h.2 (List.mem_cons_of_mem o hin)⟩
          · rintro ⟨hold, hin⟩
            refine ⟨hold, (List.mem_cons.mp hin).resolve_left fun he => ?_⟩
            exact hsave he.symm hold rfl
        · exact .inl ⟨rfl, (ho.todo_rest hph).1⟩
      unfold InRegisters
      rw [hphase, Function.update_self, Phase.rest]
      by_cases hnil : todo = []
      · subst hnil
        rcases hnext with ⟨rfl, _⟩ | ⟨_, hin⟩
        · exact hlast rfl
        · cases hin
      · rw [if_neg hnil]
        exact hnext
    · rw [InRegisters, hphase, Function.update_of_ne hcc, hother c hcc]
      rcases hcontext t c h with ⟨hlive, _⟩ | ⟨_, _, he⟩
      · exact hl.live t c hlive
      · exact absurd he hcc

theorem Loaded.step (hl : Loaded s) (ho : Owned arch s.sys s.phase q)
    (ho' : Owned arch s'.sys s'.phase q') (hv : SwitchView arch s s' a)
    (hok : TakesReleased s a) : Loaded s' := by
  refine ⟨fun t c => hl.live_step ho hv, fun c c' t htaken hrel => ?_⟩
  rcases hv.releasing hrel with hr | ⟨_, hleaving⟩
  · rcases hv.taken_step htaken with ht | ⟨_, _, htakes, _⟩
    · exact hl.released c c' t ht hr
    · exact hok t htakes c' hr
  · cases ho'.places.alone t (.taken c) (.leaving c') htaken hleaving

theorem loaded_init : Loaded initSmp :=
  ⟨fun _ _ h => (nomatch h), fun _ _ _ h => nomatch h⟩

theorem SmpRun.loaded (hs : SmpRun arch cfg TakesReleased s) : Loaded s := by
  induction hs with
  | init => exact loaded_init
  | step hrun hok hstep ih =>
    obtain ⟨q, ho⟩ := hrun.owned
    obtain ⟨q', hcase, ho'⟩ := ho.step hstep
    exact ih.step ho ho' (ho.switchView hcase) hok

end

/-! ## Pinned tasks -/

/-- The tasks of a pCPU are complete and pinned to it. -/
def AtHome (s : Smp) : Prop :=
  ∀ c t, taken s.sys s.phase c = some t ∨ Releasing s c t →
    Built s t ∧ ∃ x, s.sys.task t = some x ∧ x.pcpuAffinity = c.val

section

variable {arch : Arch} {cfg : GuestConfig} {s s' : Smp} {q q' : ListHead → List TaskId}
  {a : Action} {c : Cpu} {t : TaskId} {x : Task}

/-- A new phase that does not write to `t`. -/
theorem Built.update (h : ∀ c call o todo, s.phase c ≠ .cpuOn call (.patch t (o :: todo)))
    {p : Phase} (hp : ∀ call o todo, p ≠ .cpuOn call (.patch t (o :: todo))) (c' : Cpu)
    (call : OnCall) (o : PatchOp) (todo : List PatchOp) :
    Function.update s.phase c p c' ≠ .cpuOn call (.patch t (o :: todo)) := by
  by_cases hcc : c' = c
  · subst hcc
    rw [Function.update_self]
    exact hp call o todo
  · rw [Function.update_of_ne hcc]
    exact h c' call o todo

theorem rest_ne_cpuOn {old : Option TaskId} {next : TaskId} {todo : List SwitchOp} {call : OnCall}
    {stage : OnStage} : Phase.rest old next todo ≠ .cpuOn call stage := by
  unfold Phase.rest
  by_cases h : todo = []
  · rw [if_pos h]
    exact nofun
  · rw [if_neg h]
    exact nofun

theorem newTask_keeps {sys sys' : System} {t u : TaskId} {x y : Task} (hu : sys.task u = none)
    (hsame : SameTasks (sys.newTask u y) sys') (hx : sys.task t = some x) :
    sys'.task t = some x := by
  rw [hsame.task]
  refine (Function.update_of_ne ?_ _ _).trans hx
  rintro rfl
  cases hu.symm.trans hx

theorem patchOp_task_of_ne {call : OnCall} {vbar : BitVec 64} {u : TaskId} {o : PatchOp}
    (hu : u ≠ t) : (patchOp cfg s call vbar t o).sys.task u = s.sys.task u := by
  cases o with
  | mpidr => exact modifyTask_other hu
  | anyPcpu => exact modifyTask_other hu
  | pcpu => exact modifyTask_other hu
  | vmpidr => rfl
  | vbar => rfl
  | x0 => rfl

/-- No step changes a complete task. -/
theorem Built.step (hb : Built s t) (hcase : StepCase arch cfg s q a s' q')
    (hx : s.sys.task t = some x) : Built s' t ∧ s'.sys.task t = some x := by
  obtain ⟨⟨y, hy, hid⟩, hwrite⟩ := hb
  obtain rfl := Option.some.inj (hx.symm.trans hy)
  have hgoal : s'.sys.task t = some x ∧
      ∀ c call o todo, s'.phase c ≠ .cpuOn call (.patch t (o :: todo)) := by
    cases hcase with
    | nothing => exact ⟨hx, hwrite⟩
    | take => exact ⟨hx, Built.update hwrite fun _ _ _ he => by cases he⟩
    | publish => exact ⟨hx, Built.update hwrite fun _ _ _ => rest_ne_cpuOn⟩
    | requeue _ hsame =>
      exact ⟨(congrFun hsame.task t).trans hx, Built.update hwrite fun _ _ _ => rest_ne_cpuOn⟩
    | skip => exact ⟨hx, Built.update hwrite fun _ _ _ => rest_ne_cpuOn⟩
    | save => exact ⟨hx, Built.update hwrite fun _ _ _ => rest_ne_cpuOn⟩
    | restore => exact ⟨hx, Built.update hwrite fun _ _ _ => rest_ne_cpuOn⟩
    | create hnone hsame => exact ⟨newTask_keeps hnone hsame hx, hwrite⟩
    | callOn => exact ⟨hx, Built.update hwrite fun _ _ _ he => by cases he⟩
    | callInvalid => exact ⟨hx, Built.update hwrite fun _ _ _ he => by cases he⟩
    | checkMiss => exact ⟨hx, Built.update hwrite fun _ _ _ he => by cases he⟩
    | checkHit => exact ⟨hx, Built.update hwrite fun _ _ _ he => by cases he⟩
    | listMiss => exact ⟨hx, Built.update hwrite fun _ _ _ he => by cases he⟩
    | denied => exact ⟨hx, Built.update hwrite fun _ _ _ he => by cases he⟩
    | created _ hnone hsame =>
      exact ⟨newTask_keeps hnone hsame hx, Built.update hwrite fun _ _ _ he => by cases he⟩
    | searchMiss => exact ⟨hx, Built.update hwrite fun _ _ _ he => by cases he⟩
    | @searchHit c mem vbar call u y _ hin hu hplace =>
      -- the call has found a task without an id, so it is not `t`
      have hne : u ≠ t := by
        rintro rfl
        exact hid (Option.some.inj (hx.symm.trans hu) ▸ hplace)
      refine ⟨hx, Built.update hwrite fun call o todo he => hne ?_⟩
      exact (OnStage.patch.inj (Phase.cpuOn.inj he).2).1
    | @patch c mem vbar call u o todo hph =>
      have hne : t ≠ u := by
        rintro rfl
        exact hwrite c call o todo hph
      refine ⟨(patchOp_task_of_ne hne).trans hx, ?_⟩
      rw [Smp.setPhase, patchOp_phase]
      refine Built.update hwrite fun call o todo he => hne ?_
      exact (OnStage.patch.inj (Phase.cpuOn.inj he).2).1.symm
    | success => exact ⟨hx, Built.update hwrite fun _ _ _ he => by cases he⟩
    | leave => exact ⟨hx, Built.update hwrite fun _ _ _ he => by cases he⟩
  exact ⟨⟨⟨x, hgoal.1, hid⟩, hgoal.2⟩, hgoal.1⟩

/-- The affinity of a task that a step takes. -/
theorem Owned.takes_affinity (ho : Owned arch s.sys s.phase q) (hstep : s.step arch cfg a = some s')
    (htakes : Takes s a t) : ∃ c x, a = .pick c ∧ s.phase c = .idle ∧ s.sys.task t = some x ∧
      (x.pcpuAffinity = -1 ∨ x.pcpuAffinity = c.val) := by
  obtain ⟨c, sys, rfl, hrun⟩ := htakes
  unfold Smp.step at hstep
  cases hph : s.phase c with
  | switch old next todo => simp [hph] at hstep
  | cpuOn call stage => simp [hph] at hstep
  | idle =>
    rcases ho.pick hph with hnone | ⟨u, x, q', _, hx, haff, hsome, _⟩
    · rw [hrun] at hnone
      cases hnone
    · rw [hrun, Option.some.injEq, Prod.mk.injEq, Option.some.injEq] at hsome
      obtain ⟨rfl, _⟩ := hsome
      exact ⟨c, x, rfl, hph, hx, haff⟩

/-- With the tasks at home, a pinned task that is taken is with no other pCPU. -/
theorem AtHome.takesReleased (hh : AtHome s) (ho : Owned arch s.sys s.phase q)
    (hstep : s.step arch cfg a = some s') (hok : TakesPinned s a) : TakesReleased s a := by
  intro t htakes c' hrel
  obtain ⟨c, x, -, hidle, hx, haff⟩ := ho.takes_affinity hstep htakes
  obtain ⟨_, y, hy, hpinned⟩ := hok t htakes
  obtain rfl := Option.some.inj (hx.symm.trans hy)
  obtain ⟨_, z, hz, hhome⟩ := hh c' t (.inr hrel)
  obtain rfl := Option.some.inj (hx.symm.trans hz)
  have hcc : c' = c := by
    have hval := hhome.symm.trans (haff.resolve_left hpinned)
    exact Fin.ext (Int.ofNat_inj.mp hval)
  subst hcc
  obtain ⟨next, todo, hph, _⟩ := hrel
  cases hidle.symm.trans hph

theorem AtHome.step (hh : AtHome s) (hcase : StepCase arch cfg s q a s' q')
    (hv : SwitchView arch s s' a) (hok : TakesPinned s a) : AtHome s' := by
  intro c t h
  have hbefore : Built s t ∧ ∃ x, s.sys.task t = some x ∧ x.pcpuAffinity = c.val := by
    rcases h with htaken | hrel
    · rcases hv.taken_step htaken with ht | ⟨_, _, htakes, x, hx, haff⟩
      · exact hh c t (.inl ht)
      · obtain ⟨hb, y, hy, hpinned⟩ := hok t htakes
        obtain rfl := Option.some.inj (hx.symm.trans hy)
        exact ⟨hb, x, hx, haff.resolve_left hpinned⟩
    · rcases hv.releasing hrel with hr | ⟨ht, _⟩
      · exact hh c t (.inr hr)
      · exact hh c t (.inl ht)
  obtain ⟨hb, x, hx, haff⟩ := hbefore
  obtain ⟨hb', hx'⟩ := hb.step hcase hx
  exact ⟨hb', x, hx', haff⟩

theorem SmpRun.atHome (hs : SmpRun arch cfg TakesPinned s) :
    AtHome s ∧ SmpRun arch cfg TakesReleased s := by
  induction hs with
  | init =>
    refine ⟨fun c t h => ?_, .init⟩
    rcases h with h | ⟨_, _, h, _⟩
    · cases h
    · cases h
  | step hrun hok hstep ih =>
    obtain ⟨q, ho⟩ := hrun.owned
    obtain ⟨q', hcase, _⟩ := ho.step hstep
    exact ⟨ih.1.step hcase (ho.switchView hcase) hok,
      ih.2.step (ih.1.takesReleased ho hstep hok) hstep⟩

end

/-- The steps of a CPU_ON call on pCPU 0 up to the patches, which creates task `t`. -/
def cpuOnCalls (target : BitVec 64) (t : TaskId) : List Action :=
  .cpuOn 0 target 0x50000000 0 :: List.replicate 5 (.onStep 0 none 0) ++
    [.onStep 0 (some t) 0, .onStep 0 none 0]

def switches (c : Cpu) (n : Nat) : List Action := List.replicate n (.switch c ⟨0, 0, 0, 0⟩)

/-- Pcpu 1 takes the vCPU that CPU_ON is binding to pCPU 2 while its affinity is -1. Later
it requeues that vCPU, and pCPU 2 takes it before it is saved. -/
def stolenVcpu : List Action :=
  [.create 1 bootTask ⟨0, 0, 0, 0⟩, .pick 0] ++ switches 0 4 ++
  cpuOnCalls 2 2 ++ List.replicate 2 (.onStep 0 none 0) ++
  [.pick 1] ++ switches 1 4 ++
  List.replicate 6 (.onStep 0 none 0) ++
  cpuOnCalls 1 3 ++ List.replicate 8 (.onStep 0 none 0) ++
  [.pick 1] ++ switches 1 2 ++
  [.pick 2] ++ switches 2 3

end HyperCore.Sched
