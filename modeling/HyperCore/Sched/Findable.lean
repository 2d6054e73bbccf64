import HyperCore.Sched.Smp

/-!
# Looking up a vCPU while others switch

`find_task_by_mpidr` reads `g_running` and the ready list inside one critical section.
`riscv_find_guest_vcpu` reads `g_running` entry by entry without the lock and takes it
for the list only; `psci_task_exists` reads the same way and never locks.

A task is in transit while a pCPU has taken it off the ready list and not published it
yet, and while a pCPU has replaced it in `g_running` and not requeued it yet. These are
the moments at which no lookup can find it (`lookup_finds`).
-/

namespace HyperCore.Sched

open LinkRing Places

/-! ## Transit -/

/-- Some pCPU has the task in neither of the two places that a lookup reads. -/
def InTransit (s : Smp) (t : TaskId) : Prop :=
  ∃ c old next todo, s.phase c = .switch old next todo ∧
    (next = t ∧ SwitchOp.publish ∈ todo ∨
      old = some t ∧ SwitchOp.requeue ∈ todo ∧ SwitchOp.publish ∉ todo)

/-- The step takes `t` off the ready list. -/
def Takes (s : Smp) (a : Action) (t : TaskId) : Prop :=
  ∃ c sys, a = .pick c ∧ simpleSchedulerNextNoPublish s.sys c = some (some t, sys)

/-- The step removes `t` from where a lookup can see it. -/
def Hides (s : Smp) (a : Action) (t : TaskId) : Prop :=
  Takes s a t ∨ ∃ c regs next todo, a = .switch c regs ∧
    s.phase c = .switch (some t) next (.publish :: todo) ∧ SwitchOp.requeue ∈ todo

/-- The step publishes another task in place of `t` on pCPU `c`. -/
def Replaces (s : Smp) (a : Action) (c : Cpu) (t : TaskId) : Prop :=
  ∃ regs next todo, a = .switch c regs ∧ s.phase c = .switch (some t) next (.publish :: todo)

/-- `t` can be seen in the ready list, or at one of the pCPUs in `unread`, which has it. -/
def Seen (sys : System) (phase : Cpu → Phase) (q : ListHead → List TaskId) (t : TaskId)
    (unread : List Cpu) : Prop :=
  t ∈ q .ready ∨ ∃ c ∈ unread, sys.gRunning c = some t ∧
    (taken sys phase c = some t ∨ leaving phase c = some t)

section

variable {arch : Arch} {cfg : GuestConfig} {s s' : Smp} {q q' : ListHead → List TaskId}
  {t : TaskId} {unread : List Cpu}

/-- A live task that is not in transit can be seen. -/
theorem Owned.seen (ho : Owned arch s.sys s.phase q) (ht : (s.sys.task t).isSome)
    (hn : ¬ InTransit s t) : Seen s.sys s.phase q t (List.finRange 4) := by
  obtain ⟨p, hin⟩ := ho.places.somewhere t ht
  cases p with
  | ready => exact .inl hin
  | taken c =>
    refine .inr ⟨c, List.mem_finRange c, ?_, .inl hin⟩
    rw [ho.running]
    cases hph : s.phase c with
    | switch old next todo =>
      rw [SmpAt, taken_switch hph] at hin
      have hpub : SwitchOp.publish ∉ todo := fun hp =>
        hn ⟨c, old, next, todo, hph, .inl ⟨Option.some.inj hin, hp⟩⟩
      rw [(ho.shape c old next todo hph).2.2, if_neg hpub, hin]
    | idle =>
      rw [SmpAt, taken, hph] at hin
      exact hin
    | cpuOn call stage =>
      rw [SmpAt, taken, hph] at hin
      exact hin
  | leaving c =>
    refine .inr ⟨c, List.mem_finRange c, ?_, .inr hin⟩
    rw [ho.running]
    cases hph : s.phase c with
    | switch old next todo =>
      rw [SmpAt, leaving_switch hph] at hin
      by_cases hreq : SwitchOp.requeue ∈ todo
      · rw [if_pos hreq] at hin
        have hpub : SwitchOp.publish ∈ todo := by
          by_contra hp
          exact hn ⟨c, old, next, todo, hph, .inr ⟨hin, hreq, hp⟩⟩
        rw [(ho.shape c old next todo hph).2.2, if_pos hpub, hin]
      · rw [if_neg hreq] at hin
        cases hin
    | idle =>
      rw [SmpAt, leaving, hph] at hin
      cases hin
    | cpuOn call stage =>
      rw [SmpAt, leaving, hph] at hin
      cases hin

/-- Seeing is kept pCPU by pCPU. -/
theorem Seen.mono {sys sys' : System} {phase phase' : Cpu → Phase}
    (h : Seen sys phase q t unread) (hq : t ∈ q .ready → t ∈ q' .ready)
    (hc : ∀ c, sys.gRunning c = some t → taken sys phase c = some t ∨ leaving phase c = some t →
      t ∈ q' .ready ∨ sys'.gRunning c = some t ∧
        (taken sys' phase' c = some t ∨ leaving phase' c = some t)) :
    Seen sys' phase' q' t unread := by
  rcases h with hin | ⟨c, hcu, hrun, hown⟩
  · exact .inl (hq hin)
  · exact (hc c hrun hown).imp id fun h => ⟨c, hcu, h⟩

/-- Changes that leave the pCPUs alone. -/
theorem Seen.congr {sys sys' : System} {phase : Cpu → Phase} (h : Seen sys phase q t unread)
    (hcur : sys'.currentTask = sys.currentTask) (hrun : sys'.gRunning = sys.gRunning)
    (hq : t ∈ q .ready → t ∈ q' .ready) : Seen sys' phase q' t unread := by
  refine h.mono hq fun c hc hown => .inr ⟨hrun ▸ hc, hown.imp (fun ht => ?_) id⟩
  rw [taken, hcur]
  exact ht

/-- A pCPU goes on outside a switch. -/
theorem Seen.setPhase {sys : System} {phase : Cpu → Phase} (h : Seen sys phase q t unread)
    {c : Cpu} (hc : (phase c).isSwitch = false) {p : Phase} (hp : p.isSwitch = false) :
    Seen sys (Function.update phase c p) q t unread := by
  have hpc : (Function.update phase c p c).isSwitch = false := by rw [Function.update_self, hp]
  refine h.mono id fun c' hrun hown => .inr ⟨hrun, ?_⟩
  by_cases hcc : c' = c
  · subst hcc
    rwa [taken_of_not_switch hpc, leaving_of_not_switch hpc, ← taken_of_not_switch hc,
      ← leaving_of_not_switch hc]
  · rwa [taken_update_of_ne hcc, leaving_update_of_ne hcc]

/-- An operation of a switch that leaves `g_running` and the ready list alone. -/
theorem Seen.rest {sys : System} {phase : Cpu → Phase} {c : Cpu} {old : Option TaskId}
    {next : TaskId} {o : SwitchOp} {todo : List SwitchOp} (h : Seen sys phase q t unread)
    (hph : phase c = .switch old next (o :: todo)) (hreq : o = .requeue → old ≠ some t)
    (hlast : todo = [] → sys.currentTask c = some next) :
    Seen sys (Function.update phase c (.rest old next todo)) q t unread := by
  refine h.mono id fun c' hrun hown => .inr ⟨hrun, ?_⟩
  by_cases hcc : c' = c
  · subst hcc
    rw [taken_switch hph, leaving_switch hph] at hown
    rw [taken_rest hlast, leaving_rest]
    refine hown.imp id fun hl => ?_
    by_cases hr : SwitchOp.requeue = o
    · subst hr
      rw [if_pos List.mem_cons_self] at hl
      exact absurd hl (hreq rfl)
    · simp only [List.mem_cons, hr, false_or] at hl
      exact hl
  · rwa [taken_update_of_ne hcc, leaving_update_of_ne hcc]

/-- The last operation leaves the taken task current. -/
theorem Owned.last_current (ho : Owned arch s.sys s.phase q) {c : Cpu} {old : Option TaskId}
    {next : TaskId} {o : SwitchOp} {todo : List SwitchOp}
    (hph : s.phase c = .switch old next (o :: todo)) (ho' : o ≠ .publish) (hnil : todo = []) :
    s.sys.currentTask c = some next := by
  subst hnil
  have hcur := (ho.shape c old next _ hph).2.2
  simp only [List.mem_singleton, ho'.symm, if_false] at hcur
  exact hcur

/-- A step that does not hide `t` keeps it seen. -/
theorem Seen.step (h : Seen s.sys s.phase q t unread) (ho : Owned arch s.sys s.phase q)
    {a : Action} (hcase : StepCase arch cfg s q a s' q') (hhide : ¬ Hides s a t) :
    Seen s'.sys s'.phase q' t unread := by
  cases hcase with
  | nothing => exact h
  | @take c t' x _ hph hin hx haff hmem hrun =>
    have hne : t ≠ t' := by
      rintro rfl
      exact hhide (.inl ⟨c, _, rfl, hrun⟩)
    have hrequeue : SwitchOp.requeue ∈ arch.switchOps := by cases arch <;> decide
    refine h.mono (fun hq => (hmem .ready t).mpr ⟨hne, hq⟩) fun c' hrun' hown =>
      .inr ⟨hrun', ?_⟩
    by_cases hcc : c' = c
    · subst hcc
      refine .inr ?_
      rw [ho.running] at hrun'
      change leaving (Function.update s.phase c' _) c' = _
      rw [leaving, Function.update_self]
      simp only [hrequeue, if_true]
      exact hrun'
    · change taken _ (Function.update s.phase c _) c' = _ ∨
        leaving (Function.update s.phase c _) c' = _
      rw [taken_update_of_ne hcc, leaving_update_of_ne hcc]
      exact hown
  | @publish c regs old next todo hph =>
    refine h.mono id fun c' hrun hown => .inr ?_
    by_cases hcc : c' = c
    · subst hcc
      rw [taken_switch hph, leaving_switch hph] at hown
      have hnext : next = t := by
        rcases hown with he | hl
        · exact Option.some.inj he
        · by_cases hreq : SwitchOp.requeue ∈ SwitchOp.publish :: todo
          · rw [if_pos hreq] at hl
            subst hl
            exact absurd (.inr ⟨c', regs, next, todo, rfl, hph, by simpa using hreq⟩) hhide
          · rw [if_neg hreq] at hl
            cases hl
      subst hnext
      have hrunning : (setCurrent s.sys c' (some next)).gRunning c' = some next :=
        Function.update_self ..
      have hcurrent : (setCurrent s.sys c' (some next)).currentTask c' = some next :=
        Function.update_self ..
      exact ⟨hrunning, .inl (taken_rest fun _ => hcurrent)⟩
    · have hrunning : (setCurrent s.sys c (some next)).gRunning c' = some t :=
        (Function.update_of_ne hcc _ _).trans hrun
      refine ⟨hrunning, ?_⟩
      change taken (setCurrent s.sys c (some next)) (Function.update s.phase c _) c' = _ ∨
        leaving (Function.update s.phase c _) c' = _
      rw [taken_update_of_ne hcc, leaving_update_of_ne hcc]
      refine hown.imp (fun ht => ?_) id
      unfold taken at ht ⊢
      cases hp : s.phase c' with
      | switch old' next' todo' =>
        rw [hp] at ht
        exact ht
      | idle =>
        rw [hp] at ht
        exact (Function.update_of_ne hcc _ _).trans ht
      | cpuOn call stage =>
        rw [hp] at ht
        exact (Function.update_of_ne hcc _ _).trans ht
  | @requeue c regs t' next todo sys' _ hph hsame hmem =>
    by_cases htt : t = t'
    · exact .inl ((hmem .ready t).mpr (.inl ⟨rfl, htt⟩))
    · have hseen : Seen sys' s.phase q' t unread :=
        h.congr hsame.currentTask hsame.gRunning fun hq => (hmem .ready t).mpr (.inr hq)
      refine hseen.rest hph (fun _ he => htt (Option.some.inj he).symm) fun hnil => ?_
      rw [hsame.currentTask]
      exact ho.last_current hph (by simp) hnil
  | @skip c regs next o todo hph ho' =>
    refine h.rest hph (fun _ => by simp) (ho.last_current hph ?_)
    rcases ho' with rfl | rfl <;> simp
  | @save c regs t' next todo hph =>
    exact h.rest hph (by simp) (ho.last_current hph (by simp))
  | @restore c regs old next todo hph =>
    exact h.rest hph (by simp) (ho.last_current hph (by simp))
  | create hnone hsame hmem =>
    exact h.congr hsame.currentTask hsame.gRunning fun hq => (hmem .ready t).mpr (.inr hq)
  | callOn hph => exact h.setPhase (by rw [hph]; rfl) rfl
  | callInvalid hph => exact h.setPhase (by rw [hph]; rfl) rfl
  | checkMiss hph => exact h.setPhase (by rw [hph]; rfl) rfl
  | checkHit hph => exact h.setPhase (by rw [hph]; rfl) rfl
  | listMiss hph => exact h.setPhase (by rw [hph]; rfl) rfl
  | denied hph => exact h.setPhase (by rw [hph]; rfl) rfl
  | @created c t' vbar call sys' _ hph hnone hsame hmem =>
    have hseen : Seen sys' s.phase q' t unread :=
      h.congr hsame.currentTask hsame.gRunning fun hq => (hmem .ready t).mpr (.inr hq)
    exact hseen.setPhase (by rw [hph]; rfl) rfl
  | searchMiss hph => exact h.setPhase (by rw [hph]; rfl) rfl
  | searchHit hph => exact h.setPhase (by rw [hph]; rfl) rfl
  | @patch c mem vbar call t' o todo hph =>
    have hseen : Seen (patchOp cfg s call vbar t' o).sys s.phase q t unread :=
      h.congr (patchOp_currentTask ..) (patchOp_gRunning ..) id
    rw [Smp.setPhase, patchOp_phase]
    exact hseen.setPhase (by rw [hph]; rfl) rfl
  | success hph => exact h.setPhase (by rw [hph]; rfl) rfl
  | leave hph => exact h.setPhase (by rw [hph]; rfl) rfl

end

/-! ## Lookups -/

/-- The task has this id, as the lookups of the architecture compare it. -/
def hasId (arch : Arch) (mpidr : BitVec 64) (x : Task) : Bool :=
  arch.vcpuId x.mpidr == arch.vcpuId mpidr

/-- The steps of `sched_yield`, and vCPUs created with an id of their own. -/
def SchedOnly (arch : Arch) (s : Smp) : Action → Prop
  | .pick _ => True
  | .switch _ _ => True
  | .create _ x _ => ∀ u y, s.sys.task u = some y → arch.vcpuId y.mpidr ≠ arch.vcpuId x.mpidr
  | .cpuOn _ _ _ _ => False
  | .onStep _ _ _ => False

/-- How far a lookup is: before these entries of `g_running` and then the list, or
between the test of an entry and the read that returns it. -/
inductive LookupPos
  | read (unread : List Cpu)
  | hit (c : Cpu)

/-- A lookup that reads `g_running` entry by entry and then the ready list, with its
answer: `riscv_find_guest_vcpu`, and `psci_task_exists`, which only reports whether there
is one. Between two reads the pCPUs may take steps that meet `ok`. -/
inductive Lookup (arch : Arch) (cfg : GuestConfig) (ok : LookupPos → Smp → Action → Prop)
    (mpidr : BitVec 64) : LookupPos → Smp → Option TaskId → Prop
  | others {pos : LookupPos} {s s' : Smp} {a : Action} {r : Option TaskId} :
      ok pos s a → s.step arch cfg a = some s' → Lookup arch cfg ok mpidr pos s' r →
      Lookup arch cfg ok mpidr pos s r
  | hit {c : Cpu} {unread : List Cpu} {s : Smp} {r : Option TaskId} :
      s.sys.testRunning (hasId arch mpidr) c = true → Lookup arch cfg ok mpidr (.hit c) s r →
      Lookup arch cfg ok mpidr (.read (c :: unread)) s r
  | ret {c : Cpu} {s : Smp} : Lookup arch cfg ok mpidr (.hit c) s (s.sys.gRunning c)
  | miss {c : Cpu} {unread : List Cpu} {s : Smp} {r : Option TaskId} :
      s.sys.testRunning (hasId arch mpidr) c = false →
      Lookup arch cfg ok mpidr (.read unread) s r →
      Lookup arch cfg ok mpidr (.read (c :: unread)) s r
  | list {s : Smp} {r : Option TaskId} :
      s.sys.scanReady (hasId arch mpidr) = some r → Lookup arch cfg ok mpidr (.read []) s r

/-- A step of the scheduler that does not get in the way of a lookup for `t`. -/
def Undisturbed (arch : Arch) (t : TaskId) (pos : LookupPos) (s : Smp) (a : Action) : Prop :=
  SchedOnly arch s a ∧ ¬ Hides s a t ∧ ∀ c, pos = .hit c → ¬ Replaces s a c t

/-- Different live tasks have different ids. -/
def DistinctIds (arch : Arch) (s : Smp) : Prop :=
  ∀ t u x y, s.sys.task t = some x → s.sys.task u = some y →
    arch.vcpuId x.mpidr = arch.vcpuId y.mpidr → t = u

section

variable {arch : Arch} {cfg : GuestConfig} {s s' : Smp} {q q' : ListHead → List TaskId}
  {t : TaskId} {x : Task} {unread : List Cpu}

/-- The tasks after a step of the scheduler. -/
theorem StepCase.sched_task {a : Action} (hcase : StepCase arch cfg s q a s' q')
    (hok : SchedOnly arch s a) :
    s'.sys.task = s.sys.task ∨ ∃ t x, s.sys.task t = none ∧
      s'.sys.task = Function.update s.sys.task t (some x) ∧
      ∀ u y, s.sys.task u = some y → arch.vcpuId y.mpidr ≠ arch.vcpuId x.mpidr := by
  cases hcase with
  | nothing => exact .inl rfl
  | take => exact .inl rfl
  | publish => exact .inl rfl
  | requeue _ hsame => exact .inl hsame.task
  | skip => exact .inl rfl
  | save => exact .inl rfl
  | restore => exact .inl rfl
  | @create t x _ _ _ hnone hsame _ => exact .inr ⟨t, x, hnone, hsame.task, hok⟩
  | callOn => exact hok.elim
  | callInvalid => exact hok.elim
  | checkMiss => exact hok.elim
  | checkHit => exact hok.elim
  | listMiss => exact hok.elim
  | denied => exact hok.elim
  | created => exact hok.elim
  | searchMiss => exact hok.elim
  | searchHit => exact hok.elim
  | patch => exact hok.elim
  | success => exact hok.elim
  | leave => exact hok.elim

/-- A task stays as it is. -/
theorem StepCase.sched_keeps {a : Action} (hcase : StepCase arch cfg s q a s' q')
    (hok : SchedOnly arch s a) (hx : s.sys.task t = some x) : s'.sys.task t = some x := by
  rcases hcase.sched_task hok with he | ⟨u, y, hnone, he, _⟩
  · rw [he, hx]
  · rw [he, Function.update_of_ne, hx]
    rintro rfl
    cases hnone.symm.trans hx

theorem DistinctIds.step (hd : DistinctIds arch s) {a : Action}
    (hcase : StepCase arch cfg s q a s' q') (hok : SchedOnly arch s a) : DistinctIds arch s' := by
  intro t u x y hx hy hid
  rcases hcase.sched_task hok with he | ⟨n, z, _, he, hfresh⟩
  · rw [he] at hx hy
    exact hd t u x y hx hy hid
  · rw [he] at hx hy
    by_cases ht : t = n
    · subst ht
      rw [Function.update_self] at hx
      obtain rfl := Option.some.inj hx
      by_cases hu : u = t
      · exact hu.symm
      · rw [Function.update_of_ne hu] at hy
        exact absurd hid.symm (hfresh u y hy)
    · rw [Function.update_of_ne ht] at hx
      by_cases hu : u = n
      · subst hu
        rw [Function.update_self] at hy
        obtain rfl := Option.some.inj hy
        exact absurd hid (hfresh t x hx)
      · rw [Function.update_of_ne hu] at hy
        exact hd t u x y hx hy hid

theorem SmpRun.distinctIds (hs : SmpRun arch cfg (SchedOnly arch) s) : DistinctIds arch s := by
  induction hs with
  | init => exact fun t u x y hx => nomatch hx
  | step hrun hok hstep ih =>
    obtain ⟨q, ho⟩ := hrun.owned
    obtain ⟨q', hcase, _⟩ := ho.step hstep
    exact ih.step hcase hok

/-- A task that passes the test of a lookup for `t` is `t`. -/
theorem DistinctIds.only (hd : DistinctIds arch s) (hx : s.sys.task t = some x) {u : TaskId}
    (hu : (s.sys.task u).any (hasId arch x.mpidr) = true) : u = t := by
  rw [Option.any_eq_true] at hu
  obtain ⟨y, hy, hid⟩ := hu
  exact hd u t y x hy hx (beq_iff_eq.mp hid)

theorem any_hasId (hx : s.sys.task t = some x) :
    (s.sys.task t).any (hasId arch x.mpidr) = true := by
  rw [hx, Option.any_some, hasId, BEq.rfl]

/-- The walk over the ready list finds `t` when it is there. -/
theorem scan_finds (ho : Owned arch s.sys s.phase q) (hd : DistinctIds arch s)
    (hx : s.sys.task t = some x) (hin : t ∈ q .ready) :
    s.sys.scanReady (hasId arch x.mpidr) = some (some t) := by
  rw [ho.lists.scanReady_eq]
  cases hf : (q .ready).find? fun u => (s.sys.task u).any (hasId arch x.mpidr) with
  | none => exact absurd (any_hasId hx) (List.find?_eq_none.mp hf t hin)
  | some u =>
    have hu := List.find?_some hf
    rw [hd.only hx hu]

/-- An entry of `g_running` stays unless its pCPU replaces it. -/
theorem Owned.running_stays (ho : Owned arch s.sys s.phase q) {a : Action}
    (hcase : StepCase arch cfg s q a s' q') (hok : SchedOnly arch s a) {c : Cpu}
    (hrun : s.sys.gRunning c = some t) (hrep : ¬ Replaces s a c t) :
    s'.sys.gRunning c = some t := by
  cases hcase with
  | nothing => exact hrun
  | take => exact hrun
  | @publish c' regs old next todo hph =>
    refine (Function.update_of_ne ?_ _ _).trans hrun
    rintro rfl
    have hcur := (ho.shape c old next _ hph).2.2
    rw [if_pos List.mem_cons_self, ← ho.running, hrun] at hcur
    subst hcur
    exact hrep ⟨regs, next, todo, rfl, hph⟩
  | requeue _ hsame => exact (congrFun hsame.gRunning c).trans hrun
  | skip => exact hrun
  | save => exact hrun
  | restore => exact hrun
  | create _ hsame => exact (congrFun hsame.gRunning c).trans hrun
  | callOn => exact hok.elim
  | callInvalid => exact hok.elim
  | checkMiss => exact hok.elim
  | checkHit => exact hok.elim
  | listMiss => exact hok.elim
  | denied => exact hok.elim
  | created => exact hok.elim
  | searchMiss => exact hok.elim
  | searchHit => exact hok.elim
  | patch => exact hok.elim
  | success => exact hok.elim
  | leave => exact hok.elim

/-- The lookup will still find `t`. -/
def Findable (s : Smp) (q : ListHead → List TaskId) (t : TaskId) : LookupPos → Prop
  | .read unread => Seen s.sys s.phase q t unread
  | .hit c => s.sys.gRunning c = some t

/-- A lookup for `t` finds it when `t` is seen at the start and no step gets in its way. -/
theorem Lookup.finds {pos : LookupPos} {r : Option TaskId}
    (hl : Lookup arch cfg (Undisturbed arch t) x.mpidr pos s r)
    (ho : Owned arch s.sys s.phase q) (hd : DistinctIds arch s) (hx : s.sys.task t = some x)
    (hfind : Findable s q t pos) : r = some t := by
  induction hl generalizing q with
  | @others pos s s' a r hok hstep _ ih =>
    obtain ⟨q', hcase, ho'⟩ := ho.step hstep
    refine ih ho' (hd.step hcase hok.1) (hcase.sched_keeps hok.1 hx) ?_
    cases pos with
    | read unread => exact Seen.step hfind ho hcase hok.2.1
    | hit c => exact ho.running_stays hcase hok.1 hfind (hok.2.2 c rfl)
  | @hit c unread s r htest _ ih =>
    refine ih ho hd hx ?_
    rw [System.testRunning, Option.any_eq_true] at htest
    obtain ⟨u, hu, hid⟩ := htest
    exact hu.trans (congrArg some (hd.only hx hid))
  | ret => exact hfind
  | @miss c unread s r htest _ ih =>
    refine ih ho hd hx ?_
    rcases hfind with hin | ⟨c', hc', hrun, hown⟩
    · exact .inl hin
    · rcases List.mem_cons.mp hc' with rfl | hc'
      · rw [System.testRunning, hrun, Option.any_some, any_hasId hx] at htest
        cases htest
      · exact .inr ⟨c', hc', hrun, hown⟩
  | list hscan =>
    rcases hfind with hin | ⟨c', hc', _⟩
    · rw [scan_finds ho hd hx hin] at hscan
      exact (Option.some.inj hscan).symm
    · cases hc'

end

/-! ## The locked lookup -/

section

variable {s : Smp} {q : ListHead → List TaskId} {t : TaskId} {x : Task}

/-- Where the task is that `g_running` names. -/
theorem Owned.running_place (ho : Owned .aarch64 s.sys s.phase q) {c : Cpu}
    (hrun : s.sys.gRunning c = some t) :
    taken s.sys s.phase c = some t ∧
        (∀ old next todo, s.phase c = .switch old next todo → SwitchOp.publish ∉ todo) ∨
      leaving s.phase c = some t ∧
        ∀ old next todo, s.phase c = .switch old next todo → SwitchOp.publish ∈ todo := by
  rw [ho.running] at hrun
  cases hph : s.phase c with
  | idle => exact .inl ⟨(taken_of_not_switch (by rw [hph]; rfl)).trans hrun, nofun⟩
  | cpuOn call stage => exact .inl ⟨(taken_of_not_switch (by rw [hph]; rfl)).trans hrun, nofun⟩
  | switch old next todo =>
    obtain ⟨hsuf, _, hcur⟩ := ho.shape c old next todo hph
    rw [hrun] at hcur
    by_cases hpub : SwitchOp.publish ∈ todo
    · -- `set_current` comes first, so the outgoing task is not requeued either
      have hreq : SwitchOp.requeue ∈ todo := by
        rcases (List.suffix_cons_iff.mp hsuf) with rfl | hsuf
        · decide
        · exact absurd (hsuf.subset hpub) (by decide)
      rw [if_pos hpub] at hcur
      refine .inr ⟨?_, fun _ _ _ he => ?_⟩
      · rw [leaving_switch hph, if_pos hreq, hcur]
      · obtain ⟨rfl, rfl, rfl⟩ := Phase.switch.inj he
        exact hpub
    · rw [if_neg hpub] at hcur
      refine .inl ⟨?_, fun _ _ _ he => ?_⟩
      · rw [taken_switch hph, hcur]
      · obtain ⟨rfl, rfl, rfl⟩ := Phase.switch.inj he
        exact hpub

/-- A task in transit is in none of the places that the lookup reads. -/
theorem Owned.transit_hidden (ho : Owned .aarch64 s.sys s.phase q) (ht : InTransit s t) :
    t ∉ q .ready ∧ ∀ c, s.sys.gRunning c ≠ some t := by
  obtain ⟨c, old, next, todo, hph, ⟨rfl, hpub⟩ | ⟨rfl, hreq, hpub⟩⟩ := ht
  · have htaken : taken s.sys s.phase c = some next := taken_switch hph
    refine ⟨fun hin => (nomatch ho.places.alone next .ready (.taken c) hin htaken), ?_⟩
    intro c' hrun
    rcases ho.running_place hrun with ⟨hown, hnot⟩ | ⟨hown, _⟩
    · obtain ⟨rfl⟩ := ho.places.alone next (.taken c) (.taken c') htaken hown
      exact hnot old next todo hph hpub
    · cases ho.places.alone next (.taken c) (.leaving c') htaken hown
  · have hleave : leaving s.phase c = some t := by rw [leaving_switch hph, if_pos hreq]
    refine ⟨fun hin => (nomatch ho.places.alone t .ready (.leaving c) hin hleave), ?_⟩
    intro c' hrun
    rcases ho.running_place hrun with ⟨hown, _⟩ | ⟨hown, hall⟩
    · cases ho.places.alone t (.leaving c) (.taken c') hleave hown
    · obtain ⟨rfl⟩ := ho.places.alone t (.leaving c) (.leaving c') hleave hown
      exact hpub (hall _ next todo hph)

/-- `find_task_by_mpidr` finds exactly the tasks that are not in transit. -/
theorem Owned.find_iff (ho : Owned .aarch64 s.sys s.phase q) (hd : DistinctIds .aarch64 s)
    (hx : s.sys.task t = some x) :
    findTaskByMpidr s.sys x.mpidr = some (some t) ↔ ¬ InTransit s t := by
  unfold findTaskByMpidr
  constructor
  · intro hfind ht
    obtain ⟨hready, hrunning⟩ := ho.transit_hidden ht
    cases hf : (List.finRange 4).find? (s.sys.testRunning (hasAffinity x.mpidr)) with
    | some c =>
      rw [hf] at hfind
      exact hrunning c (Option.some.inj hfind)
    | none =>
      rw [hf] at hfind
      simp only [ho.lists.scanReady_eq, Option.some.injEq] at hfind
      exact hready (List.mem_of_find?_eq_some hfind)
  · intro hn
    cases hf : (List.finRange 4).find? (s.sys.testRunning (hasAffinity x.mpidr)) with
    | some c =>
      have htest := List.find?_some hf
      rw [System.testRunning, Option.any_eq_true] at htest
      obtain ⟨u, hu, hid⟩ := htest
      obtain rfl := hd.only hx hid
      exact congrArg some hu
    | none =>
      have hmiss := List.find?_eq_none.mp hf
      rcases ho.seen (Option.isSome_of_mem hx) hn with hin | ⟨c, hc, hrun, _⟩
      · exact scan_finds ho hd hx hin
      · refine absurd ?_ (hmiss c hc)
        rw [System.testRunning, hrun, Option.any_some]
        exact @any_hasId .aarch64 s t x hx

end

/-- The boot vCPU. -/
def bootTask : Task := ⟨10, 0, 0, .ready⟩

/-- The boot vCPU is on the ready list. -/
theorem exists_waiting (arch : Arch) : ∃ s, SmpRun arch defaultVcpus (SchedOnly arch) s ∧
    s.sys.task 1 = some bootTask ∧ (∀ c, s.phase c = .idle) ∧ (∀ c, s.sys.gRunning c = none) ∧
    s.sys.scanReady (hasId arch 0) = some (some 1) := by
  have h₁ := (@SmpRun.init arch defaultVcpus (SchedOnly arch)).step
    (a := .create 1 bootTask ⟨0, 0, 0, 0⟩) (fun u y hy => nomatch hy) rfl
  refine ⟨_, h₁, rfl, fun _ => rfl, fun _ => rfl, ?_⟩
  cases arch <;> rfl

/-- A pCPU has taken the boot vCPU off the list and not published it. -/
theorem exists_picked (arch : Arch) : ∃ s, SmpRun arch defaultVcpus (SchedOnly arch) s ∧
    s.sys.task 1 = some bootTask ∧ (∀ c, s.sys.gRunning c = none) ∧
    s.sys.scanReady (hasId arch 0) = some none := by
  have h₁ := (@SmpRun.init arch defaultVcpus (SchedOnly arch)).step
    (a := .create 1 bootTask ⟨0, 0, 0, 0⟩) (fun u y hy => nomatch hy) rfl
  have h₂ := h₁.step (a := .pick 0) trivial rfl
  refine ⟨_, h₂, rfl, fun _ => rfl, ?_⟩
  cases arch <;> rfl

/-- A lookup that reads nothing in `g_running`. -/
theorem lookup_list {arch : Arch} {cfg : GuestConfig} {ok : LookupPos → Smp → Action → Prop}
    {mpidr : BitVec 64} {s : Smp} {r : Option TaskId} (hnone : ∀ c, s.sys.gRunning c = none)
    (hr : s.sys.scanReady (hasId arch mpidr) = some r) (unread : List Cpu) :
    Lookup arch cfg ok mpidr (.read unread) s r := by
  induction unread with
  | nil => exact .list hr
  | cons c unread ih =>
    refine .miss ?_ ih
    rw [System.testRunning, hnone, Option.any_none]

end HyperCore.Sched
