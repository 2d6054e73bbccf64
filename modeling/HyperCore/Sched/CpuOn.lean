import HyperCore.Sched.Resume

/-!
# CPU_ON under interleaving

The existence check, the creation, the search for the placeholder and the writes to the
new task are separate steps of `psci_vcpu_on`, and the task can be picked as soon as it is
created. The call is atomic in the sense of `CpuOnAtomic` in every run in which

* no two calls are between their check and the write of the mpidr at the same time,
* the scheduler takes no task that a call has still to write to,
* no switch hides a vCPU from the check for its own affinity, and
* the one vCPU created without a call is the boot vCPU.

The proof follows the life of a task: it is unbound until the call that created it writes
its mpidr (`Calls`), it is not entered before all the writes (`Started`), and what the
first entry sees is then fixed (`Entry`).
-/

namespace HyperCore.Sched

open Places

/-! ## Tasks that have been started -/

/-- A task that is taken is complete. -/
def TakesBuilt (s : Smp) (a : Action) : Prop := ∀ t, Takes s a t → Built s t

/-- Only complete tasks are with a pCPU or have been entered, and what a pCPU has in its
registers has been entered. -/
structure Started (s : Smp) : Prop where
  built : ∀ c t, taken s.sys s.phase c = some t ∨ Releasing s c t → Built s t
  loaded : ∀ c t, InRegisters s c t → s.context t ≠ .fresh
  entered : ∀ t, s.context t ≠ .fresh → Built s t
  unseen : ∀ t, s.context t = .fresh → s.firstEntry t = none

section

variable {arch : Arch} {cfg : GuestConfig} {s s' : Smp} {q q' : ListHead → List TaskId}
  {a : Action} {c : Cpu} {t : TaskId}

theorem Built.live (hb : Built s t) : (s.sys.task t).isSome := by
  obtain ⟨⟨x, hx, _⟩, _⟩ := hb
  exact Option.isSome_of_mem hx

/-- A complete task stays complete. -/
theorem Built.stays (hb : Built s t) (hcase : StepCase arch cfg s q a s' q') : Built s' t := by
  obtain ⟨x, hx⟩ := Option.isSome_iff_exists.mp hb.live
  exact (hb.step hcase hx).1

/-- What a pCPU has in its registers after a step: what it had, or what it restored. -/
theorem SwitchView.inRegisters_step (hv : SwitchView arch s s' a) (h : InRegisters s' c t) :
    InRegisters s c t ∨ s'.context t ≠ .fresh := by
  cases hv with
  | quiet _ hcur hphase =>
    left
    rcases hphase c with he | ⟨hs, hs'⟩
    · rw [InRegisters, he, hcur] at h
      exact h
    · rw [inRegisters_of_not_switch hs', hcur] at h
      exact (inRegisters_of_not_switch hs).mpr h
  | @take c₁ t₁ x hidle _ _ _ _ hcur hphase =>
    left
    by_cases hcc : c = c₁
    · subst hcc
      have hph' : s'.phase c = .switch (s.sys.currentTask c) t₁ arch.switchOps := by
        rw [hphase, Function.update_self]
      rcases (inRegisters_switch hph').mp h with ⟨_, hnot⟩ | ⟨hold, _⟩
      · exact absurd (by cases arch <;> decide) hnot
      · exact (inRegisters_of_not_switch (by rw [hidle]; rfl)).mpr hold
    · rw [InRegisters, hphase, Function.update_of_ne hcc, hcur] at h
      exact h
  | @op c₁ regs old next o todo hph hphase hother hlast _ hfresh =>
    by_cases hcc : c = c₁
    · subst hcc
      have hleft : next = t ∧ .restore ∉ todo ∨ old = some t ∧ .save ∈ todo := by
        unfold InRegisters at h
        rw [hphase, Function.update_self, Phase.rest] at h
        by_cases hnil : todo = []
        · rw [if_pos hnil] at h
          have hnext := Option.some.inj ((hlast hnil).symm.trans h)
          exact .inl ⟨hnext, hnil ▸ List.not_mem_nil⟩
        · rw [if_neg hnil] at h
          exact h
      rcases hleft with ⟨rfl, hnot⟩ | ⟨hold, hin⟩
      · by_cases ho : o = .restore
        · subst ho
          exact .inr fun hf => ((hfresh next).mp hf).2 rfl rfl
        · refine .inl ((inRegisters_switch hph).mpr (.inl ⟨rfl, fun hin => ?_⟩))
          exact (List.mem_cons.mp hin).elim (fun he => ho he.symm) hnot
      · exact .inl ((inRegisters_switch hph).mpr (.inr ⟨hold, List.mem_cons_of_mem o hin⟩))
    · rw [InRegisters, hphase, Function.update_of_ne hcc, hother c hcc] at h
      exact .inl h

/-- A task that has been entered stays so. -/
theorem SwitchView.entered_stays (hv : SwitchView arch s s' a) (h : s.context t ≠ .fresh) :
    s'.context t ≠ .fresh := by
  cases hv with
  | quiet hcontext => rwa [hcontext]
  | take _ _ _ _ hcontext => rwa [hcontext]
  | op _ _ _ _ _ hfresh => exact fun hf => h ((hfresh t).mp hf).1

/-- A task is entered on a pCPU that has taken it. -/
theorem SwitchView.entered_step (hv : SwitchView arch s s' a) (h : s'.context t ≠ .fresh) :
    s.context t ≠ .fresh ∨ ∃ c, taken s.sys s.phase c = some t := by
  cases hv with
  | quiet hcontext => exact .inl (hcontext ▸ h)
  | take _ _ _ _ hcontext => exact .inl (hcontext ▸ h)
  | @op c _ _ next _ _ hph _ _ _ _ hfresh =>
    by_cases ht : t = next
    · subst ht
      exact .inr ⟨c, taken_switch hph⟩
    · exact .inl fun hf => h ((hfresh t).mpr ⟨hf, fun _ => ht⟩)

/-- The save comes after the requeueing. -/
theorem save_of_requeue {todo : List SwitchOp} (h : todo <:+ arch.switchOps)
    (hreq : SwitchOp.requeue ∈ todo) : SwitchOp.save ∈ todo := by
  cases arch with
  | aarch64 =>
    simp only [Arch.switchOps, List.suffix_cons_iff, List.suffix_nil] at h
    rcases h with rfl | rfl | rfl | rfl | rfl <;> revert hreq <;> decide
  | riscv64 =>
    simp only [Arch.switchOps, List.suffix_cons_iff, List.suffix_nil] at h
    rcases h with rfl | rfl | rfl | rfl | rfl <;> revert hreq <;> decide

/-- The first restore of a task records what the guest sees. -/
theorem StepCase.firstEntry (hcase : StepCase arch cfg s q a s' q') (t : TaskId) :
    s.context t = .fresh ∧ s'.context t ≠ .fresh ∧
        s'.firstEntry t = some ((s.vcpu t).x0, (s.vcpu t).vmpidr) ∨
      (s'.context t = .fresh ↔ s.context t = .fresh) ∧ s'.firstEntry t = s.firstEntry t := by
  cases hcase with
  | @restore c regs old next todo hph =>
    change _ ∧ (s.restoreContext c next).context t ≠ .fresh ∧
        (s.restoreContext c next).firstEntry t = _ ∨
      ((s.restoreContext c next).context t = .fresh ↔ _) ∧
        (s.restoreContext c next).firstEntry t = _
    rw [ne_eq, restoreContext_fresh]
    unfold Smp.restoreContext
    by_cases hf : s.context next = Context.fresh
    · simp only [if_pos hf]
      by_cases ht : t = next
      · subst ht
        rw [Function.update_self]
        exact .inl ⟨hf, fun h => h.2 rfl, rfl⟩
      · rw [Function.update_of_ne ht]
        exact .inr ⟨and_iff_left ht, rfl⟩
    · simp only [if_neg hf]
      refine .inr ⟨and_iff_left_of_imp ?_, trivial⟩
      rintro h rfl
      exact hf h
  | @save c regs u next todo hph => exact .inr ⟨@saveContext_fresh s c u regs t, rfl⟩
  | @patch c mem vbar call u o todo hph =>
    refine .inr ⟨?_, ?_⟩
    · cases o <;> exact Iff.rfl
    · cases o <;> rfl
  | nothing => exact .inr ⟨Iff.rfl, rfl⟩
  | take => exact .inr ⟨Iff.rfl, rfl⟩
  | publish => exact .inr ⟨Iff.rfl, rfl⟩
  | requeue => exact .inr ⟨Iff.rfl, rfl⟩
  | skip => exact .inr ⟨Iff.rfl, rfl⟩
  | create => exact .inr ⟨Iff.rfl, rfl⟩
  | callOn => exact .inr ⟨Iff.rfl, rfl⟩
  | callInvalid => exact .inr ⟨Iff.rfl, rfl⟩
  | checkMiss => exact .inr ⟨Iff.rfl, rfl⟩
  | checkHit => exact .inr ⟨Iff.rfl, rfl⟩
  | listMiss => exact .inr ⟨Iff.rfl, rfl⟩
  | denied => exact .inr ⟨Iff.rfl, rfl⟩
  | created => exact .inr ⟨Iff.rfl, rfl⟩
  | searchMiss => exact .inr ⟨Iff.rfl, rfl⟩
  | searchHit => exact .inr ⟨Iff.rfl, rfl⟩
  | success => exact .inr ⟨Iff.rfl, rfl⟩
  | leave => exact .inr ⟨Iff.rfl, rfl⟩

theorem Started.step (hst : Started s) (hcase : StepCase arch cfg s q a s' q')
    (hv : SwitchView arch s s' a) (hok : TakesBuilt s a) : Started s' := by
  refine ⟨fun c t h => ?_, fun c t h => ?_, fun t h => ?_, fun t h => ?_⟩
  · refine Built.stays ?_ hcase
    rcases h with htaken | hrel
    · rcases hv.taken_step htaken with ht | ⟨_, _, htakes, _⟩
      · exact hst.built c t (.inl ht)
      · exact hok t htakes
    · rcases hv.releasing hrel with hr | ⟨ht, _⟩
      · exact hst.built c t (.inr hr)
      · exact hst.built c t (.inl ht)
  · rcases hv.inRegisters_step h with hr | he
    · exact hv.entered_stays (hst.loaded c t hr)
    · exact he
  · refine Built.stays ?_ hcase
    rcases hv.entered_step h with he | ⟨c, ht⟩
    · exact hst.entered t he
    · exact hst.built c t (.inl ht)
  · rcases hcase.firstEntry t with ⟨_, hne, _⟩ | ⟨hf, he⟩
    · exact absurd h hne
    · rw [he]
      exact hst.unseen t (hf.mp h)

theorem started_init : Started initSmp := by
  refine ⟨fun c t h => ?_, fun c t h => ?_, fun t h => absurd rfl h, fun t _ => rfl⟩
  · rcases h with h | ⟨_, _, h, _⟩
    · cases h
    · cases h
  · cases h

/-- A live task that is not complete waits on the ready list. -/
theorem Started.ready (hst : Started s) (ho : Owned arch s.sys s.phase q)
    (ht : (s.sys.task t).isSome) (hb : ¬ Built s t) : t ∈ q .ready := by
  obtain ⟨p, hin⟩ := ho.places.somewhere t ht
  cases p with
  | ready => exact hin
  | taken c => exact absurd (hst.built c t (.inl hin)) hb
  | leaving c =>
    refine absurd (hst.built c t (.inr ?_)) hb
    change leaving s.phase c = some t at hin
    cases hph : s.phase c with
    | idle =>
      rw [leaving, hph] at hin
      cases hin
    | cpuOn call stage =>
      rw [leaving, hph] at hin
      cases hin
    | switch old next todo =>
      rw [leaving_switch hph] at hin
      by_cases hreq : SwitchOp.requeue ∈ todo
      · rw [if_pos hreq] at hin
        subst hin
        exact ⟨next, todo, hph, .inl (save_of_requeue (ho.shape c _ _ _ hph).1 hreq)⟩
      · rw [if_neg hreq] at hin
        cases hin

/-- The registers of a task that has not been entered change only by the writes of a
CPU_ON call. -/
theorem Started.vcpu_stays (hst : Started s) (hcase : StepCase arch cfg s q a s' q')
    (ht : (s.sys.task t).isSome) (hfresh : s.context t = .fresh)
    (hpatch : ∀ c mem vbar call o todo, a = .onStep c mem vbar →
      s.phase c ≠ .cpuOn call (.patch t (o :: todo))) : s'.vcpu t = s.vcpu t := by
  have hold : ∀ u, s.sys.task u = none → t ≠ u := by
    rintro u hu rfl
    rw [hu] at ht
    cases ht
  cases hcase with
  | @save c regs u next todo hph =>
    refine Function.update_of_ne ?_ _ _
    rintro rfl
    have hin : InRegisters s c t := (inRegisters_switch hph).mpr (.inr ⟨rfl, List.mem_cons_self⟩)
    exact hst.loaded c t hin hfresh
  | @patch c mem vbar call u o todo hph =>
    have hne : t ≠ u := by
      rintro rfl
      exact hpatch c mem vbar call o todo rfl hph
    cases o with
    | mpidr => rfl
    | anyPcpu => rfl
    | pcpu => rfl
    | vmpidr => exact Function.update_of_ne hne _ _
    | vbar => exact Function.update_of_ne hne _ _
    | x0 => exact Function.update_of_ne hne _ _
  | create hnone => exact Function.update_of_ne (hold _ hnone) _ _
  | created _ hnone => exact Function.update_of_ne (hold _ hnone) _ _
  | nothing => rfl
  | take => rfl
  | publish => rfl
  | requeue => rfl
  | skip => rfl
  | restore => rfl
  | callOn => rfl
  | callInvalid => rfl
  | checkMiss => rfl
  | checkHit => rfl
  | listMiss => rfl
  | denied => rfl
  | searchMiss => rfl
  | searchHit => rfl
  | success => rfl
  | leave => rfl

end

/-! ## What the first entry sees -/

/-- The first entry into `t` sees, or has seen, what the call asked for. -/
def Entry (s : Smp) (t : TaskId) (call : OnCall) : Prop :=
  s.context t = .fresh ∧ (s.vcpu t).x0 = call.contextId ∧
      (s.vcpu t).vmpidr = 0x80000000 ||| call.target ∨
    s.context t ≠ .fresh ∧ s.firstEntry t = some (call.contextId, 0x80000000 ||| call.target)

section

variable {arch : Arch} {cfg : GuestConfig} {s s' : Smp} {q q' : ListHead → List TaskId}
  {a : Action} {t : TaskId} {call : OnCall}

/-- What the first entry into a complete task sees is fixed. -/
theorem Entry.step (he : Entry s t call) (hst : Started s) (hb : Built s t)
    (hcase : StepCase arch cfg s q a s' q') : Entry s' t call := by
  have hvcpu : s.context t = .fresh → s'.vcpu t = s.vcpu t := fun hf =>
    hst.vcpu_stays hcase hb.live hf fun c _ _ call o todo _ => hb.2 c call o todo
  rcases hcase.firstEntry t with ⟨hf, hne, hfirst⟩ | ⟨hiff, hsame⟩
  · rcases he with ⟨_, hx0, hvmpidr⟩ | ⟨hne', _⟩
    · refine .inr ⟨hne, ?_⟩
      rw [hfirst, hx0, hvmpidr]
    · exact absurd hf hne'
  · rcases he with ⟨hf, hx0, hvmpidr⟩ | ⟨hne, hfirst⟩
    · refine .inl ⟨hiff.mpr hf, ?_⟩
      rw [hvcpu hf]
      exact ⟨hx0, hvmpidr⟩
    · exact .inr ⟨fun hf => hne (hiff.mp hf), hsame.trans hfirst⟩

theorem Entry.firstEntry (he : Entry s t call) (hst : Started s) {e : BitVec 64 × BitVec 64}
    (h : s.firstEntry t = some e) : e = (call.contextId, 0x80000000 ||| call.target) := by
  rcases he with ⟨hf, _⟩ | ⟨_, hfirst⟩
  · rw [hst.unseen t hf] at h
    cases h
  · exact Option.some.inj (h.symm.trans hfirst)

end

/-! ## The calls in progress -/

/-- The mpidr of a live task. -/
def Smp.mpidrOf (s : Smp) (t : TaskId) : Option (BitVec 64) := (s.sys.task t).map Task.mpidr

/-- A call between its check and the write of the mpidr. -/
def Phase.binding : Phase → Bool
  | .cpuOn _ (.check _) => true
  | .cpuOn _ .create => true
  | .cpuOn _ .search => true
  | .cpuOn _ (.patch _ todo) => PatchOp.mpidr ∈ todo
  | _ => false

/-- No task is bound to the affinity `target`. -/
def Vacant (s : Smp) (target : BitVec 64) : Prop :=
  ∀ u m, s.mpidrOf u = some m → m ≠ placeholder → psciMpidrAffinity m ≠ target

/-- What a call has established when it is at a stage. -/
def StageOk (s : Smp) (q : ListHead → List TaskId) (call : OnCall) : OnStage → Prop
  | .check unread =>
    call.created = none ∧ psciMpidrAffinity call.target = call.target ∧
      ∀ u m, s.mpidrOf u = some m → psciMpidrAffinity m = call.target →
        Seen s.sys s.phase q u unread
  | .create =>
    call.created = none ∧ psciMpidrAffinity call.target = call.target ∧ Vacant s call.target
  | .search =>
    psciMpidrAffinity call.target = call.target ∧ Vacant s call.target ∧
      ∃ t, call.created = some t ∧ s.mpidrOf t = some placeholder
  | .patch t todo =>
    call.created = some t ∧ psciMpidrAffinity call.target = call.target ∧ todo <:+ patchOps ∧
      s.promised t = none ∧
      s.mpidrOf t = some (if .mpidr ∈ todo then placeholder else call.target) ∧
      (.mpidr ∈ todo → Vacant s call.target) ∧ (todo = [] → Entry s t call) ∧
      (todo ≠ [] → .vmpidr ∉ todo → (s.vcpu t).vmpidr = 0x80000000 ||| call.target)
  | .returned val =>
    if val = psciRetSuccess then ∃ t, call.created = some t ∧ s.promised t = some call
    else call.created = none

/-- The invariant of the calls. -/
structure Calls (s : Smp) (q : ListHead → List TaskId) : Prop where
  unique : ∀ t u m n, s.mpidrOf t = some m → s.mpidrOf u = some n → m ≠ placeholder →
    n ≠ placeholder → psciMpidrAffinity m = psciMpidrAffinity n → t = u
  pending : ∀ t, s.mpidrOf t = some placeholder → ∃ c call, call.created = some t ∧
    (s.phase c = .cpuOn call .search ∨ ∃ todo, s.phase c = .cpuOn call (.patch t (.mpidr :: todo)))
  oneBinding : ∀ c c', (s.phase c).binding = true → (s.phase c').binding = true → c = c'
  onePatch : ∀ c c' call call' t todo todo', s.phase c = .cpuOn call (.patch t todo) →
    s.phase c' = .cpuOn call' (.patch t todo') → c = c'
  stage : ∀ c call stage, s.phase c = .cpuOn call stage → StageOk s q call stage
  promised : ∀ t call, s.promised t = some call →
    Built s t ∧ s.mpidrOf t = some call.target ∧ Entry s t call

/-- The steps that leave CPU_ON calls undisturbed. -/
structure Orderly (s : Smp) (a : Action) : Prop where
  built : TakesBuilt s a
  visible : ∀ u m c call unread, s.mpidrOf u = some m → s.phase c = .cpuOn call (.check unread) →
    psciMpidrAffinity m = call.target → ¬ Hides s a u
  serial : ∀ c cpuId entry contextId, a = .cpuOn c cpuId entry contextId →
    (∀ c', (s.phase c').binding = false) ∧
      ∀ u m, s.mpidrOf u = some m → psciMpidrAffinity m = psciMpidrAffinity cpuId → ¬ InTransit s u
  boot : ∀ t x vcpu, a = .create t x vcpu →
    (∀ u, s.sys.task u = none) ∧ (∀ c, s.phase c = .idle) ∧ x.mpidr ≠ placeholder

section

variable {arch : Arch} {cfg : GuestConfig} {s s' : Smp} {q q' : ListHead → List TaskId}
  {a : Action} {c : Cpu} {t : TaskId} {call : OnCall} {stage : OnStage} {m : BitVec 64}

theorem mpidrOf_some (h : s.mpidrOf t = some m) : ∃ x, s.sys.task t = some x ∧ x.mpidr = m :=
  Option.map_eq_some_iff.mp h

theorem mpidrOf_live (h : s.mpidrOf t = some m) : (s.sys.task t).isSome := by
  obtain ⟨x, hx, _⟩ := mpidrOf_some h
  exact Option.isSome_of_mem hx

theorem ne_placeholder_of_masked (h : psciMpidrAffinity m = m) : m ≠ placeholder :=
  h ▸ affinity_ne_placeholder m

/-- The mpidr of a complete task. -/
theorem Built.mpidrOf_stays (hb : Built s t) (hcase : StepCase arch cfg s q a s' q') :
    s'.mpidrOf t = s.mpidrOf t := by
  obtain ⟨x, hx⟩ := Option.isSome_iff_exists.mp hb.live
  rw [Smp.mpidrOf, Smp.mpidrOf, (hb.step hcase hx).2, hx]

/-- A task with an id to which no call has still to write. -/
theorem Calls.built (hc : Calls s q) (hph : s.phase c = .cpuOn call (.patch t [])) :
    Built s t := by
  obtain ⟨_, hmask, _, _, hid, _⟩ := hc.stage c call _ hph
  obtain ⟨x, hx, hm⟩ := mpidrOf_some hid
  refine ⟨⟨x, hx, ?_⟩, fun c' call' o todo hph' => ?_⟩
  · rw [hm]
    exact ne_placeholder_of_masked hmask
  · obtain rfl := hc.onePatch c c' call call' t _ _ hph hph'
    cases hph.symm.trans hph'

/-- The stage of a call is kept by the steps of other pCPUs. -/
theorem Calls.stage_frame (hc : Calls s q) (hst : Started s) (ho : Owned arch s.sys s.phase q)
    (hcase : StepCase arch cfg s q a s' q') (hph : s.phase c = .cpuOn call stage)
    (hother : ∀ mem vbar, a ≠ .onStep c mem vbar)
    (hids : (s.phase c).binding = true → ∀ u, s'.mpidrOf u = s.mpidrOf u)
    (hown : ∀ t todo, stage = .patch t todo →
      s'.mpidrOf t = s.mpidrOf t ∧ s'.promised t = s.promised t)
    (hprom : ∀ t, s.promised t = some call → s'.promised t = some call)
    (hhide : ∀ u m, s.mpidrOf u = some m → psciMpidrAffinity m = call.target →
      ∀ unread, stage = .check unread → ¬ Hides s a u) : StageOk s' q' call stage := by
  have hok := hc.stage c call stage hph
  rw [hph] at hids
  have hvacant : (Phase.cpuOn call stage).binding = true → Vacant s call.target →
      Vacant s' call.target := fun hb hv u m hm => hv u m ((hids hb u).symm.trans hm)
  cases stage with
  | check unread =>
    refine ⟨hok.1, hok.2.1, fun u m hm haff => ?_⟩
    have hm' := (hids rfl u).symm.trans hm
    exact (hok.2.2 u m hm' haff).step ho hcase (hhide u m hm' haff unread rfl)
  | create => exact ⟨hok.1, hok.2.1, hvacant rfl hok.2.2⟩
  | search =>
    obtain ⟨hmask, hv, t, hcreated, hid⟩ := hok
    exact ⟨hmask, hvacant rfl hv, t, hcreated, (hids rfl t).trans hid⟩
  | patch t todo =>
    obtain ⟨hcreated, hmask, hsuf, hnone, hid, hv, hentry, hvmpidr⟩ := hok
    obtain ⟨hid', hprom'⟩ := hown t todo rfl
    refine ⟨hcreated, hmask, hsuf, hprom'.trans hnone, hid'.trans hid, fun hin => ?_, fun hnil => ?_,
      fun hne hin => ?_⟩
    · exact hvacant (decide_eq_true hin) (hv hin)
    · subst hnil
      exact (hentry rfl).step hst (hc.built hph) hcase
    · -- the task is not complete, so nobody has entered it
      obtain ⟨o, rest, rfl⟩ := List.exists_cons_of_ne_nil hne
      have hfresh : s.context t = .fresh := by
        by_contra hf
        exact (hst.entered t hf).2 c call o rest hph
      rw [hst.vcpu_stays hcase (mpidrOf_live hid) hfresh ?_]
      · exact hvmpidr hne hin
      · rintro c' mem vbar call' o' todo' rfl hph'
        obtain rfl := hc.onePatch c c' call call' t _ _ hph hph'
        exact hother mem vbar rfl
  | returned val =>
    change if val = psciRetSuccess then _ else _
    change if val = psciRetSuccess then _ else _ at hok
    by_cases hval : val = psciRetSuccess
    · rw [if_pos hval] at hok ⊢
      obtain ⟨t, hcreated, hp⟩ := hok
      exact ⟨t, hcreated, hprom t hp⟩
    · rw [if_neg hval] at hok ⊢
      exact hok

/-- What is promised stays true. -/
theorem Calls.promised_frame (hc : Calls s q) (hst : Started s)
    (hcase : StepCase arch cfg s q a s' q') (h : s.promised t = some call) :
    Built s' t ∧ s'.mpidrOf t = some call.target ∧ Entry s' t call := by
  obtain ⟨hb, hid, hentry⟩ := hc.promised t call h
  exact ⟨hb.stays hcase, (hb.mpidrOf_stays hcase).trans hid, hentry.step hst hb hcase⟩

/-- A step of the scheduler. -/
theorem Calls.sched_step (hc : Calls s q) (hst : Started s) (ho : Owned arch s.sys s.phase q)
    (hcase : StepCase arch cfg s q a s' q') (hok : Orderly s a)
    (hact : ∀ c mem vbar, a ≠ .onStep c mem vbar) (htask : s'.sys.task = s.sys.task)
    (hprom : s'.promised = s.promised)
    (hphase : ∀ c call stage, s'.phase c = .cpuOn call stage ↔ s.phase c = .cpuOn call stage) :
    Calls s' q' := by
  have hids : ∀ u, s'.mpidrOf u = s.mpidrOf u := fun u => by
    rw [Smp.mpidrOf, Smp.mpidrOf, htask]
  have hbinding : ∀ c, (s'.phase c).binding = true → (s.phase c).binding = true := by
    intro c hb
    cases hph : s'.phase c with
    | idle =>
      rw [hph] at hb
      cases hb
    | switch old next todo =>
      rw [hph] at hb
      cases hb
    | cpuOn call stage => rwa [(hphase c call stage).mp hph, ← hph]
  refine ⟨fun t u m n ht hu => ?_, fun t ht => ?_, fun c c' hb hb' => ?_,
    fun c c' call call' t todo todo' h h' => ?_, fun c call stage h => ?_, fun t call h => ?_⟩
  · rw [hids] at ht hu
    exact hc.unique t u m n ht hu
  · rw [hids] at ht
    obtain ⟨c, call, hcreated, hpend⟩ := hc.pending t ht
    exact ⟨c, call, hcreated, hpend.imp (hphase ..).mpr fun ⟨todo, h⟩ => ⟨todo, (hphase ..).mpr h⟩⟩
  · exact hc.oneBinding c c' (hbinding c hb) (hbinding c' hb')
  · exact hc.onePatch c c' call call' t _ _ ((hphase ..).mp h) ((hphase ..).mp h')
  · have hph := (hphase c call stage).mp h
    refine hc.stage_frame hst ho hcase hph (fun mem vbar => hact c mem vbar) (fun _ => hids)
      (fun t _ _ => ⟨hids t, congrFun hprom t⟩) (fun t h => hprom ▸ h) ?_
    rintro u m hm haff unread rfl
    exact hok.visible u m c call unread hm hph haff
  · exact hc.promised_frame hst hcase (hprom ▸ h)

/-- A step of the call on pCPU `c`, which goes to `p`: what is to show besides the frame. -/
theorem Calls.call_step (hc : Calls s q) (hst : Started s) (ho : Owned arch s.sys s.phase q)
    (hcase : StepCase arch cfg s q a s' q') (hhide : ∀ u, ¬ Hides s a u)
    (hact : ∀ c' mem vbar, c' ≠ c → a ≠ .onStep c' mem vbar) {p : Phase}
    (hphase : s'.phase = Function.update s.phase c p)
    (hids : ∀ c', c' ≠ c → (s.phase c').binding = true → ∀ u, s'.mpidrOf u = s.mpidrOf u)
    (hpatched : ∀ c', c' ≠ c → ∀ call t todo, s.phase c' = .cpuOn call (.patch t todo) →
      s'.mpidrOf t = s.mpidrOf t ∧ s'.promised t = s.promised t)
    (hkept : ∀ t call, s.promised t = some call → s'.promised t = some call)
    (hnew : ∀ t call, s'.promised t = some call → s.promised t = some call ∨
      Built s' t ∧ s'.mpidrOf t = some call.target ∧ Entry s' t call)
    (hunique : ∀ t u m n, s'.mpidrOf t = some m → s'.mpidrOf u = some n → m ≠ placeholder →
      n ≠ placeholder → psciMpidrAffinity m = psciMpidrAffinity n → t = u)
    (hpend : ∀ t, s'.mpidrOf t = some placeholder → ∃ c' call, call.created = some t ∧
      (s'.phase c' = .cpuOn call .search ∨
        ∃ todo, s'.phase c' = .cpuOn call (.patch t (.mpidr :: todo))))
    (hbinding : p.binding = true → ∀ c', c' ≠ c → (s.phase c').binding = false)
    (hpatch : ∀ call t todo, p = .cpuOn call (.patch t todo) →
      ∀ c', c' ≠ c → ∀ call' todo', s.phase c' ≠ .cpuOn call' (.patch t todo'))
    (hown : ∀ call stage, p = .cpuOn call stage → StageOk s' q' call stage) : Calls s' q' := by
  have hself : s'.phase c = p := by rw [hphase, Function.update_self]
  have hrest : ∀ c', c' ≠ c → s'.phase c' = s.phase c' := fun c' hcc => by
    rw [hphase, Function.update_of_ne hcc]
  refine ⟨hunique, hpend, fun c₁ c₂ hb₁ hb₂ => ?_,
    fun c₁ c₂ call₁ call₂ t todo₁ todo₂ h₁ h₂ => ?_, fun c₁ call stage h => ?_, fun t call h => ?_⟩
  · by_cases h₁ : c₁ = c
    · by_cases h₂ : c₂ = c
      · exact h₁.trans h₂.symm
      · rw [h₁, hself] at hb₁
        rw [hrest c₂ h₂, hbinding hb₁ c₂ h₂] at hb₂
        cases hb₂
    · by_cases h₂ : c₂ = c
      · rw [h₂, hself] at hb₂
        rw [hrest c₁ h₁, hbinding hb₂ c₁ h₁] at hb₁
        cases hb₁
      · rw [hrest c₁ h₁] at hb₁
        rw [hrest c₂ h₂] at hb₂
        exact hc.oneBinding c₁ c₂ hb₁ hb₂
  · by_cases hc₁ : c₁ = c
    · by_cases hc₂ : c₂ = c
      · exact hc₁.trans hc₂.symm
      · rw [hc₁, hself] at h₁
        rw [hrest c₂ hc₂] at h₂
        exact absurd h₂ (hpatch call₁ t todo₁ h₁ c₂ hc₂ call₂ todo₂)
    · by_cases hc₂ : c₂ = c
      · rw [hc₂, hself] at h₂
        rw [hrest c₁ hc₁] at h₁
        exact absurd h₁ (hpatch call₂ t todo₂ h₂ c₁ hc₁ call₁ todo₁)
      · rw [hrest c₁ hc₁] at h₁
        rw [hrest c₂ hc₂] at h₂
        exact hc.onePatch c₁ c₂ call₁ call₂ t todo₁ todo₂ h₁ h₂
  · by_cases hcc : c₁ = c
    · rw [hcc, hself] at h
      exact hown call stage h
    · rw [hrest c₁ hcc] at h
      refine hc.stage_frame hst ho hcase h (fun mem vbar => hact c₁ mem vbar hcc) (hids c₁ hcc)
        ?_ (fun t => hkept t call) fun u _ _ _ _ _ => hhide u
      rintro t todo rfl
      exact hpatched c₁ hcc call t todo h
  · rcases hnew t call h with hold | hnow
    · exact hc.promised_frame hst hcase hold
    · exact hnow

/-- A step of a call that changes no mpidr and promises nothing. -/
theorem Calls.call_step_same (hc : Calls s q) (hst : Started s) (ho : Owned arch s.sys s.phase q)
    (hcase : StepCase arch cfg s q a s' q') (hhide : ∀ u, ¬ Hides s a u)
    (hact : ∀ c' mem vbar, c' ≠ c → a ≠ .onStep c' mem vbar) {p : Phase}
    (hphase : s'.phase = Function.update s.phase c p)
    (hids : ∀ u, s'.mpidrOf u = s.mpidrOf u) (hprom : s'.promised = s.promised)
    (hbinding : p.binding = true → ∀ c', c' ≠ c → (s.phase c').binding = false)
    (hpatch : ∀ call t todo, p = .cpuOn call (.patch t todo) →
      ∀ c', c' ≠ c → ∀ call' todo', s.phase c' ≠ .cpuOn call' (.patch t todo'))
    (hpend : ∀ call t, call.created = some t →
      (s.phase c = .cpuOn call .search ∨
        ∃ todo, s.phase c = .cpuOn call (.patch t (.mpidr :: todo))) →
      p = .cpuOn call .search ∨ ∃ todo, p = .cpuOn call (.patch t (.mpidr :: todo)))
    (hown : ∀ call stage, p = .cpuOn call stage → StageOk s' q' call stage) : Calls s' q' := by
  refine hc.call_step hst ho hcase hhide hact hphase (fun _ _ _ => hids)
    (fun _ _ _ t _ _ => ⟨hids t, congrFun hprom t⟩) (fun t call h => hprom ▸ h)
    (fun t call h => .inl (hprom ▸ h)) (fun t u m n ht hu => ?_) (fun t ht => ?_) hbinding hpatch
    hown
  · rw [hids] at ht hu
    exact hc.unique t u m n ht hu
  · rw [hids] at ht
    obtain ⟨c', call, hcreated, hpending⟩ := hc.pending t ht
    refine ⟨c', call, hcreated, ?_⟩
    rw [hphase]
    by_cases hcc : c' = c
    · subst hcc
      rw [Function.update_self]
      exact hpend call t hcreated hpending
    · rw [Function.update_of_ne hcc]
      exact hpending

theorem onStep_not_hides {mem : Option TaskId} {vbar : BitVec 64} (u : TaskId) :
    ¬ Hides s (.onStep c mem vbar) u := by
  rintro (⟨c', sys, he, _⟩ | ⟨c', regs, next, todo, he, _⟩)
  · cases he
  · cases he

theorem onStep_ne {mem : Option TaskId} {vbar : BitVec 64} (c' : Cpu) (mem' : Option TaskId)
    (vbar' : BitVec 64) (h : c' ≠ c) : Action.onStep c mem vbar ≠ .onStep c' mem' vbar' :=
  fun he => h (Action.onStep.inj he).1.symm

theorem Calls.others (hc : Calls s q) (hb : (s.phase c).binding = true) (c' : Cpu)
    (hcc : c' ≠ c) : (s.phase c').binding = false :=
  Bool.eq_false_iff.mpr fun hb' => hcc (hc.oneBinding c' c hb' hb)

/-- An unbound task belongs to the call that is to bind it. -/
theorem Calls.pending_here (hc : Calls s q) (hb : (s.phase c).binding = true)
    (ht : s.mpidrOf t = some placeholder) : ∃ call, call.created = some t ∧
      (s.phase c = .cpuOn call .search ∨
        ∃ todo, s.phase c = .cpuOn call (.patch t (.mpidr :: todo))) := by
  obtain ⟨c', call, hcreated, hpending⟩ := hc.pending t ht
  have hb' : (s.phase c').binding = true := by
    rcases hpending with h | ⟨todo, h⟩
    · rw [h]
      rfl
    · rw [h, Phase.binding]
      exact decide_eq_true List.mem_cons_self
  obtain rfl := hc.oneBinding c c' hb hb'
  exact ⟨call, hcreated, hpending⟩

/-- The task of a call that is still to bind it belongs to no other one. -/
theorem Calls.unbound_alone (hc : Calls s q) (hb : (s.phase c).binding = true)
    (ht : s.mpidrOf t = some placeholder) (c' : Cpu) (hcc : c' ≠ c) (call' : OnCall)
    (todo : List PatchOp) : s.phase c' ≠ .cpuOn call' (.patch t todo) := by
  intro hph
  obtain ⟨_, hmask, _, _, hid, _⟩ := hc.stage c' call' _ hph
  by_cases hin : PatchOp.mpidr ∈ todo
  · have hb' := hc.others hb c' hcc
    rw [hph] at hb'
    exact absurd (decide_eq_true hin) (Bool.eq_false_iff.mp hb')
  · rw [if_neg hin, ht] at hid
    exact ne_placeholder_of_masked hmask (Option.some.inj hid).symm

theorem psciMpidrAffinity_idem (mpidr : BitVec 64) :
    psciMpidrAffinity (psciMpidrAffinity mpidr) = psciMpidrAffinity mpidr := by
  unfold psciMpidrAffinity
  rw [BitVec.and_assoc, BitVec.and_self]

theorem psciConfiguredMpidr_eq {cpuId target : BitVec 64}
    (h : psciConfiguredMpidr cfg cpuId = some target) : target = psciMpidrAffinity cpuId := by
  have htest := List.find?_some h
  exact beq_iff_eq.mp htest

/-- A call starts. -/
theorem Calls.callOn (hc : Calls s q) (hst : Started s) (ho : Owned arch s.sys s.phase q)
    {cpuId entry contextId target : BitVec 64} (hok : Orderly s (.cpuOn c cpuId entry contextId))
    (hph : s.phase c = .idle) (hconf : psciConfiguredMpidr cfg cpuId = some target) :
    Calls (s.setPhase c
      (.cpuOn ⟨target, entry, contextId, none⟩ (.check (List.finRange 4)))) q := by
  obtain ⟨hserial, hvisible⟩ := hok.serial c cpuId entry contextId rfl
  have htarget := psciConfiguredMpidr_eq hconf
  have hcase : StepCase arch cfg s q (.cpuOn c cpuId entry contextId) _ q := .callOn hph hconf
  refine hc.call_step_same hst ho hcase ?_ ?_ rfl (fun _ => rfl) rfl (fun _ c' _ => hserial c')
    nofun ?_ ?_
  · rintro u (⟨c', sys, he, _⟩ | ⟨c', regs, next, todo, he, _⟩)
    · cases he
    · cases he
  · exact fun c' mem vbar _ => nofun
  · rintro call t _ (h | ⟨todo, h⟩)
    · cases hph.symm.trans h
    · cases hph.symm.trans h
  · rintro call stage he
    obtain ⟨rfl, rfl⟩ := Phase.cpuOn.inj he
    refine ⟨rfl, ?_, fun u m hm haff => ?_⟩
    · rw [htarget, psciMpidrAffinity_idem]
    · have hseen := ho.seen (mpidrOf_live hm) (hvisible u m hm (haff.trans htarget))
      exact hseen.setPhase (by rw [hph]; rfl) rfl

/-- A call that has found that the affinity is in use, or is over. -/
theorem Calls.finish (hc : Calls s q) (hst : Started s) (ho : Owned arch s.sys s.phase q)
    {p : Phase} (hcase : StepCase arch cfg s q a (s.setPhase c p) q) (hhide : ∀ u, ¬ Hides s a u)
    (hact : ∀ c' mem vbar, c' ≠ c → a ≠ .onStep c' mem vbar)
    (hp : p = .idle ∨ ∃ call val, p = .cpuOn call (.returned val) ∧ val ≠ psciRetSuccess ∧
      call.created = none)
    (hpend : ∀ call t, s.phase c ≠ .cpuOn call .search ∧
      ∀ todo, s.phase c ≠ .cpuOn call (.patch t (.mpidr :: todo))) :
    Calls (s.setPhase c p) q := by
  refine hc.call_step_same hst ho hcase hhide hact rfl (fun _ => rfl) rfl ?_ ?_ ?_ ?_
  · rcases hp with rfl | ⟨call, val, rfl, _⟩
    · exact nofun
    · exact nofun
  · rcases hp with rfl | ⟨call, val, rfl, _⟩
    · exact nofun
    · exact nofun
  · rintro call t _ (h | ⟨todo, h⟩)
    · exact absurd h (hpend call t).1
    · exact absurd h ((hpend call t).2 todo)
  · rintro call stage he
    rcases hp with rfl | ⟨call', val, rfl, hval, hcreated⟩
    · cases he
    · obtain ⟨rfl, rfl⟩ := Phase.cpuOn.inj he
      exact (if_neg hval).mpr hcreated

section

variable {mem : Option TaskId} {vbar : BitVec 64}

/-- The check goes on, or is over. -/
theorem Calls.checked (hc : Calls s q) (hst : Started s) (ho : Owned arch s.sys s.phase q)
    {unread : List Cpu} (hph : s.phase c = .cpuOn call (.check unread)) {stage : OnStage}
    (hcase : StepCase arch cfg s q (.onStep c mem vbar) (s.setPhase c (.cpuOn call stage)) q)
    (hpatch : ∀ t todo, stage ≠ .patch t todo)
    (hown : StageOk (s.setPhase c (.cpuOn call stage)) q call stage) :
    Calls (s.setPhase c (.cpuOn call stage)) q := by
  refine hc.call_step_same hst ho hcase onStep_not_hides onStep_ne rfl (fun _ => rfl) rfl
    (fun _ => hc.others (by rw [hph]; rfl)) ?_ ?_ ?_
  · rintro call' t todo he
    exact absurd (Phase.cpuOn.inj he).2 (hpatch t todo)
  · rintro call' t _ (h | ⟨todo, h⟩)
    · cases hph.symm.trans h
    · cases hph.symm.trans h
  · rintro call' stage' he
    obtain ⟨rfl, rfl⟩ := Phase.cpuOn.inj he
    exact hown

theorem Calls.checkMiss (hc : Calls s q) (hst : Started s) (ho : Owned arch s.sys s.phase q)
    {c' : Cpu} {unread : List Cpu} (hph : s.phase c = .cpuOn call (.check (c' :: unread)))
    (hmiss : s.sys.testRunning (hasAffinity call.target) c' = false)
    (hcase : StepCase arch cfg s q (.onStep c mem vbar)
      (s.setPhase c (.cpuOn call (.check unread))) q) :
    Calls (s.setPhase c (.cpuOn call (.check unread))) q := by
  obtain ⟨hcreated, hmask, hseen⟩ := hc.stage c call _ hph
  refine hc.checked hst ho hph hcase (fun _ _ => by simp) ⟨hcreated, hmask, fun u m hm haff => ?_⟩
  have hleft : Seen s.sys s.phase q u unread := by
    rcases hseen u m hm haff with hin | ⟨c₁, hc₁, hrun, hown⟩
    · exact .inl hin
    · rcases List.mem_cons.mp hc₁ with rfl | hc₁
      · obtain ⟨x, hx, rfl⟩ := @mpidrOf_some s u m hm
        rw [System.testRunning, hrun, Option.any_some, hx, Option.any_some, hasAffinity, haff,
          hmask, BEq.rfl] at hmiss
        cases hmiss
      · exact .inr ⟨c₁, hc₁, hrun, hown⟩
  exact hleft.setPhase (by rw [hph]; rfl) rfl

theorem Calls.listMiss (hc : Calls s q) (hst : Started s) (ho : Owned arch s.sys s.phase q)
    (hph : s.phase c = .cpuOn call (.check []))
    (hmiss : ∀ t ∈ q .ready, (s.sys.task t).any (hasAffinity call.target) = false)
    (hcase : StepCase arch cfg s q (.onStep c mem vbar) (s.setPhase c (.cpuOn call .create)) q) :
    Calls (s.setPhase c (.cpuOn call .create)) q := by
  obtain ⟨hcreated, hmask, hseen⟩ := hc.stage c call _ hph
  refine hc.checked hst ho hph hcase (fun _ _ => nofun) ⟨hcreated, hmask, fun u m hm _ haff => ?_⟩
  rcases hseen u m hm haff with hin | ⟨c₁, hc₁, _⟩
  · obtain ⟨x, hx, rfl⟩ := @mpidrOf_some s u m hm
    have hfalse := hmiss u hin
    rw [hx, Option.any_some, hasAffinity, haff, hmask, BEq.rfl] at hfalse
    cases hfalse
  · cases hc₁

/-- The placeholder is on the list, so the search finds it. -/
theorem Calls.search_hits (hc : Calls s q) (hst : Started s) (ho : Owned arch s.sys s.phase q)
    (hph : s.phase c = .cpuOn call .search)
    (hmiss : ∀ t ∈ q .ready, (s.sys.task t).any (fun x => x.mpidr == placeholder) = false) :
    False := by
  obtain ⟨_, _, t, _, hid⟩ := hc.stage c call _ hph
  obtain ⟨x, hx, hm⟩ := mpidrOf_some hid
  have hnot : ¬ Built s t := by
    rintro ⟨⟨y, hy, hne⟩, _⟩
    exact hne (Option.some.inj (hx.symm.trans hy) ▸ hm)
  have hfalse := hmiss t (hst.ready ho (mpidrOf_live hid) hnot)
  rw [hx, Option.any_some, hm, BEq.rfl] at hfalse
  cases hfalse

/-- The search finds the task that the call has created. -/
theorem Calls.searchHit (hc : Calls s q) (hst : Started s) (ho : Owned arch s.sys s.phase q)
    (hph : s.phase c = .cpuOn call .search) {x : Task} (hx : s.sys.task t = some x)
    (hplace : x.mpidr = placeholder)
    (hcase : StepCase arch cfg s q (.onStep c mem vbar)
      (s.setPhase c (.cpuOn call (.patch t patchOps))) q) :
    Calls (s.setPhase c (.cpuOn call (.patch t patchOps))) q := by
  have hb : (s.phase c).binding = true := by rw [hph]; rfl
  have hid : s.mpidrOf t = some placeholder := by rw [Smp.mpidrOf, hx, ← hplace]; rfl
  obtain ⟨hmask, hvacant, _⟩ := hc.stage c call _ hph
  have hmine : ∀ u, s.mpidrOf u = some placeholder → call.created = some u := by
    intro u hu
    obtain ⟨call', hcreated, hpending⟩ := hc.pending_here hb hu
    rcases hpending with h | ⟨todo, h⟩
    · obtain ⟨rfl, _⟩ := Phase.cpuOn.inj (hph.symm.trans h)
      exact hcreated
    · cases hph.symm.trans h
  refine hc.call_step_same hst ho hcase onStep_not_hides onStep_ne rfl (fun _ => rfl) rfl
    (fun _ => hc.others hb) ?_ ?_ ?_
  · rintro call' t' todo he
    obtain ⟨rfl, rfl⟩ := OnStage.patch.inj (Phase.cpuOn.inj he).2
    exact hc.unbound_alone hb hid
  · rintro call' t' hcreated (h | ⟨todo, h⟩)
    · obtain ⟨rfl, _⟩ := Phase.cpuOn.inj (hph.symm.trans h)
      obtain rfl := Option.some.inj ((hmine t hid).symm.trans hcreated)
      exact .inr ⟨_, rfl⟩
    · cases hph.symm.trans h
  · rintro call' stage he
    obtain ⟨rfl, rfl⟩ := Phase.cpuOn.inj he
    refine ⟨hmine t hid, hmask, List.suffix_refl _, ?_, hid, fun _ => hvacant, nofun, fun _ hnot => ?_⟩
    · cases hp : s.promised t with
      | none => exact hp
      | some call' =>
        obtain ⟨⟨⟨y, hy, hne⟩, _⟩, _⟩ := hc.promised t call' hp
        exact absurd (Option.some.inj (hx.symm.trans hy) ▸ hplace) hne
    · exact absurd (by decide) hnot

theorem Calls.created (hc : Calls s q) (hst : Started s) (ho : Owned arch s.sys s.phase q)
    (hph : s.phase c = .cpuOn call .create) (hnone : s.sys.task t = none) {sys' : System}
    (hsame : SameTasks (s.sys.newTask t ⟨10, 0, placeholder, .ready⟩) sys')
    {vcpu : TaskId → Vcpu}
    (hcase : StepCase arch cfg s q (.onStep c mem vbar)
      ({ s with sys := sys', vcpu := vcpu }.setPhase c
        (.cpuOn { call with created := some t } .search)) q') :
    Calls ({ s with sys := sys', vcpu := vcpu }.setPhase c
      (.cpuOn { call with created := some t } .search)) q' := by
  obtain ⟨_, hmask, hvacant⟩ := hc.stage c call _ hph
  have hb : (s.phase c).binding = true := by rw [hph]; rfl
  generalize hs' : ({ s with sys := sys', vcpu := vcpu }.setPhase c
    (.cpuOn { call with created := some t } .search)) = s' at hcase ⊢
  have hself : s'.mpidrOf t = some placeholder := by
    subst hs'
    have htask : (s.sys.newTask t ⟨10, 0, placeholder, .ready⟩).task t =
        some ⟨10, 0, placeholder, .ready⟩ := Function.update_self ..
    change (sys'.task t).map Task.mpidr = _
    rw [hsame.task, htask]
    rfl
  have hother : ∀ u, u ≠ t → s'.mpidrOf u = s.mpidrOf u := by
    intro u hu
    subst hs'
    change (sys'.task u).map Task.mpidr = _
    rw [hsame.task]
    exact congrArg (Option.map Task.mpidr) (Function.update_of_ne hu _ _)
  have hdead : ∀ m, s.mpidrOf t ≠ some m := by
    intro m hm
    have hlive := mpidrOf_live hm
    rw [hnone] at hlive
    cases hlive
  have hbound : ∀ u, s.mpidrOf u ≠ some placeholder := by
    intro u hu
    obtain ⟨call', _, hpending⟩ := hc.pending_here hb hu
    rcases hpending with h | ⟨todo, h⟩
    · cases hph.symm.trans h
    · cases hph.symm.trans h
  have hphase : s'.phase = Function.update s.phase c
      (.cpuOn { call with created := some t } .search) := by
    subst hs'
    rfl
  have hprom : s'.promised = s.promised := by
    subst hs'
    rfl
  refine hc.call_step hst ho hcase onStep_not_hides onStep_ne hphase ?_ ?_
    (fun _ _ h => hprom ▸ h) (fun _ _ h => .inl (hprom ▸ h)) ?_ ?_ (fun _ => hc.others hb)
    (fun _ _ _ he => nomatch (Phase.cpuOn.inj he).2) ?_
  · intro c' hcc hb'
    exact absurd hb' (Bool.eq_false_iff.mp (hc.others hb c' hcc))
  · intro c' hcc call' t' todo hph'
    obtain ⟨_, _, _, _, hid, _⟩ := hc.stage c' call' _ hph'
    refine ⟨hother t' ?_, congrFun hprom t'⟩
    rintro rfl
    exact hdead _ hid
  · intro u₁ u₂ m n h₁ h₂ hm hn
    have hold : ∀ u m, s'.mpidrOf u = some m → m ≠ placeholder → s.mpidrOf u = some m := by
      intro u m hu hm
      refine (hother u ?_).symm.trans hu
      rintro rfl
      exact hm (Option.some.inj (hu.symm.trans hself))
    exact hc.unique u₁ u₂ m n (hold u₁ m h₁ hm) (hold u₂ n h₂ hn) hm hn
  · intro u hu
    have hut : u = t := by
      by_contra hne
      exact hbound u ((hother u hne).symm.trans hu)
    subst hut
    refine ⟨c, { call with created := some u }, rfl, .inl ?_⟩
    rw [hphase, Function.update_self]
  · rintro call' stage he
    obtain ⟨rfl, rfl⟩ := Phase.cpuOn.inj he
    refine ⟨hmask, fun u m hu hm => ?_, t, rfl, hself⟩
    refine hvacant u m ((hother u ?_).symm.trans hu) hm
    rintro rfl
    exact hm (Option.some.inj (hu.symm.trans hself))

theorem patchOp_mpidrOf {o : PatchOp} (ho : o ≠ .mpidr) (u : TaskId) :
    (patchOp cfg s call vbar t o).mpidrOf u = s.mpidrOf u := by
  have hmodify : ∀ f : Task → Task, (∀ x, (f x).mpidr = x.mpidr) →
      ((s.sys.modifyTask t f).task u).map Task.mpidr = (s.sys.task u).map Task.mpidr := by
    intro f hf
    by_cases hu : u = t
    · subst hu
      rw [modifyTask_self, Option.map_map]
      exact congrArg (Option.map · (s.sys.task u)) (funext hf)
    · rw [modifyTask_other hu]
  cases o with
  | mpidr => exact absurd rfl ho
  | anyPcpu => exact hmodify _ fun _ => rfl
  | pcpu => exact hmodify _ fun _ => rfl
  | vmpidr => rfl
  | vbar => rfl
  | x0 => rfl

theorem setVcpu_self (v : Vcpu) : (s.setVcpu t v).vcpu t = v := Function.update_self ..

theorem patchOp_promised {o : PatchOp} : (patchOp cfg s call vbar t o).promised = s.promised := by
  cases o <;> rfl

/-- The writes that are left after one of them. -/
theorem patch_rest {o : PatchOp} {todo : List PatchOp} (h : o :: todo <:+ patchOps) :
    o = .mpidr ∧ todo = [.anyPcpu, .pcpu, .vmpidr, .vbar, .x0] ∨
      o = .anyPcpu ∧ todo = [.pcpu, .vmpidr, .vbar, .x0] ∨
      o = .pcpu ∧ todo = [.vmpidr, .vbar, .x0] ∨ o = .vmpidr ∧ todo = [.vbar, .x0] ∨
      o = .vbar ∧ todo = [.x0] ∨ o = .x0 ∧ todo = [] := by
  simpa only [patchOps, List.suffix_cons_iff, List.suffix_nil, List.cons.injEq, reduceCtorEq,
    or_false] using h

/-- The write of the mpidr. -/
theorem Calls.patchMpidr (hc : Calls s q) (hst : Started s) (ho : Owned arch s.sys s.phase q)
    {todo : List PatchOp} (hph : s.phase c = .cpuOn call (.patch t (.mpidr :: todo)))
    (hnot : PatchOp.mpidr ∉ todo) (hmore : todo ≠ []) (hvm : PatchOp.vmpidr ∈ todo)
    (hcase : StepCase arch cfg s q (.onStep c mem vbar)
      ((patchOp cfg s call vbar t .mpidr).setPhase c (.cpuOn call (.patch t todo))) q) :
    Calls ((patchOp cfg s call vbar t .mpidr).setPhase c (.cpuOn call (.patch t todo))) q := by
  obtain ⟨hcreated, hmask, hsuf, hnone, hid, hvacant, _, _⟩ := hc.stage c call _ hph
  rw [if_pos List.mem_cons_self] at hid
  have hb : (s.phase c).binding = true := by
    rw [hph, Phase.binding]
    exact decide_eq_true List.mem_cons_self
  generalize hs' : (patchOp cfg s call vbar t .mpidr).setPhase c (.cpuOn call (.patch t todo)) = s'
    at hcase ⊢
  have hself : s'.mpidrOf t = some call.target := by
    obtain ⟨x, hx, _⟩ := mpidrOf_some hid
    subst hs'
    change ((s.sys.modifyTask t _).task t).map Task.mpidr = _
    rw [modifyTask_self, hx]
    rfl
  have hother : ∀ u, u ≠ t → s'.mpidrOf u = s.mpidrOf u := by
    intro u hu
    subst hs'
    change ((s.sys.modifyTask t _).task u).map Task.mpidr = _
    rw [modifyTask_other hu]
    rfl
  have hphase : s'.phase = Function.update s.phase c (.cpuOn call (.patch t todo)) := by
    subst hs'
    rfl
  have hprom : s'.promised = s.promised := by
    subst hs'
    rfl
  refine hc.call_step hst ho hcase onStep_not_hides onStep_ne hphase ?_ ?_
    (fun _ _ h => hprom ▸ h) (fun _ _ h => .inl (hprom ▸ h)) ?_ ?_ (fun _ => hc.others hb) ?_ ?_
  · intro c' hcc hb'
    exact absurd hb' (Bool.eq_false_iff.mp (hc.others hb c' hcc))
  · intro c' hcc call' t' todo' hph'
    refine ⟨hother t' ?_, congrFun hprom t'⟩
    rintro rfl
    exact hcc (hc.onePatch c' c call' call t' _ _ hph' hph)
  · intro u₁ u₂ m n h₁ h₂ hm hn haff
    by_cases ht₁ : u₁ = t
    · by_cases ht₂ : u₂ = t
      · exact ht₁.trans ht₂.symm
      · -- nobody else is bound to the target
        rw [ht₁, hself] at h₁
        obtain rfl := Option.some.inj h₁
        rw [hother u₂ ht₂] at h₂
        exact absurd (haff.symm.trans hmask) (hvacant List.mem_cons_self u₂ n h₂ hn)
    · rw [hother u₁ ht₁] at h₁
      by_cases ht₂ : u₂ = t
      · rw [ht₂, hself] at h₂
        obtain rfl := Option.some.inj h₂
        exact absurd (haff.trans hmask) (hvacant List.mem_cons_self u₁ m h₁ hm)
      · rw [hother u₂ ht₂] at h₂
        exact hc.unique u₁ u₂ m n h₁ h₂ hm hn haff
  · intro u hu
    exfalso
    by_cases hut : u = t
    · rw [hut, hself] at hu
      exact ne_placeholder_of_masked hmask (Option.some.inj hu)
    · rw [hother u hut] at hu
      obtain ⟨call', _, hpending⟩ := hc.pending_here hb hu
      rcases hpending with h | ⟨todo', h⟩
      · cases hph.symm.trans h
      · exact hut (OnStage.patch.inj (Phase.cpuOn.inj (hph.symm.trans h)).2).1.symm
  · rintro call' t' todo' he c' hcc call₁ todo₁ hph'
    obtain ⟨rfl, _⟩ := OnStage.patch.inj (Phase.cpuOn.inj he).2
    exact hcc (hc.onePatch c' c call₁ call t _ _ hph' hph)
  · rintro call' stage he
    obtain ⟨rfl, rfl⟩ := Phase.cpuOn.inj he
    refine ⟨hcreated, hmask, (List.suffix_cons _ _).trans hsuf, (congrFun hprom t).trans hnone, ?_,
      fun hin => absurd hin hnot, fun hnil => absurd hnil hmore, fun _ hin => absurd hvm hin⟩
    rw [if_neg hnot]
    exact hself

/-- The other writes. -/
theorem Calls.patchRest (hc : Calls s q) (hst : Started s) (ho : Owned arch s.sys s.phase q)
    {o : PatchOp} {todo : List PatchOp} (hph : s.phase c = .cpuOn call (.patch t (o :: todo)))
    (hnot : PatchOp.mpidr ∉ o :: todo)
    (hentry : todo = [] → Entry (patchOp cfg s call vbar t o) t call)
    (hvm : todo ≠ [] → .vmpidr ∉ todo →
      ((patchOp cfg s call vbar t o).vcpu t).vmpidr = 0x80000000 ||| call.target)
    (hcase : StepCase arch cfg s q (.onStep c mem vbar)
      ((patchOp cfg s call vbar t o).setPhase c (.cpuOn call (.patch t todo))) q) :
    Calls ((patchOp cfg s call vbar t o).setPhase c (.cpuOn call (.patch t todo))) q := by
  obtain ⟨hcreated, hmask, hsuf, hnone, hid, _, _, _⟩ := hc.stage c call _ hph
  rw [if_neg hnot] at hid
  have ho' : o ≠ .mpidr := fun he => hnot (he ▸ List.mem_cons_self)
  have hnot' : PatchOp.mpidr ∉ todo := fun hin => hnot (List.mem_cons_of_mem o hin)
  have hids : ∀ u, (patchOp cfg s call vbar t o).mpidrOf u = s.mpidrOf u := patchOp_mpidrOf ho'
  have hphase : ((patchOp cfg s call vbar t o).setPhase c (.cpuOn call (.patch t todo))).phase =
      Function.update s.phase c (.cpuOn call (.patch t todo)) := by
    rw [Smp.setPhase, patchOp_phase]
  refine hc.call_step_same hst ho hcase onStep_not_hides onStep_ne hphase hids patchOp_promised
    (fun hb => absurd (of_decide_eq_true hb) hnot') ?_ ?_ ?_
  · rintro call' t' todo' he c' hcc call₁ todo₁ hph'
    obtain ⟨rfl, _⟩ := OnStage.patch.inj (Phase.cpuOn.inj he).2
    exact hcc (hc.onePatch c' c call₁ call t _ _ hph' hph)
  · rintro call' t' _ (h | ⟨todo', h⟩)
    · cases hph.symm.trans h
    · obtain ⟨_, he⟩ := OnStage.patch.inj (Phase.cpuOn.inj (hph.symm.trans h)).2
      exact absurd (List.cons.inj he).1 ho'
  · rintro call' stage he
    obtain ⟨rfl, rfl⟩ := Phase.cpuOn.inj he
    refine ⟨hcreated, hmask, (List.suffix_cons _ _).trans hsuf,
      (congrFun patchOp_promised t).trans hnone, ?_, fun hin => absurd hin hnot', hentry, hvm⟩
    rw [if_neg hnot']
    exact (hids t).trans hid

theorem Calls.patch (hc : Calls s q) (hst : Started s) (ho : Owned arch s.sys s.phase q)
    {o : PatchOp} {todo : List PatchOp} (hph : s.phase c = .cpuOn call (.patch t (o :: todo)))
    (hcase : StepCase arch cfg s q (.onStep c mem vbar)
      ((patchOp cfg s call vbar t o).setPhase c (.cpuOn call (.patch t todo))) q) :
    Calls ((patchOp cfg s call vbar t o).setPhase c (.cpuOn call (.patch t todo))) q := by
  obtain ⟨_, _, hsuf, _, _, _, _, hvmpidr⟩ := hc.stage c call _ hph
  rcases patch_rest hsuf with ⟨rfl, rfl⟩ | ⟨rfl, rfl⟩ | ⟨rfl, rfl⟩ | ⟨rfl, rfl⟩ | ⟨rfl, rfl⟩ |
    ⟨rfl, rfl⟩
  · exact hc.patchMpidr hst ho hph (by decide) (by decide) (by decide) hcase
  · exact hc.patchRest hst ho hph (by decide) nofun (fun _ h => absurd (by decide) h) hcase
  · exact hc.patchRest hst ho hph (by decide) nofun (fun _ h => absurd (by decide) h) hcase
  · refine hc.patchRest hst ho hph (by decide) nofun (fun _ _ => ?_) hcase
    rw [patchOp, setVcpu_self]
  · refine hc.patchRest hst ho hph (by decide) nofun (fun _ _ => ?_) hcase
    rw [patchOp, setVcpu_self]
    exact hvmpidr nofun (by decide)
  · refine hc.patchRest hst ho hph (by decide) (fun _ => .inl ⟨?_, ?_⟩) (absurd rfl) hcase
    · by_contra hf
      exact (hst.entered t hf).2 c call _ _ hph
    · rw [patchOp, setVcpu_self]
      exact ⟨rfl, hvmpidr nofun (by decide)⟩

/-- The call reports success. -/
theorem Calls.success (hc : Calls s q) (hst : Started s) (ho : Owned arch s.sys s.phase q)
    (hph : s.phase c = .cpuOn call (.patch t []))
    (hcase : StepCase arch cfg s q (.onStep c mem vbar)
      ({ s with promised := Function.update s.promised t (some call) }.setPhase c
        (.cpuOn call (.returned psciRetSuccess))) q) :
    Calls ({ s with promised := Function.update s.promised t (some call) }.setPhase c
      (.cpuOn call (.returned psciRetSuccess))) q := by
  obtain ⟨hcreated, _, _, hnone, hid, _, hentry, _⟩ := hc.stage c call _ hph
  refine hc.call_step hst ho hcase onStep_not_hides onStep_ne rfl (fun _ _ _ _ => rfl) ?_ ?_ ?_
    hc.unique ?_ nofun nofun ?_
  · intro c' hcc call' t' todo hph'
    refine ⟨rfl, Function.update_of_ne ?_ _ _⟩
    rintro rfl
    exact hcc (hc.onePatch c' c call' call t' _ _ hph' hph)
  · intro t' call' h
    refine (Function.update_of_ne ?_ _ _).trans h
    rintro rfl
    cases hnone.symm.trans h
  · intro t' call' h
    by_cases ht : t' = t
    · subst ht
      have hcall : call = call' := by
        change Function.update s.promised t' (some call) t' = some call' at h
        rw [Function.update_self] at h
        exact Option.some.inj h
      subst hcall
      exact .inr ⟨(hc.built hph).stays hcase, hid, hentry rfl⟩
    · exact .inl ((Function.update_of_ne ht _ _).symm.trans h)
  · intro u hu
    obtain ⟨c', call', hcreated', hpending⟩ := hc.pending u hu
    have hcc : c' ≠ c := by
      rintro rfl
      rcases hpending with h | ⟨todo, h⟩
      · cases hph.symm.trans h
      · cases hph.symm.trans h
    refine ⟨c', call', hcreated', ?_⟩
    change Function.update s.phase c _ c' = _ ∨ ∃ todo, Function.update s.phase c _ c' = _
    rw [Function.update_of_ne hcc]
    exact hpending
  · rintro call' stage he
    obtain ⟨rfl, rfl⟩ := Phase.cpuOn.inj he
    rw [StageOk, if_pos rfl]
    exact ⟨t, hcreated, Function.update_self ..⟩

end

/-- The boot vCPU is created. -/
theorem Calls.boot (hc : Calls s q) {x : Task} {vcpu : Vcpu} {vcpus : TaskId → Vcpu}
    (hok : Orderly s (.create t x vcpu)) {sys' : System}
    (hsame : SameTasks (s.sys.newTask t x) sys') :
    Calls { s with sys := sys', vcpu := vcpus } q' := by
  obtain ⟨hnone, hidle, hid⟩ := hok.boot t x vcpu rfl
  have hone : ∀ u m, ({ s with sys := sys', vcpu := vcpus } : Smp).mpidrOf u = some m →
      u = t ∧ m = x.mpidr := by
    intro u m hu
    change (sys'.task u).map Task.mpidr = some m at hu
    rw [hsame.task] at hu
    by_cases hut : u = t
    · subst hut
      have htask : (s.sys.newTask u x).task u = some x := Function.update_self ..
      rw [htask] at hu
      exact ⟨rfl, (Option.some.inj hu).symm⟩
    · have htask : (s.sys.newTask t x).task u = none :=
        (Function.update_of_ne hut _ _).trans (hnone u)
      rw [htask] at hu
      cases hu
  refine ⟨fun u₁ u₂ m n h₁ h₂ _ _ _ => ?_, fun u hu => ?_, fun c c' hb => ?_,
    fun c c' call call' u todo todo' h => ?_, fun c call stage h => ?_, fun u call h => ?_⟩
  · exact (hone u₁ m h₁).1.trans (hone u₂ n h₂).1.symm
  · exact absurd (hone u _ hu).2.symm hid
  · change (s.phase c).binding = true at hb
    rw [hidle c] at hb
    cases hb
  · cases (hidle c).symm.trans h
  · cases (hidle c).symm.trans h
  · have hlive := (hc.promised u call h).1.live
    rw [hnone u] at hlive
    cases hlive

/-- A pCPU goes from one phase to another outside a call. -/
theorem phase_cpuOn_iff {phase : Cpu → Phase} {p : Phase}
    (hold : ∀ call stage, phase c ≠ .cpuOn call stage) (hnew : ∀ call stage, p ≠ .cpuOn call stage)
    (c' : Cpu) (call : OnCall) (stage : OnStage) :
    Function.update phase c p c' = .cpuOn call stage ↔ phase c' = .cpuOn call stage := by
  by_cases hcc : c' = c
  · subst hcc
    rw [Function.update_self]
    exact ⟨fun h => absurd h (hnew call stage), fun h => absurd h (hold call stage)⟩
  · rw [Function.update_of_ne hcc]

/-- An operation of a switch. -/
theorem Calls.switch_step (hc : Calls s q) (hst : Started s) (ho : Owned arch s.sys s.phase q)
    {regs : Vcpu} (hcase : StepCase arch cfg s q (.switch c regs) s' q')
    (hok : Orderly s (.switch c regs)) {old : Option TaskId} {next : TaskId}
    {todo todo' : List SwitchOp} (hph : s.phase c = .switch old next todo)
    (hphase : s'.phase = Function.update s.phase c (.rest old next todo'))
    (htask : s'.sys.task = s.sys.task) (hprom : s'.promised = s.promised) : Calls s' q' := by
  refine hc.sched_step hst ho hcase hok (fun _ _ _ => nofun) htask hprom ?_
  rw [hphase]
  refine phase_cpuOn_iff (fun call stage => ?_) fun _ _ => rest_ne_cpuOn
  rw [hph]
  exact nofun

theorem Calls.step (hc : Calls s q) (hst : Started s) (ho : Owned arch s.sys s.phase q)
    (hcase : StepCase arch cfg s q a s' q') (hok : Orderly s a) : Calls s' q' := by
  have hstep := hcase
  cases hcase with
  | nothing => exact hc
  | take hph hin hx haff hmem hrun =>
    refine hc.sched_step hst ho hstep hok (fun _ _ _ => nofun) rfl rfl ?_
    exact phase_cpuOn_iff (fun call stage => by rw [hph]; exact nofun) fun _ _ => nofun
  | publish hph => exact hc.switch_step hst ho hstep hok hph rfl rfl rfl
  | requeue hph hsame hmem =>
    exact hc.switch_step hst ho hstep hok hph rfl hsame.task rfl
  | skip hph ho' => exact hc.switch_step hst ho hstep hok hph rfl rfl rfl
  | save hph => exact hc.switch_step hst ho hstep hok hph rfl rfl rfl
  | restore hph => exact hc.switch_step hst ho hstep hok hph rfl rfl rfl
  | create hnone hsame hmem => exact hc.boot hok hsame
  | callOn hph hconf => exact hc.callOn hst ho hok hph hconf
  | @callInvalid c cpuId entry contextId hph =>
    refine hc.finish hst ho hstep ?_ (fun _ _ _ _ => nofun)
      (.inr ⟨_, _, rfl, by decide, rfl⟩) fun call t => ?_
    · rintro u (⟨c', sys, he, _⟩ | ⟨c', regs, next, todo, he, _⟩)
      · cases he
      · cases he
    · rw [hph]
      exact ⟨nofun, fun _ => nofun⟩
  | checkMiss hph hmiss => exact hc.checkMiss hst ho hph hmiss hstep
  | @checkHit c mem vbar call unread hph =>
    refine hc.finish hst ho hstep onStep_not_hides onStep_ne
      (.inr ⟨call, _, rfl, by decide, (hc.stage c call _ hph).1⟩) fun call t => ?_
    rw [hph]
    exact ⟨nofun, fun _ => nofun⟩
  | listMiss hph hmiss => exact hc.listMiss hst ho hph hmiss hstep
  | @denied c mem vbar call hph =>
    refine hc.finish hst ho hstep onStep_not_hides onStep_ne
      (.inr ⟨call, _, rfl, by decide, (hc.stage c call _ hph).1⟩) fun call t => ?_
    rw [hph]
    exact ⟨nofun, fun _ => nofun⟩
  | created hph hnone hsame hmem =>
    exact hc.created hst ho hph hnone hsame hstep
  | searchMiss hph hmiss => exact (hc.search_hits hst ho hph hmiss).elim
  | searchHit hph hin hx hplace =>
    exact hc.searchHit hst ho hph hx hplace hstep
  | patch hph => exact hc.patch hst ho hph hstep
  | success hph => exact hc.success hst ho hph hstep
  | @leave c mem vbar call val hph =>
    refine hc.finish hst ho hstep onStep_not_hides onStep_ne (.inl rfl) fun call t => ?_
    rw [hph]
    exact ⟨nofun, fun _ => nofun⟩

theorem calls_init (q : ListHead → List TaskId) : Calls initSmp q := by
  refine ⟨fun _ _ _ _ h => ?_, fun _ h => ?_, fun _ _ h => ?_, fun _ _ _ _ _ _ _ h => ?_,
    fun _ _ _ h => ?_, fun _ _ h => ?_⟩
  · cases h
  · cases h
  · cases h
  · cases h
  · cases h
  · cases h

/-- What holds in every state of a run that leaves the calls undisturbed. -/
theorem SmpRun.calls (hs : SmpRun arch cfg Orderly s) :
    ∃ q, Owned arch s.sys s.phase q ∧ Started s ∧ Calls s q := by
  induction hs with
  | init => exact ⟨_, owned_init arch, started_init, calls_init _⟩
  | step hrun hok hstep ih =>
    obtain ⟨q, ho, hst, hc⟩ := ih
    obtain ⟨q', hcase, ho'⟩ := ho.step hstep
    exact ⟨q', ho', hst.step hcase (ho.switchView hcase) hok.built, hc.step hst ho hcase hok⟩

end

/-! ## Atomicity -/

/-- CPU_ON as it looks from outside. -/
structure CpuOnAtomic (cfg : GuestConfig) (s : Smp) : Prop where
  /-- at most one task for each configured affinity -/
  unique : ∀ i < cfg.vcpuCount, ∀ t u m n, s.mpidrOf t = some m → s.mpidrOf u = some n →
    psciMpidrAffinity m = psciMpidrAffinity (cfg.vcpuMpidr i) →
    psciMpidrAffinity n = psciMpidrAffinity (cfg.vcpuMpidr i) → t = u
  /-- a pCPU outside a switch runs no placeholder -/
  running : ∀ c t, (s.phase c).isSwitch = false → s.sys.currentTask c = some t →
    s.mpidrOf t ≠ some placeholder
  /-- a call that returns SUCCESS has created a task and promised it to the guest -/
  success : ∀ c call, s.phase c = .cpuOn call (.returned psciRetSuccess) →
    ∃ t, call.created = some t ∧ s.promised t = some call
  /-- a promised task is bound to the affinity, and was first entered as the call asked -/
  promised : ∀ t call, s.promised t = some call → s.mpidrOf t = some call.target ∧
    ∀ e, s.firstEntry t = some e → e = (call.contextId, 0x80000000 ||| call.target)
  /-- a call that returns an error has created no task -/
  error : ∀ c call val, s.phase c = .cpuOn call (.returned val) → val ≠ psciRetSuccess →
    call.created = none

section

variable {arch : Arch} {cfg : GuestConfig} {s s' : Smp} {c : Cpu}

theorem orderly_onStep {mem : Option TaskId} {vbar : BitVec 64} :
    Orderly s (.onStep c mem vbar) := by
  refine ⟨fun t ht => ?_, fun u _ _ _ _ _ _ _ => onStep_not_hides u, fun _ _ _ _ => nofun,
    fun _ _ _ => nofun⟩
  exact absurd (.inl ht) (onStep_not_hides t)

/-- An operation of a switch while no call is in its check. -/
theorem orderly_switch {regs : Vcpu}
    (h : ∀ c call unread, s.phase c ≠ .cpuOn call (.check unread)) :
    Orderly s (.switch c regs) := by
  refine ⟨?_, fun _ _ c call unread _ hph => absurd hph (h c call unread), fun _ _ _ _ => nofun,
    fun _ _ _ => nofun⟩
  rintro t ⟨c', sys, he, _⟩
  cases he

/-- The steps of a call one after the other. -/
theorem SmpRun.onSteps (hs : SmpRun arch cfg Orderly s) (mems : List (Option TaskId))
    (h : s.exec arch cfg (mems.map fun mem => .onStep c mem 0) = some s') :
    SmpRun arch cfg Orderly s' := by
  refine hs.execAll (fun a ha s => ?_) h
  obtain ⟨mem, -, rfl⟩ := List.mem_map.mp ha
  exact orderly_onStep

end

/-- The boot vCPU is running on pCPU 0, and nothing else goes on. -/
theorem exists_running : ∃ s, SmpRun .aarch64 defaultVcpus Orderly s ∧
    initSmp.exec .aarch64 defaultVcpus
      ([.create 1 bootTask ⟨0, 0, 0, 0⟩, .pick 0] ++ switches 0 4) = some s ∧
    ∀ c, s.phase c = .idle := by
  have hboot : Orderly initSmp (.create 1 bootTask ⟨0, 0, 0, 0⟩) := by
    refine ⟨fun t ⟨_, _, he, _⟩ => (nomatch he), fun _ _ _ _ _ hm => (nomatch hm),
      fun _ _ _ _ => nofun, fun t x vcpu he => ?_⟩
    obtain ⟨rfl, rfl, rfl⟩ := Action.create.inj he
    exact ⟨fun _ => rfl, fun _ => rfl, by decide⟩
  have h₁ := SmpRun.init.step hboot (show initSmp.step .aarch64 defaultVcpus _ = _ from rfl)
  have h₂ := h₁.step (a := .pick 0) (by
    refine ⟨?_, fun _ _ _ _ _ _ hph => (nomatch hph), fun _ _ _ _ => nofun, fun _ _ _ => nofun⟩
    rintro t ⟨c, sys, he, hrun⟩
    obtain rfl := Action.pick.inj he
    obtain rfl := Option.some.inj (Prod.mk.inj (Option.some.inj hrun)).1
    exact ⟨⟨bootTask, rfl, by decide⟩, fun _ _ _ _ => nofun⟩) rfl
  have h₃ := h₂.step (a := .switch 0 ⟨0, 0, 0, 0⟩)
    (orderly_switch fun | 0, _, _ | 1, _, _ | 2, _, _ | 3, _, _ => nofun) rfl
  have h₄ := h₃.step (a := .switch 0 ⟨0, 0, 0, 0⟩)
    (orderly_switch fun | 0, _, _ | 1, _, _ | 2, _, _ | 3, _, _ => nofun) rfl
  have h₅ := h₄.step (a := .switch 0 ⟨0, 0, 0, 0⟩)
    (orderly_switch fun | 0, _, _ | 1, _, _ | 2, _, _ | 3, _, _ => nofun) rfl
  have h₆ := h₅.step (a := .switch 0 ⟨0, 0, 0, 0⟩)
    (orderly_switch fun | 0, _, _ | 1, _, _ | 2, _, _ | 3, _, _ => nofun) rfl
  exact ⟨_, h₆, rfl, fun | 0 | 1 | 2 | 3 => rfl⟩

/-- Pcpu 1 takes the new vCPU while its affinity is -1, before x0 and VMPIDR are written. -/
def earlyEntry : List Action :=
  [.create 1 bootTask ⟨0, 0, 0, 0⟩, .pick 0] ++ switches 0 4 ++
  [.cpuOn 0 1 0x50000000 7] ++ List.replicate 5 (.onStep 0 none 0) ++
  [.onStep 0 (some 2) 0] ++ List.replicate 3 (.onStep 0 none 0) ++
  [.pick 1] ++ switches 1 4 ++ List.replicate 5 (.onStep 0 none 0)

end HyperCore.Sched
