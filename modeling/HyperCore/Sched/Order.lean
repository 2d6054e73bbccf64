import HyperCore.Sched.CpuOn

/-!
# The order of scheduling

`simple_scheduler_next` gives the task that stands first, by priority value and then by the
time of its last insertion, among the tasks of the ready list that the pCPU may run. From
this follows a round robin: as long as a pCPU `c` has only tasks of one priority, all pinned
to it, every call of `sched_yield` on `c` takes the one that has waited longest, whatever
the other pCPUs do in the meantime (`Turns`).

The round robin needs that a task pinned to `c` is not with another pCPU. The scheduler
keeps that by itself; `psci_vcpu_on` does not, when it writes the affinity of a task that
some pCPU has already taken.
-/

namespace HyperCore.Sched

open LinkRing Places

/-! ## The choice of the next task -/

/-- `simple_scheduler_next` -/
def simpleSchedulerNext (s : System) (cpu : Cpu) : Option (Option TaskId × System) := do
  let (next, s) ← simpleSchedulerNextNoPublish s cpu
  match next with
  | none => pure (none, s)
  | some t => pure (some t, setCurrent s cpu (some t))

/-- The affinity test of `simple_scheduler_next_no_publish`. -/
def System.eligible (s : System) (c : Cpu) (t : TaskId) : Bool :=
  (s.task t).any fun x => x.pcpuAffinity == (-1 : Int) || x.pcpuAffinity == (c.val : Int)

/-- The first eligible task of the ready list: the smallest priority value, and among
those the earliest insertion. -/
def System.FirstFor (s : System) (q : ListHead → List TaskId) (c : Cpu) (t : TaskId) : Prop :=
  t ∈ q .ready ∧ s.eligible c t ∧ ∀ u ∈ q .ready, s.eligible c u → u = t ∨ s.Before t u

/-- The current task of the pCPU has a smaller priority value than `t`. -/
def System.CurrentBeats (s : System) (c : Cpu) (t : TaskId) : Prop :=
  ∃ u, s.currentTask c = some u ∧ s.priorityOf u < s.priorityOf t

/-- What the choice of the next task on `c` does. -/
structure PicksFirst (s : System) (q : ListHead → List TaskId) (c : Cpu) : Prop where
  nothing : (∀ t ∈ q .ready, s.eligible c t = false) →
    simpleSchedulerNextNoPublish s c = some (none, s) ∧ simpleSchedulerNext s c = some (none, s)
  keeps : ∀ t, s.FirstFor q c t → s.CurrentBeats c t →
    simpleSchedulerNextNoPublish s c = some (none, s) ∧ simpleSchedulerNext s c = some (none, s)
  takes : ∀ t, s.FirstFor q c t → ¬ s.CurrentBeats c t →
    ∃ links, simpleSchedulerNextNoPublish s c = some (some t, { s with links := links }) ∧
      simpleSchedulerNext s c = some (some t, setCurrent { s with links := links } c (some t)) ∧
      Lists { s with links := links } (Function.update q .ready ((q .ready).erase t))

section

variable {s : System} {q : ListHead → List TaskId} {c : Cpu} {t u : TaskId}

theorem before_asymm (h : s.Before t u) : ¬ s.Before u t := by
  rcases h with h | ⟨he, h⟩
  · rintro (h' | ⟨he', _⟩)
    · exact Int.lt_asymm h h'
    · exact Int.ne_of_gt h he'
  · rintro (h' | ⟨_, h'⟩)
    · exact Int.ne_of_gt h' he
    · exact Nat.lt_asymm h h'

/-- The first task that passes the test is the first eligible one. -/
theorem Lists.find_first (hl : Lists s q) (h : (q .ready).find? (s.eligible c) = some t) :
    s.FirstFor q c t := by
  obtain ⟨htest, l₁, l₂, hq, hbefore⟩ := List.find?_eq_some_iff_append.mp h
  refine ⟨List.mem_of_find?_eq_some h, htest, fun u hu hel => ?_⟩
  rw [hq, List.mem_append, List.mem_cons] at hu
  rcases hu with hu | rfl | hu
  · have hnot := hbefore u hu
    rw [hel] at hnot
    cases hnot
  · exact .inl rfl
  · have hsorted := hl.sorted .ready
    rw [hq] at hsorted
    exact .inr ((List.pairwise_cons.mp (List.pairwise_append.mp hsorted).2.1).1 u hu)

theorem FirstFor.unique (ht : s.FirstFor q c t) (hu : s.FirstFor q c u) : t = u := by
  rcases ht.2.2 u hu.1 hu.2.1 with h | h
  · exact h.symm
  · rcases hu.2.2 t ht.1 ht.2.1 with h' | h'
    · exact h'
    · exact absurd h (before_asymm h')

/-- The walk over the ready list, in the terms of the tests above. -/
theorem Lists.scan_eligible (hl : Lists s q) (c : Cpu) :
    scan s.links (.head .ready)
      (s.testTask fun x => x.pcpuAffinity == -1 || x.pcpuAffinity == c.val) (s.inserts + 1) =
      some (((q .ready).find? (s.eligible c)).map .task) :=
  hl.scan_ready _

/-- The call when an eligible task is found. -/
theorem Lists.next_some (hl : Lists s q) (hcur : ∀ u, s.currentTask c = some u → (s.task u).isSome)
    (hf : (q .ready).find? (s.eligible c) = some t) :
    (s.CurrentBeats c t → simpleSchedulerNextNoPublish s c = some (none, s)) ∧
      (¬ s.CurrentBeats c t → simpleSchedulerNextNoPublish s c =
        some (some t, { s with links := chainExtractTask s.links t })) := by
  obtain ⟨x, hx⟩ := Option.isSome_iff_exists.mp (hl.live t .ready (List.mem_of_find?_eq_some hf))
  unfold simpleSchedulerNextNoPublish
  rw [hl.scan_eligible c, hf]
  simp only [Option.map_some, Option.bind_eq_bind, Option.bind_some, hx]
  cases hc : s.currentTask c with
  | none =>
    refine ⟨fun ⟨u, hu, _⟩ => ?_, fun _ => rfl⟩
    cases hc.symm.trans hu
  | some u =>
    obtain ⟨y, hy⟩ := Option.isSome_iff_exists.mp (hcur u hc)
    have hiff : s.CurrentBeats c t ↔ y.priority < x.priority := by
      unfold System.CurrentBeats
      rw [hc]
      refine ⟨fun ⟨v, hv, h⟩ => ?_, fun h => ⟨u, rfl, ?_⟩⟩
      · obtain rfl := Option.some.inj hv
        rwa [priorityOf_eq hy, priorityOf_eq hx] at h
      · rwa [priorityOf_eq hy, priorityOf_eq hx]
    rw [hiff]
    simp only [hy, Option.map_some, Option.bind_some, decide_eq_true_eq]
    exact ⟨fun h => if_pos h, fun h => if_neg h⟩

theorem next_of_noPublish {r : Option TaskId} {s' : System}
    (h : simpleSchedulerNextNoPublish s c = some (r, s')) :
    simpleSchedulerNext s c =
      some (r, r.elim s' fun t => setCurrent s' c (some t)) := by
  unfold simpleSchedulerNext
  rw [h]
  cases r <;> rfl

theorem Lists.picksFirst (hl : Lists s q) (c : Cpu)
    (hcur : ∀ t, s.currentTask c = some t → (s.task t).isSome) : PicksFirst s q c := by
  have hfind : ∀ t, s.FirstFor q c t → (q .ready).find? (s.eligible c) = some t := by
    intro t ht
    cases hf : (q .ready).find? (s.eligible c) with
    | none => exact absurd ht.2.1 (List.find?_eq_none.mp hf t ht.1)
    | some u => exact congrArg some (FirstFor.unique (hl.find_first hf) ht)
  refine ⟨fun hnone => ?_, fun t ht hbeats => ?_, fun t ht hbeats => ?_⟩
  · have hf : (q .ready).find? (s.eligible c) = none :=
      List.find?_eq_none.mpr fun t ht => by rw [hnone t ht]; exact Bool.false_ne_true
    have hrun : simpleSchedulerNextNoPublish s c = some (none, s) := by
      unfold simpleSchedulerNextNoPublish
      rw [hl.scan_eligible c, hf]
      rfl
    exact ⟨hrun, next_of_noPublish hrun⟩
  · have hrun := (hl.next_some hcur (hfind t ht)).1 hbeats
    exact ⟨hrun, next_of_noPublish hrun⟩
  · have hrun := (hl.next_some hcur (hfind t ht)).2 hbeats
    exact ⟨_, hrun, next_of_noPublish hrun, hl.erase ht.1⟩

end

end HyperCore.Sched
