import HyperCore.Lib.Places
import HyperCore.Lib.Ring

/-!
# The priority scheduler

`sched_simple.c` with its two intrusive lists, `sched_yield` and
`vm_create_vcpu_task` around it, each call taken as one step. A task is in
`g_ready_list`, in `g_wait_list`, or current on a pCPU; the lists are linked through
the tasks themselves.

`Holds s q` relates the pointers to lists of tasks `q`: for each head a closed ring,
sorted by priority, and each live task in one place. Every operation is proved on
these lists and keeps `Holds`.

Two components of the state are there for the proofs only: `inserts` counts the
insertions so far, and `stamp` is the number of a task's last one. They say what
"insertion order" means, and they bound the length of a walk over a list.
-/

namespace HyperCore.Sched

open LinkRing Places

/-! ## The state -/

/-- A task, by its address. -/
abbrev TaskId := Nat

/-- `CONFIG_SMP_CPU_NUM` pCPUs. -/
abbrev Cpu := Fin 4

instance neZero_cpus : NeZero 4 := ⟨by decide⟩

/-- `enum task_state` -/
inductive TaskState
  | running | pause | ready | exit
deriving DecidableEq, Repr

/-- The fields of `hyper_task_t` that the scheduler uses. -/
structure Task where
  priority : Int
  pcpuAffinity : Int
  mpidr : BitVec 64
  state : TaskState
deriving DecidableEq

/-- `g_ready_list` and `g_wait_list` -/
inductive ListHead
  | ready | wait
deriving DecidableEq, Repr

/-- A `struct list_head`: one of the two heads, or the member of a task. -/
inductive Node
  | head (h : ListHead)
  | task (t : TaskId)
deriving DecidableEq, Repr

structure System where
  links : Links Node
  task : TaskId → Option Task
  currentTask : Cpu → Option TaskId
  gRunning : Cpu → Option TaskId
  stamp : TaskId → Nat
  inserts : Nat

/-- The test `f` on the task behind a node. -/
def System.testTask (s : System) (f : Task → Bool) : Node → Bool
  | .head _ => false
  | .task t => (s.task t).any f

/-! ## The code -/

/-- `is_task_in_chain` -/
def isTaskInChain (m : Links Node) (t : TaskId) : Bool :=
  match m.next (.task t), m.prev (.task t) with
  | some next, some prev => m.prev next == some (.task t) && m.next prev == some (.task t)
  | _, _ => false

/-- `__chain_extract_task` -/
def chainExtractTask (m : Links Node) (t : TaskId) : Links Node :=
  let unlinked :=
    match m.next (.task t), m.prev (.task t) with
    | some next, some prev => if isTaskInChain m t then unlinkBetween m prev next else m
    | _, _ => m
  (unlinked.setNext (.task t) none).setPrev (.task t) none

/-- The state after `t` was linked into a list, with the insertion recorded. -/
def System.inserted (s : System) (links : Links Node) (t : TaskId) : System :=
  { s with
    links := links
    stamp := Function.update s.stamp t s.inserts
    inserts := s.inserts + 1 }

/-- `__insert_task_sorted`: before the first task of a larger priority value. -/
def insertTaskSorted (s : System) (h : ListHead) (t : TaskId) : Option System := do
  let new ← s.task t
  let pos ← scan s.links (.head h) (s.testTask fun x => new.priority < x.priority) (s.inserts + 1)
  let links ← insertBefore s.links (.task t) (pos.getD (.head h))
  pure (s.inserted links t)

/-- `simple_scheduler_next_no_publish` on a pCPU: the task taken off the ready list. -/
def simpleSchedulerNextNoPublish (s : System) (cpu : Cpu) : Option (Option TaskId × System) := do
  let pos ← scan s.links (.head .ready)
    (s.testTask fun x => x.pcpuAffinity == -1 || x.pcpuAffinity == cpu.val) (s.inserts + 1)
  match pos with
  | some (.task t) =>
    let next ← s.task t
    let keep ← match s.currentTask cpu with
      | some c => (s.task c).map fun current => decide (current.priority < next.priority)
      | none => some false
    if keep then pure (none, s)
    else pure (some t, { s with links := chainExtractTask s.links t })
  | _ => pure (none, s)

/-- `set_current` -/
def setCurrent (s : System) (cpu : Cpu) (t : Option TaskId) : System :=
  { s with
    currentTask := Function.update s.currentTask cpu t
    gRunning := Function.update s.gRunning cpu t }

/-- `simple_scheduler_sched`; the IPI it sends does not touch this state. -/
def simpleSchedulerSched (s : System) (t : TaskId) : Option System := insertTaskSorted s .ready t

/-- Take a task out of its list and insert it into another: `simple_scheduler_yield`,
`_block` and `_unblock`. -/
def moveTask (s : System) (h : ListHead) (t : TaskId) : Option System :=
  insertTaskSorted { s with links := chainExtractTask s.links t } h t

def simpleSchedulerYield (s : System) (t : TaskId) : Option System := moveTask s .ready t

def simpleSchedulerBlock (s : System) (t : TaskId) : Option System := moveTask s .wait t

def simpleSchedulerUnblock (s : System) (t : TaskId) : Option System := moveTask s .ready t

/-- A new task, not in a list yet. -/
def System.newTask (s : System) (t : TaskId) (x : Task) : System :=
  { s with links := initHead s.links (.task t), task := Function.update s.task t (some x) }

/-- `vm_create_vcpu_task` with its return code. `mem` is what its allocations give: a
`hyper_task_t` at `t`, or `none` when one of them or an init function fails, after which
everything taken is freed. -/
def vmCreateVcpuTask (s : System) (mem : Option TaskId) (priority pcpuAffinity : Int)
    (guestCpuId : BitVec 64) : Option (Int × System) :=
  match mem with
  | none => pure (-1, s)
  | some t => do
    let s ← simpleSchedulerSched (s.newTask t ⟨priority, pcpuAffinity, guestCpuId, .ready⟩) t
    pure (0, s)

/-- `sched_yield` on a pCPU. -/
def schedYield (s : System) (cpu : Cpu) : Option System := do
  let current := s.currentTask cpu
  let (next, s) ← simpleSchedulerNextNoPublish s cpu
  match next with
  | none => pure s
  | some t =>
    let s := setCurrent s cpu (some t)
    match current with
    | none => pure s
    | some c =>
      let x ← s.task c
      if x.state = .exit then pure s else simpleSchedulerSched s c

/-- `simple_scheduler_init`, no task yet. -/
def initSched : System where
  links := initHead (initHead ⟨fun _ => none, fun _ => none⟩ (.head .ready)) (.head .wait)
  task _ := none
  currentTask _ := none
  gRunning _ := none
  stamp _ := 0
  inserts := 0

/-! ## What the lists hold -/

def System.priorityOf (s : System) (t : TaskId) : Int := ((s.task t).map Task.priority).getD 0

/-- Where `a` may stand before `b`: smaller priority value, or equal and inserted earlier. -/
def System.Before (s : System) (a b : TaskId) : Prop :=
  s.priorityOf a < s.priorityOf b ∨ s.priorityOf a = s.priorityOf b ∧ s.stamp a < s.stamp b

/-- The two lists hold the tasks of `q`, in this order. -/
structure Lists (s : System) (q : ListHead → List TaskId) : Prop where
  ring : ∀ h, Ring s.links (.head h) ((q h).map .task)
  sorted : ∀ h, (q h).Pairwise s.Before
  apart : ∀ t h h', t ∈ q h → t ∈ q h' → h = h'
  live : ∀ t h, t ∈ q h → (s.task t).isSome
  stamps : ∀ t h, t ∈ q h → s.stamp t < s.inserts
  room : ∀ h, (q h).length ≤ s.inserts

/-- The places a task can be in. -/
inductive Place
  | queued (h : ListHead)
  | current (c : Cpu)

def At (s : System) (q : ListHead → List TaskId) (t : TaskId) : Place → Prop
  | .queued h => t ∈ q h
  | .current c => s.currentTask c = some t

/-- A task is live exactly when it is in some place, and then it is in no other. -/
abbrev Placed (s : System) (q : ListHead → List TaskId) : Prop :=
  OnePlace (fun t => (s.task t).isSome = true) (At s q)

structure Holds (s : System) (q : ListHead → List TaskId) : Prop where
  lists : Lists s q
  placed : Placed s q
  running : s.gRunning = s.currentTask
  notExited : ∀ t x, s.task t = some x → x.state ≠ .exit

/-! ## One list operation -/

/-- A list cut at the first element that passes a test. -/
theorem exists_cut {α : Type} (p : α → Bool) (l : List α) :
    ∃ l₁ l₂, l = l₁ ++ l₂ ∧ (∀ x ∈ l₁, p x = false) ∧ (∀ x ∈ l₂.head?, p x = true) ∧
      l.find? p = l₂.head? := by
  cases hf : l.find? p with
  | none =>
    rw [List.find?_eq_none] at hf
    refine ⟨l, [], (List.append_nil l).symm, fun x hx => ?_, fun x hx => (nomatch hx), rfl⟩
    exact Bool.eq_false_iff.mpr (hf x hx)
  | some b =>
    obtain ⟨hb, l₁, l₂, rfl, hl₁⟩ := List.find?_eq_some_iff_append.mp hf
    refine ⟨l₁, b :: l₂, rfl, fun x hx => ?_, fun x hx => ?_, rfl⟩
    · simpa using hl₁ x hx
    · rw [List.head?_cons, Option.mem_some_iff] at hx
      exact hx ▸ hb

section

variable {s : System} {q : ListHead → List TaskId} {h : ListHead} {t : TaskId}

theorem task_mem_map {l : List TaskId} : Node.task t ∈ l.map Node.task ↔ t ∈ l := by
  rw [List.mem_map]
  exact ⟨fun ⟨_, hu, he⟩ => Node.task.inj he ▸ hu, fun ht => ⟨t, ht, rfl⟩⟩

theorem head_not_mem {l : List TaskId} : Node.head h ∉ l.map Node.task := by
  rw [List.mem_map]
  exact fun ⟨_, _, he⟩ => nomatch he

/-- A node of one list is no node of the other. -/
theorem Lists.other (hl : Lists s q) {g : ListHead} (hg : g ≠ h) {y : Node}
    (hy : y ∈ Node.head g :: (q g).map .task) : y ∉ Node.head h :: (q h).map .task := by
  intro hin
  rcases List.mem_cons.mp hy with rfl | hy
  · rcases List.mem_cons.mp hin with he | hin
    · exact hg (Node.head.inj he)
    · exact head_not_mem hin
  · obtain ⟨u, hu, rfl⟩ := List.mem_map.mp hy
    rcases List.mem_cons.mp hin with he | hin
    · cases he
    · exact hg (hl.apart u g h hu (task_mem_map.mp hin))

/-- Priorities do not decrease along a list. -/
theorem Lists.head_le (hl : Lists s q) {l₁ l₂ : List TaskId} (hq : q h = l₁ ++ l₂) {r b : TaskId}
    (hr : r ∈ l₂.head?) (hb : b ∈ l₂) : s.priorityOf r ≤ s.priorityOf b := by
  have hsorted := hl.sorted h
  rw [hq] at hsorted
  cases l₂ with
  | nil => cases hb
  | cons r' l₂ =>
    rw [List.head?_cons, Option.mem_some_iff] at hr
    subst hr
    rcases List.mem_cons.mp hb with rfl | hb
    · exact Int.le_refl _
    · have hpair := (List.pairwise_append.mp hsorted).2.1
      rcases (List.pairwise_cons.mp hpair).1 b hb with hlt | ⟨heq, _⟩
      · exact Int.le_of_lt hlt
      · exact Int.le_of_eq heq

/-- A list changed at one head, and every node outside it left alone. -/
theorem Lists.rings (hl : Lists s q) {m : Links Node} {l : List TaskId} {S : Node → Prop}
    (hring : Ring m (.head h) (l.map .task)) (hsame : SameOutside s.links m S)
    (hS : ∀ y, S y → y = .task t ∨ y ∈ Node.head h :: (q h).map .task)
    (ht : ∀ g, g ≠ h → t ∉ q g) (g : ListHead) :
    Ring m (.head g) ((Function.update q h l g).map .task) := by
  by_cases hg : g = h
  · subst hg
    rwa [Function.update_self]
  · rw [Function.update_of_ne hg]
    refine (hl.ring g).frame hsame fun y hy hin => ?_
    rcases hS y hin with rfl | hin
    · rcases List.mem_cons.mp hy with he | hy
      · cases he
      · exact ht g hg (task_mem_map.mp hy)
    · exact hl.other hg hy hin

/-- What `is_task_in_chain` and `list_del` do to a task of a list. -/
theorem chainExtractTask_ring {m : Links Node} {l₁ l₂ : List TaskId}
    (hring : Ring m (.head h) ((l₁ ++ t :: l₂).map .task)) :
    Ring (chainExtractTask m t) (.head h) ((l₁ ++ l₂).map .task) ∧
      SameOutside m (chainExtractTask m t) fun y =>
        y = .task t ∨ y ∈ Node.head h :: (l₁ ++ l₂).map .task := by
  rw [List.map_append, List.map_cons] at hring
  rw [List.map_append]
  obtain ⟨hprev, hnext⟩ := hring.neighbours
  have hin : isTaskInChain m t = true := by
    unfold isTaskInChain
    rw [hnext.1, hprev.2]
    simp only [hnext.2, hprev.1, BEq.rfl, Bool.and_self]
  obtain ⟨hcut, hsame⟩ := hring.remove
  have hclear : SameOutside
      (unlinkBetween m (lastOf (.head h) (l₁.map .task)) ((l₂.map .task).headD (.head h)))
      (chainExtractTask m t) (· = .task t) := by
    intro y hy
    unfold chainExtractTask
    rw [hnext.1, hprev.2]
    simp only [hin, if_true, Links.setNext, Links.setPrev, Function.update_of_ne hy, and_self]
  have hnot : Node.task t ∉ Node.head h :: (l₁.map Node.task ++ l₂.map Node.task) := by
    have hnd := hring.nodup
    rw [← List.cons_append] at hnd ⊢
    exact (List.nodup_cons.mp (List.perm_middle.nodup_iff.mp hnd)).1
  refine ⟨hcut.frame hclear fun y hy he => hnot (he ▸ hy), fun y hy => ?_⟩
  rw [not_or] at hy
  obtain ⟨hn, hp⟩ := hclear y hy.1
  obtain ⟨hn', hp'⟩ := hsame y hy.2
  exact ⟨hn.trans hn', hp.trans hp'⟩

theorem Lists.nodup (hl : Lists s q) (h : ListHead) : (q h).Nodup :=
  List.Nodup.of_map _ (List.nodup_cons.mp (hl.ring h).nodup).2

/-- Taking a task out of its list leaves the others in their order. -/
theorem Lists.erase (hl : Lists s q) (ht : t ∈ q h) :
    Lists { s with links := chainExtractTask s.links t } (Function.update q h ((q h).erase t)) := by
  obtain ⟨l₁, l₂, hq⟩ := List.append_of_mem ht
  have hnd := hl.nodup h
  have hring := hl.ring h
  rw [hq] at hring hnd
  have hnot : t ∉ l₁ := fun hin =>
    (List.nodup_cons.mp (List.perm_middle.nodup_iff.mp hnd)).1 (List.mem_append_left l₂ hin)
  have herase : (q h).erase t = l₁ ++ l₂ := by
    rw [hq, List.erase_append_right _ hnot, List.erase_cons_head]
  obtain ⟨hcut, hsame⟩ := chainExtractTask_ring hring
  have hsub : ((q h).erase t).Sublist (q h) := List.erase_sublist
  have hmem : ∀ g u, u ∈ Function.update q h ((q h).erase t) g → u ∈ q g := by
    intro g u hu
    rw [Function.update_apply] at hu
    split at hu
    · rename_i hg
      exact hg ▸ hsub.subset hu
    · exact hu
  refine ⟨?_, fun g => ?_, fun u g g' hu hu' => hl.apart u g g' (hmem g u hu) (hmem g' u hu'),
    fun u g hu => hl.live u g (hmem g u hu), fun u g hu => hl.stamps u g (hmem g u hu), fun g => ?_⟩
  · rw [herase]
    rw [herase] at hsub
    refine hl.rings hcut hsame (fun y hy => hy.imp_right fun hy => ?_)
      fun g hg htg => hg (hl.apart t g h htg ht)
    exact List.cons_subset_cons _ (hsub.map _).subset hy
  · rw [Function.update_apply]
    split
    · exact (hl.sorted h).sublist hsub
    · exact hl.sorted g
  · rw [Function.update_apply]
    split
    · exact Nat.le_trans hsub.length_le (hl.room h)
    · exact hl.room g

/-- Taking a task out of its list. -/
theorem Lists.extract (hl : Lists s q) (ht : t ∈ q h) :
    ∃ q', Lists { s with links := chainExtractTask s.links t } q' ∧
      ∀ g u, u ∈ q' g ↔ u ≠ t ∧ u ∈ q g := by
  refine ⟨_, hl.erase ht, fun g u => ?_⟩
  rw [Function.update_apply]
  split
  · rename_i hg
    rw [hg, (hl.nodup h).mem_erase_iff]
  · rename_i hg
    exact ⟨fun hu => ⟨fun he => hg (hl.apart t g h (he ▸ hu) ht), hu⟩, And.right⟩

theorem stamp_inserted {m : Links Node} {u : TaskId} (hu : u ≠ t) :
    (s.inserted m t).stamp u = s.stamp u := Function.update_of_ne hu _ _

theorem stamp_inserted_self {m : Links Node} : (s.inserted m t).stamp t = s.inserts :=
  Function.update_self ..

theorem priorityOf_eq {x : Task} (hx : s.task t = some x) : s.priorityOf t = x.priority := by
  rw [System.priorityOf, hx]
  rfl

/-- A list that the inserted task is not in stays sorted. -/
theorem Lists.sorted_inserted (hl : Lists s q) (ht : t ∉ q h) (m : Links Node) :
    (q h).Pairwise (s.inserted m t).Before := by
  refine (hl.sorted h).imp_of_mem fun {a b} ha hb hab => ?_
  rw [System.Before, stamp_inserted fun he : a = t => ht (he ▸ ha),
    stamp_inserted fun he : b = t => ht (he ▸ hb)]
  exact hab

/-- The list after an insertion is sorted, the new task behind those of its priority. -/
theorem Lists.sorted_insert (hl : Lists s q) {l₁ l₂ : List TaskId} (hq : q h = l₁ ++ l₂)
    (ht : t ∉ q h) (hbefore : ∀ x ∈ l₁, s.priorityOf x ≤ s.priorityOf t)
    (hafter : ∀ x ∈ l₂.head?, s.priorityOf t < s.priorityOf x) (m : Links Node) :
    (l₁ ++ t :: l₂).Pairwise (s.inserted m t).Before := by
  have hkeep := hl.sorted_inserted ht m
  rw [hq] at hkeep
  obtain ⟨h₁, h₂, h₁₂⟩ := List.pairwise_append.mp hkeep
  refine List.pairwise_append.mpr ⟨h₁, List.pairwise_cons.mpr ⟨fun b hb => ?_, h₂⟩, ?_⟩
  · -- everything behind the first task of a larger value has a larger value too
    cases hr : l₂.head? with
    | none =>
      rw [List.head?_eq_none_iff] at hr
      exact absurd hb (hr ▸ List.not_mem_nil)
    | some r =>
      exact .inl (Int.lt_of_lt_of_le (hafter r hr) (hl.head_le hq hr hb))
  · intro a ha b hb
    rcases List.mem_cons.mp hb with rfl | hb
    · have hain : a ∈ q h := hq ▸ List.mem_append_left l₂ ha
      rcases Int.lt_or_eq_of_le (hbefore a ha) with hlt | heq
      · exact .inl hlt
      · refine .inr ⟨heq, ?_⟩
        have hne : a ≠ b := fun he => ht (he ▸ hain)
        rw [stamp_inserted hne, stamp_inserted_self]
        exact hl.stamps a h hain
    · exact h₁₂ a ha b hb

/-- What `__insert_task_sorted` leaves as it was. -/
structure SameTasks (s s' : System) : Prop where
  task : s'.task = s.task
  currentTask : s'.currentTask = s.currentTask
  gRunning : s'.gRunning = s.gRunning

/-- Inserting a task that is in no list. -/
theorem Lists.insert (hl : Lists s q) (h : ListHead) {x : Task} (hx : s.task t = some x)
    (ht : ∀ g, t ∉ q g) :
    ∃ s' q', insertTaskSorted s h t = some s' ∧ Lists s' q' ∧ SameTasks s s' ∧
      ∀ g u, u ∈ q' g ↔ g = h ∧ u = t ∨ u ∈ q g := by
  let p : TaskId → Bool := fun u => (s.task u).any fun y => x.priority < y.priority
  have hp : ∀ u ∈ q h, p u = decide (s.priorityOf t < s.priorityOf u) := by
    intro u hu
    obtain ⟨y, hy⟩ := Option.isSome_iff_exists.mp (hl.live u h hu)
    rw [priorityOf_eq hx, priorityOf_eq hy]
    simp only [p, hy, Option.any_some]
  obtain ⟨l₁, l₂, hq, hbefore, hafter, hfind⟩ := exists_cut p (q h)
  have hscan : scan s.links (.head h) (s.testTask fun y => x.priority < y.priority)
      (s.inserts + 1) = some (l₂.head?.map .task) := by
    rw [(hl.ring h).scan_eq _ (by rw [List.length_map]; exact Nat.lt_succ_of_le (hl.room h)),
      List.find?_map, ← hfind]
    rfl
  have hring := hl.ring h
  rw [hq, List.map_append] at hring
  have hnew : Node.task t ∉ Node.head h :: (l₁.map Node.task ++ l₂.map Node.task) := by
    rw [← List.map_append, ← hq, List.mem_cons, task_mem_map]
    exact fun hin => hin.elim (fun he => nomatch he) (ht h)
  obtain ⟨m, hm, hringm, hsame⟩ := hring.insert hnew
  have hpos : (l₂.head?.map Node.task).getD (.head h) = (l₂.map Node.task).headD (.head h) := by
    cases l₂ <;> rfl
  have hmem : ∀ g u, u ∈ Function.update q h (l₁ ++ t :: l₂) g ↔ g = h ∧ u = t ∨ u ∈ q g := by
    intro g u
    by_cases hg : g = h
    · subst hg
      rw [Function.update_self, List.perm_middle.mem_iff, List.mem_cons, hq]
      simp only [true_and]
    · rw [Function.update_of_ne hg]
      simp only [hg, false_and, false_or]
  refine ⟨s.inserted m t, Function.update q h (l₁ ++ t :: l₂), ?_,
    ⟨?_, fun g => ?_, ?_, ?_, ?_, fun g => ?_⟩, ⟨rfl, rfl, rfl⟩, hmem⟩
  · unfold insertTaskSorted
    simp only [hx, hscan, hpos, hm, Option.bind_eq_bind, Option.bind_some]
    rfl
  · refine hl.rings ?_ hsame (fun y hy => hy.imp_right fun hy => ?_) fun g _ => ht g
    · rw [List.map_append, List.map_cons]
      exact hringm
    · rwa [← List.map_append, ← hq] at hy
  · by_cases hg : g = h
    · subst hg
      rw [Function.update_self]
      refine hl.sorted_insert hq (ht g) (fun y hy => ?_) (fun y hy => ?_) m
      · have hle := hbefore y hy
        rw [hp y (hq ▸ List.mem_append_left l₂ hy), decide_eq_false_iff_not] at hle
        exact Int.not_lt.mp hle
      · have hlt := hafter y hy
        rw [hp y (hq ▸ List.mem_append_right l₁ (List.mem_of_mem_head? hy)), decide_eq_true_eq] at hlt
        exact hlt
    · rw [Function.update_of_ne hg]
      exact hl.sorted_inserted (ht g) m
  · intro u g g' hu hu'
    rw [hmem] at hu hu'
    rcases hu with ⟨rfl, rfl⟩ | hu
    · rcases hu' with ⟨rfl, _⟩ | hu'
      · rfl
      · exact absurd hu' (ht g')
    · rcases hu' with ⟨_, rfl⟩ | hu'
      · exact absurd hu (ht g)
      · exact hl.apart u g g' hu hu'
  · intro u g hu
    rcases (hmem g u).mp hu with ⟨_, rfl⟩ | hu
    · exact Option.isSome_iff_exists.mpr ⟨x, hx⟩
    · exact hl.live u g hu
  · intro u g hu
    rcases (hmem g u).mp hu with ⟨_, rfl⟩ | hu
    · rw [stamp_inserted_self]
      exact Nat.lt_succ_self _
    · rw [stamp_inserted fun he : u = t => ht g (he ▸ hu)]
      exact Nat.lt_succ_of_lt (hl.stamps u g hu)
  · by_cases hg : g = h
    · subst hg
      rw [Function.update_self, List.perm_middle.length_eq, List.length_cons, ← hq]
      exact Nat.succ_le_succ (hl.room g)
    · rw [Function.update_of_ne hg]
      exact Nat.le_succ_of_le (hl.room g)

end

/-! ## The calls keep the invariant -/

section

variable {s s' : System} {q q' : ListHead → List TaskId} {h : ListHead} {t : TaskId}

/-- A live task that is not current is in a list. -/
theorem Placed.queued (hp : Placed s q) (ht : (s.task t).isSome)
    (hcur : ∀ c, s.currentTask c ≠ some t) : ∃ h, t ∈ q h := by
  obtain ⟨p, hin⟩ := hp.somewhere t ht
  cases p with
  | queued h => exact ⟨h, hin⟩
  | current c => exact absurd hin (hcur c)

theorem Placed.current_not_queued (hp : Placed s q) {c : Cpu} (hc : s.currentTask c = some t)
    (h : ListHead) : t ∉ q h := by
  intro hin
  cases hp.alone t (.current c) (.queued h) hc hin

/-- An unlinked new task leaves the lists as they are. -/
theorem Lists.newTask (hl : Lists s q) (ht : s.task t = none) (x : Task) :
    Lists (s.newTask t x) q := by
  have hne : ∀ u g, u ∈ q g → u ≠ t := by
    rintro u g hu rfl
    have hlive := hl.live u g hu
    rw [ht] at hlive
    exact Bool.false_ne_true hlive
  have htask : ∀ u g, u ∈ q g → (s.newTask t x).task u = s.task u :=
    fun u g hu => Function.update_of_ne (hne u g hu) _ _
  refine ⟨fun g => ?_, fun g => ?_, hl.apart, fun u g hu => ?_, hl.stamps, hl.room⟩
  · refine (hl.ring g).frame (initHead_same _ _) fun y hy he => ?_
    rcases List.mem_cons.mp hy with rfl | hy
    · cases he
    · obtain ⟨u, hu, rfl⟩ := List.mem_map.mp hy
      exact hne u g hu (Node.task.inj he)
  · refine (hl.sorted g).imp_of_mem fun {a b} ha hb hab => ?_
    rw [System.Before, System.priorityOf, System.priorityOf, htask a g ha, htask b g hb]
    exact hab
  · rw [htask u g hu]
    exact hl.live u g hu

theorem Holds.dead_not_at (hh : Holds s q) (ht : s.task t = none) (p : Place) : ¬ At s q t p := by
  intro hin
  have hlive := hh.placed.live t p hin
  rw [ht] at hlive
  exact Bool.false_ne_true hlive

/-- One task, in no place or taken out of its list, is put into list `h`. -/
theorem Placed.toList (h : ListHead) (hp : Placed s q) (hcur : s'.currentTask = s.currentTask)
    (hnot : ∀ c, s.currentTask c ≠ some t)
    (hq : ∀ g u, u ∈ q' g ↔ g = h ∧ u = t ∨ u ≠ t ∧ u ∈ q g)
    (hlive : ∀ u, (s'.task u).isSome ↔ u = t ∨ (s.task u).isSome) : Placed s' q' := by
  refine hp.moveOne t (.queued h) (fun p => ?_) (fun u p hu => ?_) hlive
  · cases p with
    | queued g =>
      rw [At, hq, Place.queued.injEq]
      simp only [and_true, ne_eq, not_true_eq_false, false_and, or_false]
    | current c =>
      rw [At, hcur]
      exact ⟨fun hc => absurd hc (hnot c), fun he => nomatch he⟩
  · cases p with
    | queued g =>
      rw [At, hq]
      simp only [hu, and_false, ne_eq, not_false_eq_true, true_and, false_or]
      rfl
    | current c =>
      rw [At, hcur]
      rfl

/-- `vm_create_vcpu_task` with memory for a new task. -/
theorem Holds.create (hh : Holds s q) (ht : s.task t = none) {x : Task} (hx : x.state ≠ .exit) :
    ∃ s' q', simpleSchedulerSched (s.newTask t x) t = some s' ∧ Holds s' q' ∧
      SameTasks (s.newTask t x) s' ∧ ∀ g u, u ∈ q' g ↔ g = .ready ∧ u = t ∨ u ∈ q g := by
  have hfree : ∀ g, t ∉ q g := fun g => hh.dead_not_at ht (.queued g)
  have htask : (s.newTask t x).task t = some x := Function.update_self ..
  have hother : ∀ u, u ≠ t → (s.newTask t x).task u = s.task u :=
    fun u hu => Function.update_of_ne hu _ _
  obtain ⟨s', q', hrun, hl', hsame, hmem⟩ := (hh.lists.newTask ht x).insert .ready htask hfree
  refine ⟨s', q', hrun, ⟨hl', ?_, ?_, ?_⟩, hsame, hmem⟩
  · refine hh.placed.toList .ready hsame.currentTask (fun c => hh.dead_not_at ht (.current c))
      (fun g u => ?_) (fun u => ?_)
    · rw [hmem]
      exact or_congr_right ⟨fun hu => ⟨fun he => hfree g (he ▸ hu), hu⟩, And.right⟩
    · rw [hsame.task]
      by_cases hu : u = t
      · subst hu
        simp only [htask, Option.isSome_some, true_or]
      · simp only [hother u hu, hu, false_or]
  · rw [hsame.gRunning, hsame.currentTask]
    exact hh.running
  · intro u y hy
    rw [hsame.task] at hy
    by_cases hu : u = t
    · subst hu
      rw [htask] at hy
      exact Option.some.inj hy ▸ hx
    · exact hh.notExited u y ((hother u hu).symm.trans hy)

/-- `simple_scheduler_yield`, `_block` and `_unblock` of a task that is not current. -/
theorem Holds.moveTask (hh : Holds s q) (ht : (s.task t).isSome)
    (hnot : ∀ c, s.currentTask c ≠ some t) (h : ListHead) :
    ∃ s' q', moveTask s h t = some s' ∧ Holds s' q' := by
  obtain ⟨g₀, hin⟩ := hh.placed.queued ht hnot
  obtain ⟨x, hx⟩ := Option.isSome_iff_exists.mp ht
  obtain ⟨q₁, hl₁, hq₁⟩ := hh.lists.extract hin
  have hfree : ∀ g, t ∉ q₁ g := fun g hg => ((hq₁ g t).mp hg).1 rfl
  obtain ⟨s', q', hrun, hl', hsame, hmem⟩ := hl₁.insert h hx hfree
  refine ⟨s', q', hrun, hl', ?_, ?_, ?_⟩
  · refine hh.placed.toList h hsame.currentTask hnot (fun g u => ?_) (fun u => ?_)
    · rw [hmem, hq₁]
    · rw [hsame.task]
      exact ⟨.inr, fun hu => hu.elim (fun he => he ▸ ht) id⟩
  · rw [hsame.gRunning, hsame.currentTask]
    exact hh.running
  · intro u y hy
    rw [hsame.task] at hy
    exact hh.notExited u y hy

/-- A scan of the ready list. -/
theorem Lists.scan_ready (hl : Lists s q) (p : Node → Bool) :
    scan s.links (.head .ready) p (s.inserts + 1) =
      some (((q .ready).find? (p ∘ Node.task)).map .task) := by
  have hroom : ((q .ready).map Node.task).length < s.inserts + 1 := by
    rw [List.length_map]
    exact Nat.lt_succ_of_le (hl.room .ready)
  rw [(hl.ring .ready).scan_eq _ hroom, List.find?_map]

/-- What `simple_scheduler_next_no_publish` does: nothing, or it takes a task that may run
on the pCPU off the ready list. -/
theorem Lists.next (hl : Lists s q) (c : Cpu)
    (hcur : ∀ t, s.currentTask c = some t → (s.task t).isSome) :
    simpleSchedulerNextNoPublish s c = some (none, s) ∨
      ∃ t x, t ∈ q .ready ∧ s.task t = some x ∧ (x.pcpuAffinity = -1 ∨ x.pcpuAffinity = c.val) ∧
        simpleSchedulerNextNoPublish s c =
          some (some t, { s with links := chainExtractTask s.links t }) := by
  unfold simpleSchedulerNextNoPublish
  rw [hl.scan_ready]
  cases hf : (q .ready).find? _ with
  | none => exact .inl rfl
  | some t =>
    have hin := List.mem_of_find?_eq_some hf
    obtain ⟨x, hx⟩ := Option.isSome_iff_exists.mp (hl.live t .ready hin)
    have haff : x.pcpuAffinity = -1 ∨ x.pcpuAffinity = c.val := by
      have htest := List.find?_some hf
      rw [Function.comp_apply, System.testTask, hx, Option.any_some, Bool.or_eq_true, beq_iff_eq,
        beq_iff_eq] at htest
      exact htest
    simp only [Option.map_some, Option.bind_eq_bind, Option.bind_some, hx]
    cases hc : s.currentTask c with
    | none => exact .inr ⟨t, x, hin, hx, haff, rfl⟩
    | some cur =>
      obtain ⟨y, hy⟩ := Option.isSome_iff_exists.mp (hcur cur hc)
      simp only [hy, Option.map_some, Option.bind_some]
      by_cases hlt : y.priority < x.priority
      · exact .inl (if_pos (decide_eq_true hlt))
      · refine .inr ⟨t, x, hin, hx, haff, if_neg ?_⟩
        simp only [hlt, decide_false, Bool.false_eq_true, not_false_eq_true]

/-- The lists do not depend on what is current. -/
theorem Lists.setCurrent (hl : Lists s q) (c : Cpu) (t : Option TaskId) :
    Lists (setCurrent s c t) q :=
  ⟨hl.ring, hl.sorted, hl.apart, hl.live, hl.stamps, hl.room⟩

/-- A task leaves the ready list for a pCPU, and the task `old` that was current there is
put into the ready list in its turn. -/
theorem Placed.switch (hp : Placed s q) {c : Cpu} {old : Option TaskId} (ht : t ∈ q .ready)
    (hold : s.currentTask c = old)
    (hcur : s'.currentTask = Function.update s.currentTask c (some t)) (htask : s'.task = s.task)
    (hq : ∀ g u, u ∈ q' g ↔ g = .ready ∧ some u = old ∨ u ≠ t ∧ u ∈ q g) : Placed s' q' := by
  have hnot : ∀ c', s.currentTask c' ≠ some t := fun c' hc' => hp.current_not_queued hc' .ready ht
  have hne : some t ≠ old := fun he => hnot c (hold.trans he.symm)
  refine hp.move (fun u => if u = t then some (.current c) else
    if some u = old then some (.queued .ready) else none) (fun u p => ?_) (fun u => ?_)
  · by_cases hu : u = t
    · subst hu
      rw [if_pos rfl, Option.elim_some]
      cases p with
      | queued g =>
        rw [At, hq]
        simp only [hne, and_false, ne_eq, not_true_eq_false, false_and, or_self, reduceCtorEq]
      | current c' =>
        rw [At, hcur, Place.current.injEq, Function.update_apply]
        by_cases hc : c' = c
        · simp only [hc, if_true]
        · simp only [hc, if_false, hnot c']
    · rw [if_neg hu]
      by_cases huo : some u = old
      · rw [if_pos huo, Option.elim_some]
        have hcu : s.currentTask c = some u := hold.trans huo.symm
        cases p with
        | queued g =>
          rw [At, hq, Place.queued.injEq]
          simp only [huo, and_true, hp.current_not_queued hcu g, and_false, or_false]
        | current c' =>
          rw [At, hcur, Function.update_apply]
          by_cases hc : c' = c
          · simp only [hc, if_true, Option.some.injEq, reduceCtorEq, Ne.symm hu]
          · simp only [hc, if_false, reduceCtorEq, iff_false]
            intro hc'
            exact hc (Place.current.inj (hp.alone u (.current c') (.current c) hc' hcu))
      · rw [if_neg huo, Option.elim_none]
        cases p with
        | queued g =>
          rw [At, hq]
          simp only [huo, and_false, ne_eq, hu, not_false_eq_true, true_and, false_or]
          rfl
        | current c' =>
          rw [At, hcur, At, Function.update_apply]
          by_cases hc : c' = c
          · subst hc
            rw [if_pos rfl, hold]
            simp only [Option.some.injEq, Ne.symm hu, Ne.symm huo]
          · rw [if_neg hc]
  · rw [htask]
    refine ⟨.inr, fun hu => hu.elim (fun hd => ?_) id⟩
    by_cases hut : u = t
    · exact hut ▸ hp.live t (.queued .ready) ht
    · rw [if_neg hut] at hd
      by_cases huo : some u = old
      · exact hp.live u (.current c) (hold.trans huo.symm)
      · rw [if_neg huo] at hd
        exact absurd hd Bool.false_ne_true

theorem Holds.schedYield (hh : Holds s q) (c : Cpu) :
    ∃ s' q', schedYield s c = some s' ∧ Holds s' q' ∧ s'.task = s.task ∧
      ∀ u, u ∈ q' .wait → u ∈ q .wait := by
  unfold Sched.schedYield
  rcases hh.lists.next c (fun t => hh.placed.live t (.current c)) with
    hnext | ⟨t, -, ht, -, -, hnext⟩
  · rw [hnext]
    exact ⟨s, q, rfl, hh, rfl, fun _ => id⟩
  · rw [hnext]
    obtain ⟨q₁, hl₁, hq₁⟩ := hh.lists.extract ht
    have hl₂ := hl₁.setCurrent c (some t)
    have hrunning : Function.update s.gRunning c (some t) =
        Function.update s.currentTask c (some t) := by rw [hh.running]
    simp only [Option.bind_eq_bind, Option.bind_some]
    cases hc : s.currentTask c with
    | none =>
      refine ⟨_, q₁, rfl, ⟨hl₂, ?_, hrunning, hh.notExited⟩, rfl, fun u hu => ((hq₁ .wait u).mp hu).2⟩
      refine hh.placed.switch ht hc rfl rfl fun g u => ?_
      simp only [hq₁, reduceCtorEq, and_false, false_or]
    | some cur =>
      obtain ⟨x, hx⟩ := Option.isSome_iff_exists.mp (hh.placed.live cur (.current c) hc)
      have hfree : ∀ g, cur ∉ q₁ g := fun g hg =>
        hh.placed.current_not_queued hc g ((hq₁ g cur).mp hg).2
      obtain ⟨s', q', hrun, hl', hsame, hmem⟩ := hl₂.insert .ready hx hfree
      refine ⟨s', q', ?_, ⟨hl', ?_, ?_, ?_⟩, hsame.task, fun u hu => ?_⟩
      · simp only [Sched.setCurrent, hx, Option.bind_some, if_neg (hh.notExited cur x hx)]
        exact hrun
      · refine hh.placed.switch ht hc hsame.currentTask hsame.task fun g u => ?_
        rw [hmem, hq₁, Option.some.injEq]
      · rw [hsame.gRunning, hsame.currentTask]
        exact hrunning
      · intro u y hy
        rw [hsame.task] at hy
        exact hh.notExited u y hy
      · rcases (hmem .wait u).mp hu with ⟨he, _⟩ | hu
        · cases he
        · exact ((hq₁ .wait u).mp hu).2

end

/-! ## Runs -/

/-- The calls, with what they are made on. -/
inductive Call
  | createVcpuTask (mem : Option TaskId) (priority pcpuAffinity : Int) (guestCpuId : BitVec 64)
  | schedYield (c : Cpu)
  | yield (t : TaskId)
  | block (t : TaskId)
  | unblock (t : TaskId)

def Call.run (s : System) : Call → Option System
  | .createVcpuTask mem priority affinity id =>
    (vmCreateVcpuTask s mem priority affinity id).map Prod.snd
  | .schedYield c => Sched.schedYield s c
  | .yield t => simpleSchedulerYield s t
  | .block t => simpleSchedulerBlock s t
  | .unblock t => simpleSchedulerUnblock s t

/-- A live task that no pCPU runs. -/
def System.Idle (s : System) (t : TaskId) : Prop :=
  (s.task t).isSome ∧ ∀ c, s.currentTask c ≠ some t

/-- `kmalloc` gives memory that no live task occupies; a task is moved only while it is
not current. -/
def Call.Allowed (s : System) : Call → Prop
  | .createVcpuTask mem _ _ _ => ∀ t ∈ mem, s.task t = none
  | .schedYield _ => True
  | .yield t | .block t | .unblock t => s.Idle t

/-- The states after a run of calls. -/
inductive Reachable : System → Prop
  | init : Reachable initSched
  | call {s s' : System} {k : Call} :
      Reachable s → k.Allowed s → k.run s = some s' → Reachable s'

theorem holds_initSched : Holds initSched fun _ => [] := by
  refine ⟨⟨fun h => ?_, fun _ => List.Pairwise.nil, ?_, ?_, ?_, fun _ => Nat.zero_le _⟩,
    ⟨?_, ?_, ?_⟩, rfl, ?_⟩
  · cases h with
    | ready =>
      refine (ring_initHead _ _).frame (initHead_same _ _) fun y hy he => ?_
      rw [List.mem_singleton] at hy
      cases hy.symm.trans he
    | wait => exact ring_initHead _ _
  · exact fun t h h' hin => nomatch hin
  · exact fun t h hin => nomatch hin
  · exact fun t h hin => nomatch hin
  · exact fun t ht => nomatch ht
  · intro t p hin
    cases p with
    | queued h => cases hin
    | current c => cases hin
  · intro t p p' hin
    cases p with
    | queued h => cases hin
    | current c => cases hin
  · exact fun t x hx => nomatch hx

/-- One call. -/
theorem Holds.call {s : System} {q : ListHead → List TaskId} (hh : Holds s q) {k : Call}
    (hk : k.Allowed s) : ∃ s' q', k.run s = some s' ∧ Holds s' q' := by
  cases k with
  | createVcpuTask mem priority affinity id =>
    cases mem with
    | none => exact ⟨s, q, rfl, hh⟩
    | some t =>
      have hx : (⟨priority, affinity, id, .ready⟩ : Task).state ≠ .exit := nofun
      obtain ⟨s', q', hrun, hh', -, -⟩ := hh.create (hk t rfl) hx
      refine ⟨s', q', ?_, hh'⟩
      simp only [Call.run, vmCreateVcpuTask, hrun, Option.bind_eq_bind, Option.bind_some]
      rfl
  | schedYield c =>
    obtain ⟨s', q', hrun, hh', -, -⟩ := hh.schedYield c
    exact ⟨s', q', hrun, hh'⟩
  | yield t => exact hh.moveTask hk.1 hk.2 .ready
  | block t => exact hh.moveTask hk.1 hk.2 .wait
  | unblock t => exact hh.moveTask hk.1 hk.2 .ready

/-- Every state of a run has its lists. -/
theorem Reachable.holds {s : System} (hs : Reachable s) : ∃ q, Holds s q := by
  induction hs with
  | init => exact ⟨_, holds_initSched⟩
  | call _ hk hrun ih =>
    obtain ⟨q, hh⟩ := ih
    obtain ⟨s', q', hrun', hh'⟩ := hh.call hk
    rw [hrun] at hrun'
    exact ⟨q', Option.some.inj hrun' ▸ hh'⟩

/-- In every state of a run: two well-formed circular lists, sorted, with insertion order
among equals; each live task in exactly one place; `g_running` is what is current; and
the next call completes. -/
theorem sched_run_invariant {s : System} (hs : Reachable s) :
    (∃ q : ListHead → List TaskId,
      (∀ h, Ring s.links (.head h) ((q h).map .task) ∧ (q h).Pairwise s.Before) ∧
      (∀ t, (s.task t).isSome ↔ ∃ p, At s q t p) ∧
      (∀ t, (s.task t).isSome → ∃! p, At s q t p)) ∧
    (∀ c, s.gRunning c = s.currentTask c) ∧
    (∀ k : Call, k.Allowed s → ∃ s', k.run s = some s') := by
  obtain ⟨q, hh⟩ := hs.holds
  refine ⟨⟨q, fun h => ⟨hh.lists.ring h, hh.lists.sorted h⟩, fun t => ?_, fun t ht => ?_⟩,
    fun c => congrFun hh.running c, fun k hk => ?_⟩
  · exact ⟨hh.placed.somewhere t, fun ⟨p, hin⟩ => hh.placed.live t p hin⟩
  · obtain ⟨p, hin⟩ := hh.placed.somewhere t ht
    exact ⟨p, hin, fun p' hin' => hh.placed.alone t p' p hin' hin⟩
  · obtain ⟨s', q', hrun, hh'⟩ := hh.call hk
    exact ⟨s', hrun⟩

/-- Two tasks are created, and pCPU 0 takes the one of the smaller priority value. -/
theorem sched_run_invariant_switch :
    ∃ s, Reachable s ∧ s.currentTask 0 = some 2 ∧ s.gRunning 0 = some 2 := by
  have h₁ := @Reachable.call _ _ (.createVcpuTask (some 1) 10 0 0x80000000#64) .init
    (fun _ _ => rfl) rfl
  have h₂ := @Reachable.call _ _ (.createVcpuTask (some 2) 5 (-1) 1#64) h₁
    (fun t ht => Option.mem_some_iff.mp ht ▸ rfl) rfl
  have h₃ := @Reachable.call _ _ (.schedYield 0) h₂ trivial rfl
  exact ⟨_, h₃, rfl, (sched_run_invariant h₃).2.1 0⟩

end HyperCore.Sched
