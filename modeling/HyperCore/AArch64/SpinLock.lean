import HyperCore.Lib.Exclusive

/-!
# `arch_spin_lock`, `arch_spin_unlock` on AArch64

Every instruction is a step, and the instructions of any number of cores interleave. A core has
its event register and its exclusive monitor on the word of the lock; a store to the word takes
the monitors of the other cores and sends an event to those that had one. A store with a monitor
may fail, a monitor may be lost, and an event may come, at any time.

The cores take the lock one at a time (`spin_lock_exclusive`), as they follow `Exclusive.Step`.
A core that waits for an event while the lock is free is about to get one (`wfe_woken`): the
event register is set by `sevl` before the first `wfe`, and by the `sev` behind each unlock.

Memory is one word that all cores see; the order of other accesses is left out.
-/

namespace HyperCore.AArch64.SpinLock

open Exclusive

/-- The next instruction of a core. -/
inductive Pc
  | idle
  | sevl
  | wfe
  | ldaxr
  | cbnz
  | stxr
  | cbnzStatus
  | critical
  | sev
deriving DecidableEq

structure Cores (ι : Type) where
  lock : Nat
  monitor : ι → Bool
  event : ι → Bool
  pc : ι → Pc
  tmp : ι → Nat

inductive Act (ι : Type)
  | instr (i : ι)
  /-- a conditional store that fails -/
  | fail (i : ι)
  | lose (i : ι)
  | wake (i : ι)

variable {ι : Type} [DecidableEq ι]

namespace Cores

def goto (s : Cores ι) (i : ι) (pc : Pc) : Cores ι := { s with pc := Function.update s.pc i pc }

def setTmp (s : Cores ι) (i : ι) (v : Nat) : Cores ι := { s with tmp := Function.update s.tmp i v }

def setMonitor (s : Cores ι) (i : ι) (b : Bool) : Cores ι :=
  { s with monitor := Function.update s.monitor i b }

def setEvent (s : Cores ι) (i : ι) (b : Bool) : Cores ι :=
  { s with event := Function.update s.event i b }

/-- A store to the word by core `i`. -/
def stored (s : Cores ι) (i : ι) (v : Nat) : Cores ι :=
  { s with
    lock := v
    monitor := fun j => decide (j = i) && s.monitor j
    event := fun j => s.event j || (decide (j ≠ i) && s.monitor j) }

end Cores

/-- One instruction of a core; `none` while `wfe` waits. -/
def instr (s : Cores ι) (i : ι) : Option (Cores ι) :=
  match s.pc i with
  | .idle => some (s.goto i .sevl)
  | .sevl => some ((s.setEvent i true).goto i .wfe)
  | .wfe => if s.event i then some ((s.setEvent i false).goto i .ldaxr) else none
  | .ldaxr => some (((s.setTmp i s.lock).setMonitor i true).goto i .cbnz)
  | .cbnz => some (s.goto i (if s.tmp i ≠ 0 then .wfe else .stxr))
  | .stxr =>
    if s.monitor i then some ((((s.stored i 1).setTmp i 0).setMonitor i false).goto i .cbnzStatus)
    else some ((s.setTmp i 1).goto i .cbnzStatus)
  | .cbnzStatus => some (s.goto i (if s.tmp i ≠ 0 then .ldaxr else .critical))
  | .critical => some ((s.stored i 0).goto i .sev)
  | .sev => some ({ s with event := fun _ => true }.goto i .idle)

def step (s : Cores ι) : Act ι → Option (Cores ι)
  | .instr i => instr s i
  | .fail i =>
    if s.pc i = .stxr then some (((s.setTmp i 1).setMonitor i false).goto i .cbnzStatus) else none
  | .lose i => some (s.setMonitor i false)
  | .wake i => some (s.setEvent i true)

/-- The steps of any number of cores, in any order. -/
def run (s : Cores ι) : List (Act ι) → Option (Cores ι)
  | [] => some s
  | a :: as => (step s a).bind fun s' => run s' as

/-- `SPIN_UNLOCKED`, and no core at the lock. -/
def init (ι : Type) : Cores ι := ⟨0, fun _ => false, fun _ => false, fun _ => .idle, fun _ => 0⟩

/-! ## The protocol behind it -/

def phase (pc : Pc) (tmp : Nat) : Phase :=
  match pc with
  | .cbnz => .tested tmp
  | .stxr => .tested 0
  | .cbnzStatus => if tmp = 0 then .owner else .away
  | .critical => .owner
  | _ => .away

def Cores.toLock (s : Cores ι) : Lock ι := ⟨s.lock, s.monitor, fun i => phase (s.pc i) (s.tmp i)⟩

/-- A move of one core, as a change of its phase. -/
theorem phase_update {s s' : Cores ι} {i : ι} {p : Phase} (hi : phase (s'.pc i) (s'.tmp i) = p)
    (hpc : ∀ j, j ≠ i → s'.pc j = s.pc j) (htmp : ∀ j, j ≠ i → s'.tmp j = s.tmp j) :
    s'.toLock.phase = Function.update s.toLock.phase i p := by
  funext j
  by_cases hj : j = i
  · subst hj
    rw [Function.update_self]
    exact hi
  · rw [Function.update_of_ne hj]
    change phase (s'.pc j) (s'.tmp j) = phase (s.pc j) (s.tmp j)
    rw [hpc j hj, htmp j hj]

theorem phase_same {s s' : Cores ι} {i : ι} (hi : phase (s'.pc i) (s'.tmp i) = phase (s.pc i) (s.tmp i))
    (hpc : ∀ j, j ≠ i → s'.pc j = s.pc j) (htmp : ∀ j, j ≠ i → s'.tmp j = s.tmp j) :
    s'.toLock.phase = s.toLock.phase := by
  rw [phase_update hi hpc htmp]
  exact Function.update_eq_self i _

theorem toLock_eq {s s' : Cores ι} (hv : s'.lock = s.lock) (hm : s'.monitor = s.monitor)
    (hp : s'.toLock.phase = s.toLock.phase) : s'.toLock = s.toLock := by
  have hval : s'.toLock.value = s.toLock.value := hv
  have hres : s'.toLock.reserved = s.toLock.reserved := hm
  cases hl : s.toLock
  cases hl' : s'.toLock
  rw [hl, hl'] at hval hres hp
  simp only at hval hres hp
  rw [hval, hres, hp]

theorem goto_other (s : Cores ι) {i j : ι} (pc : Pc) (hj : j ≠ i) :
    (s.goto i pc).pc j = s.pc j := Function.update_of_ne hj _ _

theorem setTmp_other (s : Cores ι) {i j : ι} (v : Nat) (hj : j ≠ i) :
    (s.setTmp i v).tmp j = s.tmp j := Function.update_of_ne hj _ _

/-- An instruction that moves a core within its phase. -/
theorem stutter {s s' : Cores ι} {i : ι} (hv : s'.lock = s.lock) (hm : s'.monitor = s.monitor)
    (hi : phase (s'.pc i) (s'.tmp i) = phase (s.pc i) (s.tmp i))
    (hpc : ∀ j, j ≠ i → s'.pc j = s.pc j) (htmp : ∀ j, j ≠ i → s'.tmp j = s.tmp j) :
    Relation.ReflTransGen Step s.toLock s'.toLock := by
  rw [toLock_eq hv hm (phase_same hi hpc htmp)]

theorem instr_step {s s' : Cores ι} {i : ι} (h : instr s i = some s') :
    Relation.ReflTransGen Step s.toLock s'.toLock := by
  rw [instr] at h
  cases hpc : s.pc i with
  | idle =>
    rw [hpc] at h
    obtain rfl := Option.some.inj h
    refine stutter (i := i) rfl rfl ?_ (fun j => goto_other s _) fun _ _ => rfl
    simp only [Cores.goto, Function.update_self, hpc, phase]
  | sevl =>
    rw [hpc] at h
    obtain rfl := Option.some.inj h
    refine stutter (i := i) rfl rfl ?_ (fun j => goto_other s _) fun _ _ => rfl
    simp only [Cores.goto, Function.update_self, hpc, phase]
  | wfe =>
    rw [hpc] at h
    simp only at h
    split at h
    · obtain rfl := Option.some.inj h
      refine stutter (i := i) rfl rfl ?_ (fun j => goto_other s _) fun _ _ => rfl
      simp only [Cores.goto, Function.update_self, hpc, phase]
    · cases h
  | ldaxr =>
    rw [hpc] at h
    obtain rfl := Option.some.inj h
    refine .single (.load i ?_ rfl rfl ?_)
    · change phase (s.pc i) (s.tmp i) = _
      rw [hpc]
      rfl
    · refine phase_update ?_ (fun j => goto_other s _) fun j => setTmp_other s _
      simp only [Cores.goto, Cores.setMonitor, Cores.setTmp, Function.update_self, phase, Cores.toLock]
  | cbnz =>
    rw [hpc] at h
    obtain rfl := Option.some.inj h
    have hphase : s.toLock.phase i = .tested (s.tmp i) := by
      change phase (s.pc i) (s.tmp i) = _
      rw [hpc]
      rfl
    by_cases ht : s.tmp i ≠ 0
    · rw [if_pos ht]
      refine .single (.giveUp i (s.tmp i) hphase rfl rfl ?_)
      refine phase_update ?_ (fun j => goto_other s _) fun _ _ => rfl
      simp only [Cores.goto, Function.update_self, phase]
    · rw [if_neg ht]
      refine stutter (i := i) rfl rfl ?_ (fun j => goto_other s _) fun _ _ => rfl
      simp only [Cores.goto, Function.update_self, phase, hpc, not_not.mp ht]
  | stxr =>
    rw [hpc] at h
    have hphase : s.toLock.phase i = .tested 0 := by
      change phase (s.pc i) (s.tmp i) = _
      rw [hpc]
      rfl
    simp only at h
    split at h
    next hmon =>
      obtain rfl := Option.some.inj h
      refine .single (.acquire i hphase hmon rfl (fun j => ?_) ?_)
      · change Function.update (fun j => decide (j = i) && s.monitor j) i false j = false
        by_cases hj : j = i
        · rw [hj, Function.update_self]
        · rw [Function.update_of_ne hj, decide_eq_false hj, Bool.false_and]
      · refine phase_update ?_ (fun j => goto_other s _) fun j => setTmp_other s _
        simp only [Cores.goto, Cores.setMonitor, Cores.setTmp, Function.update_self, phase, if_true]
    next =>
      obtain rfl := Option.some.inj h
      refine .single (.giveUp i 0 hphase rfl rfl ?_)
      refine phase_update ?_ (fun j => goto_other s _) fun j => setTmp_other s _
      simp only [Cores.goto, Cores.setTmp, Function.update_self, phase, Nat.one_ne_zero, if_false]
  | cbnzStatus =>
    rw [hpc] at h
    obtain rfl := Option.some.inj h
    refine stutter (i := i) rfl rfl ?_ (fun j => goto_other s _) fun _ _ => rfl
    by_cases ht : s.tmp i = 0
    · simp only [Cores.goto, Function.update_self, hpc, phase, ht, ne_eq, not_true, if_false, if_true]
    · simp only [Cores.goto, Function.update_self, hpc, phase, ht, ne_eq, not_false_eq_true, if_true,
        if_false]
  | critical =>
    rw [hpc] at h
    obtain rfl := Option.some.inj h
    refine .single (.release i ?_ rfl (fun j hj => ?_) ?_)
    · change phase (s.pc i) (s.tmp i) = _
      rw [hpc]
      rfl
    · change (decide (j = i) && s.monitor j) = false
      rw [decide_eq_false hj, Bool.false_and]
    · refine phase_update ?_ (fun j => goto_other s _) fun _ _ => rfl
      simp only [Cores.goto, Function.update_self, phase]
  | sev =>
    rw [hpc] at h
    obtain rfl := Option.some.inj h
    refine stutter (i := i) rfl rfl ?_ (fun j => goto_other s _) fun _ _ => rfl
    simp only [Cores.goto, Function.update_self, hpc, phase]

/-- The cores follow the protocol. -/
theorem step_protocol {s s' : Cores ι} {a : Act ι} (h : step s a = some s') :
    Relation.ReflTransGen Step s.toLock s'.toLock := by
  cases a with
  | instr i => exact instr_step h
  | fail i =>
    simp only [step] at h
    split at h
    next hpc =>
      obtain rfl := Option.some.inj h
      have hphase : s.toLock.phase i = .tested 0 := by
        change phase (s.pc i) (s.tmp i) = _
        rw [hpc]
        rfl
      have hlose : Step s.toLock (s.setMonitor i false).toLock := .lose i rfl rfl rfl
      refine .tail (.single hlose) (.giveUp i 0 hphase rfl rfl ?_)
      refine phase_update (s := s) ?_ (fun j => goto_other s _) fun j => setTmp_other s _
      simp only [Cores.goto, Cores.setMonitor, Cores.setTmp, Function.update_self, phase,
        Nat.one_ne_zero, if_false]
    next => cases h
  | lose i =>
    obtain rfl := Option.some.inj h
    exact .single (.lose i rfl rfl rfl)
  | wake i =>
    obtain rfl := Option.some.inj h
    exact .refl

theorem run_inv {s s' : Cores ι} {as : List (Act ι)} (hs : Inv s.toLock) (h : run s as = some s') :
    Inv s'.toLock := by
  induction as generalizing s with
  | nil =>
    obtain rfl := Option.some.inj h
    exact hs
  | cons a as ih =>
    obtain ⟨s₁, hstep, hrest⟩ := Option.bind_eq_some_iff.mp h
    exact ih (hs.steps (step_protocol hstep)) hrest

/-- In every run, no two cores are in their critical sections, and the word is not zero while
one is. -/
theorem spin_lock_exclusive {as : List (Act ι)} {s : Cores ι} (h : run (init ι) as = some s) {i j : ι}
    (hi : s.pc i = .critical) : s.lock ≠ 0 ∧ (s.pc j = .critical → i = j) := by
  have hinv := run_inv (s := init ι) inv_free h
  have howner : ∀ k, s.pc k = .critical → s.toLock.phase k = .owner := by
    intro k hk
    change phase (s.pc k) (s.tmp k) = _
    rw [hk]
    rfl
  exact ⟨hinv.held.mp ⟨i, howner i hi⟩, fun hj => hinv.one i j (howner i hi) (howner j hj)⟩

/-! ## Waiting -/

/-- A core that waits for an event while the lock is free is owed one. -/
def Woken (s : Cores ι) : Prop :=
  ∀ i, (s.pc i = .wfe ∨ (s.pc i = .cbnz ∧ s.tmp i ≠ 0)) → s.event i = false →
    s.lock ≠ 0 ∨ ∃ j, s.pc j = .sev

theorem woken_init : Woken (init ι) := by
  rintro i (hi | ⟨hi, -⟩)
  · cases hi
  · cases hi

/-- What one core does keeps it for the others. -/
theorem Woken.keep {s s' : Cores ι} (hw : Woken s) (k : ι) (hpc : ∀ j, j ≠ k → s'.pc j = s.pc j)
    (htmp : ∀ j, j ≠ k → s'.tmp j = s.tmp j)
    (hevent : ∀ j, j ≠ k → s'.event j = false → s.event j = false)
    (hlock : s.lock ≠ 0 → s'.lock ≠ 0 ∨ s'.pc k = .sev)
    (hsev : s.pc k = .sev → ∀ j, s'.event j = true)
    (hown : (s'.pc k = .wfe ∨ (s'.pc k = .cbnz ∧ s'.tmp k ≠ 0)) → s'.event k = false →
      s'.lock ≠ 0 ∨ ∃ j, s'.pc j = .sev) : Woken s' := by
  intro i hi hev
  by_cases hik : i = k
  · subst hik
    exact hown hi hev
  · rw [hpc i hik, htmp i hik] at hi
    rcases hw i hi (hevent i hik hev) with hheld | ⟨j, hj⟩
    · exact (hlock hheld).imp_right fun hk => ⟨k, hk⟩
    · by_cases hjk : j = k
      · rw [hsev (hjk ▸ hj) i] at hev
        cases hev
      · exact Or.inr ⟨j, (hpc j hjk).trans hj⟩

theorem Woken.instr {s s' : Cores ι} {k : ι} (hw : Woken s) (h : instr s k = some s') : Woken s' := by
  rw [SpinLock.instr] at h
  cases hpc : s.pc k with
  | idle =>
    rw [hpc] at h
    obtain rfl := Option.some.inj h
    refine hw.keep k (fun j => goto_other s _) (fun _ _ => rfl) (fun _ _ he => he) Or.inl ?_ ?_
    · rw [hpc]
      exact Pc.noConfusion
    · simp [Cores.goto]
  | sevl =>
    rw [hpc] at h
    obtain rfl := Option.some.inj h
    refine hw.keep k (fun j => goto_other s _) (fun _ _ => rfl) (fun j hj he => ?_) Or.inl ?_ ?_
    · change Function.update s.event k true j = false at he
      rwa [Function.update_of_ne hj] at he
    · rw [hpc]
      exact Pc.noConfusion
    · simp [Cores.goto, Cores.setEvent]
  | wfe =>
    rw [hpc] at h
    simp only at h
    split at h
    · obtain rfl := Option.some.inj h
      refine hw.keep k (fun j => goto_other s _) (fun _ _ => rfl) (fun j hj he => ?_) Or.inl ?_ ?_
      · change Function.update s.event k false j = false at he
        rwa [Function.update_of_ne hj] at he
      · rw [hpc]
        exact Pc.noConfusion
      · simp [Cores.goto]
    · cases h
  | ldaxr =>
    rw [hpc] at h
    obtain rfl := Option.some.inj h
    refine hw.keep k (fun j => goto_other s _) (fun j => setTmp_other s _) (fun _ _ he => he)
      Or.inl ?_ fun hi _ => Or.inl ?_
    · rw [hpc]
      exact Pc.noConfusion
    · -- the value that was loaded is the one in the word
      simpa [Cores.goto, Cores.setMonitor, Cores.setTmp] using hi
  | cbnz =>
    rw [hpc] at h
    obtain rfl := Option.some.inj h
    refine hw.keep k (fun j => goto_other s _) (fun _ _ => rfl) (fun _ _ he => he) Or.inl ?_
      fun hi hev => ?_
    · rw [hpc]
      exact Pc.noConfusion
    · by_cases ht : s.tmp k ≠ 0
      · rcases hw k (Or.inr ⟨hpc, ht⟩) hev with hheld | ⟨j, hj⟩
        · exact Or.inl hheld
        · have hjk : j ≠ k := by
            rintro rfl
            rw [hpc] at hj
            cases hj
          exact Or.inr ⟨j, (goto_other s _ hjk).trans hj⟩
      · simp [Cores.goto, if_neg ht] at hi
  | stxr =>
    rw [hpc] at h
    simp only at h
    split at h
    · obtain rfl := Option.some.inj h
      refine hw.keep k (fun j => goto_other s _) (fun j => setTmp_other s _) (fun j hj he => ?_)
        (fun _ => Or.inl Nat.one_ne_zero) ?_ ?_
      · exact (Bool.or_eq_false_iff.mp he).1
      · rw [hpc]
        exact Pc.noConfusion
      · simp [Cores.goto]
    · obtain rfl := Option.some.inj h
      refine hw.keep k (fun j => goto_other s _) (fun j => setTmp_other s _) (fun _ _ he => he)
        Or.inl ?_ ?_
      · rw [hpc]
        exact Pc.noConfusion
      · simp [Cores.goto]
  | cbnzStatus =>
    rw [hpc] at h
    obtain rfl := Option.some.inj h
    refine hw.keep k (fun j => goto_other s _) (fun _ _ => rfl) (fun _ _ he => he) Or.inl ?_ ?_
    · rw [hpc]
      exact Pc.noConfusion
    · by_cases ht : s.tmp k = 0 <;> simp [Cores.goto, ht]
  | critical =>
    rw [hpc] at h
    obtain rfl := Option.some.inj h
    refine hw.keep k (fun j => goto_other s _) (fun _ _ => rfl) (fun j hj he => ?_)
      (fun _ => Or.inr (Function.update_self _ _ _)) ?_ ?_
    · exact (Bool.or_eq_false_iff.mp he).1
    · rw [hpc]
      exact Pc.noConfusion
    · simp [Cores.goto]
  | sev =>
    rw [hpc] at h
    obtain rfl := Option.some.inj h
    refine hw.keep k (fun j => goto_other s _) (fun _ _ => rfl) (fun j hj he => ?_) Or.inl
      (fun _ _ => rfl) ?_
    · cases he
    · simp [Cores.goto]

theorem Woken.step {s s' : Cores ι} {a : Act ι} (hw : Woken s) (h : step s a = some s') :
    Woken s' := by
  cases a with
  | instr i => exact hw.instr h
  | fail i =>
    simp only [SpinLock.step] at h
    split at h
    next hpc =>
      obtain rfl := Option.some.inj h
      refine hw.keep i (fun j => goto_other s _) (fun j => setTmp_other s _) (fun _ _ he => he)
        Or.inl ?_ ?_
      · rw [hpc]
        exact Pc.noConfusion
      · simp [Cores.goto]
    next => cases h
  | lose i =>
    obtain rfl := Option.some.inj h
    exact hw
  | wake i =>
    obtain rfl := Option.some.inj h
    intro j hj hev
    refine hw j hj ?_
    change Function.update s.event i true j = false at hev
    by_cases hji : j = i
    · rw [hji, Function.update_self] at hev
      cases hev
    · rwa [Function.update_of_ne hji] at hev

theorem run_woken {s s' : Cores ι} {as : List (Act ι)} (hs : Woken s) (h : run s as = some s') :
    Woken s' := by
  induction as generalizing s with
  | nil =>
    obtain rfl := Option.some.inj h
    exact hs
  | cons a as ih =>
    obtain ⟨s₁, hstep, hrest⟩ := Option.bind_eq_some_iff.mp h
    exact ih (hs.step hstep) hrest

/-- No wake-up is lost: while a core waits in `wfe` without an event, another one has the lock, or
is about to send the event of its unlock. -/
theorem wfe_woken {as : List (Act ι)} {s : Cores ι} (h : run (init ι) as = some s) {i : ι}
    (hi : s.pc i = .wfe) (hev : s.event i = false) :
    ∃ j, j ≠ i ∧ (s.pc j = .critical ∨ (s.pc j = .cbnzStatus ∧ s.tmp j = 0) ∨ s.pc j = .sev) := by
  have hinv := run_inv (s := init ι) inv_free h
  have hne : ∀ j, s.pc j ≠ .wfe → j ≠ i := fun j hj he => hj (he ▸ hi)
  rcases run_woken woken_init h i (Or.inl hi) hev with hheld | ⟨j, hj⟩
  · obtain ⟨j, hj⟩ := hinv.held.mpr hheld
    change phase (s.pc j) (s.tmp j) = .owner at hj
    cases hpc : s.pc j with
    | critical =>
      refine ⟨j, hne j ?_, Or.inl hpc⟩
      rw [hpc]
      exact Pc.noConfusion
    | cbnzStatus =>
      refine ⟨j, hne j ?_, Or.inr (Or.inl ⟨hpc, ?_⟩)⟩
      · rw [hpc]
        exact Pc.noConfusion
      · by_contra ht
        rw [hpc, phase, if_neg ht] at hj
        cases hj
    | _ =>
      rw [hpc] at hj
      cases hj
  · refine ⟨j, hne j ?_, Or.inr (Or.inr hj)⟩
    rw [hj]
    exact Pc.noConfusion

/-- A core that takes the lock while another one waits for it. -/
def contended : List (Act Bool) :=
  List.replicate 7 (.instr false) ++ List.replicate 5 (.instr true)

theorem spin_lock_exclusive_contended : ∃ s, run (init Bool) contended = some s ∧ s.lock ≠ 0 ∧
    (s.pc true = .critical → false = true) :=
  ⟨_, rfl, spin_lock_exclusive (rfl : run (init Bool) contended = some _) rfl⟩

theorem wfe_woken_contended : ∃ s, run (init Bool) contended = some s ∧
    ∃ j, j ≠ true ∧ (s.pc j = .critical ∨ (s.pc j = .cbnzStatus ∧ s.tmp j = 0) ∨ s.pc j = .sev) :=
  ⟨_, rfl, wfe_woken (rfl : run (init Bool) contended = some _) rfl rfl⟩

end HyperCore.AArch64.SpinLock
