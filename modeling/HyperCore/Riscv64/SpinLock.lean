import HyperCore.Lib.Exclusive

/-!
# `arch_spin_lock`, `arch_spin_unlock` on RISC-V

Every instruction is a step, and the instructions of any number of harts interleave. A hart has
its reservation on the word of the lock, which a store by another hart takes, and which may be
lost at any time; `sc.w` may fail without a reason.

Memory is one word that all harts see. The instructions carry no ordering bits, and the order of
other accesses is left out.
-/

namespace HyperCore.Riscv64.SpinLock

open Exclusive

/-- The next instruction of a hart. -/
inductive Pc
  | idle
  | lr
  | bnez
  | sc
  | bnezStatus
  | critical
deriving DecidableEq

structure Harts (ι : Type) where
  lock : Nat
  reserved : ι → Bool
  pc : ι → Pc
  tmp : ι → Nat

inductive Act (ι : Type)
  | instr (i : ι)
  /-- a conditional store that fails -/
  | fail (i : ι)
  | lose (i : ι)

variable {ι : Type} [DecidableEq ι]

namespace Harts

def goto (s : Harts ι) (i : ι) (pc : Pc) : Harts ι := { s with pc := Function.update s.pc i pc }

def setTmp (s : Harts ι) (i : ι) (v : Nat) : Harts ι := { s with tmp := Function.update s.tmp i v }

def setReserved (s : Harts ι) (i : ι) (b : Bool) : Harts ι :=
  { s with reserved := Function.update s.reserved i b }

/-- A store to the word by hart `i`. -/
def stored (s : Harts ι) (i : ι) (v : Nat) : Harts ι :=
  { s with lock := v, reserved := fun j => decide (j = i) && s.reserved j }

end Harts

/-- One instruction of a hart. -/
def instr (s : Harts ι) (i : ι) : Harts ι :=
  match s.pc i with
  | .idle => s.goto i .lr
  | .lr => ((s.setTmp i s.lock).setReserved i true).goto i .bnez
  | .bnez => s.goto i (if s.tmp i ≠ 0 then .lr else .sc)
  | .sc =>
    if s.reserved i then (((s.stored i 1).setTmp i 0).setReserved i false).goto i .bnezStatus
    else (s.setTmp i 1).goto i .bnezStatus
  | .bnezStatus => s.goto i (if s.tmp i ≠ 0 then .lr else .critical)
  | .critical => (s.stored i 0).goto i .idle

def step (s : Harts ι) : Act ι → Harts ι
  | .instr i => instr s i
  | .fail i =>
    if s.pc i = .sc then ((s.setTmp i 1).setReserved i false).goto i .bnezStatus else s
  | .lose i => s.setReserved i false

/-- The steps of any number of harts, in any order. -/
def run (s : Harts ι) (as : List (Act ι)) : Harts ι := as.foldl step s

def init (ι : Type) : Harts ι := ⟨0, fun _ => false, fun _ => .idle, fun _ => 0⟩

/-! ## The protocol behind it -/

def phase (pc : Pc) (tmp : Nat) : Phase :=
  match pc with
  | .bnez => .tested tmp
  | .sc => .tested 0
  | .bnezStatus => if tmp = 0 then .owner else .away
  | .critical => .owner
  | _ => .away

def Harts.toLock (s : Harts ι) : Lock ι := ⟨s.lock, s.reserved, fun i => phase (s.pc i) (s.tmp i)⟩

theorem goto_other (s : Harts ι) {i j : ι} (pc : Pc) (hj : j ≠ i) : (s.goto i pc).pc j = s.pc j :=
  Function.update_of_ne hj _ _

theorem setTmp_other (s : Harts ι) {i j : ι} (v : Nat) (hj : j ≠ i) :
    (s.setTmp i v).tmp j = s.tmp j := Function.update_of_ne hj _ _

/-- A move of one hart, as a change of its phase. -/
theorem phase_update {s s' : Harts ι} {i : ι} {p : Phase} (hi : phase (s'.pc i) (s'.tmp i) = p)
    (hpc : ∀ j, j ≠ i → s'.pc j = s.pc j) (htmp : ∀ j, j ≠ i → s'.tmp j = s.tmp j) :
    s'.toLock.phase = Function.update s.toLock.phase i p := by
  funext j
  by_cases hj : j = i
  · subst hj
    rw [Function.update_self]
    exact hi
  · rw [Function.update_of_ne hj]
    change phase (s'.pc j) (s'.tmp j) = phase (s.pc j) (s.tmp j)
    rw [hpc j hj, htmp j hj]

/-- An instruction that moves a hart within its phase. -/
theorem stutter {s s' : Harts ι} {i : ι} (hv : s'.lock = s.lock) (hr : s'.reserved = s.reserved)
    (hi : phase (s'.pc i) (s'.tmp i) = phase (s.pc i) (s.tmp i))
    (hpc : ∀ j, j ≠ i → s'.pc j = s.pc j) (htmp : ∀ j, j ≠ i → s'.tmp j = s.tmp j) :
    Relation.ReflTransGen Step s.toLock s'.toLock := by
  have hphase : s'.toLock.phase = s.toLock.phase := by
    rw [phase_update hi hpc htmp]
    exact Function.update_eq_self i _
  have heq : s'.toLock = s.toLock := by
    change Lock.mk s'.lock s'.reserved s'.toLock.phase = Lock.mk s.lock s.reserved s.toLock.phase
    rw [hv, hr, hphase]
  rw [heq]

theorem instr_step (s : Harts ι) (i : ι) :
    Relation.ReflTransGen Step s.toLock (instr s i).toLock := by
  cases hpc : s.pc i with
  | idle =>
    simp only [instr, hpc]
    refine stutter (i := i) rfl rfl ?_ (fun j => goto_other s _) fun _ _ => rfl
    simp only [Harts.goto, Function.update_self, hpc, phase]
  | lr =>
    simp only [instr, hpc]
    refine .single (.load i ?_ rfl rfl ?_)
    · change phase (s.pc i) (s.tmp i) = _
      rw [hpc]
      rfl
    · refine phase_update ?_ (fun j => goto_other s _) fun j => setTmp_other s _
      simp only [Harts.goto, Harts.setReserved, Harts.setTmp, Function.update_self, phase,
        Harts.toLock]
  | bnez =>
    simp only [instr, hpc]
    have hphase : s.toLock.phase i = .tested (s.tmp i) := by
      change phase (s.pc i) (s.tmp i) = _
      rw [hpc]
      rfl
    by_cases ht : s.tmp i ≠ 0
    · rw [if_pos ht]
      refine .single (.giveUp i (s.tmp i) hphase rfl rfl ?_)
      refine phase_update ?_ (fun j => goto_other s _) fun _ _ => rfl
      simp only [Harts.goto, Function.update_self, phase]
    · rw [if_neg ht]
      refine stutter (i := i) rfl rfl ?_ (fun j => goto_other s _) fun _ _ => rfl
      simp only [Harts.goto, Function.update_self, phase, hpc, not_not.mp ht]
  | sc =>
    simp only [instr, hpc]
    have hphase : s.toLock.phase i = .tested 0 := by
      change phase (s.pc i) (s.tmp i) = _
      rw [hpc]
      rfl
    split
    next hres =>
      refine .single (.acquire i hphase hres rfl (fun j => ?_) ?_)
      · change Function.update (fun j => decide (j = i) && s.reserved j) i false j = false
        by_cases hj : j = i
        · rw [hj, Function.update_self]
        · rw [Function.update_of_ne hj, decide_eq_false hj, Bool.false_and]
      · refine phase_update ?_ (fun j => goto_other s _) fun j => setTmp_other s _
        simp only [Harts.goto, Harts.setReserved, Harts.setTmp, Function.update_self, phase, if_true]
    next =>
      refine .single (.giveUp i 0 hphase rfl rfl ?_)
      refine phase_update ?_ (fun j => goto_other s _) fun j => setTmp_other s _
      simp only [Harts.goto, Harts.setTmp, Function.update_self, phase, Nat.one_ne_zero, if_false]
  | bnezStatus =>
    simp only [instr, hpc]
    refine stutter (i := i) rfl rfl ?_ (fun j => goto_other s _) fun _ _ => rfl
    by_cases ht : s.tmp i = 0
    · simp only [Harts.goto, Function.update_self, hpc, phase, ht, ne_eq, not_true, if_false, if_true]
    · simp only [Harts.goto, Function.update_self, hpc, phase, ht, ne_eq, not_false_eq_true, if_true,
        if_false]
  | critical =>
    simp only [instr, hpc]
    refine .single (.release i ?_ rfl (fun j hj => ?_) ?_)
    · change phase (s.pc i) (s.tmp i) = _
      rw [hpc]
      rfl
    · change (decide (j = i) && s.reserved j) = false
      rw [decide_eq_false hj, Bool.false_and]
    · refine phase_update ?_ (fun j => goto_other s _) fun _ _ => rfl
      simp only [Harts.goto, Function.update_self, phase]

/-- The harts follow the protocol. -/
theorem step_protocol (s : Harts ι) (a : Act ι) :
    Relation.ReflTransGen Step s.toLock (step s a).toLock := by
  cases a with
  | instr i => exact instr_step s i
  | fail i =>
    simp only [step]
    split
    next hpc =>
      have hphase : s.toLock.phase i = .tested 0 := by
        change phase (s.pc i) (s.tmp i) = _
        rw [hpc]
        rfl
      have hlose : Step s.toLock (s.setReserved i false).toLock := .lose i rfl rfl rfl
      refine .tail (.single hlose) (.giveUp i 0 hphase rfl rfl ?_)
      refine phase_update (s := s) ?_ (fun j => goto_other s _) fun j => setTmp_other s _
      simp only [Harts.goto, Harts.setReserved, Harts.setTmp, Function.update_self, phase,
        Nat.one_ne_zero, if_false]
    next => exact .refl
  | lose i => exact .single (.lose i rfl rfl rfl)

theorem run_inv {s : Harts ι} (hs : Inv s.toLock) (as : List (Act ι)) : Inv (run s as).toLock := by
  induction as generalizing s with
  | nil => exact hs
  | cons a as ih => exact ih (hs.steps (step_protocol s a))

/-- In every run, no two harts are in their critical sections, and the word is zero exactly while
no hart has the lock. -/
theorem hart_lock_exclusive (as : List (Act ι)) :
    (∀ i j, (run (init ι) as).pc i = .critical → (run (init ι) as).pc j = .critical → i = j) ∧
    ((run (init ι) as).lock = 0 ↔ ∀ i, (run (init ι) as).pc i ≠ .critical ∧
      ((run (init ι) as).pc i = .bnezStatus → (run (init ι) as).tmp i ≠ 0)) := by
  have hinv := run_inv (s := init ι) inv_free as
  obtain ⟨s, hs⟩ : ∃ s, s = run (init ι) as := ⟨_, rfl⟩
  rw [← hs] at hinv ⊢
  have howner : ∀ k, s.toLock.phase k = .owner ↔
      s.pc k = .critical ∨ (s.pc k = .bnezStatus ∧ s.tmp k = 0) := by
    intro k
    change phase (s.pc k) (s.tmp k) = .owner ↔ _
    cases s.pc k <;> simp [phase]
  refine ⟨fun i j hi hj => hinv.one i j ((howner i).mpr (Or.inl hi)) ((howner j).mpr (Or.inl hj)), ?_⟩
  have hheld : (∃ i, s.toLock.phase i = .owner) ↔ s.lock ≠ 0 := hinv.held
  rw [← not_iff_not, ← ne_eq, ← hheld]
  simp only [howner]
  constructor
  · rintro ⟨i, hi | ⟨hi, ht⟩⟩ hall
    · exact (hall i).1 hi
    · exact (hall i).2 hi ht
  · intro hno
    by_contra hnone
    exact hno fun i => ⟨fun hi => hnone ⟨i, Or.inl hi⟩, fun hi ht => hnone ⟨i, Or.inr ⟨hi, ht⟩⟩⟩

end HyperCore.Riscv64.SpinLock
