import Mathlib

/-!
# The synchronous IPI of RISC-V

`riscv_ipi_send_cpu_sync` samples the counter `g_ipi_complete[target][vec]`, sets the bit
in `g_ipi_pending[target]` and waits until the counter has changed. The target takes all
its bits in one swap in `handle_s_soft_irq` and calls `ipi_handle` for each; `ipi_handle`
bumps the counter behind the body of the vector.

The counter does not say whose request has been handled. When the target is between the
body and the counter for an earlier request, the caller returns 0 although nothing ran
after it had set its bit (`handled_before_posted`). `sync_served` says that this, and a
bump between the sample and the post, are the only ways.

Each access to the shared variables is a step. `clock` and `log` are records for the
statements: the number of the step, and the executions of bodies that are over, with the
step at which each began.
-/

namespace HyperCore.Ipi

/-- `IPI_MAX` -/
def ipiMax : Nat := 4

/-- `g_cpu_count` and `g_cpu_to_hart` -/
structure HartMap where
  cpuCount : Nat
  cpuToHart : Nat → Int

/-- `smp_hart_id` -/
def smpHartId (m : HartMap) (cpu : Int) : Int :=
  if cpu < 0 ∨ (m.cpuCount : Int) ≤ cpu then -1 else m.cpuToHart cpu.toNat

/-- `ipi_validate_target`, with the hart id of a valid target. -/
def ipiValidateTarget (m : HartMap) (target : Int) (vec : BitVec 8) : Option Int :=
  if ipiMax ≤ vec.toNat then none
  else if target < 0 ∨ (m.cpuCount : Int) ≤ target then none
  else if smpHartId m target < 0 then none
  else some (smpHartId m target)

/-- Who executes `ipi_handle`: the interrupt handler of a pCPU, or a call for the caller
itself. -/
inductive Thread
  | handler (cpu : Nat)
  | call (id : Nat)
deriving DecidableEq

/-- An execution of `ipi_handle` on a pCPU, which began at step `began`; `done` when the
body is over and the counter is still to be bumped. -/
structure Exec where
  cpu : Nat
  vec : Nat
  began : Nat
  done : Bool

/-- Where a pCPU is in `handle_s_soft_irq`. -/
inductive Handler
  | idle
  | loop (vec : Nat) (pending : BitVec 32)
  | handling (vec : Nat) (pending : BitVec 32)

/-- Where a call of `riscv_ipi_send_cpu_sync` is. -/
inductive SyncPos
  | sampled (before : BitVec 32)
  | waiting (before : BitVec 32)
  /-- in `ipi_handle`, for a call to the caller's own pCPU -/
  | self
  | returned (val : Int)

structure SyncCall where
  target : Nat
  vec : Nat
  /-- the step that set the pending bit, or started `ipi_handle` on the own pCPU -/
  posted : Nat
  pos : SyncPos

/-- A body of `ipi_handle` that has been executed. -/
structure Run where
  cpu : Nat
  vec : Nat
  began : Nat

structure IpiState where
  pending : Nat → BitVec 32
  complete : Nat × Nat → BitVec 32
  handler : Nat → Handler
  exec : Thread → Option Exec
  call : Nat → Option SyncCall
  clock : Nat
  log : List Run

def initIpi : IpiState where
  pending _ := 0
  complete _ := 0
  handler _ := .idle
  exec _ := none
  call _ := none
  clock := 0
  log := []

/-! ## Steps -/

/-- `__sync_fetch_and_or(&g_ipi_pending[cpu], 1u << vec)` -/
def IpiState.raise (s : IpiState) (cpu vec : Nat) : IpiState :=
  { s with pending := Function.update s.pending cpu (s.pending cpu ||| 1 <<< vec) }

/-- `riscv_ipi_take_pending`: the bits and the state without them. -/
def IpiState.takePending (s : IpiState) (cpu : Nat) : BitVec 32 × IpiState :=
  (s.pending cpu, { s with pending := Function.update s.pending cpu 0 })

def IpiState.setHandler (s : IpiState) (cpu : Nat) (h : Handler) : IpiState :=
  { s with handler := Function.update s.handler cpu h }

def IpiState.setCall (s : IpiState) (id : Nat) (k : SyncCall) : IpiState :=
  { s with call := Function.update s.call id (some k) }

def IpiState.tick (s : IpiState) : IpiState := { s with clock := s.clock + 1 }

/-- `ipi_handle` begins. -/
def IpiState.ipiHandle (s : IpiState) (th : Thread) (cpu vec : Nat) : IpiState :=
  { s with exec := Function.update s.exec th (some ⟨cpu, vec, s.clock, false⟩) }

/-- The body of the vector. -/
def IpiState.runBody (s : IpiState) (th : Thread) (e : Exec) : IpiState :=
  { s with
    exec := Function.update s.exec th (some { e with done := true })
    log := ⟨e.cpu, e.vec, e.began⟩ :: s.log }

/-- `__sync_fetch_and_add(&g_ipi_complete[cpu][vec], 1)`, the end of `ipi_handle`. -/
def IpiState.bump (s : IpiState) (th : Thread) (e : Exec) : IpiState :=
  { s with
    exec := Function.update s.exec th none
    complete := Function.update s.complete (e.cpu, e.vec) (s.complete (e.cpu, e.vec) + 1) }

inductive Action
  | send (target : Int) (vec : BitVec 8)
  | irq (cpu : Nat)
  | next (cpu : Nat)
  | body (th : Thread)
  | count (th : Thread)
  | call (id : Nat) (caller : Nat) (target : Int) (vec : BitVec 8)
  | post (id : Nat)
  | poll (id : Nat)
  | timeout (id : Nat)

/-- The loop test of `handle_s_soft_irq`, and the start of `ipi_handle` for a set bit. -/
def IpiState.loopStep (s : IpiState) (cpu vec : Nat) (pending : BitVec 32) : IpiState :=
  if vec < ipiMax ∧ pending ≠ 0 then
    if pending &&& 1 ≠ 0 then
      (s.ipiHandle (.handler cpu) cpu vec).setHandler cpu (.handling vec pending)
    else s.setHandler cpu (.loop (vec + 1) (pending >>> 1))
  else s.setHandler cpu .idle

/-- What follows `ipi_handle`: the next round of the loop, or the end of the call. -/
def IpiState.resume (s : IpiState) : Thread → IpiState
  | .handler cpu =>
    match s.handler cpu with
    | .handling vec pending => s.setHandler cpu (.loop (vec + 1) (pending >>> 1))
    | _ => s
  | .call id =>
    match s.call id with
    | some k => s.setCall id { k with pos := .returned 0 }
    | none => s

def IpiState.step (m : HartMap) (s : IpiState) : Action → Option IpiState
  | .send target vec =>
    match ipiValidateTarget m target vec with
    | none => some s.tick
    | some _ => some (s.raise target.toNat vec.toNat).tick
  | .irq cpu =>
    match s.handler cpu with
    | .idle =>
      let (pending, s) := s.takePending cpu
      some (s.setHandler cpu (.loop 0 pending)).tick
    | _ => none
  | .next cpu =>
    match s.handler cpu with
    | .loop vec pending => some (s.loopStep cpu vec pending).tick
    | _ => none
  | .body th =>
    match s.exec th with
    | some e => if e.done then none else some (s.runBody th e).tick
    | none => none
  | .count th =>
    match s.exec th with
    | some e => if e.done then some ((s.bump th e).resume th).tick else none
    | none => none
  | .call id caller target vec =>
    if (s.call id).isSome then none
    else
      match ipiValidateTarget m target vec with
      | none => some (s.setCall id ⟨target.toNat, vec.toNat, s.clock, .returned (-1)⟩).tick
      | some _ =>
        if target = caller then
          some ((s.ipiHandle (.call id) caller vec.toNat).setCall id
            ⟨caller, vec.toNat, s.clock, .self⟩).tick
        else
          some (s.setCall id ⟨target.toNat, vec.toNat, s.clock,
            .sampled (s.complete (target.toNat, vec.toNat))⟩).tick
  | .post id =>
    match s.call id with
    | some ⟨target, vec, _, .sampled before⟩ =>
      some ((s.raise target vec).setCall id ⟨target, vec, s.clock, .waiting before⟩).tick
    | _ => none
  | .poll id =>
    match s.call id with
    | some ⟨target, vec, posted, .waiting before⟩ =>
      if s.complete (target, vec) = before then some s.tick
      else some (s.setCall id ⟨target, vec, posted, .returned 0⟩).tick
    | _ => none
  | .timeout id =>
    match s.call id with
    | some ⟨target, vec, posted, .waiting _⟩ =>
      some (s.setCall id ⟨target, vec, posted, .returned (-1)⟩).tick
    | _ => none

/-- The states reached by steps that meet `ok`. -/
inductive IpiRun (m : HartMap) (ok : IpiState → Action → Prop) : IpiState → Prop
  | init : IpiRun m ok initIpi
  | step {s s' : IpiState} {a : Action} :
      IpiRun m ok s → ok s a → s.step m a = some s' → IpiRun m ok s'

/-! ## What a return of 0 means -/

/-- The target has executed the body of the vector, from its beginning, after the call
had set its bit. -/
def Served (s : IpiState) (k : SyncCall) : Prop :=
  ∃ began, ⟨k.target, k.vec, began⟩ ∈ s.log ∧ k.posted ≤ began

/-- Every call that has returned 0 was served. -/
def SyncServed (s : IpiState) : Prop :=
  ∀ id k, s.call id = some k → k.pos = .returned 0 → Served s k

/-- A call sets its bit while the target is not inside `ipi_handle` for the vector and the
counter still is what the call has sampled. -/
def PostsFresh (s : IpiState) : Action → Prop
  | .post id => ∀ k before, s.call id = some k → k.pos = .sampled before →
      s.complete (k.target, k.vec) = before ∧
        ∀ th e, s.exec th = some e → ¬ (e.cpu = k.target ∧ e.vec = k.vec)
  | _ => True

/-! ## The invariant -/

structure IpiInv (s : IpiState) : Prop where
  logged : ∀ th e, s.exec th = some e → e.done = true → ⟨e.cpu, e.vec, e.began⟩ ∈ s.log
  posted : ∀ i k, s.call i = some k → k.posted ≤ s.clock
  /-- what runs for the vector began after the post, and so did what has been counted -/
  waiting : ∀ i k before, s.call i = some k → k.pos = .waiting before →
    (∀ th e, s.exec th = some e → e.cpu = k.target → e.vec = k.vec → k.posted ≤ e.began) ∧
      (s.complete (k.target, k.vec) = before ∨ Served s k)
  self : ∀ i e, s.exec (.call i) = some e → ∃ k, s.call i = some k ∧ k.pos = .self ∧
    e.cpu = k.target ∧ e.vec = k.vec ∧ k.posted ≤ e.began
  served : SyncServed s

section

variable {m : HartMap} {s s' : IpiState} {i : Nat} {k : SyncCall} {th : Thread} {e : Exec}

/-- Later states have longer logs. -/
theorem Served.mono (h : Served s k) (hlog : s.log ⊆ s'.log) : Served s' k := by
  obtain ⟨began, hin, hle⟩ := h
  exact ⟨began, hlog hin, hle⟩

/-- A step that leaves executions, calls and counters alone. -/
theorem IpiInv.congr (h : IpiInv s) (hexec : s'.exec = s.exec) (hcall : s'.call = s.call)
    (hcomplete : s'.complete = s.complete) (hlog : s'.log = s.log) (hclock : s.clock ≤ s'.clock) :
    IpiInv s' := by
  refine ⟨fun th e he hd => ?_, fun i k hk => ?_, fun i k before hk hp => ?_, fun i e he => ?_,
    fun i k hk hp => ?_⟩
  · rw [hlog]
    exact h.logged th e (hexec ▸ he) hd
  · exact (h.posted i k (hcall ▸ hk)).trans hclock
  · obtain ⟨hrun, hcount⟩ := h.waiting i k before (hcall ▸ hk) hp
    refine ⟨fun th e he => hrun th e (hexec ▸ he), ?_⟩
    rw [hcomplete]
    exact hcount.imp_right fun hs => hs.mono (hlog ▸ List.Subset.refl _)
  · rw [hcall]
    exact h.self i e (hexec ▸ he)
  · exact (h.served i k (hcall ▸ hk) hp).mono (hlog ▸ List.Subset.refl _)

theorem setCall_some {i' : Nat} {k' : SyncCall} (h : (s.setCall i k).call i' = some k') :
    i' = i ∧ k' = k ∨ s.call i' = some k' := by
  change Function.update s.call i (some k) i' = some k' at h
  by_cases hi : i' = i
  · subst hi
    rw [Function.update_self] at h
    exact .inl ⟨rfl, (Option.some.inj h).symm⟩
  · rw [Function.update_of_ne hi] at h
    exact .inr h

/-- A call goes to another position. -/
theorem IpiInv.setCall (h : IpiInv s) (hposted : k.posted ≤ s.clock)
    (hexec : s.exec (.call i) = none)
    (hwait : ∀ before, k.pos = .waiting before →
      (∀ th e, s.exec th = some e → e.cpu = k.target → e.vec = k.vec → k.posted ≤ e.began) ∧
        (s.complete (k.target, k.vec) = before ∨ Served s k))
    (hserved : k.pos = .returned 0 → Served s k) : IpiInv (s.setCall i k) := by
  refine ⟨h.logged, fun i' k' hk' => ?_, fun i' k' before hk' hp => ?_, fun i' e he => ?_,
    fun i' k' hk' hp => ?_⟩
  · rcases setCall_some hk' with ⟨_, rfl⟩ | hold
    · exact hposted
    · exact h.posted i' k' hold
  · rcases setCall_some hk' with ⟨_, rfl⟩ | hold
    · exact hwait before hp
    · exact h.waiting i' k' before hold hp
  · have hi : i' ≠ i := by
      rintro rfl
      cases hexec.symm.trans he
    obtain ⟨k', hk', hpos⟩ := h.self i' e he
    exact ⟨k', (Function.update_of_ne hi _ _).trans hk', hpos⟩
  · rcases setCall_some hk' with ⟨_, rfl⟩ | hold
    · exact hserved hp
    · exact h.served i' k' hold hp

/-- No execution for a call that is not in `ipi_handle`. -/
theorem IpiInv.no_exec (h : IpiInv s) (hk : ∀ k, s.call i = some k → k.pos ≠ .self) :
    s.exec (.call i) = none := by
  cases he : s.exec (.call i) with
  | none => rfl
  | some e =>
    obtain ⟨k, hcall, hpos, _⟩ := h.self i e he
    exact absurd hpos (hk k hcall)

theorem exec_update_some {th' : Thread} {x : Option Exec} {e' : Exec}
    (h : Function.update s.exec th x th' = some e') :
    th' = th ∧ x = some e' ∨ s.exec th' = some e' := by
  by_cases hth : th' = th
  · subst hth
    rw [Function.update_self] at h
    exact .inl ⟨rfl, h⟩
  · rw [Function.update_of_ne hth] at h
    exact .inr h

/-- `ipi_handle` begins, after every post that has been made. -/
theorem IpiInv.begin (h : IpiInv s) {cpu vec : Nat}
    (hself : ∀ i, th = .call i → ∃ k, s.call i = some k ∧ k.pos = .self ∧ cpu = k.target ∧
      vec = k.vec) : IpiInv (s.ipiHandle th cpu vec) := by
  refine ⟨fun th' e he hd => ?_, h.posted, fun i k before hk hp => ?_, fun i e he => ?_, h.served⟩
  · rcases exec_update_some he with ⟨_, he'⟩ | hold
    · obtain rfl := Option.some.inj he'
      cases hd
    · exact h.logged th' e hold hd
  · obtain ⟨hrun, hcount⟩ := h.waiting i k before hk hp
    refine ⟨fun th' e he hc hv => ?_, hcount⟩
    rcases exec_update_some he with ⟨_, he'⟩ | hold
    · obtain rfl := Option.some.inj he'
      exact h.posted i k hk
    · exact hrun th' e hold hc hv
  · rcases exec_update_some he with ⟨hth, he'⟩ | hold
    · obtain rfl := Option.some.inj he'
      obtain ⟨k, hk, hpos, hc, hv⟩ := hself i hth.symm
      exact ⟨k, hk, hpos, hc, hv, h.posted i k hk⟩
    · exact h.self i e hold

/-- The body of the vector is over. -/
theorem IpiInv.body (h : IpiInv s) (he : s.exec th = some e) : IpiInv (s.runBody th e) := by
  have hlog : s.log ⊆ (s.runBody th e).log := List.subset_cons_self _ _
  refine ⟨fun th' e' he' hd => ?_, h.posted, fun i k before hk hp => ?_, fun i e' he' => ?_,
    fun i k hk hp => (h.served i k hk hp).mono hlog⟩
  · rcases exec_update_some he' with ⟨_, hx⟩ | hold
    · obtain rfl := Option.some.inj hx
      exact List.mem_cons_self
    · exact hlog (h.logged th' e' hold hd)
  · obtain ⟨hrun, hcount⟩ := h.waiting i k before hk hp
    refine ⟨fun th' e' he' hc hv => ?_, hcount.imp_right fun hs => hs.mono hlog⟩
    rcases exec_update_some he' with ⟨_, hx⟩ | hold
    · obtain rfl := Option.some.inj hx
      exact hrun th e he hc hv
    · exact hrun th' e' hold hc hv
  · rcases exec_update_some he' with ⟨hth, hx⟩ | hold
    · obtain rfl := Option.some.inj hx
      exact h.self i e (hth ▸ he)
    · exact h.self i e' hold

/-- The counter is bumped: whoever waits for it has been served. -/
theorem IpiInv.bump (h : IpiInv s) (he : s.exec th = some e) (hd : e.done = true) :
    IpiInv (s.bump th e) := by
  have hexec : ∀ th' e', (s.bump th e).exec th' = some e' → s.exec th' = some e' := by
    intro th' e' he'
    rcases exec_update_some he' with ⟨_, hx⟩ | hold
    · cases hx
    · exact hold
  refine ⟨fun th' e' he' => h.logged th' e' (hexec th' e' he'), h.posted,
    fun i k before hk hp => ?_, fun i e' he' => h.self i e' (hexec _ e' he'), h.served⟩
  obtain ⟨hrun, hcount⟩ := h.waiting i k before hk hp
  refine ⟨fun th' e' he' => hrun th' e' (hexec th' e' he'), ?_⟩
  by_cases hkey : (k.target, k.vec) = (e.cpu, e.vec)
  · obtain ⟨hc, hv⟩ := Prod.mk.inj hkey
    refine .inr ⟨e.began, ?_, hrun th e he hc.symm hv.symm⟩
    rw [hc, hv]
    exact h.logged th e he hd
  · refine hcount.imp_left fun hsame => ?_
    exact (Function.update_of_ne hkey _ _).trans hsame

/-- The caller goes on behind `ipi_handle`. -/
theorem IpiInv.resume (h : IpiInv s) (he : s.exec th = some e) (hd : e.done = true) :
    IpiInv ((s.bump th e).resume th) := by
  have hbump := h.bump he hd
  cases th with
  | handler cpu =>
    simp only [IpiState.resume]
    split
    · exact hbump.congr rfl rfl rfl rfl le_rfl
    · exact hbump
  | call i =>
    obtain ⟨k, hk, _, hc, hv, hle⟩ := h.self i e he
    have hcall : (s.bump (.call i) e).call i = some k := hk
    simp only [IpiState.resume, hcall]
    refine hbump.setCall (h.posted i k hk) (Function.update_self ..) nofun fun _ => ?_
    refine ⟨e.began, ?_, hle⟩
    have hlogged := h.logged _ e he hd
    rwa [hc, hv] at hlogged

theorem IpiInv.tick (h : IpiInv s) : IpiInv s.tick := h.congr rfl rfl rfl rfl (Nat.le_succ _)

theorem IpiInv.irq_step (h : IpiInv s) {cpu : Nat} (hstep : s.step m (.irq cpu) = some s') :
    IpiInv s' := by
  simp only [IpiState.step, IpiState.takePending] at hstep
  cases hh : s.handler cpu with
  | idle =>
    rw [hh, Option.some.injEq] at hstep
    subst hstep
    exact h.congr rfl rfl rfl rfl (Nat.le_succ _)
  | loop vec pending => simp [hh] at hstep
  | handling vec pending => simp [hh] at hstep

theorem IpiInv.next_step (h : IpiInv s) {cpu : Nat} (hstep : s.step m (.next cpu) = some s') :
    IpiInv s' := by
  simp only [IpiState.step] at hstep
  cases hh : s.handler cpu with
  | idle => simp [hh] at hstep
  | handling vec pending => simp [hh] at hstep
  | loop vec pending =>
    rw [hh, Option.some.injEq] at hstep
    subst hstep
    unfold IpiState.loopStep
    split
    · split
      · have hbegin : IpiInv (s.ipiHandle (.handler cpu) cpu vec) := h.begin nofun
        exact hbegin.congr rfl rfl rfl rfl (Nat.le_succ _)
      · exact h.congr rfl rfl rfl rfl (Nat.le_succ _)
    · exact h.congr rfl rfl rfl rfl (Nat.le_succ _)

theorem IpiInv.body_step (h : IpiInv s) (hstep : s.step m (.body th) = some s') : IpiInv s' := by
  simp only [IpiState.step] at hstep
  cases he : s.exec th with
  | none => simp [he] at hstep
  | some e =>
    cases hd : e.done with
    | true => simp [he, hd] at hstep
    | false =>
      simp only [he, hd, Bool.false_eq_true, if_false, Option.some.injEq] at hstep
      subst hstep
      exact (h.body he).tick

theorem IpiInv.count_step (h : IpiInv s) (hstep : s.step m (.count th) = some s') : IpiInv s' := by
  simp only [IpiState.step] at hstep
  cases he : s.exec th with
  | none => simp [he] at hstep
  | some e =>
    cases hd : e.done with
    | false => simp [he, hd] at hstep
    | true =>
      simp only [he, hd, if_true, Option.some.injEq] at hstep
      subst hstep
      exact (h.resume he hd).tick

theorem IpiInv.call_step (h : IpiInv s) {caller : Nat} {target : Int} {vec : BitVec 8}
    (hstep : s.step m (.call i caller target vec) = some s') : IpiInv s' := by
  simp only [IpiState.step] at hstep
  by_cases hsome : (s.call i).isSome = true
  · rw [if_pos hsome] at hstep
    cases hstep
  · rw [if_neg hsome] at hstep
    have hexec : s.exec (.call i) = none := h.no_exec fun k hk => by
      rw [hk] at hsome
      exact absurd rfl hsome
    cases hv : ipiValidateTarget m target vec with
    | none =>
      rw [hv, Option.some.injEq] at hstep
      subst hstep
      refine IpiInv.tick (h.setCall le_rfl hexec nofun fun hret => ?_)
      exact absurd (SyncPos.returned.inj hret) (by decide)
    | some hart =>
      rw [hv] at hstep
      by_cases hme : target = caller
      · -- the call is set up first, then `ipi_handle` begins
        simp only [if_pos hme, Option.some.injEq] at hstep
        subst hstep
        have hcall : IpiInv (s.setCall i ⟨caller, vec.toNat, s.clock, .self⟩) :=
          h.setCall le_rfl hexec nofun nofun
        refine IpiInv.tick (hcall.begin fun i' hi' => ?_)
        obtain rfl := Thread.call.inj hi'
        exact ⟨_, Function.update_self .., rfl, rfl, rfl⟩
      · simp only [if_neg hme, Option.some.injEq] at hstep
        subst hstep
        exact IpiInv.tick (h.setCall le_rfl hexec nofun nofun)

theorem IpiInv.post_step (h : IpiInv s) (hok : PostsFresh s (.post i))
    (hstep : s.step m (.post i) = some s') : IpiInv s' := by
  simp only [IpiState.step] at hstep
  split at hstep
  · next target vec posted before hk =>
    rw [Option.some.injEq] at hstep
    subst hstep
    obtain ⟨hsame, hnone⟩ := hok _ before hk rfl
    have hexec : s.exec (.call i) = none := h.no_exec fun k hk' => by
      obtain rfl := Option.some.inj (hk.symm.trans hk')
      exact nofun
    have hraise : IpiInv (s.raise target vec) := h.congr rfl rfl rfl rfl le_rfl
    refine IpiInv.tick (hraise.setCall le_rfl hexec (fun before' hp => ⟨?_, .inl ?_⟩) nofun)
    · exact fun th e he hc hv => absurd ⟨hc, hv⟩ (hnone th e he)
    · obtain rfl := SyncPos.waiting.inj hp
      exact hsame
  · cases hstep

theorem IpiInv.poll_step (h : IpiInv s) (hstep : s.step m (.poll i) = some s') : IpiInv s' := by
  simp only [IpiState.step] at hstep
  split at hstep
  · next target vec posted before hk =>
    by_cases hsame : s.complete (target, vec) = before
    · rw [if_pos hsame, Option.some.injEq] at hstep
      subst hstep
      exact h.tick
    · rw [if_neg hsame, Option.some.injEq] at hstep
      subst hstep
      have hexec : s.exec (.call i) = none := h.no_exec fun k hk' => by
        obtain rfl := Option.some.inj (hk.symm.trans hk')
        exact nofun
      have hposted := h.posted i _ hk
      refine IpiInv.tick (h.setCall hposted hexec nofun fun _ => ?_)
      exact (h.waiting i _ before hk rfl).2.resolve_left hsame
  · cases hstep

theorem IpiInv.timeout_step (h : IpiInv s) (hstep : s.step m (.timeout i) = some s') :
    IpiInv s' := by
  simp only [IpiState.step] at hstep
  split at hstep
  · next target vec posted before hk =>
    rw [Option.some.injEq] at hstep
    subst hstep
    have hexec : s.exec (.call i) = none := h.no_exec fun k hk' => by
      obtain rfl := Option.some.inj (hk.symm.trans hk')
      exact nofun
    have hposted := h.posted i _ hk
    refine IpiInv.tick (h.setCall hposted hexec nofun fun hret => ?_)
    exact absurd (SyncPos.returned.inj hret) (by decide)
  · cases hstep

theorem IpiInv.step (h : IpiInv s) {a : Action} (hok : PostsFresh s a)
    (hstep : s.step m a = some s') : IpiInv s' := by
  cases a with
  | send target vec =>
    simp only [IpiState.step] at hstep
    cases hv : ipiValidateTarget m target vec with
    | none =>
      rw [hv, Option.some.injEq] at hstep
      subst hstep
      exact h.tick
    | some hart =>
      rw [hv, Option.some.injEq] at hstep
      subst hstep
      exact h.congr rfl rfl rfl rfl (Nat.le_succ _)
  | irq cpu => exact h.irq_step hstep
  | next cpu => exact h.next_step hstep
  | body th => exact h.body_step hstep
  | count th => exact h.count_step hstep
  | call i caller target vec => exact h.call_step hstep
  | post i => exact h.post_step hok hstep
  | poll i => exact h.poll_step hstep
  | timeout i => exact h.timeout_step hstep

theorem ipiInv_init : IpiInv initIpi := by
  refine ⟨fun _ _ he => ?_, fun _ _ hk => ?_, fun _ _ _ hk => ?_, fun _ _ he => ?_,
    fun _ _ hk => ?_⟩
  · cases he
  · cases hk
  · cases hk
  · cases he
  · cases hk

theorem IpiRun.inv (hs : IpiRun m PostsFresh s) : IpiInv s := by
  induction hs with
  | init => exact ipiInv_init
  | step _ hok hstep ih => exact ih.step hok hstep

end

/-- In every run in which the bits are set while the target is not handling an earlier
request for the vector, a call that returns 0 was served. -/
theorem sync_served {m : HartMap} {s : IpiState} (hs : IpiRun m PostsFresh s) : SyncServed s :=
  hs.inv.served

/-- Four pCPUs on the harts of the same number. -/
def fourHarts : HartMap := ⟨4, fun cpu => cpu⟩

/-- Steps one after the other. -/
def IpiState.steps (m : HartMap) (s : IpiState) (actions : List Action) : Option IpiState :=
  actions.foldlM (IpiState.step m) s

theorem IpiRun.steps {m : HartMap} {ok : IpiState → Action → Prop} {s s' : IpiState}
    (actions : List Action) (hs : IpiRun m ok s) (hok : ∀ a ∈ actions, ∀ s, ok s a)
    (h : s.steps m actions = some s') : IpiRun m ok s' := by
  induction actions generalizing s with
  | nil => exact Option.some.inj h ▸ hs
  | cons a actions ih =>
    simp only [IpiState.steps, List.foldlM_cons, Option.bind_eq_bind, Option.bind_eq_some_iff] at h
    obtain ⟨s₁, hstep, hrest⟩ := h
    exact ih (hs.step (hok a List.mem_cons_self s) hstep)
      (fun a ha => hok a (List.mem_cons_of_mem _ ha)) hrest

/-- The soft interrupt of pCPU 1 up to the end of the body for vector 3. -/
def handleFence : List Action :=
  .irq 1 :: List.replicate 4 (.next 1) ++ [.body (.handler 1)]

/-- A remote fence from pCPU 0 to pCPU 1 that is served. -/
theorem sync_served_fence : ∃ s k, IpiRun fourHarts PostsFresh s ∧ s.call 0 = some k ∧
    k.pos = .returned 0 ∧ SyncServed s := by
  have hinit : IpiRun fourHarts PostsFresh initIpi := .init
  have h₁ := hinit.step (a := .call 0 0 1 3) trivial rfl
  have h₂ := h₁.step (a := .post 0) (by
    intro k before hk hp
    obtain rfl := Option.some.inj hk
    exact ⟨SyncPos.sampled.inj hp, fun _ _ he => nomatch he⟩) rfl
  have h₃ := h₂.steps (handleFence ++ [.count (.handler 1), .poll 0])
    (by simp [handleFence, PostsFresh]) rfl
  exact ⟨_, _, h₃, rfl, rfl, sync_served h₃⟩

/-- Pcpu 2 asks for a fence when pCPU 1 has just executed the one that pCPU 0 asked for. -/
def lateFence : List Action :=
  [.call 0 0 1 3, .post 0] ++ handleFence ++
    [.call 1 2 1 3, .post 1, .count (.handler 1), .poll 1]

/-- The call of pCPU 2 returns 0 and its bit is still pending. -/
theorem handled_before_posted : ∃ s, IpiRun fourHarts (fun _ _ => True) s ∧ ¬ SyncServed s := by
  have hsteps : ∃ s, initIpi.steps fourHarts lateFence = some s ∧
      s.call 1 = some ⟨1, 3, 9, .returned 0⟩ ∧ s.log = [⟨1, 3, 6⟩] ∧ s.pending 1 = 8 :=
    ⟨_, rfl, rfl, rfl, rfl⟩
  obtain ⟨s, hs, hcall, hlog, _⟩ := hsteps
  refine ⟨s, IpiRun.init.steps lateFence (fun _ _ _ => trivial) hs, fun h => ?_⟩
  obtain ⟨began, hin, hle⟩ := h 1 _ hcall rfl
  rw [hlog, List.mem_singleton, Run.mk.injEq] at hin
  obtain ⟨_, _, rfl⟩ := hin
  exact absurd hle (by decide)

end HyperCore.Ipi
