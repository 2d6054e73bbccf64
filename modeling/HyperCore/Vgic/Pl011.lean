import HyperCore.Sched.Simple
import HyperCore.Vgic.Virq

/-!
# The emulated PL011 and its interrupt

The PL011's receive interrupt is a level: data in the FIFO, and RX or RT enabled in IMSC.
`uart_emul_update_irq` turns it into one injection: a latch is set when the level rises and reset
when it falls, and the interrupt is injected only with the latch clear. The injection reports
nothing back, so the latch also stays set where the interrupt was dropped, and where the guest has
ended its handling with data left.

`pl011_never_lost_iff`: the level is always accompanied by the interrupt, in the target's queue or
list registers, iff every rise finds a target that can take it and no deactivation takes the last
of it while the level is high (`Step.Keeps`).
-/

namespace HyperCore.Vgic

open Sched

/-! ## The device -/

/-- `UART_EMUL_FIFO_SIZE` -/
def uartEmulFifoSize : Nat := 128

def uartIntRx : BitVec 32 := 1 <<< 4
def uartIntRt : BitVec 32 := 1 <<< 6
def uartIntAll : BitVec 32 := 0x7ff

/-- `struct uart_emul_state` -/
structure UartEmulState where
  rxFifo : Nat → BitVec 8
  rxHead : Nat
  rxTail : Nat
  rxCount : Nat
  ibrd : BitVec 32
  fbrd : BitVec 32
  lcrH : BitVec 32
  cr : BitVec 32
  ifls : BitVec 32
  imsc : BitVec 32
  ris : BitVec 32
  dmacr : BitVec 32
  irqLatched : Bool

/-- `g_uart_emul` after `uart_register_emul`. -/
def uartRegisterEmul : UartEmulState where
  rxFifo := fun _ => 0
  rxHead := 0
  rxTail := 0
  rxCount := 0
  ibrd := 0
  fbrd := 0
  lcrH := 3 <<< 5 ||| 1 <<< 4
  cr := 1 ||| 1 <<< 8 ||| 1 <<< 9
  ifls := 0
  imsc := 0
  ris := 0
  dmacr := 0
  irqLatched := false

namespace UartEmulState

def rxEmpty (u : UartEmulState) : Bool := u.rxCount == 0

def rxFull (u : UartEmulState) : Bool := u.rxCount == uartEmulFifoSize

/-- `uart_emul_rx_pop` -/
def rxPop (u : UartEmulState) : BitVec 8 × UartEmulState :=
  (u.rxFifo u.rxTail,
    { u with rxTail := (u.rxTail + 1) % uartEmulFifoSize, rxCount := u.rxCount - 1 })

/-- What `uart_vcpu_inject_rx` does to the FIFO. -/
def rxPush (u : UartEmulState) (ch : BitVec 8) : UartEmulState :=
  { u with
    rxFifo := Function.update u.rxFifo u.rxHead ch
    rxHead := (u.rxHead + 1) % uartEmulFifoSize
    rxCount := u.rxCount + 1 }

/-- `uart_emul_refresh_rx_irq` -/
def refreshRxIrq (u : UartEmulState) : UartEmulState :=
  { u with
    ris := if u.rxEmpty then u.ris &&& ~~~(uartIntRx ||| uartIntRt)
      else u.ris ||| (uartIntRx ||| uartIntRt) }

/-- `ris & imsc & (UART_INT_RX | UART_INT_RT)` -/
def rxStatus (u : UartEmulState) : BitVec 32 := u.ris &&& u.imsc &&& (uartIntRx ||| uartIntRt)

end UartEmulState

/-! ## The code -/

/-- What does not change in a run without a context switch: the configuration, the task that
`find_task_by_mpidr` finds for the first vCPU, the task of each pCPU, and the saved list registers
of the tasks that no pCPU runs. -/
structure UartEnv where
  enabled : Bool
  guestBase : BitVec 64
  guestIrq : BitVec 32
  found : Option TaskId
  currentTask : Cpu → Option TaskId
  savedLr : TaskId → Nat → BitVec 64
  lrCount : Nat

/-- The device, the queue of each task and the list registers of each pCPU. -/
structure UartGic where
  uart : UartEmulState
  queue : TaskId → VirqQueue
  lr : Cpu → Nat → BitVec 64

/-- `uart_emul_target_task` -/
def uartEmulTargetTask (env : UartEnv) (c : Cpu) : Option TaskId := env.found.or (env.currentTask c)

/-- `gic_vcpu_inject_virq` -/
def UartGic.inject (s : UartGic) (t : TaskId) (virq : BitVec 32) : UartGic :=
  { s with queue := Function.update s.queue t (gicVcpuInjectVirq (s.queue t) virq) }

/-- `gic_vcpu_flush_lr`, for a task on the pCPU that runs it. -/
def UartGic.flush (env : UartEnv) (s : UartGic) (c : Cpu) (t : TaskId) : UartGic :=
  let r := gicVcpuFlushLr env.lrCount (s.queue t) (s.lr c)
  { s with queue := Function.update s.queue t r.1, lr := Function.update s.lr c r.2 }

/-- `uart_emul_update_irq`, on pCPU `c`. -/
def uartEmulUpdateIrq (env : UartEnv) (c : Cpu) (s : UartGic) : UartGic :=
  let uart := s.uart.refreshRxIrq
  if uart.rxStatus = 0 then { s with uart := { uart with irqLatched := false } }
  else if uart.irqLatched then { s with uart := uart }
  else
    let s := { s with uart := { uart with irqLatched := true } }
    match uartEmulTargetTask env c with
    | none => s
    | some target =>
      let s := s.inject target env.guestIrq
      if some target = env.currentTask c then s.flush env c target else s

def uartVcpuInjectRx (env : UartEnv) (c : Cpu) (s : UartGic) (ch : BitVec 8) : UartGic :=
  if !env.enabled then s
  else if s.uart.rxFull then s
  else uartEmulUpdateIrq env c { s with uart := s.uart.rxPush ch }

/-- `uart_emul_offset` -/
def uartEmulOffset (env : UartEnv) (addr : BitVec 64) : Nat :=
  ((addr - env.guestBase).setWidth 32).toNat

/-- `uart_emul_read_fr` -/
def uartEmulReadFr (u : UartEmulState) : BitVec 64 :=
  let fr : BitVec 64 := 1 <<< 7 ||| 1 <<< 0
  let fr := if u.rxEmpty then fr ||| 1 <<< 4 else fr
  if u.rxFull then fr ||| 1 <<< 6 else fr

/-- `uart_emul_read_id` -/
def uartEmulReadId (off : Nat) : BitVec 64 :=
  match off with
  | 0xfd0 => 0x04
  | 0xfe0 => 0x11
  | 0xfe4 => 0x10
  | 0xfe8 => 0x14
  | 0xff0 => 0x0d
  | 0xff4 => 0xf0
  | 0xff8 => 0x05
  | 0xffc => 0xb1
  | _ => 0

/-- The value read, and the state after. -/
def uartEmulRead (env : UartEnv) (c : Cpu) (s : UartGic) (addr : BitVec 64) :
    BitVec 64 × UartGic :=
  match uartEmulOffset env addr with
  | 0x000 => -- UARTDR
    if s.uart.rxEmpty then (0, uartEmulUpdateIrq env c s)
    else
      (s.uart.rxPop.1.setWidth 64, uartEmulUpdateIrq env c { s with uart := s.uart.rxPop.2 })
  | 0x004 => (0, s)
  | 0x018 => (uartEmulReadFr s.uart, s)
  | 0x024 => (s.uart.ibrd.setWidth 64, s)
  | 0x028 => (s.uart.fbrd.setWidth 64, s)
  | 0x02c => (s.uart.lcrH.setWidth 64, s)
  | 0x030 => (s.uart.cr.setWidth 64, s)
  | 0x034 => (s.uart.ifls.setWidth 64, s)
  | 0x038 => (s.uart.imsc.setWidth 64, s)
  | 0x03c => -- UARTRIS
    let uart := s.uart.refreshRxIrq
    (uart.ris.setWidth 64, { s with uart := uart })
  | 0x040 => -- UARTMIS
    let uart := s.uart.refreshRxIrq
    ((uart.ris &&& uart.imsc).setWidth 64, { s with uart := uart })
  | 0x048 => (s.uart.dmacr.setWidth 64, s)
  | off => (if 0xfd0 ≤ off ∧ off ≤ 0xffc then uartEmulReadId off else 0, s)

/-- The byte that a write to UARTDR sends to the host's UART is not kept. -/
def uartEmulWrite (env : UartEnv) (c : Cpu) (s : UartGic) (addr value : BitVec 64) : UartGic :=
  let val := value.setWidth 32
  match uartEmulOffset env addr with
  | 0x024 => { s with uart := { s.uart with ibrd := val } }
  | 0x028 => { s with uart := { s.uart with fbrd := val } }
  | 0x02c => { s with uart := { s.uart with lcrH := val } }
  | 0x030 => uartEmulUpdateIrq env c { s with uart := { s.uart with cr := val } }
  | 0x034 => { s with uart := { s.uart with ifls := val } }
  | 0x038 => uartEmulUpdateIrq env c { s with uart := { s.uart with imsc := val &&& uartIntAll } }
  | 0x044 => -- UARTICR
    uartEmulUpdateIrq env c
      { s with uart := { s.uart with ris := s.uart.ris &&& ~~~(val &&& uartIntAll) } }
  | 0x048 => { s with uart := { s.uart with dmacr := val } }
  | _ => s

/-- What happens on a pCPU between two operations. -/
inductive UartStep
  | injectRx (c : Cpu) (ch : BitVec 8)
  | read (c : Cpu) (addr : BitVec 64)
  | write (c : Cpu) (addr value : BitVec 64)
  /-- another device -/
  | inject (t : TaskId) (virq : BitVec 32)
  | flush (c : Cpu)
  | acknowledge (c : Cpu) (i : Nat)
  | deactivate (c : Cpu) (i : Nat)

/-- A new word in list register `i` of pCPU `c`. -/
def UartGic.setLr (s : UartGic) (c : Cpu) (i : Nat) (w : BitVec 64) : UartGic :=
  { s with lr := Function.update s.lr c (Function.update (s.lr c) i w) }

def UartGic.step (env : UartEnv) (s : UartGic) : UartStep → UartGic
  | .injectRx c ch => uartVcpuInjectRx env c s ch
  | .read c addr => (uartEmulRead env c s addr).2
  | .write c addr value => uartEmulWrite env c s addr value
  | .inject t virq => s.inject t virq
  | .flush c =>
    match env.currentTask c with
    | none => s
    | some t => s.flush env c t
  | .acknowledge c i => s.setLr c i (acknowledgeLr (s.lr c i))
  | .deactivate c i => s.setLr c i (deactivateLr (s.lr c i))

/-! ## The property -/

/-- RX or RT is enabled. -/
def rxEnabled (imsc : BitVec 32) : Bool := imsc &&& (uartIntRx ||| uartIntRt) != 0

/-- The level: data in the FIFO, and RX or RT enabled. -/
def UartEmulState.rxAsserted (u : UartEmulState) : Bool := !u.rxEmpty && rxEnabled u.imsc

/-- The guest's UART interrupt is in the queue of `t` or in one of its list registers. -/
def Holds (env : UartEnv) (s : UartGic) (t : TaskId) : Prop :=
  env.guestIrq ∈ (s.queue t).toList ∨
    (∃ c, env.currentTask c = some t ∧ env.guestIrq ∈ liveVirqs env.lrCount (s.lr c)) ∨
    ((∀ c, env.currentTask c ≠ some t) ∧ env.guestIrq ∈ liveVirqs env.lrCount (env.savedLr t))

/-- The interrupt waits or is in service at a target. -/
def Signalled (env : UartEnv) (s : UartGic) : Prop :=
  ∃ c t, uartEmulTargetTask env c = some t ∧ Holds env s t

/-- The level is not high with nothing left to signal it. -/
def NotLost (env : UartEnv) (s : UartGic) : Prop := s.uart.rxAsserted = true → Signalled env s

/-- An injection on pCPU `c` has an effect: the target's queue has room, or a target holds the
interrupt already. -/
def CanTake (env : UartEnv) (s : UartGic) (c : Cpu) : Prop :=
  (∃ t, uartEmulTargetTask env c = some t ∧
    (s.queue t).pendingVirqCount < vcpuMaxPendingVirq) ∨ Signalled env s

/-- A target holds the interrupt elsewhere than in list register `i` of pCPU `c`, or there it is
pending. -/
def HeldBeside (env : UartEnv) (s : UartGic) (c : Cpu) (i : Nat) : Prop :=
  ∃ c' t, uartEmulTargetTask env c' = some t ∧
    (env.guestIrq ∈ (s.queue t).toList ∨
      (∃ d j, env.currentTask d = some t ∧ j < env.lrCount ∧ env.guestIrq ∈ lrVirq (s.lr d j) ∧
        (d = c → j = i → (s.lr d j).getLsbD 62 = true)) ∨
      ((∀ d, env.currentTask d ≠ some t) ∧
        env.guestIrq ∈ liveVirqs env.lrCount (env.savedLr t)))

/-- The step leaves the interrupt in place: where it makes the level rise there is room, and a
deactivation with the level high does not take the last of it. -/
def UartStep.Keeps (env : UartEnv) (s : UartGic) : UartStep → Prop
  | .injectRx c _ => env.enabled = true → s.uart.rxEmpty = true → rxEnabled s.uart.imsc = true →
      CanTake env s c
  | .write c addr value => uartEmulOffset env addr = 0x038 → s.uart.rxEmpty = false →
      rxEnabled s.uart.imsc = false → rxEnabled (value.setWidth 32 &&& uartIntAll) = true →
      CanTake env s c
  | .deactivate c i => s.uart.rxAsserted = true → HeldBeside env s c i
  | .read _ _ | .inject _ _ | .flush _ | .acknowledge _ _ => True

/-! ## The device -/

variable {env : UartEnv} {s : UartGic} {c : Cpu} {t : TaskId}

theorem and_not_and (a b m : BitVec 32) : a &&& ~~~m &&& b &&& m = 0 := by
  refine BitVec.eq_of_getLsbD_eq fun i hi => ?_
  simp only [BitVec.getLsbD_and, BitVec.getLsbD_not]
  cases a.getLsbD i <;> cases b.getLsbD i <;> cases m.getLsbD i <;> simp

theorem or_and_and (a b m : BitVec 32) : (a ||| m) &&& b &&& m = b &&& m := by
  refine BitVec.eq_of_getLsbD_eq fun i hi => ?_
  simp only [BitVec.getLsbD_and, BitVec.getLsbD_or]
  cases a.getLsbD i <;> cases b.getLsbD i <;> cases m.getLsbD i <;> rfl

/-- The status that the code tests is the level. -/
theorem rxStatus_eq_zero (u : UartEmulState) :
    u.refreshRxIrq.rxStatus = 0 ↔ u.rxAsserted = false := by
  rw [UartEmulState.rxStatus, UartEmulState.refreshRxIrq, UartEmulState.rxAsserted]
  cases u.rxEmpty with
  | true => simp [and_not_and]
  | false => simp [or_and_and, rxEnabled]

/-- The device after `uart_emul_update_irq`: the latch is the level. -/
theorem updateIrq_uart :
    (uartEmulUpdateIrq env c s).uart =
      { s.uart.refreshRxIrq with irqLatched := s.uart.rxAsserted } := by
  rw [uartEmulUpdateIrq]
  by_cases hstatus : s.uart.refreshRxIrq.rxStatus = 0
  · rw [if_pos hstatus, (rxStatus_eq_zero _).mp hstatus]
  · have hlevel : s.uart.rxAsserted = true := by
      rw [← Bool.not_eq_false, ← rxStatus_eq_zero]
      exact hstatus
    rw [if_neg hstatus, hlevel]
    by_cases hlatched : s.uart.refreshRxIrq.irqLatched = true
    · rw [if_pos hlatched]
      exact congrArg (fun b => { s.uart.refreshRxIrq with irqLatched := b }) hlatched
    · rw [if_neg hlatched]
      cases uartEmulTargetTask env c with
      | none => rfl
      | some t =>
        simp only
        split <;> rfl

/-- The latch stands for the level. -/
def LatchInv (s : UartGic) : Prop := s.uart.irqLatched = s.uart.rxAsserted

theorem latchInv_updateIrq : LatchInv (uartEmulUpdateIrq env c s) := by
  rw [LatchInv, updateIrq_uart]
  rfl

theorem rxAsserted_updateIrq :
    (uartEmulUpdateIrq env c s).uart.rxAsserted = s.uart.rxAsserted := by
  rw [updateIrq_uart]
  rfl

/-! ## Where the interrupt is -/

theorem Holds.congr {s' : UartGic} (hq : s'.queue t = s.queue t)
    (hlr : ∀ c, env.currentTask c = some t →
      liveVirqs env.lrCount (s'.lr c) = liveVirqs env.lrCount (s.lr c)) :
    Holds env s' t ↔ Holds env s t := by
  rw [Holds, Holds, hq]
  refine or_congr_right (or_congr_left (exists_congr fun c => and_congr_right fun hc => ?_))
  rw [hlr c hc]

theorem Signalled.congr {s' : UartGic}
    (h : ∀ t, Holds env s' t ↔ Holds env s t) : Signalled env s' ↔ Signalled env s :=
  exists_congr fun _ => exists_congr fun t => and_congr_right fun _ => h t

/-- The device plays no part. -/
theorem signalled_uart (u : UartEmulState) :
    Signalled env { s with uart := u } ↔ Signalled env s :=
  Signalled.congr fun _ => Holds.congr rfl fun _ _ => rfl

theorem mem_inject {virq : BitVec 32} :
    env.guestIrq ∈ ((s.inject t virq).queue t).toList ↔ env.guestIrq ∈ (s.queue t).toList ∨
      (s.queue t).pendingVirqCount < vcpuMaxPendingVirq ∧ env.guestIrq = virq := by
  have hqueue : (s.inject t virq).queue t = gicVcpuInjectVirq (s.queue t) virq :=
    Function.update_self _ _ _
  rw [hqueue, gicVcpuInjectVirq_toList, length_toList]
  by_cases hroom : (s.queue t).pendingVirqCount < vcpuMaxPendingVirq
  · by_cases hmem : virq ∈ (s.queue t).toList
    · rw [if_neg (fun h => h.2 hmem)]
      refine ⟨Or.inl, fun h => h.elim id ?_⟩
      rintro ⟨-, rfl⟩
      exact hmem
    · rw [if_pos ⟨hroom, hmem⟩, List.mem_append, List.mem_singleton]
      exact or_congr_right (iff_and_self.mpr fun _ => hroom)
  · rw [if_neg (fun h => hroom h.1)]
    exact (or_iff_left fun h => hroom h.1).symm

theorem holds_inject {virq : BitVec 32} (t' : TaskId) :
    Holds env (s.inject t virq) t' ↔ Holds env s t' ∨
      t' = t ∧ (s.queue t).pendingVirqCount < vcpuMaxPendingVirq ∧ env.guestIrq = virq := by
  by_cases ht : t' = t
  · subst ht
    rw [Holds, mem_inject, Holds, or_right_comm, eq_self, true_and]
    rfl
  · have hsame : Holds env (s.inject t virq) t' ↔ Holds env s t' :=
      Holds.congr (Function.update_of_ne ht _ _) fun _ _ => rfl
    exact hsame.trans (or_iff_left fun h => ht h.1).symm

/-- A flush moves the interrupt from the queue to the list registers of the same task. -/
theorem holds_flush (hc : env.currentTask c = some t) (t' : TaskId) :
    Holds env (s.flush env c t) t' ↔ Holds env s t' := by
  by_cases ht : t' = t
  · subst ht
    have hf := gicVcpuFlushLr_spec env.lrCount (s.queue t') (s.lr c)
    have hmove : env.guestIrq ∈ ((s.flush env c t').queue t').toList ∨
          env.guestIrq ∈ liveVirqs env.lrCount ((s.flush env c t').lr c) ↔
        env.guestIrq ∈ (s.queue t').toList ∨
          env.guestIrq ∈ liveVirqs env.lrCount (s.lr c) := by
      simp only [UartGic.flush, Function.update_self]
      rw [hf.kept, hf.filled.mem_iff, List.mem_append, or_left_comm, ← List.mem_append,
        or_comm, (List.perm_append_comm.mem_iff), List.take_append_drop]
    have hother : ∀ d, d ≠ c → (s.flush env c t').lr d = s.lr d := fun d hd =>
      Function.update_of_ne hd _ _
    -- the bank of `c` apart from the banks of other pCPUs
    have hsplit : ∀ x : UartGic, Holds env x t' ↔
        (env.guestIrq ∈ (x.queue t').toList ∨ env.guestIrq ∈ liveVirqs env.lrCount (x.lr c)) ∨
          (∃ d, d ≠ c ∧ env.currentTask d = some t' ∧
            env.guestIrq ∈ liveVirqs env.lrCount (x.lr d)) := by
      intro x
      constructor
      · rintro (hq | ⟨d, hd, hl⟩ | ⟨hno, -⟩)
        · exact .inl (.inl hq)
        · by_cases hdc : d = c
          · exact .inl (.inr (hdc ▸ hl))
          · exact .inr ⟨d, hdc, hd, hl⟩
        · exact absurd hc (hno c)
      · rintro ((hq | hl) | ⟨d, -, hd, hl⟩)
        · exact .inl hq
        · exact .inr (.inl ⟨c, hc, hl⟩)
        · exact .inr (.inl ⟨d, hd, hl⟩)
    rw [hsplit, hsplit, hmove]
    refine or_congr_right (exists_congr fun d => and_congr_right fun hd => ?_)
    rw [hother d hd]
  · refine Holds.congr (Function.update_of_ne ht _ _) fun d hd => ?_
    have hdc : d ≠ c := by
      rintro rfl
      exact ht (Option.some.inj (hd.symm.trans hc))
    exact congrArg _ (Function.update_of_ne hdc _ _)

theorem signalled_flush (hc : env.currentTask c = some t) :
    Signalled env (s.flush env c t) ↔ Signalled env s :=
  Signalled.congr (holds_flush hc)

/-- The injection into the target of pCPU `c`, and the flush after it. -/
theorem signalled_inject (ht : uartEmulTargetTask env c = some t) :
    Signalled env (s.inject t env.guestIrq) ↔ CanTake env s c := by
  constructor
  · rintro ⟨c', t', ht', hh⟩
    rcases (holds_inject t').mp hh with hh | ⟨-, hroom, -⟩
    · exact .inr ⟨c', t', ht', hh⟩
    · exact .inl ⟨t, ht, hroom⟩
  · rintro (⟨t', ht', hroom⟩ | ⟨c', t', ht', hh⟩)
    · cases ht.symm.trans ht'
      exact ⟨c, t, ht, (holds_inject t).mpr (.inr ⟨rfl, hroom, rfl⟩)⟩
    · exact ⟨c', t', ht', (holds_inject t').mpr (.inl hh)⟩

/-- `uart_emul_update_irq` where the level has not risen. -/
theorem updateIrq_quiet (h : s.uart.rxAsserted = true → s.uart.irqLatched = true) :
    Signalled env (uartEmulUpdateIrq env c s) ↔ Signalled env s := by
  rw [uartEmulUpdateIrq]
  by_cases hstatus : s.uart.refreshRxIrq.rxStatus = 0
  · rw [if_pos hstatus]
    exact signalled_uart _
  · rw [if_neg hstatus, if_pos]
    · exact signalled_uart _
    · refine h ?_
      rw [← Bool.not_eq_false, ← rxStatus_eq_zero]
      exact hstatus

/-- Where it has risen. -/
theorem updateIrq_rise (h : s.uart.rxAsserted = true) (hl : s.uart.irqLatched = false) :
    Signalled env (uartEmulUpdateIrq env c s) ↔ CanTake env s c := by
  have hstatus : s.uart.refreshRxIrq.rxStatus ≠ 0 := by
    rw [ne_eq, rxStatus_eq_zero, h]
    exact Bool.true_eq_false_eq_False
  have hlatched : ¬ s.uart.refreshRxIrq.irqLatched = true := by
    rw [show s.uart.refreshRxIrq.irqLatched = s.uart.irqLatched from rfl, hl]
    exact Bool.false_ne_true
  have hcan (u : UartEmulState) : CanTake env { s with uart := u } c ↔ CanTake env s c :=
    or_congr_right (signalled_uart u)
  rw [uartEmulUpdateIrq, if_neg hstatus, if_neg hlatched]
  cases ht : uartEmulTargetTask env c with
  | none =>
    refine (signalled_uart _).trans (or_iff_right ?_).symm
    rintro ⟨t, ht', -⟩
    cases ht.symm.trans ht'
  | some t =>
    simp only
    split
    · rename_i hcur
      rw [signalled_flush hcur.symm, signalled_inject ht, hcan]
    · rw [signalled_inject ht, hcan]

/-! ## Acknowledge and deactivate -/

theorem mem_liveVirqs {n : Nat} {lr : Nat → BitVec 64} {virq : BitVec 32} :
    virq ∈ liveVirqs n lr ↔ ∃ j < n, virq ∈ lrVirq (lr j) := by
  simp [liveVirqs]

/-- Pending becomes active: the register stays in use. -/
theorem lrVirq_acknowledgeLr (w : BitVec 64) : lrVirq (acknowledgeLr w) = lrVirq w := by
  have hlive : live (acknowledgeLr w) = live w := by
    rw [acknowledgeLr]
    split
    · rename_i hbits
      rw [Bool.and_eq_true, Bool.not_eq_true'] at hbits
      have h63 : (ichLrPend ||| ichLrAct).getLsbD 63 = true := by decide
      rw [live_iff, live_iff, BitVec.getLsbD_xor, BitVec.getLsbD_xor, h63, hbits.1, hbits.2]
      simp
    · rfl
  rw [lrVirq, lrVirq, hlive, vintid_acknowledgeLr]

/-- Only a register that is pending again keeps its interrupt. -/
theorem mem_lrVirq_deactivateLr {w : BitVec 64} {virq : BitVec 32} :
    virq ∈ lrVirq (deactivateLr w) ↔ virq ∈ lrVirq w ∧ w.getLsbD 62 = true := by
  have h62 : (~~~ichLrAct).getLsbD 62 = true := by decide
  have h63 : (~~~ichLrAct).getLsbD 63 = false := by decide
  have hlive : live (deactivateLr w) = w.getLsbD 62 := by
    rw [live_iff, deactivateLr, BitVec.getLsbD_and, BitVec.getLsbD_and, h62, h63]
    simp
  rw [mem_lrVirq, mem_lrVirq, hlive, vintid_deactivateLr]
  refine ⟨fun h => ⟨⟨?_, h.2⟩, h.1⟩, fun h => ⟨h.2, h.1.2⟩⟩
  rw [live_iff, h.1, Bool.true_or]

theorem setLr_lr (w : BitVec 64) (i : Nat) (d : Cpu) (j : Nat) :
    (s.setLr c i w).lr d j = if d = c ∧ j = i then w else s.lr d j := by
  simp only [UartGic.setLr]
  by_cases hd : d = c
  · subst hd
    rw [Function.update_self, Function.update_apply]
    exact if_congr (and_iff_right rfl).symm rfl rfl
  · rw [Function.update_of_ne hd, if_neg fun h => hd h.1]

theorem signalled_acknowledge (i : Nat) :
    Signalled env (s.setLr c i (acknowledgeLr (s.lr c i))) ↔ Signalled env s := by
  refine Signalled.congr fun t => Holds.congr rfl fun d _ => ?_
  refine List.filterMap_congr fun j _ => ?_
  rw [setLr_lr]
  split
  · rename_i heq
    obtain ⟨rfl, rfl⟩ := heq
    exact lrVirq_acknowledgeLr _
  · rfl

theorem signalled_deactivate (i : Nat) :
    Signalled env (s.setLr c i (deactivateLr (s.lr c i))) ↔ HeldBeside env s c i := by
  refine exists_congr fun c' => exists_congr fun t => and_congr_right fun _ => ?_
  have hreg : ∀ d j, env.guestIrq ∈ lrVirq ((s.setLr c i (deactivateLr (s.lr c i))).lr d j) ↔
      env.guestIrq ∈ lrVirq (s.lr d j) ∧ (d = c → j = i → (s.lr d j).getLsbD 62 = true) := by
    intro d j
    rw [setLr_lr]
    split
    · rename_i heq
      obtain ⟨rfl, rfl⟩ := heq
      rw [mem_lrVirq_deactivateLr, forall_prop_of_true rfl, forall_prop_of_true rfl]
    · rename_i hne
      exact (and_iff_left fun hd hj => absurd ⟨hd, hj⟩ hne).symm
  refine or_congr_right (or_congr_left (exists_congr fun d => ?_))
  rw [mem_liveVirqs, ← exists_and_left]
  simp only [hreg]

/-! ## One step -/

/-- An access that ends in `uart_emul_update_irq` keeps the property iff a rise can be taken. -/
theorem notLost_updateIrq (hI : LatchInv s) (h : NotLost env s) (u : UartEmulState)
    (hu : u.irqLatched = s.uart.irqLatched) :
    NotLost env (uartEmulUpdateIrq env c { s with uart := u }) ↔
      (u.rxAsserted = true → s.uart.rxAsserted = false → CanTake env s c) := by
  rw [NotLost, rxAsserted_updateIrq]
  refine imp_congr_right fun hlevel => ?_
  cases hold : s.uart.rxAsserted with
  | false =>
    have hlatch : u.irqLatched = false := hu.trans (hI.trans hold)
    rw [updateIrq_rise hlevel hlatch, forall_prop_of_true rfl]
    exact or_congr_right (signalled_uart u)
  | true =>
    have hlatch : u.irqLatched = true := hu.trans (hI.trans hold)
    rw [updateIrq_quiet fun _ => hlatch, signalled_uart]
    exact iff_of_true (h hold) fun hne => absurd hne (by decide)

/-- Where the level does not rise the property is kept. -/
theorem notLost_updateIrq_le (hI : LatchInv s) (h : NotLost env s) (u : UartEmulState)
    (hu : u.irqLatched = s.uart.irqLatched)
    (hle : u.rxAsserted = true → s.uart.rxAsserted = true) :
    NotLost env (uartEmulUpdateIrq env c { s with uart := u }) := by
  refine (notLost_updateIrq hI h u hu).mpr fun hlevel hold => ?_
  rw [hle hlevel] at hold
  cases hold

theorem rxAsserted_pop (h : s.uart.rxEmpty = false) (hpop : s.uart.rxPop.2.rxAsserted = true) :
    s.uart.rxAsserted = true := by
  rw [UartEmulState.rxAsserted, Bool.and_eq_true] at hpop ⊢
  exact ⟨by rw [h]; rfl, hpop.2⟩

theorem notLost_injectRx (hI : LatchInv s) (h : NotLost env s) (ch : BitVec 8) :
    NotLost env (uartVcpuInjectRx env c s ch) ↔ (UartStep.injectRx c ch).Keeps env s := by
  rw [uartVcpuInjectRx, UartStep.Keeps]
  cases henabled : env.enabled with
  | false => exact iff_of_true h fun hne => absurd hne (by decide)
  | true =>
    rw [forall_prop_of_true rfl]
    by_cases hfull : s.uart.rxFull = true
    · have hempty : s.uart.rxEmpty = false := by
        rw [UartEmulState.rxEmpty, beq_iff_eq.mp hfull]
        rfl
      rw [hempty, Bool.not_true, if_neg Bool.false_ne_true, if_pos hfull]
      exact iff_of_true h fun hne => absurd hne (by decide)
    · rw [Bool.not_true, if_neg Bool.false_ne_true, if_neg hfull,
        notLost_updateIrq hI h (s.uart.rxPush ch) rfl]
      have hpush : (s.uart.rxPush ch).rxAsserted = rxEnabled s.uart.imsc := by
        simp [UartEmulState.rxAsserted, UartEmulState.rxEmpty, UartEmulState.rxPush]
      rw [hpush, UartEmulState.rxAsserted]
      cases s.uart.rxEmpty <;> cases rxEnabled s.uart.imsc <;> simp

theorem notLost_read (hI : LatchInv s) (h : NotLost env s) (addr : BitVec 64) :
    NotLost env (uartEmulRead env c s addr).2 := by
  rw [uartEmulRead]
  split
  · split
    · exact notLost_updateIrq_le hI h s.uart rfl id
    · rename_i hempty
      exact notLost_updateIrq_le hI h s.uart.rxPop.2 rfl
        (rxAsserted_pop ((Bool.not_eq_true _).mp hempty))
  all_goals exact h

theorem notLost_write (hI : LatchInv s) (h : NotLost env s) (addr value : BitVec 64) :
    NotLost env (uartEmulWrite env c s addr value) ↔
      (UartStep.write c addr value).Keeps env s := by
  rw [UartStep.Keeps]
  by_cases himsc : uartEmulOffset env addr = 0x038
  · have hwrite : uartEmulWrite env c s addr value = uartEmulUpdateIrq env c
        { s with uart := { s.uart with imsc := value.setWidth 32 &&& uartIntAll } } := by
      simp only [uartEmulWrite, himsc]
    rw [hwrite, notLost_updateIrq hI h { s.uart with imsc := value.setWidth 32 &&& uartIntAll } rfl,
      UartEmulState.rxAsserted, UartEmulState.rxAsserted, forall_prop_of_true himsc]
    simp only [UartEmulState.rxEmpty]
    cases s.uart.rxCount == 0
    · simp
      exact forall_comm
    · simp
  · refine iff_of_true ?_ fun heq => absurd heq himsc
    rw [uartEmulWrite]
    split
    case h_4 => exact notLost_updateIrq_le hI h { s.uart with cr := value.setWidth 32 } rfl id
    case h_6 heq => exact absurd heq himsc
    case h_7 =>
      exact notLost_updateIrq_le hI h
        { s.uart with ris := s.uart.ris &&& ~~~(value.setWidth 32 &&& uartIntAll) } rfl id
    all_goals exact h

theorem notLost_step (hI : LatchInv s) (h : NotLost env s) (st : UartStep) :
    NotLost env (s.step env st) ↔ st.Keeps env s := by
  cases st with
  | injectRx c ch => exact notLost_injectRx hI h ch
  | read c addr => exact iff_of_true (notLost_read hI h addr) trivial
  | write c addr value => exact notLost_write hI h addr value
  | inject t virq =>
    refine iff_of_true (fun hlevel => ?_) trivial
    obtain ⟨c, t', ht', hh⟩ := h hlevel
    exact ⟨c, t', ht', (holds_inject t').mpr (.inl hh)⟩
  | flush c =>
    refine iff_of_true ?_ trivial
    rw [UartGic.step]
    cases hc : env.currentTask c with
    | none => exact h
    | some t => exact fun hlevel => (signalled_flush hc).mpr (h hlevel)
  | acknowledge c i =>
    exact iff_of_true (fun hlevel => (signalled_acknowledge i).mpr (h hlevel)) trivial
  | deactivate c i => exact imp_congr_right fun _ => signalled_deactivate i

theorem latchInv_step (hI : LatchInv s) (st : UartStep) : LatchInv (s.step env st) := by
  cases st with
  | injectRx c ch =>
    rw [UartGic.step, uartVcpuInjectRx]
    split
    · exact hI
    · split
      · exact hI
      · exact latchInv_updateIrq
  | read c addr =>
    rw [UartGic.step, uartEmulRead]
    split
    · split <;> exact latchInv_updateIrq
    all_goals exact hI
  | write c addr value =>
    rw [UartGic.step, uartEmulWrite]
    split
    all_goals first
      | exact latchInv_updateIrq
      | exact hI
  | flush c =>
    rw [UartGic.step]
    split <;> exact hI
  | inject t virq | acknowledge c i | deactivate c i => exact hI

/-! ## Runs -/

/-- The property in every state between the steps. -/
def NeverLost (env : UartEnv) : UartGic → List UartStep → Prop
  | s, [] => NotLost env s
  | s, st :: steps => NotLost env s ∧ NeverLost env (s.step env st) steps

/-- Every step of the run leaves the interrupt in place. -/
def StepsKeep (env : UartEnv) : UartGic → List UartStep → Prop
  | _, [] => True
  | s, st :: steps => st.Keeps env s ∧ StepsKeep env (s.step env st) steps

theorem neverLost_iff (hI : LatchInv s) (h : NotLost env s) (steps : List UartStep) :
    NeverLost env s steps ↔ StepsKeep env s steps := by
  induction steps generalizing s with
  | nil => exact iff_of_true h trivial
  | cons st steps ih =>
    rw [NeverLost, StepsKeep, and_iff_right h]
    constructor
    · intro hrun
      have hnext : NotLost env (s.step env st) := by
        cases steps with
        | nil => exact hrun
        | cons st' steps => exact hrun.1
      exact ⟨(notLost_step hI h st).mp hnext, (ih (latchInv_step hI st) hnext).mp hrun⟩
    · rintro ⟨hst, hrest⟩
      exact (ih (latchInv_step hI st) ((notLost_step hI h st).mpr hst)).mpr hrest

/-- From the registration of the device on, whatever the queues and list registers hold, the
PL011's interrupt is never lost iff every step leaves it in place. -/
theorem pl011_never_lost_iff (env : UartEnv) (queue : TaskId → VirqQueue)
    (lr : Cpu → Nat → BitVec 64) (steps : List UartStep) :
    NeverLost env ⟨uartRegisterEmul, queue, lr⟩ steps ↔
      StepsKeep env ⟨uartRegisterEmul, queue, lr⟩ steps := by
  have hlevel : uartRegisterEmul.rxAsserted = false := by
    decide
  have hinit : LatchInv ⟨uartRegisterEmul, queue, lr⟩ := hlevel.symm
  refine neverLost_iff hinit (fun h => ?_) steps
  exact absurd (hlevel.symm.trans h) Bool.false_ne_true

/-- Task 0 runs on pCPU 0 and is the first vCPU; the UART is at `0x09000000` with SPI 1. -/
def oneVcpu : UartEnv where
  enabled := true
  guestBase := 0x09000000
  guestIrq := 33
  found := some 0
  currentTask := fun c => if c = 0 then some 0 else none
  savedLr := fun _ _ => 0
  lrCount := 4

/-- Two bytes arrive, the guest reads one of them and ends the interrupt: the other one stays in
the FIFO, RX is enabled, and nothing signals it. -/
theorem second_byte_lost :
    ¬ ∀ steps, NeverLost oneVcpu ⟨uartRegisterEmul, fun _ => ⟨fun _ => 0, 0⟩, fun _ _ => 0⟩
      steps := by
  intro h
  have hrun := h [.write 0 0x09000038 0x10, .injectRx 0 97, .injectRx 0 98, .acknowledge 0 0,
    .read 0 0x09000000, .deactivate 0 0]
  obtain ⟨-, -, -, -, -, -, hlast⟩ := hrun
  obtain ⟨c, t, ht, hh⟩ := hlast (by decide +kernel)
  have htask : t = 0 := by
    cases ht
    rfl
  subst htask
  rcases hh with hq | ⟨d, hd, hl⟩ | ⟨hno, -⟩
  · revert hq
    decide +kernel
  · revert hl hd d
    decide +kernel
  · exact hno 0 rfl

end HyperCore.Vgic
