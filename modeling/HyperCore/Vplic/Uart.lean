import HyperCore.Vplic.Index

/-!
# The emulated UART and its interrupt

The NS16550's interrupt is a level: the receive FIFO is not empty and RDI is enabled, or the
transmitter is due and THRI is enabled. `emul_uart.c` recomputes the level in
`ns16550a_update_irq` and turns it into a raise or a clear of irq 10. A claim takes the pending
bit away, and a completion stores nothing.

`uart_level` says what follows: irq 10 is pending iff the level is high and was recomputed since
the last claim of irq 10. Recomputing are the accesses of `Access.Recomputes`, all that can change
the level among them, so between two of them only a claim moves the bit.
-/

namespace HyperCore.Vplic

/-! ## The device -/

/-- `UART_EMUL_FIFO_SIZE` -/
def uartEmulFifoSize : Nat := 128

/-- `GUEST_UART_IRQ` -/
def guestUartIrq : Nat := 10

/-- `struct ns16550a_state` -/
structure Ns16550a where
  rxFifo : Nat → BitVec 8
  rxHead : Nat
  rxTail : Nat
  rxCount : Nat
  dll : BitVec 8
  dlm : BitVec 8
  ier : BitVec 8
  iir : BitVec 8
  fcr : BitVec 8
  lcr : BitVec 8
  mcr : BitVec 8
  lsr : BitVec 8
  msr : BitVec 8
  scr : BitVec 8
  txIrqPending : Bool

/-- `g_uart_state` and `g_vplic`. -/
structure UartPlic where
  uart : Ns16550a
  regs : Regs

namespace Ns16550a

def rxEmpty (u : Ns16550a) : Bool := u.rxCount == 0

def rxFull (u : Ns16550a) : Bool := u.rxCount == uartEmulFifoSize

def rxPop (u : Ns16550a) : Option (BitVec 8 × Ns16550a) :=
  if u.rxEmpty then none
  else some (u.rxFifo u.rxTail,
    { u with rxTail := (u.rxTail + 1) % uartEmulFifoSize, rxCount := u.rxCount - 1 })

def rxPush (u : Ns16550a) (ch : BitVec 8) : Option Ns16550a :=
  if u.rxFull then none
  else some { u with
    rxFifo := Function.update u.rxFifo u.rxHead ch
    rxHead := (u.rxHead + 1) % uartEmulFifoSize
    rxCount := u.rxCount + 1 }

/-- `ier & IER_RDI` -/
def rdi (u : Ns16550a) : Bool := u.ier.getLsbD 0

/-- `ier & IER_THRI` -/
def thri (u : Ns16550a) : Bool := u.ier.getLsbD 1

/-- `lcr & LCR_DLAB` -/
def dlab (u : Ns16550a) : Bool := u.lcr.getLsbD 7

/-- The level of the interrupt line. -/
def level (u : Ns16550a) : Bool := (!u.rxEmpty && u.rdi) || (u.txIrqPending && u.thri)

end Ns16550a

def iirNoInt : BitVec 8 := 0x01
def iirThri : BitVec 8 := 0x02
def iirRdi : BitVec 8 := 0x04
def lsrDr : BitVec 64 := 0x01
def lsrThre : BitVec 64 := 0x20
def lsrTemt : BitVec 64 := 0x40

/-- What `riscv_vplic_raise` and `riscv_vplic_clear` leave in `g_vplic`. -/
def UartPlic.plic (s : UartPlic) (op : Op) : UartPlic :=
  { s with regs := (op.run ⟨s.regs, []⟩).2.regs }

def ns16550aUpdateIrq (s : UartPlic) : UartPlic :=
  if !s.uart.rxEmpty && s.uart.rdi then
    { s with uart := { s.uart with iir := iirRdi } }.plic (.raise guestUartIrq)
  else if s.uart.txIrqPending && s.uart.thri then
    { s with uart := { s.uart with iir := iirThri } }.plic (.raise guestUartIrq)
  else { s with uart := { s.uart with iir := iirNoInt } }.plic (.clear guestUartIrq)

/-- `(u32)(addr & 0xFF)` -/
def uartOffset (addr : BitVec 64) : Nat := (addr &&& 0xff).toNat

/-- The value read, and the state after. -/
def ns16550aRead (s : UartPlic) (addr : BitVec 64) : BitVec 64 × UartPlic :=
  match uartOffset addr with
  | 0 => -- UART_THR
    if s.uart.dlab then (s.uart.dll.setWidth 64, s)
    else
      match s.uart.rxPop with
      | some (ch, uart) => (ch.setWidth 64, ns16550aUpdateIrq { s with uart := uart })
      | none => (0, ns16550aUpdateIrq s)
  | 1 => -- UART_IER
    if s.uart.dlab then (s.uart.dlm.setWidth 64, s) else (s.uart.ier.setWidth 64, s)
  | 2 => -- UART_IIR
    let uart := if s.uart.iir = iirThri then { s.uart with txIrqPending := false } else s.uart
    (uart.iir.setWidth 64, ns16550aUpdateIrq { s with uart := uart })
  | 3 => (s.uart.lcr.setWidth 64, s)
  | 4 => (s.uart.mcr.setWidth 64, s)
  | 5 => -- UART_LSR
    let value := s.uart.lsr.setWidth 64 ||| lsrThre ||| lsrTemt
    (if s.uart.rxEmpty then value else value ||| lsrDr, s)
  | 6 => (s.uart.msr.setWidth 64, s)
  | 7 => (s.uart.scr.setWidth 64, s)
  | _ => (0, s)

/-- The byte that a write to THR sends to the host's UART is not kept. -/
def ns16550aWrite (s : UartPlic) (addr value : BitVec 64) : UartPlic :=
  let byte := value.setWidth 8
  match uartOffset addr with
  | 0 => -- UART_THR
    if s.uart.dlab then { s with uart := { s.uart with dll := byte } }
    else ns16550aUpdateIrq { s with uart := { s.uart with txIrqPending := true } }
  | 1 => -- UART_IER
    if s.uart.dlab then { s with uart := { s.uart with dlm := byte } }
    else
      let uart := { s.uart with ier := byte }
      ns16550aUpdateIrq
        { s with uart := if uart.thri then { uart with txIrqPending := true } else uart }
  | 2 => -- FCR
    let uart := { s.uart with fcr := byte }
    ns16550aUpdateIrq
      { s with
        uart := if value.getLsbD 1 then { uart with rxHead := 0, rxTail := 0, rxCount := 0 }
          else uart }
  | 3 => { s with uart := { s.uart with lcr := byte } }
  | 4 => { s with uart := { s.uart with mcr := byte } }
  | 7 => { s with uart := { s.uart with scr := byte } }
  | _ => s

/-- Whether the byte was taken, and the state after. -/
def uartVcpuInjectRx (s : UartPlic) (ch : BitVec 8) : Bool × UartPlic :=
  match s.uart.rxPush ch with
  | some uart => (true, ns16550aUpdateIrq { s with uart := uart })
  | none => (false, ns16550aUpdateIrq s)

/-- `uart_emul_service_host`, with the bytes that the host's UART has. -/
def uartEmulServiceHost (s : UartPlic) : List (BitVec 8) → UartPlic
  | [] => s
  | ch :: rest =>
    let (taken, s) := uartVcpuInjectRx s ch
    if taken then uartEmulServiceHost s rest else s

/-- `uart_register_emul` and `plic_register_emul`. -/
def initUartPlic : UartPlic where
  uart :=
    { rxFifo := fun _ => 0, rxHead := 0, rxTail := 0, rxCount := 0, dll := 0, dlm := 0, ier := 0,
      iir := iirNoInt, fcr := 0, lcr := 0, mcr := 0, lsr := 0x60, msr := 0, scr := 0,
      txIrqPending := false }
  regs := initRegs

/-! ## Runs -/

/-- What moves the two devices: bytes that the host receives, and the guest's accesses. -/
inductive Access
  | host (bytes : List (BitVec 8))
  | uartRead (addr : BitVec 64)
  | uartWrite (addr value : BitVec 64)
  | plicRead (addr : BitVec 64)
  | plicWrite (addr value : BitVec 64)

def Access.run (s : UartPlic) : Access → UartPlic
  | .host bytes => uartEmulServiceHost s bytes
  | .uartRead addr => (ns16550aRead s addr).2
  | .uartWrite addr value => ns16550aWrite s addr value
  | .plicRead addr => s.plic (.read addr)
  | .plicWrite addr value => s.plic (.write addr value)

/-- The access ends in `ns16550a_update_irq`. -/
def Access.Recomputes (s : UartPlic) : Access → Bool
  | .host bytes => !bytes.isEmpty
  | .uartRead addr => uartOffset addr == 0 && !s.uart.dlab || uartOffset addr == 2
  | .uartWrite addr _ =>
    (uartOffset addr == 0 || uartOffset addr == 1) && !s.uart.dlab || uartOffset addr == 2
  | .plicRead _ | .plicWrite _ _ => false

/-- The access is a claim that returns irq 10. -/
def Access.Claims (s : UartPlic) : Access → Bool
  | .plicRead addr => (claimContext (plicOffset addr)).isSome &&
    ((Op.read addr).run ⟨s.regs, []⟩).1.1 == BitVec.ofNat 32 guestUartIrq
  | _ => false

/-- The access writes irq 10 to a completion register. -/
def Access.Completes : Access → Bool
  | .plicWrite addr value => (claimContext (plicOffset addr)).isSome &&
    value.setWidth 32 == BitVec.ofNat 32 guestUartIrq
  | _ => false

/-- How far the guest is with irq 10. -/
inductive Stage
  | idle | claimed | completed
deriving DecidableEq

/-- The guest's handling of irq 10, and whether the level was recomputed since the last claim. -/
structure Service where
  stage : Stage
  recomputed : Bool

def Service.next (g : Service) (s : UartPlic) (a : Access) : Service where
  stage :=
    if a.Claims s then .claimed
    else if a.Completes && decide (g.stage = .claimed) then .completed else g.stage
  recomputed := (g.recomputed && !a.Claims s) || a.Recomputes s

inductive UartRun : UartPlic → Service → Prop
  | init : UartRun initUartPlic ⟨.idle, true⟩
  | step {s : UartPlic} {g : Service} (a : Access) : UartRun s g → UartRun (a.run s) (g.next s a)

def runAccesses (s : UartPlic) (g : Service) : List Access → UartPlic × Service
  | [] => (s, g)
  | a :: rest => runAccesses (a.run s) (g.next s a) rest

theorem UartRun.accesses {s : UartPlic} {g : Service} (h : UartRun s g) (as : List Access) :
    UartRun (runAccesses s g as).1 (runAccesses s g as).2 := by
  induction as generalizing s g with
  | nil => exact h
  | cons a rest ih => exact ih (h.step a)

/-! ## The level and the pending bit -/

/-- Irq 10 is pending. -/
def UartPlic.uartPending (s : UartPlic) : Bool := pendingBit s.regs guestUartIrq

theorem plic_uart (s : UartPlic) (op : Op) : (s.plic op).uart = s.uart := by
  rw [UartPlic.plic]

theorem plic_pending (s : UartPlic) (op : Op) :
    (s.plic op).uartPending = pendingBit (op.after s.regs) guestUartIrq := by
  rw [UartPlic.uartPending, UartPlic.plic, op.run_regs]

/-- Recomputing makes the pending bit the level, which it does not change. -/
theorem updateIrq_spec (s : UartPlic) : (ns16550aUpdateIrq s).uart.level = s.uart.level ∧
    (ns16550aUpdateIrq s).uartPending = s.uart.level := by
  have hvalid : vplicIrqValid guestUartIrq = true := rfl
  have hset (s : UartPlic) (on : Bool) :
      pendingBit (setPending s.regs guestUartIrq on) guestUartIrq = on := by
    rw [pendingBit_setPending, if_pos rfl]
  unfold ns16550aUpdateIrq
  split
  · next hrdi =>
    refine ⟨rfl, ?_⟩
    rw [plic_pending, Op.after, if_pos hvalid, hset, Ns16550a.level, hrdi, Bool.true_or]
  split
  · next hrdi hthri =>
    refine ⟨rfl, ?_⟩
    rw [plic_pending, Op.after, if_pos hvalid, hset, Ns16550a.level, hthri, Bool.or_true]
  · next hrdi hthri =>
    refine ⟨rfl, ?_⟩
    rw [plic_pending, Op.after, if_pos hvalid, hset, Ns16550a.level, Bool.eq_false_of_not_eq_true hrdi,
      Bool.eq_false_of_not_eq_true hthri, Bool.or_false]

/-- A read of the vPLIC takes the pending bit of irq 10 away iff it is a claim that returns 10. -/
theorem plicRead_pending (s : UartPlic) (addr : BitVec 64) :
    (s.plic (.read addr)).uartPending = (s.uartPending && !(Access.plicRead addr).Claims s) := by
  rw [plic_pending, Op.after, Access.Claims]
  cases hc : claimContext (plicOffset addr) with
  | none => simp [UartPlic.uartPending]
  | some c =>
    have hvalue : ((Op.read addr).run ⟨s.regs, []⟩).1.1 = BitVec.ofNat 32 guestUartIrq ↔
        claimed s.regs c = guestUartIrq := by
      rw [← BitVec.toNat_inj, claim_value hc]
      rfl
    simp only [Option.isSome_some, Bool.true_and]
    by_cases hclaims : claimed s.regs c = guestUartIrq
    · have hne : claimed s.regs c ≠ 0 := by rw [hclaims]; decide
      rw [if_pos hne, pendingBit_setPending, if_pos hclaims.symm, hvalue.2 hclaims]
      simp
    · have hvalue' : (((Op.read addr).run ⟨s.regs, []⟩).1.1 == BitVec.ofNat 32 guestUartIrq) =
          false := beq_eq_false_iff_ne.2 fun h => hclaims (hvalue.1 h)
      rw [hvalue', Bool.not_false, Bool.and_true]
      split
      · rw [pendingBit_setPending, if_neg (Ne.symm hclaims), UartPlic.uartPending]
      · rfl

theorem uartVcpuInjectRx_spec (s : UartPlic) (ch : BitVec 8) :
    (uartVcpuInjectRx s ch).2.uartPending = (uartVcpuInjectRx s ch).2.uart.level := by
  unfold uartVcpuInjectRx
  split
  · rw [(updateIrq_spec _).2, (updateIrq_spec _).1]
  · rw [(updateIrq_spec _).2, (updateIrq_spec _).1]

/-- Bytes from the host keep the pending bit at the level. -/
theorem serviceHost_keeps {s : UartPlic} (bytes : List (BitVec 8))
    (h : s.uartPending = s.uart.level) : (uartEmulServiceHost s bytes).uartPending =
      (uartEmulServiceHost s bytes).uart.level := by
  induction bytes generalizing s with
  | nil => exact h
  | cons ch rest ih =>
    have hstep := uartVcpuInjectRx_spec s ch
    unfold uartEmulServiceHost
    split
    next taken s' hinject =>
    rw [hinject] at hstep
    split
    · exact ih hstep
    · exact hstep

theorem serviceHost_cons (s : UartPlic) (ch : BitVec 8) (rest : List (BitVec 8)) :
    (uartEmulServiceHost s (ch :: rest)).uartPending =
      (uartEmulServiceHost s (ch :: rest)).uart.level := by
  have hstep := uartVcpuInjectRx_spec s ch
  unfold uartEmulServiceHost
  split
  next taken s' hinject =>
  rw [hinject] at hstep
  split
  · exact serviceHost_keeps rest hstep
  · exact hstep

theorem updateIrq_keeps (s : UartPlic) :
    (ns16550aUpdateIrq s).uartPending = (ns16550aUpdateIrq s).uart.level := by
  rw [(updateIrq_spec s).2, (updateIrq_spec s).1]

theorem ns16550aRead_spec (s : UartPlic) (addr : BitVec 64) :
    ((Access.uartRead addr).Recomputes s = true →
      ∃ s', (ns16550aRead s addr).2 = ns16550aUpdateIrq s') ∧
    ((Access.uartRead addr).Recomputes s = false → (ns16550aRead s addr).2 = s) := by
  simp only [Access.Recomputes]
  unfold ns16550aRead
  split
  · next hoff =>
    rw [hoff]
    cases hdlab : s.uart.dlab with
    | true => simp
    | false =>
      refine ⟨fun _ => ?_, by simp⟩
      simp only [Bool.false_eq_true, if_false]
      split
      · exact ⟨_, rfl⟩
      · exact ⟨_, rfl⟩
  · next hoff =>
    rw [hoff]
    cases s.uart.dlab <;> simp
  · next hoff =>
    rw [hoff]
    exact ⟨fun _ => ⟨_, rfl⟩, by simp⟩
  all_goals simp_all

theorem ns16550aWrite_spec (s : UartPlic) (addr value : BitVec 64) :
    ((Access.uartWrite addr value).Recomputes s = true →
      ∃ s', ns16550aWrite s addr value = ns16550aUpdateIrq s') ∧
    ((Access.uartWrite addr value).Recomputes s = false →
      (ns16550aWrite s addr value).uart.level = s.uart.level ∧
        (ns16550aWrite s addr value).regs = s.regs) := by
  simp only [Access.Recomputes]
  unfold ns16550aWrite
  simp only
  split
  · next hoff =>
    rw [hoff]
    cases hdlab : s.uart.dlab with
    | true => simp [Ns16550a.level, Ns16550a.rxEmpty, Ns16550a.rdi, Ns16550a.thri]
    | false => exact ⟨fun _ => ⟨_, rfl⟩, by simp⟩
  · next hoff =>
    rw [hoff]
    cases hdlab : s.uart.dlab with
    | true => simp [Ns16550a.level, Ns16550a.rxEmpty, Ns16550a.rdi, Ns16550a.thri]
    | false => exact ⟨fun _ => ⟨_, rfl⟩, by simp⟩
  · next hoff =>
    rw [hoff]
    exact ⟨fun _ => ⟨_, rfl⟩, by simp⟩
  -- the remaining registers neither change the level nor recompute it
  all_goals simp_all [Ns16550a.level, Ns16550a.rxEmpty, Ns16550a.rdi, Ns16550a.thri]

/-- An access that recomputes leaves the pending bit at the level. -/
theorem recomputes_spec {s : UartPlic} {a : Access} (h : a.Recomputes s = true) :
    (a.run s).uartPending = (a.run s).uart.level := by
  cases a with
  | host bytes =>
    cases bytes with
    | nil => simp [Access.Recomputes] at h
    | cons ch rest => exact serviceHost_cons s ch rest
  | uartRead addr =>
    obtain ⟨s', hs'⟩ := (ns16550aRead_spec s addr).1 h
    change (ns16550aRead s addr).2.uartPending = (ns16550aRead s addr).2.uart.level
    rw [hs', updateIrq_keeps]
  | uartWrite addr value =>
    obtain ⟨s', hs'⟩ := (ns16550aWrite_spec s addr value).1 h
    change (ns16550aWrite s addr value).uartPending = (ns16550aWrite s addr value).uart.level
    rw [hs', updateIrq_keeps]
  | plicRead addr => simp [Access.Recomputes] at h
  | plicWrite addr value => simp [Access.Recomputes] at h

/-- Any other access keeps the level, and takes the pending bit away only as a claim. -/
theorem keeps_spec {s : UartPlic} {a : Access} (h : a.Recomputes s = false) :
    (a.run s).uart.level = s.uart.level ∧
      (a.run s).uartPending = (s.uartPending && !a.Claims s) := by
  cases a with
  | host bytes =>
    cases bytes with
    | nil => simp [Access.run, uartEmulServiceHost, Access.Claims]
    | cons ch rest => simp [Access.Recomputes] at h
  | uartRead addr =>
    have hkeep : (Access.uartRead addr).run s = s := (ns16550aRead_spec s addr).2 h
    simp [hkeep, Access.Claims]
  | uartWrite addr value =>
    obtain ⟨hlevel, hregs⟩ := (ns16550aWrite_spec s addr value).2 h
    refine ⟨hlevel, ?_⟩
    change (ns16550aWrite s addr value).uartPending = _
    simp [UartPlic.uartPending, hregs, Access.Claims]
  | plicRead addr =>
    refine ⟨?_, plicRead_pending s addr⟩
    rw [Access.run, plic_uart]
  | plicWrite addr value =>
    simp only [Access.run, Access.Claims, Bool.not_false, Bool.and_true]
    refine ⟨by rw [plic_uart], ?_⟩
    rw [plic_pending, Op.after, pendingBit_written (by decide), UartPlic.uartPending]

/-- The pending bit of irq 10 is the level, if it was recomputed since the last claim. -/
theorem UartRun.pending_eq {s : UartPlic} {g : Service} (h : UartRun s g) :
    s.uartPending = (s.uart.level && g.recomputed) := by
  induction h with
  | init => decide
  | @step s g a _ ih =>
    cases ha : a.Recomputes s with
    | true => rw [recomputes_spec ha, Service.next, ha, Bool.or_true, Bool.and_true]
    | false =>
      rw [(keeps_spec ha).2, (keeps_spec ha).1, Service.next, ha, Bool.or_false, ih, Bool.and_assoc]

/-! ## The level after a completion -/

/-- After a claim and a completion of irq 10 the level is pending again iff it was recomputed since
the claim, and every access that changes the level recomputes it. -/
theorem uart_level :
    (∀ (s : UartPlic) (g : Service), UartRun s g → g.stage = .completed → s.uart.level = true →
      (s.uartPending = true ↔ g.recomputed = true)) ∧
    ∀ (s : UartPlic) (a : Access), (a.run s).uart.level ≠ s.uart.level → a.Recomputes s = true := by
  refine ⟨fun s g h _ hlevel => ?_, fun s a hchange => ?_⟩
  · rw [h.pending_eq, hlevel, Bool.true_and]
  · by_contra hrec
    exact hchange (keeps_spec (Bool.eq_false_of_not_eq_true hrec)).1

/-- The guest enables RDI and irq 10, takes the interrupt of one byte and completes it before it
reads the FIFO. -/
def completeFirst : List Access :=
  [.uartWrite 0x20000001 1, .plicWrite 0x0c002000 0x400, .host [0x41], .plicRead 0x0c200004,
    .plicWrite 0x0c200004 10]

theorem uart_level_next_byte : ∃ s g, UartRun s g ∧ s.uart.level = true ∧
    s.uartPending = true := by
  obtain ⟨s, g, hrun, hstage, hlevel, hrecomputed⟩ : ∃ s g, UartRun s g ∧ g.stage = .completed ∧
      s.uart.level = true ∧ g.recomputed = true :=
    ⟨_, _, UartRun.init.accesses (completeFirst ++ [.host [0x42]]), by decide +kernel⟩
  exact ⟨s, g, hrun, hlevel, (uart_level.1 s g hrun hstage hlevel).2 hrecomputed⟩

theorem completed_not_pending : ¬ ∀ s g, UartRun s g → g.stage = .completed →
    s.uart.level = true → s.uartPending = true := by
  intro h
  obtain ⟨s, g, hrun, hstage, hlevel, hpending⟩ : ∃ s g, UartRun s g ∧ g.stage = .completed ∧
      s.uart.level = true ∧ s.uartPending = false :=
    ⟨_, _, UartRun.init.accesses completeFirst, by decide +kernel⟩
  rw [h s g hrun hstage hlevel] at hpending
  cases hpending

end HyperCore.Vplic
