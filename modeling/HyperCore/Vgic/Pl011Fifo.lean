import HyperCore.Lib.RingFifo
import HyperCore.Vgic.Pl011

/-!
# The receive FIFO of the PL011

Whatever the guest and the host do, the FIFO is a queue of at most 128 bytes: what the guest reads
from the data register is what was accepted, in order, and the flags tell how full it is
(`pl011_refines`). Servicing the host's UART is a `feed` of that queue.
-/

namespace HyperCore.Vgic

open RingFifo Sched

/-- `rx_fifo` with its indices. -/
def UartEmulState.fifo (u : UartEmulState) : Fifo (BitVec 8) :=
  ⟨u.rxFifo, u.rxHead, u.rxTail, u.rxCount⟩

/-- The bytes that wait, the oldest first. -/
def UartEmulState.queue (u : UartEmulState) : List (BitVec 8) := toList uartEmulFifoSize u.fifo

/-- `uart_vcpu_inject_rx` with its result. -/
def uartVcpuInjectRxRet (env : UartEnv) (c : Cpu) (s : UartGic) (ch : BitVec 8) : Int × UartGic :=
  if !env.enabled then (-1, s)
  else if s.uart.rxFull then (-1, s)
  else (0, uartEmulUpdateIrq env c { s with uart := s.uart.rxPush ch })

/-- `uart_emul_service_host`, with the bytes in the host's UART: the state after, and the bytes
left there. -/
def uartEmulServiceHost (env : UartEnv) (c : Cpu) (s : UartGic) (host : List (BitVec 8)) :
    UartGic × List (BitVec 8) :=
  if !env.enabled then (s, host)
  else
    feed (fun s ch =>
      let r := uartVcpuInjectRxRet env c s ch
      (r.1 == 0, r.2)) s host

/-- The bytes that the FIFO has accepted, and the ones that reads of the data register have
returned. -/
structure RxHistory where
  accepted : List (BitVec 8)
  returned : List (BitVec 8)

def RxHistory.next (env : UartEnv) (s : UartGic) (h : RxHistory) : UartStep → RxHistory
  | .injectRx c ch =>
    if (uartVcpuInjectRxRet env c s ch).1 = 0 then { h with accepted := h.accepted ++ [ch] } else h
  | .read c addr =>
    if uartEmulOffset env addr = 0x000 ∧ s.uart.rxEmpty = false then
      { h with returned := h.returned ++ [(uartEmulRead env c s addr).1.setWidth 8] }
    else h
  | .write _ _ _ | .inject _ _ | .flush _ | .acknowledge _ _ | .deactivate _ _ => h

/-- A run with its history. -/
def uartRun (env : UartEnv) (s : UartGic) (h : RxHistory) : List UartStep → UartGic × RxHistory
  | [] => (s, h)
  | st :: steps => uartRun env (s.step env st) (h.next env s st) steps

/-- What makes the device a queue of 128 bytes. -/
structure Pl011Refines (env : UartEnv) (s : UartGic) (h : RxHistory) : Prop where
  count : s.uart.rxCount ≤ 128
  head : s.uart.rxHead = (s.uart.rxTail + s.uart.rxCount) % 128
  bytes : h.accepted = h.returned ++ s.uart.queue
  inject : ∀ c ch, (uartVcpuInjectRxRet env c s ch).1 ≠ 0 ↔
    env.enabled = false ∨ s.uart.queue.length = 128
  empty : ∀ c addr, uartEmulOffset env addr = 0x000 → s.uart.queue = [] →
    (uartEmulRead env c s addr).1 = 0 ∧ (uartEmulRead env c s addr).2.uart.fifo = s.uart.fifo
  fr : ∀ c addr, uartEmulOffset env addr = 0x018 →
    ((uartEmulRead env c s addr).1.getLsbD 4 = true ↔ s.uart.queue = []) ∧
    ((uartEmulRead env c s addr).1.getLsbD 6 = true ↔ s.uart.queue.length = 128)
  ris : ∀ c addr, uartEmulOffset env addr = 0x03c →
    ((uartEmulRead env c s addr).1.getLsbD 4 = true ↔ s.uart.queue ≠ []) ∧
    ((uartEmulRead env c s addr).1.getLsbD 6 = true ↔ s.uart.queue ≠ [])

section

variable {env : UartEnv} {s : UartGic} {c : Cpu} {h : RxHistory} {addr value : BitVec 64}
  {ch : BitVec 8} {u : UartEmulState}

/-! ## The queue -/

theorem length_queue : u.queue.length = u.rxCount := RingFifo.length_toList

theorem rxEmpty_iff : u.rxEmpty = true ↔ u.queue = [] := by
  rw [UartEmulState.queue, toList_eq_nil, UartEmulState.rxEmpty, beq_iff_eq]
  rfl

theorem rxFull_iff : u.rxFull = true ↔ u.queue.length = 128 := by
  rw [length_queue, UartEmulState.rxFull, beq_iff_eq]
  rfl

theorem fifo_updateIrq : (uartEmulUpdateIrq env c s).uart.fifo = s.uart.fifo := by
  rw [updateIrq_uart]
  rfl

theorem queue_of_fifo {u' : UartEmulState} (h : u'.fifo = u.fifo) : u'.queue = u.queue := by
  rw [UartEmulState.queue, h]
  rfl

theorem injectRxRet_state :
    (uartVcpuInjectRxRet env c s ch).2 = uartVcpuInjectRx env c s ch := by
  unfold uartVcpuInjectRxRet uartVcpuInjectRx
  split
  · rfl
  · split <;> rfl

theorem injectRxRet_ok : (uartVcpuInjectRxRet env c s ch).1 = 0 ↔
    env.enabled = true ∧ s.uart.rxFull = false := by
  unfold uartVcpuInjectRxRet
  cases env.enabled <;> cases s.uart.rxFull <;> simp

/-- Whether the byte is taken, and the queue after. -/
theorem injectRx_fifo : (uartVcpuInjectRx env c s ch).uart.fifo =
    if env.enabled = true ∧ s.uart.rxFull = false then push uartEmulFifoSize s.uart.fifo ch
    else s.uart.fifo := by
  unfold uartVcpuInjectRx
  cases env.enabled with
  | false => rfl
  | true =>
    cases s.uart.rxFull with
    | true => rfl
    | false =>
      simp only [Bool.not_true, Bool.false_eq_true, if_false, and_self, if_true]
      exact fifo_updateIrq

theorem read_fifo_other (hoff : uartEmulOffset env addr ≠ 0x000) :
    (uartEmulRead env c s addr).2.uart.fifo = s.uart.fifo := by
  unfold uartEmulRead
  split
  · next hzero => exact absurd hzero hoff
  all_goals rfl

/-- A read takes the front byte at the data register and leaves the queue alone elsewhere. -/
theorem read_fifo : (uartEmulRead env c s addr).2.uart.fifo =
    if uartEmulOffset env addr = 0x000 ∧ s.uart.rxEmpty = false then
      pop uartEmulFifoSize s.uart.fifo
    else s.uart.fifo := by
  by_cases hoff : uartEmulOffset env addr = 0x000
  · unfold uartEmulRead
    rw [hoff]
    cases hempty : s.uart.rxEmpty with
    | true => simp only [if_true, Bool.true_eq_false, and_false, if_false, fifo_updateIrq]
    | false =>
      simp only [Bool.false_eq_true, if_false, and_self, if_true, fifo_updateIrq]
      rfl
  · rw [if_neg fun h => hoff h.1]
    exact read_fifo_other hoff

theorem write_fifo : (uartEmulWrite env c s addr value).uart.fifo = s.uart.fifo := by
  unfold uartEmulWrite
  split
  all_goals first
    | rfl
    | exact fifo_updateIrq

theorem read_data (hoff : uartEmulOffset env addr = 0x000) (hdata : s.uart.rxEmpty = false) :
    (uartEmulRead env c s addr).1.setWidth 8 = s.uart.rxFifo s.uart.rxTail := by
  unfold uartEmulRead
  rw [hoff]
  simp only [hdata, Bool.false_eq_true, if_false, UartEmulState.rxPop]
  exact BitVec.setWidth_setWidth_of_le _ (by decide) |>.trans (BitVec.setWidth_eq _)

/-! ## The invariant -/

/-- The queue is well formed, and holds what was accepted and not read yet. -/
structure RxInv (s : UartGic) (h : RxHistory) : Prop where
  wf : Wf uartEmulFifoSize s.uart.fifo
  bytes : h.accepted = h.returned ++ s.uart.queue

theorem RxInv.of_fifo {s' : UartGic} (hinv : RxInv s h) (hf : s'.uart.fifo = s.uart.fifo) :
    RxInv s' h where
  wf := by
    rw [hf]
    exact hinv.wf
  bytes := by
    rw [queue_of_fifo hf]
    exact hinv.bytes

theorem RxInv.injectRx (hinv : RxInv s h) :
    RxInv (uartVcpuInjectRx env c s ch) (h.next env s (.injectRx c ch)) := by
  have hfifo : (uartVcpuInjectRx env c s ch).uart.fifo = _ := injectRx_fifo
  rw [RxHistory.next]
  by_cases hok : env.enabled = true ∧ s.uart.rxFull = false
  · rw [if_pos hok] at hfifo
    rw [if_pos (injectRxRet_ok.mpr hok)]
    have hroom : s.uart.fifo.count < uartEmulFifoSize := by
      refine Nat.lt_of_le_of_ne hinv.wf.bound fun hfull => ?_
      exact Bool.false_ne_true (hok.2.symm.trans (beq_iff_eq.mpr hfull))
    refine ⟨?_, ?_⟩
    · rw [hfifo]
      exact push_wf hinv.wf hroom ch
    · rw [UartEmulState.queue, hfifo, toList_push hinv.wf hroom, hinv.bytes, List.append_assoc]
      rfl
  · rw [if_neg hok] at hfifo
    rw [if_neg fun h => hok (injectRxRet_ok.mp h)]
    exact hinv.of_fifo hfifo

theorem RxInv.read (hinv : RxInv s h) :
    RxInv (uartEmulRead env c s addr).2 (h.next env s (.read c addr)) := by
  have hfifo : (uartEmulRead env c s addr).2.uart.fifo = _ := read_fifo
  rw [RxHistory.next]
  by_cases hdata : uartEmulOffset env addr = 0x000 ∧ s.uart.rxEmpty = false
  · rw [if_pos hdata] at hfifo ⊢
    have hpos : 0 < s.uart.fifo.count := by
      refine Nat.pos_of_ne_zero fun hzero => ?_
      exact Bool.false_ne_true (hdata.2.symm.trans (beq_iff_eq.mpr hzero))
    refine ⟨?_, ?_⟩
    · rw [hfifo]
      exact pop_wf hinv.wf hpos
    · have hqueue : s.uart.queue = s.uart.rxFifo s.uart.rxTail ::
          toList uartEmulFifoSize (pop uartEmulFifoSize s.uart.fifo) := toList_pop hinv.wf hpos
      rw [UartEmulState.queue, hfifo, read_data hdata.1 hdata.2]
      simp only [hinv.bytes, hqueue, List.append_assoc, List.singleton_append]
  · rw [if_neg hdata] at hfifo ⊢
    exact hinv.of_fifo hfifo

/-- The step. -/
theorem RxInv.step (hinv : RxInv s h) (st : UartStep) : RxInv (s.step env st) (h.next env s st) := by
  cases st with
  | injectRx c ch => exact hinv.injectRx
  | read c addr => exact hinv.read
  | write c addr value => exact hinv.of_fifo write_fifo
  | inject t virq => exact hinv.of_fifo rfl
  | flush c =>
    refine hinv.of_fifo ?_
    simp only [UartGic.step]
    split <;> rfl
  | acknowledge c i => exact hinv.of_fifo rfl
  | deactivate c i => exact hinv.of_fifo rfl

/-- The run. -/
theorem RxInv.run (hinv : RxInv s h) (steps : List UartStep) :
    RxInv (uartRun env s h steps).1 (uartRun env s h steps).2 := by
  induction steps generalizing s h with
  | nil => exact hinv
  | cons st steps ih => exact ih (hinv.step st)

theorem rxInv_init {queue : TaskId → VirqQueue} {lr : Cpu → Nat → BitVec 64} :
    RxInv ⟨uartRegisterEmul, queue, lr⟩ ⟨[], []⟩ :=
  ⟨⟨Nat.zero_le _, Nat.succ_pos 127, rfl⟩, rfl⟩

/-! ## What the guest sees -/

theorem readFr_bits : ((uartEmulReadFr u).getLsbD 4 = true ↔ u.rxEmpty = true) ∧
    ((uartEmulReadFr u).getLsbD 6 = true ↔ u.rxFull = true) := by
  unfold uartEmulReadFr
  cases u.rxEmpty <;> cases u.rxFull <;> decide

/-- RX and RT are raw exactly when there is data. -/
theorem refresh_bits {i : Nat} (hi : i = 4 ∨ i = 6) :
    (u.refreshRxIrq.ris.setWidth 64).getLsbD i = !u.rxEmpty := by
  have hmask : (uartIntRx ||| uartIntRt).getLsbD i = true := by
    rcases hi with rfl | rfl <;> decide
  have hlt : i < 32 := by omega
  rw [BitVec.getLsbD_setWidth, UartEmulState.refreshRxIrq]
  cases u.rxEmpty with
  | true =>
    simp only [if_true, BitVec.getLsbD_and, BitVec.getLsbD_not, hmask]
    simp
  | false =>
    simp only [Bool.false_eq_true, if_false, BitVec.getLsbD_or, hmask]
    simp only [Bool.or_true, Bool.and_true, Bool.not_false, decide_eq_true_eq]
    omega

theorem RxInv.refines (hinv : RxInv s h) : Pl011Refines env s h where
  count := hinv.wf.bound
  head := hinv.wf.head
  bytes := hinv.bytes
  inject c ch := by
    rw [Ne, injectRxRet_ok, ← rxFull_iff, not_and_or, Bool.not_eq_true, Bool.not_eq_false]
  empty c addr hoff hnil := by
    have hempty := rxEmpty_iff.mpr hnil
    refine ⟨?_, ?_⟩
    · unfold uartEmulRead
      simp only [hoff, hempty, if_true]
    · rw [read_fifo, if_neg fun h => Bool.false_ne_true (h.2.symm.trans hempty)]
  fr c addr hoff := by
    have hread : (uartEmulRead env c s addr).1 = uartEmulReadFr s.uart := by
      simp only [uartEmulRead, hoff]
    rw [hread, readFr_bits.1, readFr_bits.2, rxEmpty_iff, rxFull_iff]
    exact ⟨Iff.rfl, Iff.rfl⟩
  ris c addr hoff := by
    have hread : (uartEmulRead env c s addr).1 = s.uart.refreshRxIrq.ris.setWidth 64 := by
      simp only [uartEmulRead, hoff]
    have hdata : (!s.uart.rxEmpty) = true ↔ s.uart.queue ≠ [] := by
      rw [Ne, ← rxEmpty_iff, Bool.not_eq_true', Bool.not_eq_true]
    rw [hread, refresh_bits (.inl rfl), refresh_bits (.inr rfl), hdata]
    exact ⟨Iff.rfl, Iff.rfl⟩

/-- In every run the device is the queue. -/
theorem pl011_refines (queue : TaskId → VirqQueue) (lr : Cpu → Nat → BitVec 64)
    (steps : List UartStep) :
    Pl011Refines env (uartRun env ⟨uartRegisterEmul, queue, lr⟩ ⟨[], []⟩ steps).1
      (uartRun env ⟨uartRegisterEmul, queue, lr⟩ ⟨[], []⟩ steps).2 :=
  (rxInv_init.run steps).refines

/-! ## The host's UART -/

/-- With the UART enabled, an injection is the push of a queue with room for 128 bytes. -/
theorem injectRx_bounded (henabled : env.enabled = true) :
    Bounded (fun s ch => ((uartVcpuInjectRxRet env c s ch).1 == 0,
      (uartVcpuInjectRxRet env c s ch).2))
      (fun s => Wf uartEmulFifoSize s.uart.fifo) (fun s => s.uart.queue) uartEmulFifoSize where
  keeps s ch hwf := by
    have hinv : RxInv s ⟨s.uart.queue, []⟩ := ⟨hwf, rfl⟩
    rw [injectRxRet_state]
    exact hinv.injectRx.wf
  bound s hwf := by
    rw [length_queue]
    exact hwf.bound
  took s ch hwf hroom := by
    have hfull : s.uart.rxFull = false := by
      refine Bool.eq_false_iff.mpr fun hfull => ?_
      exact Nat.ne_of_lt hroom (rxFull_iff.mp hfull)
    have hroom' : s.uart.fifo.count < uartEmulFifoSize := by
      rw [length_queue] at hroom
      exact hroom
    refine ⟨beq_iff_eq.mpr (injectRxRet_ok.mpr ⟨henabled, hfull⟩), ?_⟩
    rw [injectRxRet_state, UartEmulState.queue, injectRx_fifo, if_pos ⟨henabled, hfull⟩,
      toList_push hwf hroom']
    rfl
  refused s ch hwf hlen := by
    have hfull : s.uart.rxFull = true := rxFull_iff.mpr hlen
    have hno : ¬ (env.enabled = true ∧ s.uart.rxFull = false) := fun h =>
      Bool.false_ne_true (h.2.symm.trans hfull)
    refine ⟨beq_eq_false_iff_ne.mpr fun h => hno (injectRxRet_ok.mp h), ?_⟩
    rw [injectRxRet_state, UartEmulState.queue, injectRx_fifo, if_neg hno]
    rfl

/-- No byte of the host is lost exactly when the UART is disabled or there is room for all. -/
theorem serviceHost_exact_iff (hwf : Wf uartEmulFifoSize s.uart.fifo) (host : List (BitVec 8)) :
    (∃ moved, host = moved ++ (uartEmulServiceHost env c s host).2 ∧
      (uartEmulServiceHost env c s host).1.uart.queue = s.uart.queue ++ moved) ↔
    env.enabled = false ∨ s.uart.queue.length + host.length ≤ 128 := by
  unfold uartEmulServiceHost
  cases henabled : env.enabled with
  | false => exact iff_of_true ⟨[], rfl, (List.append_nil _).symm⟩ (.inl rfl)
  | true =>
    simp only [Bool.not_true, Bool.false_eq_true, if_false, false_or, Bool.true_eq_false]
    exact feed_exact_iff (injectRx_bounded henabled) hwf host

end

end HyperCore.Vgic
