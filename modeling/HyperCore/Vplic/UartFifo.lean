import HyperCore.Lib.RingFifo
import HyperCore.Vplic.Uart

/-!
# The receive FIFO of the NS16550

The same queue of at most 128 bytes as the PL011's, which a write to FCR can empty as well: what the
guest reads from RBR since the last reset is what was accepted since then, in order, and LSR.DR
tells whether there is more (`ns16550_refines`).
-/

namespace HyperCore.Vplic

open RingFifo

/-- `rx_fifo` with its indices. -/
def Ns16550a.fifo (u : Ns16550a) : Fifo (BitVec 8) := ⟨u.rxFifo, u.rxHead, u.rxTail, u.rxCount⟩

/-- The bytes that wait, the oldest first. -/
def Ns16550a.queue (u : Ns16550a) : List (BitVec 8) := toList uartEmulFifoSize u.fifo

/-- `uart_emul_service_host`, with the bytes in the host's UART: the state after, and the bytes
left there. -/
def uartEmulServiceHostLeft (s : UartPlic) (host : List (BitVec 8)) :
    UartPlic × List (BitVec 8) :=
  feed uartVcpuInjectRx s host

/-- An injected byte, or an access of the guest to one of the two devices. -/
inductive RxStep
  | injectRx (ch : BitVec 8)
  | read (addr : BitVec 64)
  | write (addr value : BitVec 64)
  | plic (op : Op)

def UartPlic.rxStep (s : UartPlic) : RxStep → UartPlic
  | .injectRx ch => (uartVcpuInjectRx s ch).2
  | .read addr => (ns16550aRead s addr).2
  | .write addr value => ns16550aWrite s addr value
  | .plic op => s.plic op

/-- Since the last reset: the bytes that the FIFO has accepted, and the ones that reads of RBR have
returned. -/
structure RxHistory where
  accepted : List (BitVec 8)
  returned : List (BitVec 8)

def RxHistory.next (s : UartPlic) (h : RxHistory) : RxStep → RxHistory
  | .injectRx ch =>
    if (uartVcpuInjectRx s ch).1 then { h with accepted := h.accepted ++ [ch] } else h
  | .read addr =>
    if uartOffset addr = 0 ∧ s.uart.dlab = false ∧ s.uart.rxEmpty = false then
      { h with returned := h.returned ++ [(ns16550aRead s addr).1.setWidth 8] }
    else h
  | .write addr value => if uartOffset addr = 2 ∧ value.getLsbD 1 = true then ⟨[], []⟩ else h
  | .plic _ => h

/-- A run with its history. -/
def rxRun (s : UartPlic) (h : RxHistory) : List RxStep → UartPlic × RxHistory
  | [] => (s, h)
  | st :: steps => rxRun (s.rxStep st) (h.next s st) steps

/-- What makes the device a queue of 128 bytes. -/
structure Ns16550Refines (s : UartPlic) (h : RxHistory) : Prop where
  count : s.uart.rxCount ≤ 128
  head : s.uart.rxHead = (s.uart.rxTail + s.uart.rxCount) % 128
  bytes : h.accepted = h.returned ++ s.uart.queue
  inject : ∀ ch, (uartVcpuInjectRx s ch).1 = false ↔ s.uart.queue.length = 128
  empty : ∀ addr, uartOffset addr = 0 → s.uart.dlab = false → s.uart.queue = [] →
    (ns16550aRead s addr).1 = 0 ∧ (ns16550aRead s addr).2.uart.fifo = s.uart.fifo
  lsr : ∀ addr, uartOffset addr = 5 →
    ((ns16550aRead s addr).1.getLsbD 0 = true ↔ s.uart.queue ≠ [])

section

variable {s : UartPlic} {h : RxHistory} {addr value : BitVec 64} {ch : BitVec 8} {u : Ns16550a}

/-! ## The queue -/

theorem length_queue : u.queue.length = u.rxCount := length_toList

theorem rxEmpty_iff : u.rxEmpty = true ↔ u.queue = [] := by
  rw [Ns16550a.queue, toList_eq_nil, Ns16550a.rxEmpty, beq_iff_eq]
  rfl

theorem rxFull_iff : u.rxFull = true ↔ u.queue.length = 128 := by
  rw [length_queue, Ns16550a.rxFull, beq_iff_eq]
  rfl

/-- Recomputing the interrupt changes IIR only. -/
theorem updateIrq_uart : ∃ iir, (ns16550aUpdateIrq s).uart = { s.uart with iir := iir } := by
  unfold ns16550aUpdateIrq
  split
  · exact ⟨_, plic_uart _ _⟩
  · split
    · exact ⟨_, plic_uart _ _⟩
    · exact ⟨_, plic_uart _ _⟩

theorem fifo_updateIrq : (ns16550aUpdateIrq s).uart.fifo = s.uart.fifo := by
  obtain ⟨iir, huart⟩ := updateIrq_uart (s := s)
  rw [huart]
  rfl

theorem lsr_updateIrq : (ns16550aUpdateIrq s).uart.lsr = s.uart.lsr := by
  obtain ⟨iir, huart⟩ := updateIrq_uart (s := s)
  rw [huart]

theorem injectRx_ok : (uartVcpuInjectRx s ch).1 = true ↔ s.uart.rxFull = false := by
  unfold uartVcpuInjectRx Ns16550a.rxPush
  cases s.uart.rxFull <;> simp

theorem injectRx_fifo : (uartVcpuInjectRx s ch).2.uart.fifo =
    if s.uart.rxFull = false then push uartEmulFifoSize s.uart.fifo ch else s.uart.fifo := by
  unfold uartVcpuInjectRx Ns16550a.rxPush
  cases s.uart.rxFull with
  | true => exact fifo_updateIrq
  | false =>
    simp only [Bool.false_eq_true, if_false, if_true, fifo_updateIrq]
    rfl

theorem read_fifo_other (hoff : ¬ (uartOffset addr = 0 ∧ s.uart.dlab = false)) :
    (ns16550aRead s addr).2.uart.fifo = s.uart.fifo := by
  unfold ns16550aRead
  split
  · next hzero =>
    have hdlab : s.uart.dlab = true := by
      by_contra hclear
      exact hoff ⟨hzero, Bool.eq_false_of_not_eq_true hclear⟩
    rw [if_pos hdlab]
  · split <;> rfl
  · simp only [fifo_updateIrq]
    split <;> rfl
  all_goals rfl

/-- A read takes the front byte at RBR and leaves the queue alone elsewhere. -/
theorem read_fifo : (ns16550aRead s addr).2.uart.fifo =
    if uartOffset addr = 0 ∧ s.uart.dlab = false ∧ s.uart.rxEmpty = false then
      pop uartEmulFifoSize s.uart.fifo
    else s.uart.fifo := by
  by_cases hoff : uartOffset addr = 0 ∧ s.uart.dlab = false
  · simp only [ns16550aRead, hoff.1, hoff.2, Ns16550a.rxPop, Bool.false_eq_true, if_false, true_and]
    cases s.uart.rxEmpty with
    | true => simp only [if_true, Bool.true_eq_false, if_false, fifo_updateIrq]
    | false =>
      simp only [Bool.false_eq_true, if_false, if_true, fifo_updateIrq]
      rfl
  · rw [if_neg fun h => hoff ⟨h.1, h.2.1⟩]
    exact read_fifo_other hoff

theorem read_data (hoff : uartOffset addr = 0) (hdlab : s.uart.dlab = false)
    (hdata : s.uart.rxEmpty = false) :
    (ns16550aRead s addr).1.setWidth 8 = s.uart.rxFifo s.uart.rxTail := by
  simp only [ns16550aRead, hoff, hdlab, Ns16550a.rxPop, hdata, Bool.false_eq_true, if_false]
  exact BitVec.setWidth_setWidth_of_le _ (by decide) |>.trans (BitVec.setWidth_eq _)

/-- A write resets the queue when it sets bit 1 of FCR, and leaves it alone otherwise. -/
theorem write_fifo : (ns16550aWrite s addr value).uart.fifo =
    if uartOffset addr = 2 ∧ value.getLsbD 1 = true then clear s.uart.fifo else s.uart.fifo := by
  by_cases hoff : uartOffset addr = 2
  · simp only [ns16550aWrite, hoff, true_and, fifo_updateIrq]
    split <;> rfl
  · rw [if_neg fun h => hoff h.1]
    unfold ns16550aWrite
    split
    · split
      · rfl
      · exact fifo_updateIrq
    · split
      · rfl
      · simp only [fifo_updateIrq]
        split <;> rfl
    · next htwo => exact absurd htwo hoff
    all_goals rfl

/-! ## LSR -/

theorem injectRx_lsr : (uartVcpuInjectRx s ch).2.uart.lsr = s.uart.lsr := by
  unfold uartVcpuInjectRx Ns16550a.rxPush
  cases s.uart.rxFull with
  | true => exact lsr_updateIrq
  | false => exact lsr_updateIrq

theorem read_lsr : (ns16550aRead s addr).2.uart.lsr = s.uart.lsr := by
  unfold ns16550aRead
  split
  · split
    · rfl
    · unfold Ns16550a.rxPop
      cases s.uart.rxEmpty with
      | true => exact lsr_updateIrq
      | false => exact lsr_updateIrq
  · split <;> rfl
  · simp only [lsr_updateIrq]
    split <;> rfl
  all_goals rfl

/-- LSR is read-only. -/
theorem write_lsr : (ns16550aWrite s addr value).uart.lsr = s.uart.lsr := by
  unfold ns16550aWrite
  split
  · split
    · rfl
    · exact lsr_updateIrq
  · split
    · rfl
    · simp only [lsr_updateIrq]
      split <;> rfl
  · simp only [lsr_updateIrq]
    split <;> rfl
  all_goals rfl

/-! ## The invariant -/

/-- The queue is well formed and holds what was accepted and not read yet, and DR is added to LSR
only when it is read. -/
structure RxInv (s : UartPlic) (h : RxHistory) : Prop where
  wf : Wf uartEmulFifoSize s.uart.fifo
  bytes : h.accepted = h.returned ++ s.uart.queue
  lsr : s.uart.lsr.getLsbD 0 = false

theorem RxInv.of_fifo {s' : UartPlic} (hinv : RxInv s h) (hf : s'.uart.fifo = s.uart.fifo)
    (hlsr : s'.uart.lsr = s.uart.lsr) : RxInv s' h where
  wf := by
    rw [hf]
    exact hinv.wf
  bytes := by
    rw [Ns16550a.queue, hf]
    exact hinv.bytes
  lsr := by
    rw [hlsr]
    exact hinv.lsr

theorem fifo_room (hwf : Wf uartEmulFifoSize u.fifo) (hfull : u.rxFull = false) :
    u.fifo.count < uartEmulFifoSize :=
  Nat.lt_of_le_of_ne hwf.bound fun h => Bool.false_ne_true (hfull.symm.trans (beq_iff_eq.mpr h))

theorem RxInv.injectRx (hinv : RxInv s h) :
    RxInv (uartVcpuInjectRx s ch).2 (h.next s (.injectRx ch)) := by
  have hfifo : (uartVcpuInjectRx s ch).2.uart.fifo = _ := injectRx_fifo
  rw [RxHistory.next]
  by_cases hok : s.uart.rxFull = false
  · rw [if_pos hok] at hfifo
    rw [if_pos (injectRx_ok.mpr hok)]
    have hroom := fifo_room hinv.wf hok
    refine ⟨?_, ?_, by rw [injectRx_lsr]; exact hinv.lsr⟩
    · rw [hfifo]
      exact push_wf hinv.wf hroom ch
    · rw [Ns16550a.queue, hfifo, toList_push hinv.wf hroom, hinv.bytes, List.append_assoc]
      rfl
  · rw [if_neg hok] at hfifo
    rw [if_neg fun h => hok (injectRx_ok.mp h)]
    exact hinv.of_fifo hfifo injectRx_lsr

theorem RxInv.read (hinv : RxInv s h) :
    RxInv (ns16550aRead s addr).2 (h.next s (.read addr)) := by
  have hfifo : (ns16550aRead s addr).2.uart.fifo = _ := read_fifo
  rw [RxHistory.next]
  by_cases hdata : uartOffset addr = 0 ∧ s.uart.dlab = false ∧ s.uart.rxEmpty = false
  · rw [if_pos hdata] at hfifo ⊢
    have hpos : 0 < s.uart.fifo.count := by
      refine Nat.pos_of_ne_zero fun hzero => ?_
      exact Bool.false_ne_true (hdata.2.2.symm.trans (beq_iff_eq.mpr hzero))
    refine ⟨?_, ?_, by rw [read_lsr]; exact hinv.lsr⟩
    · rw [hfifo]
      exact pop_wf hinv.wf hpos
    · have hqueue : s.uart.queue = s.uart.rxFifo s.uart.rxTail ::
          toList uartEmulFifoSize (pop uartEmulFifoSize s.uart.fifo) := toList_pop hinv.wf hpos
      rw [Ns16550a.queue, hfifo, read_data hdata.1 hdata.2.1 hdata.2.2]
      simp only [hinv.bytes, hqueue, List.append_assoc, List.singleton_append]
  · rw [if_neg hdata] at hfifo ⊢
    exact hinv.of_fifo hfifo read_lsr

theorem RxInv.write (hinv : RxInv s h) :
    RxInv (ns16550aWrite s addr value) (h.next s (.write addr value)) := by
  have hfifo : (ns16550aWrite s addr value).uart.fifo = _ := write_fifo
  rw [RxHistory.next]
  by_cases hreset : uartOffset addr = 2 ∧ value.getLsbD 1 = true
  · rw [if_pos hreset] at hfifo ⊢
    refine ⟨?_, ?_, by rw [write_lsr]; exact hinv.lsr⟩
    · rw [hfifo]
      exact clear_wf (Nat.succ_pos 127)
    · rw [Ns16550a.queue, hfifo, toList_clear]
      rfl
  · rw [if_neg hreset] at hfifo ⊢
    exact hinv.of_fifo hfifo write_lsr

/-- The step. -/
theorem RxInv.step (hinv : RxInv s h) (st : RxStep) : RxInv (s.rxStep st) (h.next s st) := by
  cases st with
  | injectRx ch => exact hinv.injectRx
  | read addr => exact hinv.read
  | write addr value => exact hinv.write
  | plic op => exact hinv.of_fifo rfl rfl

/-- The run. -/
theorem RxInv.run (hinv : RxInv s h) (steps : List RxStep) :
    RxInv (rxRun s h steps).1 (rxRun s h steps).2 := by
  induction steps generalizing s h with
  | nil => exact hinv
  | cons st steps ih => exact ih (hinv.step st)

theorem rxInv_init : RxInv initUartPlic ⟨[], []⟩ :=
  ⟨⟨Nat.zero_le _, Nat.succ_pos 127, rfl⟩, rfl, by decide⟩

/-! ## What the guest sees -/

/-- Bit 0 of LSR, as it is read. -/
theorem readLsr_bit (hlsr : u.lsr.getLsbD 0 = false) :
    (if u.rxEmpty then u.lsr.setWidth 64 ||| lsrThre ||| lsrTemt
      else u.lsr.setWidth 64 ||| lsrThre ||| lsrTemt ||| lsrDr).getLsbD 0 = !u.rxEmpty := by
  have hrest : (u.lsr.setWidth 64 ||| lsrThre ||| lsrTemt).getLsbD 0 = false := by
    rw [BitVec.getLsbD_or, BitVec.getLsbD_or, BitVec.getLsbD_setWidth, hlsr]
    decide
  cases u.rxEmpty with
  | true =>
    rw [if_pos rfl]
    exact hrest
  | false =>
    rw [if_neg Bool.false_ne_true, BitVec.getLsbD_or, hrest]
    decide

theorem RxInv.refines (hinv : RxInv s h) : Ns16550Refines s h where
  count := hinv.wf.bound
  head := hinv.wf.head
  bytes := hinv.bytes
  inject ch := by
    rw [← rxFull_iff, ← Bool.not_eq_true, injectRx_ok, Bool.not_eq_false]
  empty addr hoff hdlab hnil := by
    have hempty := rxEmpty_iff.mpr hnil
    refine ⟨?_, ?_⟩
    · simp only [ns16550aRead, hoff, hdlab, Ns16550a.rxPop, hempty, if_true, Bool.false_eq_true,
        if_false]
    · rw [read_fifo, if_neg fun h => Bool.false_ne_true (h.2.2.symm.trans hempty)]
  lsr addr hoff := by
    have hread : (ns16550aRead s addr).1 = if s.uart.rxEmpty then
        s.uart.lsr.setWidth 64 ||| lsrThre ||| lsrTemt
      else s.uart.lsr.setWidth 64 ||| lsrThre ||| lsrTemt ||| lsrDr := by
      simp only [ns16550aRead, hoff]
    rw [hread, readLsr_bit hinv.lsr, Ne, ← rxEmpty_iff, Bool.not_eq_true', Bool.not_eq_true]

/-- In every run the device is the queue. -/
theorem ns16550_refines (steps : List RxStep) :
    Ns16550Refines (rxRun initUartPlic ⟨[], []⟩ steps).1 (rxRun initUartPlic ⟨[], []⟩ steps).2 :=
  (rxInv_init.run steps).refines

/-! ## The host's UART -/

theorem serviceHostLeft_state (host : List (BitVec 8)) :
    (uartEmulServiceHostLeft s host).1 = uartEmulServiceHost s host := by
  induction host generalizing s with
  | nil => rfl
  | cons ch rest ih =>
    unfold uartEmulServiceHostLeft feed uartEmulServiceHost
    cases htook : (uartVcpuInjectRx s ch).1 with
    | true =>
      simp only [htook, if_true]
      exact ih
    | false => simp only [htook, Bool.false_eq_true, if_false]

/-- An injection is the push of a queue with room for 128 bytes. -/
theorem injectRx_bounded : Bounded uartVcpuInjectRx (fun s => Wf uartEmulFifoSize s.uart.fifo)
    (fun s => s.uart.queue) uartEmulFifoSize where
  keeps s ch hwf := by
    rw [injectRx_fifo]
    split
    · next hok => exact push_wf hwf (fifo_room hwf hok) ch
    · exact hwf
  bound s hwf := by
    rw [length_queue]
    exact hwf.bound
  took s ch hwf hlen := by
    have hok : s.uart.rxFull = false :=
      Bool.eq_false_iff.mpr fun hfull => Nat.ne_of_lt hlen (rxFull_iff.mp hfull)
    refine ⟨injectRx_ok.mpr hok, ?_⟩
    rw [Ns16550a.queue, injectRx_fifo, if_pos hok, toList_push hwf (fifo_room hwf hok)]
    rfl
  refused s ch hwf hlen := by
    have hfull : s.uart.rxFull = true := rxFull_iff.mpr hlen
    have hno : ¬ s.uart.rxFull = false := fun h => Bool.false_ne_true (h.symm.trans hfull)
    refine ⟨Bool.eq_false_iff.mpr fun h => hno (injectRx_ok.mp h), ?_⟩
    rw [Ns16550a.queue, injectRx_fifo, if_neg hno]
    rfl

/-- No byte of the host is lost exactly when there is room for all. -/
theorem serviceHost_exact_iff (hwf : Wf uartEmulFifoSize s.uart.fifo) (host : List (BitVec 8)) :
    (∃ moved, host = moved ++ (uartEmulServiceHostLeft s host).2 ∧
      (uartEmulServiceHostLeft s host).1.uart.queue = s.uart.queue ++ moved) ↔
    s.uart.queue.length + host.length ≤ 128 :=
  feed_exact_iff injectRx_bounded hwf host

end

end HyperCore.Vplic
