import HyperCore.Vgic.Pl011Fifo
import HyperCore.Vplic.UartFifo

/-!
# The receive FIFOs of both emulated UARTs

Both are queues of at most 128 bytes in every run (`uart_fifo_refines`). Both are fed from the
host's UART by a loop that reads the host's data register in the argument of the call that may
refuse the byte, so the first byte that does not fit is lost (`uart_service_host_iff`).
-/

namespace HyperCore

open RingFifo

/-- From registration on, whatever happens, the PL011 and the NS16550 refine a bounded queue. -/
theorem uart_fifo_refines (env : Vgic.UartEnv) (queue : Sched.TaskId → Vgic.VirqQueue)
    (lr : Sched.Cpu → Nat → BitVec 64) (steps : List Vgic.UartStep) (rxSteps : List Vplic.RxStep) :
    Vgic.Pl011Refines env
        (Vgic.uartRun env ⟨Vgic.uartRegisterEmul, queue, lr⟩ ⟨[], []⟩ steps).1
        (Vgic.uartRun env ⟨Vgic.uartRegisterEmul, queue, lr⟩ ⟨[], []⟩ steps).2 ∧
      Vplic.Ns16550Refines (Vplic.rxRun Vplic.initUartPlic ⟨[], []⟩ rxSteps).1
        (Vplic.rxRun Vplic.initUartPlic ⟨[], []⟩ rxSteps).2 :=
  ⟨Vgic.pl011_refines queue lr steps, Vplic.ns16550_refines rxSteps⟩

/-- The host's UART loses what the emulated FIFO gains and nothing else exactly when the FIFO has
room for every byte that the host's UART holds, or on the PL011 when the UART is disabled. -/
theorem uart_service_host_iff {env : Vgic.UartEnv} {c : Sched.Cpu} {s : Vgic.UartGic}
    {t : Vplic.UartPlic} (hs : Wf 128 s.uart.fifo) (ht : Wf 128 t.uart.fifo)
    (host : List (BitVec 8)) :
    ((∃ moved, host = moved ++ (Vgic.uartEmulServiceHost env c s host).2 ∧
        (Vgic.uartEmulServiceHost env c s host).1.uart.queue = s.uart.queue ++ moved) ↔
      env.enabled = false ∨ s.uart.queue.length + host.length ≤ 128) ∧
    ((∃ moved, host = moved ++ (Vplic.uartEmulServiceHostLeft t host).2 ∧
        (Vplic.uartEmulServiceHostLeft t host).1.uart.queue = t.uart.queue ++ moved) ↔
      t.uart.queue.length + host.length ≤ 128) :=
  ⟨Vgic.serviceHost_exact_iff hs host, Vplic.serviceHost_exact_iff ht host⟩

/-- An enabled UART, its interrupt 33, no task. -/
def enabledUart : Vgic.UartEnv where
  enabled := true
  guestBase := 0x09000000
  guestIrq := 33
  found := none
  currentTask := fun _ => none
  savedLr := fun _ _ => 0
  lrCount := 4

/-- The PL011 after `uart_register_emul`. -/
def freshPl011 : Vgic.UartGic := ⟨Vgic.uartRegisterEmul, fun _ => ⟨fun _ => 0, 0⟩, fun _ _ => 0⟩

theorem uart_service_host_iff_byte :
    (∃ moved, [0x41] = moved ++ (Vgic.uartEmulServiceHost enabledUart 0 freshPl011 [0x41]).2 ∧
      (Vgic.uartEmulServiceHost enabledUart 0 freshPl011 [0x41]).1.uart.queue =
        freshPl011.uart.queue ++ moved) := by
  have hs : Wf 128 freshPl011.uart.fifo := ⟨Nat.zero_le _, Nat.succ_pos 127, rfl⟩
  have ht : Wf 128 Vplic.initUartPlic.uart.fifo := ⟨Nat.zero_le _, Nat.succ_pos 127, rfl⟩
  exact (uart_service_host_iff hs ht [0x41]).1.mpr (.inr (by decide))

/-- The 129th byte is taken from the host and dropped. -/
theorem full_fifo_loses_byte :
    (∃ host : List (BitVec 8), ¬ ∃ moved,
      host = moved ++ (Vgic.uartEmulServiceHost enabledUart 0 freshPl011 host).2 ∧
        (Vgic.uartEmulServiceHost enabledUart 0 freshPl011 host).1.uart.queue =
          freshPl011.uart.queue ++ moved) ∧
    ∃ host : List (BitVec 8), ¬ ∃ moved,
      host = moved ++ (Vplic.uartEmulServiceHostLeft Vplic.initUartPlic host).2 ∧
        (Vplic.uartEmulServiceHostLeft Vplic.initUartPlic host).1.uart.queue =
          Vplic.initUartPlic.uart.queue ++ moved := by
  have hs : Wf 128 freshPl011.uart.fifo := ⟨Nat.zero_le _, Nat.succ_pos 127, rfl⟩
  have ht : Wf 128 Vplic.initUartPlic.uart.fifo := ⟨Nat.zero_le _, Nat.succ_pos 127, rfl⟩
  refine ⟨⟨List.replicate 129 0x41, fun h => ?_⟩, List.replicate 129 0x41, fun h => ?_⟩
  · rcases (Vgic.serviceHost_exact_iff hs _).mp h with hoff | hroom
    · cases hoff
    · rw [List.length_replicate] at hroom
      omega
  · have hroom := (Vplic.serviceHost_exact_iff ht _).mp h
    rw [List.length_replicate] at hroom
    omega

end HyperCore
