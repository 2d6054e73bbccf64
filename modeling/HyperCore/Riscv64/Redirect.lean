import HyperCore.Riscv64.Mmio
import HyperCore.Riscv64.VcpuContext

/-!
# The redirection of an exception to the guest

`vcpu_redirect_trap` puts a trap into the guest's VS-mode CSRs and sends the guest to its vector.
The status word comes out with SPP, SPIE and SIE all set, whatever they were: after the three bits
have been computed one by one, one more assignment sets them together. The guest enters its
handler with interrupts enabled, so no redirection is a trap entry (`redirect_never_entry`).
-/

namespace HyperCore.Riscv64

def sstatusSie : BitVec 64 := 0x2
def sstatusSpp : BitVec 64 := 0x100

structure CpuVcpuTrap where
  sepc : BitVec 64
  scause : BitVec 64
  stval : BitVec 64
  htval : BitVec 64
  htinst : BitVec 64

def CpuUserRegs.sstatus (regs : CpuUserRegs) : BitVec 64 := regs 32

def vcpuRedirectTrap (vs : VsCsrs) (regs : CpuUserRegs) (trap : CpuVcpuTrap) :
    VsCsrs × CpuUserRegs :=
  let vsstatus := vs.vsstatus &&& ~~~sstatusSpp
  let vsstatus :=
    if regs.sstatus &&& sstatusSpp ≠ 0 then vsstatus ||| sstatusSpp else vsstatus
  let vsstatus := vsstatus &&& ~~~sstatusSpie
  let vsstatus :=
    if regs.sstatus &&& sstatusSie ≠ 0 then vsstatus ||| sstatusSpie else vsstatus
  let vsstatus := vsstatus &&& ~~~sstatusSie
  let vsstatus := vsstatus ||| (sstatusSpp ||| sstatusSpie ||| sstatusSie)
  let vs' := { vs with vsstatus, vscause := trap.scause, vstval := trap.stval, vsepc := trap.sepc }
  (vs', regs.setSepc vs'.vstvec)

def redirectGuestException (vs : VsCsrs) (regs : CpuUserRegs) (scause stval : BitVec 64) :
    VsCsrs × CpuUserRegs :=
  vcpuRedirectTrap vs regs ⟨regs.sepc, scause, stval, 0, 0⟩

/-! ## Trap entry -/

/-- What a guest resumes with: its pc, its privilege (supervisor or user), and whether
`vsstatus.SIE` is set. -/
structure Resumed where
  pc : BitVec 64
  supervisor : Bool
  sie : Bool
deriving DecidableEq

/-- The return to the guest: `sret` takes the privilege from the `sstatus` of the frame. -/
def resumed (vs : VsCsrs) (regs : CpuUserRegs) : Resumed :=
  ⟨regs.sepc, regs.sstatus.getLsbD 8, vs.vsstatus.getLsbD 1⟩

/-- An `sret` of the guest itself. -/
def guestSret (vs : VsCsrs) : Resumed :=
  ⟨vs.vsepc, vs.vsstatus.getLsbD 8, vs.vsstatus.getLsbD 5⟩

/-- A synchronous trap into VS-mode from the state `vs`, `regs`. -/
structure TrapEntry (vs : VsCsrs) (regs : CpuUserRegs) (trap : CpuVcpuTrap) (vs' : VsCsrs)
    (regs' : CpuUserRegs) : Prop where
  spp : vs'.vsstatus.getLsbD 8 = regs.sstatus.getLsbD 8
  spie : vs'.vsstatus.getLsbD 5 = vs.vsstatus.getLsbD 1
  sie : vs'.vsstatus.getLsbD 1 = false
  others : ∀ i, i ≠ 1 → i ≠ 5 → i ≠ 8 → vs'.vsstatus.getLsbD i = vs.vsstatus.getLsbD i
  epc : vs'.vsepc = trap.sepc
  cause : vs'.vscause = trap.scause
  tval : vs'.vstval = trap.stval
  handler : resumed vs' regs' = ⟨vs.vstvec &&& ~~~3#64, true, false⟩
  sret : guestSret vs' = ⟨trap.sepc, regs.sstatus.getLsbD 8, vs.vsstatus.getLsbD 1⟩

theorem getLsbD_flag {flag : BitVec 64} {n : Nat} (hflag : flag = BitVec.twoPow 64 n) {i : Nat}
    (hi : i ≠ n) : flag.getLsbD i = false := by
  rw [hflag, BitVec.getLsbD_twoPow, decide_eq_false hi.symm, Bool.and_false]

/-- A bit that is not of the flag survives clearing the flag. -/
theorem getLsbD_clear {w flag : BitVec 64} {i : Nat} (hflag : flag.getLsbD i = false) :
    (w &&& ~~~flag).getLsbD i = w.getLsbD i := by
  rw [BitVec.getLsbD_and, BitVec.getLsbD_not, hflag, Bool.not_false, Bool.and_true]
  by_cases hi : i < 64
  · rw [decide_eq_true hi, Bool.and_true]
  · rw [BitVec.getLsbD_of_ge _ _ (by omega), Bool.false_and]

theorem getLsbD_set {c : Prop} [Decidable c] {w flag : BitVec 64} {i : Nat}
    (hflag : flag.getLsbD i = false) :
    (if c then w ||| flag else w).getLsbD i = w.getLsbD i := by
  split
  · rw [BitVec.getLsbD_or, hflag, Bool.or_false]
  · rfl

/-- The status word that a redirection leaves: the three bits set, the others as they were. -/
theorem redirect_status (vs : VsCsrs) (regs : CpuUserRegs) (trap : CpuVcpuTrap) (i : Nat) :
    (vcpuRedirectTrap vs regs trap).1.vsstatus.getLsbD i =
      (decide (i = 1 ∨ i = 5 ∨ i = 8) || vs.vsstatus.getLsbD i) := by
  unfold vcpuRedirectTrap
  simp only
  rw [BitVec.getLsbD_or]
  by_cases hi : i = 1 ∨ i = 5 ∨ i = 8
  · have hset : (sstatusSpp ||| sstatusSpie ||| sstatusSie).getLsbD i = true := by
      rcases hi with rfl | rfl | rfl <;> decide
    rw [hset, Bool.or_true, decide_eq_true hi, Bool.true_or]
  · obtain ⟨h1, h5, h8⟩ := not_or.1 hi |>.imp_right not_or.1
    have hsie : sstatusSie.getLsbD i = false := getLsbD_flag (n := 1) (by decide) h1
    have hspie : sstatusSpie.getLsbD i = false := getLsbD_flag (n := 5) (by decide) h5
    have hspp : sstatusSpp.getLsbD i = false := getLsbD_flag (n := 8) (by decide) h8
    rw [getLsbD_clear hsie, getLsbD_set hspie, getLsbD_clear hspie, getLsbD_set hspp,
      getLsbD_clear hspp, BitVec.getLsbD_or, BitVec.getLsbD_or, hspp, hspie, hsie,
      decide_eq_false hi]
    simp only [Bool.or_false, Bool.false_or]

/-- The guest's interrupts are enabled in its handler. -/
theorem redirect_never_entry (vs : VsCsrs) (regs : CpuUserRegs) (trap : CpuVcpuTrap) :
    ¬ TrapEntry vs regs trap (vcpuRedirectTrap vs regs trap).1 (vcpuRedirectTrap vs regs trap).2 := by
  intro h
  have hsie := h.sie
  rw [redirect_status] at hsie
  cases hsie

/-- A page fault of a guest in supervisor mode, interrupts off, with a direct vector. -/
theorem page_fault_not_entry :
    ¬ TrapEntry ⟨0, 0, 0, 0x80001000, 0, 0, 0, 0⟩ (numbered.set 32 0x100) ⟨0x90000000, 13, 0x1000, 0, 0⟩
      (vcpuRedirectTrap ⟨0, 0, 0, 0x80001000, 0, 0, 0, 0⟩ (numbered.set 32 0x100)
        ⟨0x90000000, 13, 0x1000, 0, 0⟩).1
      (vcpuRedirectTrap ⟨0, 0, 0, 0x80001000, 0, 0, 0, 0⟩ (numbered.set 32 0x100)
        ⟨0x90000000, 13, 0x1000, 0, 0⟩).2 := by
  intro h
  exact absurd h.sie (by decide)

end HyperCore.Riscv64
