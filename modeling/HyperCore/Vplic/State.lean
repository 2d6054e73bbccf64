import Mathlib

/-!
# The emulated PLIC of a RISC-V guest

`plic.c` keeps the interrupt controller that a guest sees in one struct of four
arrays. This module is that file below its spinlock: the tests on an irq, the claim,
the two register accesses, and the output lines that every access computes at its end.
Driving the lines into the vCPUs is in `Vplic.VirtIrq`.

An array element is named by a `Ref`, and `Ref.offset` is where the compiler puts it:
the arrays follow each other without gaps, so an index past the end of one array names
the first words of the next. Each access is recorded in the log of a `Plic`, newest
first. The log is not part of the machine; it is what index safety is about.
-/

namespace HyperCore.Vplic

/-- A `u32`. -/
abbrev Word := BitVec 32

/-- `PLIC_MAX_IRQ` -/
def plicMaxIrq : Nat := 128

/-- `PLIC_MAX_PRIORITY` -/
def plicMaxPriority : Word := 7

/-- `VPLIC_CONTEXTS` -/
def vplicContexts : Nat := 4

/-- `VPLIC_WORDS` -/
def vplicWords : Nat := (plicMaxIrq + 31) / 32

/-! ## The arrays -/

/-- An element of one of the arrays of `struct vplic_state`. -/
inductive Ref
  | priority (irq : Nat)
  | pending (word : Nat)
  | enable (context word : Nat)
  | threshold (context : Nat)
deriving DecidableEq, Repr

/-- The element's place in the struct, in words. -/
def Ref.offset : Ref → Nat
  | .priority irq => irq
  | .pending word => plicMaxIrq + 1 + word
  | .enable context word => plicMaxIrq + 1 + vplicWords + vplicWords * context + word
  | .threshold context => plicMaxIrq + 1 + vplicWords + vplicWords * vplicContexts + context

/-- The element is one of the array it is named by. -/
def Ref.InBounds : Ref → Prop
  | .priority irq => irq < plicMaxIrq + 1
  | .pending word => word < vplicWords
  | .enable context word => context < vplicContexts ∧ word < vplicWords
  | .threshold context => context < vplicContexts

instance Ref.decInBounds : DecidablePred Ref.InBounds := fun r => by
  cases r <;> simp only [Ref.InBounds] <;> infer_instance

/-- The words of `g_vplic`. -/
abbrev Regs := Nat → Word

/-- `g_vplic`, and the elements that were accessed, newest first. -/
structure Plic where
  regs : Regs
  log : List Ref

/-- Code between `arch_spin_lock(&g_vplic_lock)` and the unlock. -/
abbrev PlicM := StateM Plic

def load (r : Ref) : PlicM Word := fun s => (s.regs r.offset, { s with log := r :: s.log })

def store (r : Ref) (v : Word) : PlicM Unit := fun s =>
  ((), { regs := Function.update s.regs r.offset v, log := r :: s.log })

/-! ## Tests on an irq -/

def vplicIrqValid (irq : Nat) : Bool := decide (0 < irq) && decide (irq ≤ plicMaxIrq)

def vplicIrqPendingLocked (irq : Nat) : PlicM Bool := do
  let word ← load (.pending (irq / 32))
  pure (word.getLsbD (irq % 32))

def vplicIrqEnabledLocked (context irq : Nat) : PlicM Bool := do
  if vplicContexts ≤ context then pure false
  else
    let word ← load (.enable context (irq / 32))
    pure (word.getLsbD (irq % 32))

def vplicIrqDeliverableLocked (context irq : Nat) : PlicM Bool := do
  if !vplicIrqValid irq then pure false
  else if !(← vplicIrqPendingLocked irq) then pure false
  else if !(← vplicIrqEnabledLocked context irq) then pure false
  else
    let priority ← load (.priority irq)
    let threshold ← load (.threshold context)
    pure (decide (threshold < priority))

/-- The loop of `vplic_context_has_deliverable_locked` from `irq` on, `n` rounds. -/
def hasDeliverableFrom (context irq : Nat) : Nat → PlicM Bool
  | 0 => pure false
  | n + 1 => do
    if ← vplicIrqDeliverableLocked context irq then pure true
    else hasDeliverableFrom context (irq + 1) n

def vplicContextHasDeliverableLocked (context : Nat) : PlicM Bool :=
  if vplicContexts ≤ context then pure false else hasDeliverableFrom context 1 plicMaxIrq

/-! ## Claims -/

/-- One round of the loop of `vplic_claim_locked`, from `best_irq` and `best_prio`. -/
def claimRound (context irq : Nat) (best : Nat × Word) : PlicM (Nat × Word) := do
  if !(← vplicIrqDeliverableLocked context irq) then pure best
  else
    let priority ← load (.priority irq)
    if best.2 < priority then pure (irq, priority) else pure best

/-- The loop from `irq` on, `n` rounds. -/
def claimFrom (context irq : Nat) (best : Nat × Word) : Nat → PlicM (Nat × Word)
  | 0 => pure best
  | n + 1 => do
    let best ← claimRound context irq best
    claimFrom context (irq + 1) best n

/-- `pending[irq / 32] |= 1U << (irq % 32)`, or with `&= ~`. -/
def setPendingLocked (irq : Nat) (on : Bool) : PlicM Unit := do
  let word ← load (.pending (irq / 32))
  let bit : Word := 1#32 <<< (irq % 32)
  store (.pending (irq / 32)) (if on then word ||| bit else word &&& ~~~bit)

def vplicClaimLocked (context : Nat) : PlicM Nat := do
  if vplicContexts ≤ context then pure 0
  else
    let best ← claimFrom context 1 (0, 0) plicMaxIrq
    if best.1 ≠ 0 then do
      setPendingLocked best.1 false
      pure best.1
    else pure best.1

/-! ## Register accesses -/

/-- `PLIC_BASE` -/
def plicBase : BitVec 64 := 0x0c000000

/-- `(u32)(addr - PLIC_BASE)` -/
def plicOffset (addr : BitVec 64) : Nat := ((addr - plicBase).setWidth 32).toNat

/-- `vplic_context_from_claim_off` and `vplic_context_from_threshold_off`, which differ in
the register at the start of a context's page. -/
def vplicContextFromOff (reg off : Nat) : Option Nat :=
  if off < 0x200000 then none
  else if (off - 0x200000) % 0x1000 ≠ reg then none
  else some ((off - 0x200000) / 0x1000)

def vplicContextFromClaimOff (off : Nat) : Option Nat := vplicContextFromOff 4 off

def vplicContextFromThresholdOff (off : Nat) : Option Nat := vplicContextFromOff 0 off

/-- `context >= 0 && context < VPLIC_CONTEXTS` -/
def inRange (context : Option Nat) : Option Nat := context.filter fun c => decide (c < vplicContexts)

/-- The part of `vplic_read` below the lock. -/
def vplicReadLocked (off : Nat) : PlicM Word := do
  if off < 0x1000 then
    let irq := off / 4
    if vplicIrqValid irq then load (.priority irq) else pure 0
  else if off < 0x2000 then
    let word := (off - 0x1000) / 4
    if word < vplicWords then load (.pending word) else pure 0
  else if off < 0x2000 + vplicContexts * 0x80 then
    let rel := off - 0x2000
    let context := rel / 0x80
    let word := rel % 0x80 / 4
    if context < vplicContexts ∧ word < vplicWords then load (.enable context word) else pure 0
  else
    match inRange (vplicContextFromThresholdOff off) with
    | some context => load (.threshold context)
    | none =>
      match inRange (vplicContextFromClaimOff off) with
      | some context => do
        let irq ← vplicClaimLocked context
        pure (BitVec.ofNat 32 irq)
      | none => pure 0

/-- The part of `vplic_write` below the lock. A completion stores nothing. -/
def vplicWriteLocked (off : Nat) (val : Word) : PlicM Unit := do
  if off < 0x1000 then
    let irq := off / 4
    if vplicIrqValid irq then store (.priority irq) (val &&& plicMaxPriority)
  else if 0x2000 ≤ off ∧ off < 0x2000 + vplicContexts * 0x80 then
    let rel := off - 0x2000
    let context := rel / 0x80
    let word := rel % 0x80 / 4
    if context < vplicContexts ∧ word < vplicWords then store (.enable context word) val
  else
    match inRange (vplicContextFromThresholdOff off) with
    | some context => store (.threshold context) val
    | none => pure ()

/-! ## Operations

Each ends in `vplic_update_all_vseip`, whose first half computes the lines of all contexts
below the lock. -/

/-- The loop over the contexts, from `context` on, `n` rounds. -/
def assertedFrom (context : Nat) : Nat → PlicM (List Bool)
  | 0 => pure []
  | n + 1 => do
    let asserted ← vplicContextHasDeliverableLocked context
    let rest ← assertedFrom (context + 1) n
    pure (asserted :: rest)

/-- `asserted` of `vplic_update_all_vseip`. -/
def vplicAsserted : PlicM (List Bool) := assertedFrom 0 vplicContexts

/-- A call into the file: an interrupt line of a device that rises or falls, a guest's read
or write of a register. -/
inductive Op
  | raise (irq : Nat)
  | clear (irq : Nat)
  | read (addr : BitVec 64)
  | write (addr value : BitVec 64)
deriving DecidableEq

/-- The call: the value it returns, and the lines it computes at its end. A raise or clear of
an irq that is not valid returns before that. -/
def Op.run : Op → PlicM (Word × Option (List Bool))
  | .raise irq =>
    if vplicIrqValid irq then do
      setPendingLocked irq true
      let asserted ← vplicAsserted
      pure (0, some asserted)
    else pure (0, none)
  | .clear irq =>
    if vplicIrqValid irq then do
      setPendingLocked irq false
      let asserted ← vplicAsserted
      pure (0, some asserted)
    else pure (0, none)
  | .read addr => do
    let value ← vplicReadLocked (plicOffset addr)
    let asserted ← vplicAsserted
    pure (value, some asserted)
  | .write addr value => do
    vplicWriteLocked (plicOffset addr) (value.setWidth 32)
    let asserted ← vplicAsserted
    pure (0, some asserted)

/-- `plic_register_emul`: every irq has priority 1, everything else is zero. -/
def initRegs : Regs := fun a => if 1 ≤ a ∧ a ≤ plicMaxIrq then 1 else 0

end HyperCore.Vplic
