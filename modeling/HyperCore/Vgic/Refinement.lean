import HyperCore.Vgic.State

/-!
# The register file behind the virtual GIC

`RegFile` says what the emulated registers are for: a bank of interrupts for the
distributor and one for each redistributor frame, with a bit per interrupt for group,
enable, pending and active, a byte for the priority and two bits for the
configuration. The set and the clear port of a bit array read and update one array.

The theorem of this module runs any sequence of aligned 32-bit accesses on both. The
two are related bit by bit: bit `j` of an array in memory is bit `j` of the packed
bank (`Port.bit`), and a write to a word changes the 32 bits of the word in both.
-/

namespace HyperCore.Vgic

open ByteMem MachineInt

/-! ## The reference register file -/

/-- The interrupts of one distributor or redistributor. -/
structure RegBank where
  group : Nat → Bool
  enable : Nat → Bool
  pending : Nat → Bool
  active : Nat → Bool
  priority : Nat → BitVec 8
  config : Nat → BitVec 2

inductive BankId
  | dist
  | frame (k : Nat)
deriving DecidableEq, Repr

structure RegFile where
  ctlr : Nat
  bank : BankId → RegBank

inductive Port
  | igroupr | isenabler | icenabler | ispendr | icpendr | isactiver | icactiver
  | ipriorityr | icfgr
deriving DecidableEq, Repr

/-- A 32-bit word from its bits. -/
def word (f : Nat → Bool) : Nat := Nat.ofBits fun j : Fin 32 => f j

/-- Word `w` of a port. -/
def Port.read (r : RegBank) (w : Nat) : Port → Nat
  | igroupr => word fun j => r.group (32 * w + j)
  | isenabler | icenabler => word fun j => r.enable (32 * w + j)
  | ispendr | icpendr => word fun j => r.pending (32 * w + j)
  | isactiver | icactiver => word fun j => r.active (32 * w + j)
  | ipriorityr => word fun j => (r.priority (4 * w + j / 8)).getLsbD (j % 8)
  | icfgr => word fun j => (r.config (16 * w + j / 2)).getLsbD (j % 2)

/-- Interrupt `i` is in word `w`, and its bit of `value` is set. -/
def writesOne (w value i : Nat) : Bool := i / 32 = w && value.testBit (i % 32)

/-- A write to word `w` of a port. -/
def Port.write (r : RegBank) (w value : Nat) : Port → RegBank
  | igroupr =>
    { r with group := fun i => if i / 32 = w then value.testBit (i % 32) else r.group i }
  | isenabler => { r with enable := fun i => r.enable i || writesOne w value i }
  | icenabler => { r with enable := fun i => r.enable i && !writesOne w value i }
  | ispendr => { r with pending := fun i => r.pending i || writesOne w value i }
  | icpendr => { r with pending := fun i => r.pending i && !writesOne w value i }
  | isactiver => { r with active := fun i => r.active i || writesOne w value i }
  | icactiver => { r with active := fun i => r.active i && !writesOne w value i }
  | ipriorityr =>
    { r with priority := fun i =>
        if i / 4 = w then BitVec.ofNat 8 (value >>> (8 * (i % 4))) else r.priority i }
  | icfgr =>
    { r with config := fun i =>
        if i / 16 = w then BitVec.ofNat 2 (value >>> (2 * (i % 16))) else r.config i }

/-- A 32-bit access of the guest. -/
inductive RegAccess
  | readCtlr
  | writeCtlr (value : Nat)
  | read (b : BankId) (p : Port) (w : Nat)
  | write (b : BankId) (p : Port) (w value : Nat)

/-- The reference: the value read (0 for a write) and the next register file. -/
def RegFile.step (s : RegFile) : RegAccess → Nat × RegFile
  | .readCtlr => (s.ctlr, s)
  | .writeCtlr value => (0, { s with ctlr := value % 2 ^ 32 })
  | .read b p w => (p.read (s.bank b) w, s)
  | .write b p w value =>
    (0, { s with bank := fun c => if c = b then p.write (s.bank b) w value else s.bank c })

def RegFile.run (s : RegFile) : List RegAccess → List Nat
  | [] => []
  | acc :: accs => (s.step acc).1 :: (s.step acc).2.run accs

/-- After reset: everything off, every priority `0xa0`. -/
def RegFile.reset : RegFile where
  ctlr := 0
  bank _ := {
    group := fun _ => false
    enable := fun _ => false
    pending := fun _ => false
    active := fun _ => false
    priority := fun _ => 0xa0
    config := fun _ => 0 }

/-! ## Where the registers are -/

def Port.offset : Port → Nat
  | igroupr => gicdIgroupr
  | isenabler => gicdIsenabler
  | icenabler => gicdIcenabler
  | ispendr => gicdIspendr
  | icpendr => gicdIcpendr
  | isactiver => gicdIsactiver
  | icactiver => gicdIcactiver
  | ipriorityr => gicdIpriorityr
  | icfgr => gicdIcfgr

/-- The number of interrupts of a bank. -/
def BankId.irqs : BankId → Nat
  | dist => 1024
  | frame _ => 32

/-- The bits a port has for each interrupt. -/
def Port.width : Port → Nat
  | ipriorityr => 8
  | icfgr => 2
  | _ => 1

def words (b : BankId) (p : Port) : Nat := b.irqs * p.width / 32

/-- The guest address of word `w` of a port. -/
def regAddr (cfg : VgicConfig) (p : Port) (w : Nat) : BankId → Nat
  | .dist => cfg.gicdBase + (p.offset + 4 * w)
  | .frame k => cfg.gicrBase + (k * cfg.gicrStride + (vgicRdistSgiBase + (p.offset + 4 * w)))

/-- The register exists and lies in the window of its block. -/
def Reaches (cfg : VgicConfig) (p : Port) (w : Nat) (b : BankId) : Prop :=
  w < words b p ∧ match b with
    | .dist => p.offset + 4 * w + 4 ≤ cfg.gicdSize
    | .frame k => k < hyperMaxVcpus ∧
      k * cfg.gicrStride + (vgicRdistSgiBase + (p.offset + 4 * w)) + 4 ≤ cfg.gicrSize

def RegAccess.Valid (cfg : VgicConfig) : RegAccess → Prop
  | .readCtlr | .writeCtlr _ => 4 ≤ cfg.gicdSize
  | .read b p w | .write b p w _ => Reaches cfg p w b

/-- The two windows lie apart, and a frame has room for its two pages. -/
structure Windows (cfg : VgicConfig) : Prop where
  stride : 0x20000 ≤ cfg.gicrStride
  gicd : cfg.gicdBase + cfg.gicdSize ≤ 2 ^ 64
  gicr : cfg.gicrBase + cfg.gicrSize < 2 ^ 64
  apart : cfg.gicdBase + cfg.gicdSize ≤ cfg.gicrBase ∨
    cfg.gicrBase + cfg.gicrSize ≤ cfg.gicdBase

/-- The access through the handlers; a 32-bit access has size code 2. -/
def RegAccess.handle (cfg : VgicConfig) : RegAccess → MemM Nat
  | .readCtlr => gic3Read cfg cfg.gicdBase 2
  | .writeCtlr value => do
    gic3Write cfg cfg.gicdBase 2 value
    pure 0
  | .read b p w => gic3Read cfg (regAddr cfg p w b) 2
  | .write b p w value => do
    gic3Write cfg (regAddr cfg p w b) 2 value
    pure 0

def handleAll (cfg : VgicConfig) (m : Mem) : List RegAccess → List Nat
  | [] => []
  | acc :: accs => (acc.handle cfg m).1 :: handleAll cfg (acc.handle cfg m).2 accs

/-! ## Banks as strings of bits -/

theorem testBit_word (f : Nat → Bool) (j : Nat) :
    (word f).testBit j = (decide (j < 32) && f j) := by
  rcases Nat.lt_or_ge j 32 with h | h
  · rw [word, Nat.testBit_ofBits_lt _ _ h, decide_eq_true h, Bool.true_and]
  · rw [word, Nat.testBit_ofBits_ge _ _ h, decide_eq_false (by omega), Bool.false_and]

/-- Bit `j` of the array behind a port. -/
def Port.bit (r : RegBank) (j : Nat) : Port → Bool
  | igroupr => r.group j
  | isenabler | icenabler => r.enable j
  | ispendr | icpendr => r.pending j
  | isactiver | icactiver => r.active j
  | ipriorityr => (r.priority (j / 8)).getLsbD (j % 8)
  | icfgr => (r.config (j / 2)).getLsbD (j % 2)

theorem Port.read_eq (p : Port) (r : RegBank) (w : Nat) :
    p.read r w = word fun j => p.bit r (32 * w + j) := by
  cases p with
  | ipriorityr =>
    simp only [Port.read, Port.bit]
    refine congrArg word (funext fun j => ?_)
    rw [show (32 * w + j) / 8 = 4 * w + j / 8 by omega, show (32 * w + j) % 8 = j % 8 by omega]
  | icfgr =>
    simp only [Port.read, Port.bit]
    refine congrArg word (funext fun j => ?_)
    rw [show (32 * w + j) / 2 = 16 * w + j / 2 by omega, show (32 * w + j) % 2 = j % 2 by omega]
  | _ => rfl

/-- What a write of `new` makes of a bit. -/
def Port.combine (old new : Bool) : Port → Bool
  | igroupr | ipriorityr | icfgr => new
  | isenabler | ispendr | isactiver => old || new
  | icenabler | icpendr | icactiver => old && !new

/-- The member of the distributor behind a port. -/
def Port.field : Port → Field
  | igroupr => .group
  | isenabler | icenabler => .enable
  | ispendr | icpendr => .pending
  | isactiver | icactiver => .active
  | ipriorityr => .priority
  | icfgr => .config

theorem Port.bit_congr {p q : Port} (h : p.field = q.field) (r : RegBank) (j : Nat) :
    p.bit r j = q.bit r j := by
  cases p <;> cases q <;> first | rfl | cases h

theorem writesOne_or (old : Bool) (w value j : Nat) :
    (old || writesOne w value j) =
      if j / 32 = w then old || value.testBit (j % 32) else old := by
  by_cases h : j / 32 = w <;> simp [writesOne, h]

theorem writesOne_and (old : Bool) (w value j : Nat) :
    (old && !writesOne w value j) =
      if j / 32 = w then old && !value.testBit (j % 32) else old := by
  by_cases h : j / 32 = w <;> simp [writesOne, h]

/-- A cell of `n` bits cut out of a word. -/
theorem getLsbD_cell {n k value j : Nat} (hn : 0 < n) (hk : k * n = 32) :
    (BitVec.ofNat n (value >>> (n * (j / n % k)))).getLsbD (j % n) = value.testBit (j % 32) := by
  have hj : j % n < n := Nat.mod_lt _ hn
  have hmod : n * (j / n % k) + j % n = j % 32 := by
    rw [← hk, Nat.mul_comm k n, Nat.mod_mul, Nat.add_comm]
  simp only [BitVec.getLsbD_ofNat, hj, decide_true, Bool.true_and, Nat.testBit_shiftRight, hmod]

/-- The bits behind the port itself, after a write. -/
theorem Port.bit_write_self (p : Port) (r : RegBank) (w value j : Nat) :
    p.bit (p.write r w value) j =
      if j / 32 = w then p.combine (p.bit r j) (value.testBit (j % 32)) else p.bit r j := by
  cases p with
  | igroupr => rfl
  | isenabler | ispendr | isactiver => exact writesOne_or _ w value j
  | icenabler | icpendr | icactiver => exact writesOne_and _ w value j
  | ipriorityr =>
    have hcell := @getLsbD_cell 8 4 value j (by decide) (by decide)
    simp only [Port.bit, Port.write, Port.combine, Nat.div_div_eq_div_mul]
    split
    · exact hcell
    · rfl
  | icfgr =>
    have hcell := @getLsbD_cell 2 16 value j (by decide) (by decide)
    simp only [Port.bit, Port.write, Port.combine, Nat.div_div_eq_div_mul]
    split
    · exact hcell
    · rfl

/-- The bits behind a port of another array. -/
theorem Port.bit_write_other {p q : Port} (h : p.field ≠ q.field) (r : RegBank)
    (w value j : Nat) : q.bit (p.write r w value) j = q.bit r j := by
  cases p <;> cases q <;> first | rfl | exact absurd rfl h

/-! ## Where the bits are in memory -/

/-- The per-vCPU member behind a port. -/
def Port.frameField : Port → Field
  | igroupr => .rGroup
  | isenabler | icenabler => .rEnable
  | ispendr | icpendr => .rPending
  | isactiver | icactiver => .rActive
  | ipriorityr => .rPriority
  | icfgr => .rConfig

/-- The offset of the array behind a port of a bank. -/
def place (p : Port) : BankId → Nat
  | .dist => p.field.offset
  | .frame k => p.frameField.offset + k * p.frameField.rowSize

theorem place_congr {p q : Port} (h : p.field = q.field) (b : BankId) : place p b = place q b := by
  cases b <;> cases p <;> cases q <;> first | rfl | cases h

theorem words_congr {p q : Port} (h : p.field = q.field) (b : BankId) : words b p = words b q := by
  cases p <;> cases q <;> first | rfl | cases h

theorem words_dist (p : Port) : 4 * words .dist p = p.field.rowSize := by
  cases p <;> rfl

theorem words_frame (p : Port) (k : Nat) : 4 * words (.frame k) p = p.frameField.rowSize := by
  cases p <;> simp [words, BankId.irqs, Port.width, Port.frameField, Field.rowSize]

/-- The bank has storage. -/
def BankId.Known : BankId → Prop
  | dist => True
  | frame k => k < hyperMaxVcpus

theorem place_dist_le (p : Port) : 4 ≤ place p .dist ∧ place p .dist + 4 * words .dist p ≤ 9736 := by
  cases p <;> decide

theorem le_place_frame (p : Port) (k : Nat) : 9736 ≤ place p (.frame k) := by
  have hbase : 9736 ≤ p.frameField.offset := by
    cases p <;> decide
  exact Nat.le_trans hbase (Nat.le_add_right _ _)

theorem place_apart_frame {p q : Port} {k l : Nat} (hk : k < hyperMaxVcpus)
    (hl : l < hyperMaxVcpus) (hne : k ≠ l ∨ p.field ≠ q.field) :
    place p (.frame k) + p.frameField.rowSize ≤ place q (.frame l) ∨
      place q (.frame l) + q.frameField.rowSize ≤ place p (.frame k) := by
  simp only [hyperMaxVcpus] at hk hl
  cases p <;> cases q <;>
    simp only [place, Port.frameField, Field.offset, Field.rowSize, Port.field, ne_eq,
      not_true_eq_false, or_false] at hne ⊢ <;> omega

/-- Arrays of different banks, or behind different ports, do not overlap. -/
theorem place_apart {p q : Port} {b c : BankId} (hb : b.Known) (hc : c.Known)
    (hne : b ≠ c ∨ p.field ≠ q.field) :
    place p b + 4 * words b p ≤ place q c ∨ place q c + 4 * words c q ≤ place p b := by
  cases b with
  | dist =>
    cases c with
    | dist =>
      have hne : p.field ≠ q.field := by simpa using hne
      revert hne
      cases p <;> cases q <;> decide
    | frame l =>
      exact .inl (Nat.le_trans (place_dist_le p).2 (le_place_frame q l))
  | frame k =>
    cases c with
    | dist =>
      exact .inr (Nat.le_trans (place_dist_le q).2 (le_place_frame p k))
    | frame l =>
      rw [words_frame, words_frame]
      exact place_apart_frame hb hc (by simpa using hne)

/-! ## What the handlers do to a word -/

/-- `x` reads the word at `a` and changes nothing. -/
def ReadsWord (x : MemM Nat) (a : Nat) : Prop :=
  ∀ m, (x m).1 = littleEndian m.bytes a 4 ∧ (x m).2.bytes = m.bytes

/-- `x` writes the word at `a`: `f` of its old bits and the bits of `value`. -/
def WritesWord (x : MemM Unit) (a value : Nat) (f : Bool → Bool → Bool) : Prop :=
  ∀ m, ∃ v, (x m).2.bytes = put m.bytes a v 4 ∧
    ∀ j, j < 32 → v.testBit j = f (memBit m.bytes a j) (value.testBit j)

theorem reads_load (a : Nat) : ReadsWord (load a 4) a := by
  intro m
  rw [load_run]
  exact ⟨rfl, rfl⟩

theorem writes_store (a value : Nat) : WritesWord (store a value 4) a value fun _ new => new := by
  intro m
  refine ⟨value, ?_, fun _ _ => rfl⟩
  rw [store_run]

theorem writes_writeWord (a value : Nat) :
    WritesWord (writeWord a value) a value fun _ new => new := by
  intro m
  refine ⟨value % 2 ^ 32, ?_, fun j hj => ?_⟩
  · rw [writeWord, store_run]
  · rw [Nat.testBit_mod_two_pow, decide_eq_true hj, Bool.true_and]

theorem writes_setWord (a value : Nat) :
    WritesWord (setWord a value) a value fun old new => old || new := by
  intro m
  refine ⟨(littleEndian m.bytes a 4 ||| value % 2 ^ 32) % 2 ^ 32, ?_, fun j hj => ?_⟩
  · change (store a (((load a 4 m).1 ||| value % 2 ^ 32) % 2 ^ 32) 4 (load a 4 m).2).2.bytes = _
    rw [load_run, store_run]
  · rw [Nat.testBit_mod_two_pow, Nat.testBit_or, Nat.testBit_mod_two_pow, testBit_littleEndian]
    simp [hj]

theorem writes_clearWord (a value : Nat) :
    WritesWord (clearWord a value) a value fun old new => old && !new := by
  intro m
  refine ⟨(littleEndian m.bytes a 4 &&& (0xffffffff ^^^ value % 2 ^ 32)) % 2 ^ 32, ?_,
    fun j hj => ?_⟩
  · change (store a (((load a 4 m).1 &&& (0xffffffff ^^^ value % 2 ^ 32)) % 2 ^ 32) 4
      (load a 4 m).2).2.bytes = _
    rw [load_run, store_run]
  · rw [Nat.testBit_mod_two_pow, Nat.testBit_and, Nat.testBit_xor, Nat.testBit_mod_two_pow,
      testBit_littleEndian, show (0xffffffff : Nat) = 2 ^ 32 - 1 from rfl,
      Nat.testBit_two_pow_sub_one]
    simp [hj]

/-- The mode in which the distributor serves a port. -/
def Port.gicdMode : Port → GicdMode
  | igroupr | ipriorityr | icfgr => .rawBytes
  | isenabler | ispendr | isactiver => .w1s
  | icenabler | icpendr | icactiver => .w1c

/-- The mode in which a frame serves it. -/
def Port.gicrMode : Port → GicrMode
  | igroupr => .rawWord
  | isenabler | ispendr | isactiver => .w1sWord
  | icenabler | icpendr | icactiver => .w1cWord
  | ipriorityr => .rawBytesPrio
  | icfgr => .rawBytesConfig

theorem gicdFind_port {p : Port} {w : Nat} (hw : w < words .dist p) :
    gicdFind (p.offset + 4 * w) = some (p.field.gicdWindow p.offset p.gicdMode) := by
  have hwords := words_dist p
  refine gicdFind_eq ?_ ⟨Nat.le_add_right _ _, ?_⟩
  · cases p <;> decide
  · simp only [Field.gicdWindow]
    omega

theorem gicrFind_port {p : Port} {k w : Nat} (hw : w < words (.frame k) p) :
    gicrFind (p.offset + 4 * w) = some (p.frameField.gicrWindow p.offset p.gicrMode) := by
  have hwords := words_frame p k
  refine gicrFind_eq ?_ ⟨Nat.le_add_right _ _, ?_⟩
  · cases p <;> decide
  · simp only [Field.gicrWindow]
    omega

theorem port_offset {p : Port} {w : Nat} (hw : w < words .dist p) :
    0x80 ≤ p.offset + 4 * w ∧ p.offset + 4 * w < 0x6000 := by
  revert hw
  cases p <;> simp only [words, BankId.irqs, Port.width, Port.offset, gicdIgroupr, gicdIsenabler,
    gicdIcenabler, gicdIspendr, gicdIcpendr, gicdIsactiver, gicdIcactiver, gicdIpriorityr,
    gicdIcfgr] <;> omega

theorem words_le (p : Port) (k : Nat) : words (.frame k) p ≤ words .dist p := by
  cases p <;> simp [words, BankId.irqs, Port.width]

theorem reads_dist {p : Port} {w : Nat} (hw : w < words .dist p) :
    ReadsWord (distRead (p.offset + 4 * w) 2) (place p .dist + 4 * w) := by
  have hoff := port_offset hw
  have h32 : toUInt32 (p.offset + 4 * w - p.offset : Nat) = 4 * w := by
    rw [toUInt32_of_lt (by omega), Nat.add_sub_cancel_left]
  unfold distRead
  rw [if_neg (by omega), if_neg (by omega), if_neg (by omega),
    if_neg (by simp only [gicdPidr2]; omega), gicdFind_port hw]
  simp only [Field.gicdWindow, readBytes, h32]
  exact reads_load _

theorem writes_dist {p : Port} {w : Nat} (hw : w < words .dist p) (value : Nat) :
    WritesWord (distWrite (p.offset + 4 * w) 2 value) (place p .dist + 4 * w) value
      fun old new => p.combine old new := by
  have hoff := port_offset hw
  have h32 : toUInt32 (p.offset + 4 * w - p.offset : Nat) = 4 * w := by
    rw [toUInt32_of_lt (by omega), Nat.add_sub_cancel_left]
  have hreg : regIndex (p.offset + 4 * w) p.offset = w := by
    rw [regIndex, toUInt32_of_lt (by omega)]
    omega
  unfold distWrite
  rw [if_neg (by omega), gicdFind_port hw]
  simp only [Field.gicdWindow, writeBytes, h32, hreg]
  cases p with
  | igroupr | ipriorityr | icfgr => exact writes_store _ value
  | isenabler | ispendr | isactiver => exact writes_setWord _ value
  | icenabler | icpendr | icactiver => exact writes_clearWord _ value

/-- A bit array has one word in a frame. -/
theorem place_word {p : Port} {k w : Nat} (hw : w < words (.frame k) p)
    (h4 : p.frameField.rowSize = 4) :
    place p (.frame k) + 4 * w = redistWordField k p.frameField.offset := by
  have hwords := words_frame p k
  rw [place, h4, redistWordField]
  omega

theorem reads_sgi {p : Port} {k w : Nat} (hk : k < hyperMaxVcpus) (hw : w < words (.frame k) p) :
    ReadsWord (redistSgiRead k (p.offset + 4 * w) 2) (place p (.frame k) + 4 * w) := by
  have hoff := port_offset (Nat.lt_of_lt_of_le hw (words_le p k))
  have h32 : toUInt32 (p.offset + 4 * w - p.offset : Nat) = 4 * w := by
    rw [toUInt32_of_lt (by omega), Nat.add_sub_cancel_left]
  have hplace := place_word hw
  unfold redistSgiRead
  rw [if_neg (Nat.not_le.mpr hk), gicrFind_port hw]
  simp only [Field.gicrWindow, readBytes, redistByteArray, h32]
  cases p with
  | ipriorityr | icfgr => exact reads_load _
  | _ =>
    rw [hplace rfl]
    exact reads_load _

theorem writes_sgi {p : Port} {k w : Nat} (hk : k < hyperMaxVcpus) (hw : w < words (.frame k) p)
    (value : Nat) :
    WritesWord (redistSgiWrite k (p.offset + 4 * w) 2 value) (place p (.frame k) + 4 * w) value
      fun old new => p.combine old new := by
  have hoff := port_offset (Nat.lt_of_lt_of_le hw (words_le p k))
  have h32 : toUInt32 (p.offset + 4 * w - p.offset : Nat) = 4 * w := by
    rw [toUInt32_of_lt (by omega), Nat.add_sub_cancel_left]
  have hplace := place_word hw
  unfold redistSgiWrite
  rw [if_neg (Nat.not_le.mpr hk), gicrFind_port hw]
  simp only [Field.gicrWindow, writeBytes, redistByteArray, h32]
  cases p with
  | ipriorityr | icfgr => exact writes_store _ value
  | igroupr =>
    rw [hplace rfl]
    exact writes_writeWord _ value
  | isenabler | ispendr | isactiver =>
    rw [hplace rfl]
    exact writes_setWord _ value
  | icenabler | icpendr | icactiver =>
    rw [hplace rfl]
    exact writes_clearWord _ value

/-! ## Routing -/

section

variable {cfg : VgicConfig} {p : Port} {w : Nat}

theorem gicr_end (hwin : Windows cfg) :
    toUInt64 ((cfg.gicrBase : Int) + cfg.gicrSize) = cfg.gicrBase + cfg.gicrSize :=
  toUInt64_natCast hwin.gicr

theorem not_inGicr (hwin : Windows cfg) {off : Nat} (hoff : off + 4 ≤ cfg.gicdSize) :
    inGicr cfg (cfg.gicdBase + off) = false ∧ distOffset cfg (cfg.gicdBase + off) = off := by
  have h1 := hwin.gicd
  have h2 := hwin.gicr
  have h3 := hwin.apart
  refine ⟨?_, ?_⟩
  · simp only [inGicr, gicr_end hwin, Bool.and_eq_false_iff, decide_eq_false_iff_not]
    omega
  · simp only [distOffset, toUInt64]
    omega

theorem ctlr_route (hwin : Windows cfg) (hsize : 4 ≤ cfg.gicdSize) :
    inGicr cfg cfg.gicdBase = false ∧ distOffset cfg cfg.gicdBase = 0 := by
  have h := @not_inGicr cfg hwin 0 (Nat.le_trans (by decide) hsize)
  rwa [Nat.add_zero] at h

theorem inGicr_frame (hwin : Windows cfg) {k off : Nat} (hk : k < hyperMaxVcpus)
    (hoff : off < 0x20000) (hin : k * cfg.gicrStride + off + 4 ≤ cfg.gicrSize) :
    inGicr cfg (cfg.gicrBase + (k * cfg.gicrStride + off)) = true ∧
      frameIndex cfg (cfg.gicrBase + (k * cfg.gicrStride + off)) = k ∧
      frameOffset cfg (cfg.gicrBase + (k * cfg.gicrStride + off)) = off := by
  have h1 := hwin.gicr
  have hlt : off < cfg.gicrStride := Nat.lt_of_lt_of_le hoff hwin.stride
  have hin : inGicr cfg (cfg.gicrBase + (k * cfg.gicrStride + off)) = true := by
    simp only [inGicr, gicr_end hwin, Bool.and_eq_true, decide_eq_true_eq]
    omega
  obtain ⟨hindex, hoffset⟩ := frameIndex_eq hin
  refine ⟨hin, ?_, ?_⟩
  · rw [hindex, Nat.add_sub_cancel_left, Nat.mul_comm, Nat.mul_add_div (by omega),
      Nat.div_eq_of_lt hlt]
    simp only [hyperMaxVcpus] at hk
    omega
  · rw [hoffset, Nat.add_sub_cancel_left, Nat.mul_comm, Nat.mul_add_mod, Nat.mod_eq_of_lt hlt]

/-- A read of a register reads its word. -/
theorem reads_port (hwin : Windows cfg) {b : BankId} (hr : Reaches cfg p w b) :
    ReadsWord (gic3Read cfg (regAddr cfg p w b) 2) (place p b + 4 * w) := by
  obtain ⟨hw, hin⟩ := hr
  cases b with
  | dist =>
    obtain ⟨h1, h2⟩ := not_inGicr hwin hin
    simp only [gic3Read, regAddr, h1, Bool.false_eq_true, if_false, h2]
    exact reads_dist hw
  | frame k =>
    have hoff := port_offset (Nat.lt_of_lt_of_le hw (words_le p k))
    obtain ⟨h1, h2, h3⟩ := inGicr_frame hwin hin.1 (by simp only [vgicRdistSgiBase]; omega) hin.2
    simp only [gic3Read, regAddr, h1, if_true, redistRead, h2, h3]
    rw [if_neg (Nat.not_le.mpr hin.1), if_pos (Nat.le_add_right _ _), Nat.add_sub_cancel_left]
    exact reads_sgi hin.1 hw

/-- A write to a register writes its word. -/
theorem writes_port (hwin : Windows cfg) {b : BankId} (hr : Reaches cfg p w b) (value : Nat) :
    WritesWord (gic3Write cfg (regAddr cfg p w b) 2 value) (place p b + 4 * w) value
      fun old new => p.combine old new := by
  obtain ⟨hw, hin⟩ := hr
  cases b with
  | dist =>
    obtain ⟨h1, h2⟩ := not_inGicr hwin hin
    simp only [gic3Write, regAddr, h1, Bool.false_eq_true, if_false, h2]
    exact writes_dist hw value
  | frame k =>
    have hoff := port_offset (Nat.lt_of_lt_of_le hw (words_le p k))
    obtain ⟨h1, h2, h3⟩ := inGicr_frame hwin hin.1 (by simp only [vgicRdistSgiBase]; omega) hin.2
    simp only [gic3Write, regAddr, h1, if_true, redistWrite, h2, h3]
    rw [if_neg (Nat.not_le.mpr hin.1), if_pos (Nat.le_add_right _ _), Nat.add_sub_cancel_left]
    exact writes_sgi hin.1 hw value

end

/-! ## The simulation -/

/-- The bytes hold the register file. -/
structure Represents (f : Nat → BitVec 8) (s : RegFile) : Prop where
  ctlr : littleEndian f Field.distCtlr.offset 4 = s.ctlr
  bits : ∀ (b : BankId) (p : Port) (j : Nat), b.Known → j < 32 * words b p →
    memBit f (place p b) j = p.bit (s.bank b) j

theorem Reaches.known {cfg : VgicConfig} {p : Port} {w : Nat} {b : BankId}
    (hr : Reaches cfg p w b) : b.Known := by
  cases b with
  | dist => exact trivial
  | frame k => exact hr.2.1

section

variable {f : Nat → BitVec 8} {s : RegFile} {b : BankId} {p : Port} {w v : Nat}

/-- A word of an array is the word of the port. -/
theorem Represents.read (h : Represents f s) (hb : b.Known) (hw : w < words b p) :
    littleEndian f (place p b + 4 * w) 4 = p.read (s.bank b) w := by
  refine Nat.eq_of_testBit_eq fun j => ?_
  rw [testBit_littleEndian, Port.read_eq, testBit_word, memBit_add]
  by_cases hj : j < 32
  · rw [h.bits b p (32 * w + j) hb (by omega)]
  · simp [hj]

/-- A written word changes the bits of the word behind its port, and no others. -/
theorem Represents.write (h : Represents f s) (hb : b.Known) (hw : w < words b p) {value : Nat}
    (hv : ∀ j, j < 32 → v.testBit j =
      p.combine (memBit f (place p b + 4 * w) j) (value.testBit j)) :
    Represents (put f (place p b + 4 * w) v 4) (s.step (.write b p w value)).2 := by
  refine ⟨?_, fun c q j hc hj => ?_⟩
  · -- the control register lies before all arrays
    rw [RegFile.step, ← h.ctlr]
    refine Nat.eq_of_testBit_eq fun j => ?_
    rw [testBit_littleEndian, testBit_littleEndian]
    by_cases hj : j < 32
    · rw [memBit_put_apart]
      have hle : 4 ≤ place p b := by
        cases b with
        | dist => exact (place_dist_le p).1
        | frame k => exact Nat.le_trans (by decide) (le_place_frame p k)
      simp only [Field.offset]
      omega
    · simp [hj]
  · by_cases hsame : c = b ∧ p.field = q.field
    · obtain ⟨rfl, hfield⟩ := hsame
      rw [← place_congr hfield, ← Port.bit_congr hfield]
      rw [words_congr hfield.symm] at hj
      simp only [RegFile.step, if_true, Port.bit_write_self]
      by_cases hword : j / 32 = w
      · have hsplit : j = 32 * w + j % 32 := by omega
        have hold := h.bits c p j hc hj
        rw [if_pos hword, ← hold]
        rw [hsplit, ← memBit_add, memBit_put _ _ _ _ _ (by omega), hv _ (by omega)]
        simp only [memBit_add, Nat.mul_add_mod, Nat.mod_mod]
      · rw [if_neg hword, memBit_put_apart (by omega)]
        exact h.bits c p j hc hj
    · have hbit : q.bit ((s.step (.write b p w value)).2.bank c) j = q.bit (s.bank c) j := by
        simp only [RegFile.step]
        by_cases hcb : c = b
        · have hfield : p.field ≠ q.field := fun he => hsame ⟨hcb, he⟩
          rw [if_pos hcb, Port.bit_write_other hfield, hcb]
        · rw [if_neg hcb]
      have hapart : place p b + 4 * words b p ≤ place q c ∨ place q c + 4 * words c q ≤ place p b := by
        refine place_apart hb hc ?_
        by_cases hcb : b = c
        · exact .inr fun he => hsame ⟨hcb.symm, he⟩
        · exact .inl hcb
      rw [hbit, memBit_put_apart (by omega)]
      exact h.bits c q j hc hj

/-- A write of the control register. -/
theorem Represents.writeCtlr (h : Represents f s) {value : Nat}
    (hv : ∀ j, j < 32 → v.testBit j = value.testBit j) :
    Represents (put f Field.distCtlr.offset v 4) (s.step (.writeCtlr value)).2 := by
  refine ⟨?_, fun c q j hc hj => ?_⟩
  · refine Nat.eq_of_testBit_eq fun j => ?_
    rw [testBit_littleEndian, RegFile.step, Nat.testBit_mod_two_pow]
    by_cases hj : j < 32
    · rw [memBit_put _ _ _ _ _ hj, hv j hj]
    · simp [hj]
  · have hle : 4 ≤ place q c := by
      cases c with
      | dist => exact (place_dist_le q).1
      | frame k => exact Nat.le_trans (by decide) (le_place_frame q k)
    rw [memBit_put_apart (by simp only [Field.offset]; omega)]
    exact h.bits c q j hc hj

end

/-- One access: both return the same value, and the bytes still hold the register file. -/
theorem handle_simulates {cfg : VgicConfig} (hwin : Windows cfg) {m : Mem} {s : RegFile}
    (h : Represents m.bytes s) {acc : RegAccess} (hacc : acc.Valid cfg) :
    (acc.handle cfg m).1 = (s.step acc).1 ∧
      Represents (acc.handle cfg m).2.bytes (s.step acc).2 := by
  cases acc with
  | readCtlr =>
    obtain ⟨h1, h2⟩ := ctlr_route hwin hacc
    have hread : ReadsWord (gic3Read cfg cfg.gicdBase 2) Field.distCtlr.offset := by
      simp only [gic3Read, h1, Bool.false_eq_true, if_false, h2]
      exact reads_load _
    obtain ⟨hval, hmem⟩ := hread m
    rw [RegAccess.handle, hval, hmem]
    exact ⟨h.ctlr, h⟩
  | writeCtlr value =>
    obtain ⟨h1, h2⟩ := ctlr_route hwin hacc
    have hwrite : WritesWord (gic3Write cfg cfg.gicdBase 2 value) Field.distCtlr.offset value
        fun _ new => new := by
      simp only [gic3Write, h1, Bool.false_eq_true, if_false, h2]
      exact writes_writeWord _ value
    obtain ⟨v, hmem, hv⟩ := hwrite m
    refine ⟨rfl, ?_⟩
    change Represents (gic3Write cfg cfg.gicdBase 2 value m).2.bytes _
    rw [hmem]
    exact h.writeCtlr hv
  | read b p w =>
    obtain ⟨hval, hmem⟩ := reads_port hwin hacc m
    rw [RegAccess.handle, hval, hmem]
    exact ⟨h.read hacc.known hacc.1, h⟩
  | write b p w value =>
    obtain ⟨v, hmem, hv⟩ := writes_port hwin hacc value m
    refine ⟨rfl, ?_⟩
    change Represents (gic3Write cfg (regAddr cfg p w b) 2 value m).2.bytes _
    rw [hmem]
    exact h.write hacc.known hacc.1 hv

/-- The arrays other than the priorities lie outside the two priority arrays. -/
theorem place_clear {p : Port} (hp : p ≠ .ipriorityr) {b : BankId} (hb : b.Known) {i : Nat}
    (hi : i < 4 * words b p) : gicRegisterEmul (place p b + i) = 0 := by
  have hout : place p b + i < 772 ∨ (1796 ≤ place p b + i ∧ place p b + i < 9864) := by
    cases b with
    | dist =>
      rw [words_dist] at hi
      revert hi hp
      cases p <;> simp only [place, Port.field, Field.offset, Field.rowSize, ne_eq,
        not_true_eq_false, false_implies] <;> omega
    | frame k =>
      simp only [BankId.Known, hyperMaxVcpus] at hb
      rw [words_frame] at hi
      revert hi hp
      cases p <;> simp only [place, Port.frameField, Field.offset, Field.rowSize, ne_eq,
        not_true_eq_false, false_implies] <;> omega
  rw [gicRegisterEmul, if_neg]
  rw [Bool.or_eq_true, inRange_iff, inRange_iff]
  simp only [Field.offset, Field.rowSize, hyperMaxVcpus]
  omega

theorem place_priority {b : BankId} (hb : b.Known) {i : Nat} (hi : i < b.irqs) :
    gicRegisterEmul (place .ipriorityr b + i) = 0xa0 := by
  rw [gicRegisterEmul, if_pos]
  rw [Bool.or_eq_true, inRange_iff, inRange_iff]
  cases b with
  | dist => exact .inl ⟨Nat.le_add_right _ _, Nat.add_lt_add_left hi _⟩
  | frame k =>
    simp only [BankId.Known, hyperMaxVcpus] at hb
    simp only [BankId.irqs] at hi
    simp only [place, Port.frameField, Field.offset, Field.rowSize, hyperMaxVcpus]
    omega

/-- After `gic_register_emul` every priority byte is `0xa0` and the rest is clear. -/
theorem represents_reset : Represents gicRegisterEmul RegFile.reset := by
  refine ⟨by decide, fun b p j hb hj => ?_⟩
  by_cases hp : p = .ipriorityr
  · subst hp
    have hi : j / 8 < b.irqs := by
      cases b <;> simp only [words, BankId.irqs, Port.width] at hj ⊢ <;> omega
    rw [memBit, place_priority hb hi]
    rfl
  · rw [memBit, place_clear hp hb (by omega)]
    change BitVec.getLsbD 0#8 (j % 8) = _
    rw [BitVec.getLsbD_zero]
    cases p with
    | ipriorityr => exact absurd rfl hp
    | icfgr => exact BitVec.getLsbD_zero.symm
    | _ => rfl

/-- Every sequence of aligned 32-bit accesses to the distributor's and the frames'
registers reads what the register file reads. -/
theorem handleAll_refines {cfg : VgicConfig} (hwin : Windows cfg) {accs : List RegAccess}
    (hvalid : ∀ acc ∈ accs, acc.Valid cfg) :
    handleAll cfg ⟨gicRegisterEmul, []⟩ accs = RegFile.reset.run accs := by
  suffices hrun : ∀ (m : Mem) (s : RegFile), Represents m.bytes s →
      handleAll cfg m accs = s.run accs from hrun _ _ represents_reset
  induction accs with
  | nil => exact fun _ _ _ => rfl
  | cons acc accs ih =>
    intro m s h
    obtain ⟨hval, hnext⟩ := handle_simulates hwin h (hvalid acc List.mem_cons_self)
    rw [handleAll, RegFile.run, hval]
    rw [ih (fun a ha => hvalid a (List.mem_cons_of_mem _ ha)) _ _ hnext]

/-- Interrupt 36 is enabled through the set port and seen through the clear port; the
last frame's priorities are those of the reset. -/
theorem handleAll_refines_qemu :
    handleAll qemuVgic ⟨gicRegisterEmul, []⟩
      [.write .dist .isenabler 1 0x10, .read .dist .icenabler 1,
        .read (.frame 3) .ipriorityr 7] = [0, 0x10, 0xa0a0a0a0] := by
  have hwin : Windows qemuVgic :=
    ⟨by decide, by simp [qemuVgic], by simp [qemuVgic], .inl (by decide)⟩
  have hvalid : ∀ acc ∈ [RegAccess.write .dist .isenabler 1 0x10, .read .dist .icenabler 1,
      .read (.frame 3) .ipriorityr 7], acc.Valid qemuVgic := by
    intro acc hacc
    simp only [List.mem_cons, List.not_mem_nil, or_false] at hacc
    rcases hacc with rfl | rfl | rfl <;> simp only [RegAccess.Valid, Reaches] <;> decide
  rw [handleAll_refines hwin hvalid]
  decide

end HyperCore.Vgic
