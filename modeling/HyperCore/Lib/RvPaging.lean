import HyperCore.Lib.ReadLog

/-!
# Address translation of RV64

The page walk of Sv39 and Sv48, without the permissions and the accessed and dirty bits, for a
machine without Svnapot and Svpbmt. Memory is partial, and an entry outside of it ends the walk.
-/

namespace RvPaging

open ReadLog

/-! ## Entries -/

def ppn (pte : BitVec 64) : Nat := pte.toNat / 2 ^ 10 % 2 ^ 44

/-- Read or execute permission. -/
def leaf (pte : BitVec 64) : Bool := pte.getLsbD 1 || pte.getLsbD 3

/-- Not valid, or writable without being readable. -/
def invalid (pte : BitVec 64) : Bool := !pte.getLsbD 0 || (pte.getLsbD 2 && !pte.getLsbD 1)

/-- The bits above the page number are reserved, and in a pointer D, A and U as well. -/
def reserved (pte : BitVec 64) : Bool :=
  pte >>> 54 != 0 || (!leaf pte && (pte.getLsbD 7 || pte.getLsbD 6 || pte.getLsbD 4))

/-- A page of this level has a page number of its own size. -/
def aligned (pte : BitVec 64) (level : Nat) : Bool := ppn pte % 2 ^ (9 * level) == 0

/-! ## The walk -/

def vpn (va : BitVec 64) (level : Nat) : Nat := va.toNat / 2 ^ (12 + 9 * level) % 512

/-- The bits of an address above the ones the levels translate repeat the highest of these. -/
def Canonical (levels : Nat) (va : BitVec 64) : Prop :=
  va = (va.setWidth (12 + 9 * levels)).signExtend 64

instance (levels : Nat) (va : BitVec 64) : Decidable (Canonical levels va) :=
  inferInstanceAs (Decidable (_ = _))

/-- The walk from the table at `table` on, with the levels still to go. -/
def walkFrom (m : Nat → Option (BitVec 8)) (va : BitVec 64) (table : Nat) : Nat → Option Nat
  | 0 => none
  | level + 1 =>
    match (load m (table + 8 * vpn va level) 8).result with
    | none => none
    | some pte =>
      if invalid pte || reserved pte then none
      else if leaf pte then
        if aligned pte level then some (ppn pte * 2 ^ 12 + va.toNat % 2 ^ (12 + 9 * level))
        else none
      else walkFrom m va (ppn pte * 2 ^ 12) level

/-- The levels of the mode in `satp`. -/
def levels (satp : BitVec 64) : Option Nat :=
  if satp >>> 60 = 8 then some 3 else if satp >>> 60 = 9 then some 4 else none

/-- The physical address of `va`. The mode 0 does not translate. -/
def translate (m : Nat → Option (BitVec 8)) (satp va : BitVec 64) : Option Nat :=
  if satp >>> 60 = 0 then some va.toNat
  else
    match levels satp with
    | none => none
    | some n =>
      if Canonical n va then walkFrom m va (satp.toNat % 2 ^ 44 * 2 ^ 12) n else none

/-- The eight bytes from `va` on, each translated on its own, are the bytes of `value`. -/
def ReadsWord (m : Nat → Option (BitVec 8)) (satp va value : BitVec 64) : Prop :=
  ∀ k < 8, ∃ pa, translate m satp (va + BitVec.ofNat 64 k) = some pa ∧
    m pa = some (value.extractLsb' (8 * k) 8)

end RvPaging
