import HyperCore.Riscv64.PgMap

/-!
# `pg_map_huge`: 2 MB leaves

`pg_map_2MB` ends one level above `pg_map_4k` and writes its leaf into a table of level 2. So it is the
mapper on trees with two levels of links, and the Sv48 walk goes through those before it reads the
entry of level 2 (`sv48Walk_two`).
-/

namespace HyperCore.Riscv64

open RadixTable Bitmap PageAlloc ArchPage TableMap

/-! ## The code -/

section

variable (L : Layout) (withoutMmu : Bool)

/-- `pg_map_2MB` -/
def pgMap2MB (root startLevel vaddr paddr : Nat) (attr : BitVec 32) : HostM Int :=
  pgMapTo L withoutMmu root startLevel 2 vaddr paddr attr

/-- The number of rounds of `pg_map_huge`, after `map_size` is rounded up. -/
def hugeCount (mapSize : Nat) : Nat := (mapSize + 2 ^ 21 - 1) % 2 ^ 64 / 2 ^ 21

/-- `pg_map_huge`. It answers 0 whatever the blocks answered. -/
def pgMapHuge (root startLevel vaddr paddr mapSize : Nat) (attr : BitVec 32) : HostM Unit :=
  let vaddr := vaddr / 2 ^ 21 * 2 ^ 21
  let paddr := paddr / 2 ^ 21 * 2 ^ 21
  forRounds (fun i => do
    let _ ← pgMap2MB L withoutMmu root startLevel ((vaddr + 2 ^ 21 * i) % 2 ^ 64)
      ((paddr + 2 ^ 21 * i) % 2 ^ 64) attr
    pure ()) (hugeCount mapSize)

end

/-! ## The code as a mapper -/

section

variable (L : Layout) (withoutMmu : Bool)

theorem pgMap2MB_eq (root vaddr paddr : Nat) (attr : BitVec 32) :
    pgMap2MB L withoutMmu root 0 vaddr paddr attr = (do
      (pgMapper L withoutMmu).mapPage root 2 (pgIndex 0 vaddr) (leafEntry paddr attr).bits
      pure 0) := by
  simp only [pgMap2MB, pgMapTo, Mapper.mapPage, pgIndex, bind_assoc, Nat.zero_add, Nat.sub_zero,
    pgTables_eq L withoutMmu root 0 vaddr (show 0 + 2 ≤ 3 by decide), pure_bind, ne_eq,
    not_true_eq_false, if_false]
  rfl

/-- `pg_map_huge` is the mapper on the blocks of the range. -/
theorem pgMapHuge_eq (root vaddr paddr mapSize : Nat) (attr : BitVec 32) :
    pgMapHuge L withoutMmu root 0 vaddr paddr mapSize attr =
      (pgMapper L withoutMmu).mapPages root 2
        (fun i => pgIndex 0 ((vaddr / 2 ^ 21 * 2 ^ 21 + 2 ^ 21 * i) % 2 ^ 64))
        (fun i => (leafEntry ((paddr / 2 ^ 21 * 2 ^ 21 + 2 ^ 21 * i) % 2 ^ 64) attr).bits)
        (hugeCount mapSize) := by
  simp only [pgMapHuge, Mapper.mapPages, pgMap2MB_eq, bind_assoc, pure_bind, bind_pure_unit]

end

/-! ## Two levels of links -/

section

variable {L : Layout} {withoutMmu : Bool} {root : Nat} {h : Host}

/-- The top of a tree is a tree. -/
theorem tables_top (ht : Tables (pgMapper L withoutMmu) root 3 h) :
    Tables (pgMapper L withoutMmu) root 2 h where
  tree :=
    { aligned := fun hk => ht.tree.aligned (Nat.le_succ_of_le hk)
      inj := fun hk hk' => ht.tree.inj (Nat.le_succ_of_le hk) (Nat.le_succ_of_le hk')
      entry := fun hk => ht.tree.entry (Nat.lt_succ_of_lt hk) }
  owned h0 hk := ht.owned h0 (Nat.le_succ_of_le hk)
  root_taken := ht.root_taken

/-- Addresses meet in the indices above the last level exactly if they are in one block. -/
theorem agree_block {va va' : Nat} (hva : va < 2 ^ 48) (hva' : va' < 2 ^ 48) :
    AgreeTo 3 (pgIndex 0 va) (pgIndex 0 va') ↔ va / 2 ^ 21 = va' / 2 ^ 21 := by
  constructor
  · intro hag
    have hidx (k : Nat) (hk : k < 3) : va / 2 ^ (12 + 9 * (3 - (0 + k))) % 512 =
        va' / 2 ^ (12 + 9 * (3 - (0 + k))) % 512 := congrArg Fin.val (hag k hk)
    have h0 := hidx 0 (by decide)
    have h1 := hidx 1 (by decide)
    have h2 := hidx 2 (by decide)
    simp only [Nat.reduceAdd, Nat.reduceMul, Nat.reduceSub, Nat.reducePow] at *
    omega
  · intro hblock k hk
    have hdiv (x : Nat) : x / 2 ^ (12 + 9 * (3 - (0 + k))) = x / 2 ^ 21 / 2 ^ (9 * (2 - k)) := by
      rw [Nat.div_div_eq_div_mul, ← Nat.pow_add]
      congr 2
      omega
    simp only [pgIndex, pteOffset, hdiv, hblock]

end

/-- A leaf entry is not clear. -/
theorem leafEntry_ne_zero (addr : Nat) (attr : BitVec 32) : (leafEntry addr attr).bits ≠ 0 := by
  intro h0
  have hvalid := pteIsValid_leaf addr attr
  rw [h0, pteIsValid_zero] at hvalid
  cases hvalid

theorem isLeaf_leaf {pa : Nat} {attr : BitVec 32} (hacc : HasAccess attr) :
    isLeaf (leafEntry pa attr).bits = true := by
  rw [isLeaf, flagsOf_leaf, Bool.or_right_comm, requested_leaf hacc, Bool.true_or]

/-- The content of an entry that is not clear. -/
def content (w : Word) : Option Word := if w = 0 then none else some w

theorem content_eq_some {w d : Word} : content w = some d ↔ w = d ∧ d ≠ 0 := by
  unfold content
  split
  · next h0 =>
    refine ⟨nofun, fun ⟨he, hne⟩ => absurd ?_ hne⟩
    rw [← he, h0]
  · next h0 =>
    constructor
    · intro he
      obtain rfl := Option.some.inj he
      exact ⟨rfl, h0⟩
    · rintro ⟨rfl, -⟩
      rfl

/-! ## The walk -/

section

variable {m : Nat → Word} {va t : Nat}

/-- A 2 MB leaf, as the walk of `va` reads it. -/
theorem sv48WalkFrom_huge {pa : Nat} {attr : BitVec 32} (hacc : HasAccess attr) (hlt : pa < 2 ^ 56)
    (hpa : pa % 4096 = 0) (hd : m (t + 8 * vpn va 1) = (leafEntry pa attr).bits) :
    sv48WalkFrom m va t 1 =
      if pa % 2 ^ 21 = 0 then some (pa + va % 2 ^ 21, requested attr) else none := by
  have hbase := tableBase_leaf attr hpa hlt
  rw [tableBase] at hbase
  rw [sv48WalkFrom]
  simp only [hd, pteIsValid_leaf, flagsOf_leaf, highBits_bits, hbase, requested_unreserved,
    requested_leaf hacc]
  rfl

end

section

variable {L : Layout} {m : Nat → Word} {root : Nat}

/-- The walk of a tree with two levels of links goes through its tables, then from that of level 2. -/
theorem sv48Walk_two (ht : Tree (pgMapper L false).format m root 2) (va : Nat) :
    sv48Walk m root va =
      (tableAt (pgMapper L false).format m root (pgIndex 0 va) 2).bind fun b =>
        sv48WalkFrom m va b 1 := by
  rw [sv48Walk, sv48WalkFrom_succ ht va (n := 2) (k := 0) rfl (by decide) rfl]
  cases hb : tableAt (pgMapper L false).format m root (pgIndex 0 va) 1 with
  | none =>
    rw [tableAt_none (Nat.le_succ 1) hb]
    rfl
  | some b => exact sv48WalkFrom_succ ht va (n := 1) (k := 1) rfl (by decide) hb

end

end HyperCore.Riscv64
