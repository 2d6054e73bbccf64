import HyperCore.AArch64.Stage2Map

/-!
# Concatenated root tables

For PARange 2, 3 and 6 the root is a block of `2 ^ root_order` pages: the MMU indexes
it with every address bit up to `pabits - 1`. `pte_offset` cuts the index to 9 bits at
every level, so the code only ever uses the first page of the block. Below
`2 ^ reachBits` the two agree; past it the MMU looks into a page of the block that
nothing ever writes.
-/

namespace HyperCore.AArch64

open RadixTable Bitmap PageAlloc ArchPage TableMap

/-! ## The slot the MMU reaches -/

/-- The last-level slot below `table`, with `n` levels of tables in between. -/
def mmuSlotFrom (m : Nat → Word) (ipa : Nat) : Nat → Nat → Option Nat
  | table, 0 => some (table + 8 * mmuIndex ipa 3)
  | table, n + 1 =>
    let d := m (table + 8 * mmuIndex ipa (2 - n))
    if validBit d && tableBit d then mmuSlotFrom m ipa (baseField d * 4096) n else none

/-- The index at the initial level: all address bits up to `paSize - 1`. -/
def initialIndex (info : Stage2MmInfo) (ipa : Nat) : Nat :=
  ipa % 2 ^ info.paSize / 2 ^ (12 + 9 * (3 - info.lookupLevel))

/-- The last-level slot the MMU reaches for `ipa`. -/
def mmuSlot (L : Layout) (info : Stage2MmInfo) (m : Nat → Word) (ipa : Nat) : Option Nat :=
  let d := m (rootPhys L info + 8 * initialIndex info ipa)
  if validBit d && tableBit d then
    mmuSlotFrom m ipa (baseField d * 4096) (2 - info.lookupLevel)
  else none

/-- The call from `h` to `h'` wrote the last-level slot `s` and no other. -/
def WritesLeaf (h h' : Host) (s : Nat) : Prop :=
  ∃ l, h'.log = .leaf s :: l ++ h.log ∧ ∀ ev ∈ l, ev.OfTable

/-- Mapping `a` and then `b` writes two different slots, and the MMU reaches each for
its address. -/
def MapsApart (L : Layout) (info : Stage2MmInfo) (h : Host) (a b pa pb : Nat) (attr : MemType)
    (acc : MemAccess) : Prop :=
  ∃ h₁ h₂ sa sb, stage2Map L info a pa pageSize attr acc h = .ok () h₁ ∧
    stage2Map L info b pb pageSize attr acc h₁ = .ok () h₂ ∧
    WritesLeaf h h₁ sa ∧ WritesLeaf h₁ h₂ sb ∧ sa ≠ sb ∧
    mmuSlot L info h₂.mem a = some sa ∧ mmuSlot L info h₂.mem b = some sb

/-- The tables the two pages lack. -/
def pairNeeded (L : Layout) (info : Stage2MmInfo) (h : Host) (a b : Nat) : Nat :=
  needed (s2Mapper L) (rootPhys L info) (3 - info.lookupLevel) h
    (pairOf (s2Index info.lookupLevel a) (s2Index info.lookupLevel b)) 2

section

variable {L : Layout} {info : Stage2MmInfo} {h : Host} {q : Nat}

theorem mmuSlotFrom_eq {m : Nat → Word} {root startLevel depth : Nat} {ipa b : Nat}
    (hd : startLevel + depth = 3)
    (hb : tableAt (s2Mapper L).format m root (s2Index startLevel ipa) depth = some b) (n : Nat) :
    ∀ {k t}, k + n = depth → tableAt (s2Mapper L).format m root (s2Index startLevel ipa) k = some t →
      mmuSlotFrom m ipa t n = some (slot b (s2Index startLevel ipa depth)) := by
  induction n with
  | zero =>
    intro k t hk ht
    obtain rfl : k = depth := hk
    rw [Option.some.inj (ht.symm.trans hb), slot_s2Index, hd]
    rfl
  | succ n ih =>
    intro k t hk ht
    have hlevel : 2 - n = startLevel + k := by omega
    have hsome := tableAt_isSome_of_le (show k + 1 ≤ depth by omega) (Option.isSome_of_eq_some hb)
    obtain ⟨c, hc⟩ := Option.isSome_iff_exists.mp hsome
    obtain ⟨hv, htb, hbase⟩ := s2Mapper_next (tableAt_succ ht ▸ hc)
    rw [mmuSlotFrom, hlevel, ← slot_s2Index t ipa startLevel k]
    simp only [hv, htb, hbase, Bool.and_self, ↓reduceIte]
    exact ih (by omega) hc

/-- Below `2 ^ reachBits` the MMU reaches the slot of the tree's walk. -/
theorem mmuSlot_eq (ht : Stage2Tree L info h q) (hl : info.lookupLevel ≤ 2) {ipa b : Nat}
    (hpa : ipa < 2 ^ info.paSize) (hreach : ipa < 2 ^ reachBits info)
    (hb : tableAt (s2Mapper L).format h.mem (L.physPage q) (s2Index info.lookupLevel ipa)
      (3 - info.lookupLevel) = some b) :
    mmuSlot L info h.mem ipa =
      some (slot b (s2Index info.lookupLevel ipa (3 - info.lookupLevel))) := by
  have hinit : initialIndex info ipa = mmuIndex ipa info.lookupLevel := by
    have hpow : 2 ^ reachBits info = 2 ^ (12 + 9 * (3 - info.lookupLevel)) * 512 := by
      rw [show (512 : Nat) = 2 ^ 9 from rfl, ← Nat.pow_add, reachBits]
      congr 1
      omega
    rw [initialIndex, mmuIndex, Nat.mod_eq_of_lt hpa]
    exact (Nat.mod_eq_of_lt (Nat.div_lt_of_lt_mul (hpow ▸ hreach))).symm
  have hdepth : 3 - info.lookupLevel = 2 - info.lookupLevel + 1 := by omega
  have hwalk := mmuSlotFrom_eq (L := L) (show info.lookupLevel + (3 - info.lookupLevel) = 3 by omega)
    hb _ (Nat.zero_add _) rfl
  rw [← hwalk, mmuSlot, ht.rootPhys_eq, hinit, hdepth, mmuSlotFrom,
    show 2 - (2 - info.lookupLevel) = info.lookupLevel by omega]

/-- Past it the MMU finds an empty descriptor. -/
theorem mmuSlot_past (ht : Stage2Tree L info h q) (hl : info.lookupLevel ≤ 2)
    (hblock : info.paSize ≤ reachBits info + info.rootPageOrder) {ipa : Nat}
    (hpa : ipa < 2 ^ info.paSize) (hreach : 2 ^ reachBits info ≤ ipa) :
    mmuSlot L info h.mem ipa = none := by
  have hpow : 2 ^ reachBits info = 512 * 2 ^ (12 + 9 * (3 - info.lookupLevel)) := by
    rw [show (512 : Nat) = 2 ^ 9 from rfl, ← Nat.pow_add, reachBits]
    congr 1
    omega
  have hend : ipa < 2 ^ (12 + 9 * (3 - info.lookupLevel)) * (512 * 2 ^ info.rootPageOrder) := by
    calc ipa < 2 ^ info.paSize := hpa
      _ ≤ 2 ^ (reachBits info + info.rootPageOrder) := pow_bits_le hblock
      _ = 2 ^ (12 + 9 * (3 - info.lookupLevel)) * (512 * 2 ^ info.rootPageOrder) := by
        rw [Nat.pow_add, hpow, Nat.mul_comm 512, Nat.mul_assoc]
  have h1 : 512 ≤ initialIndex info ipa := by
    rw [initialIndex, Nat.mod_eq_of_lt hpa]
    exact (Nat.le_div_iff_mul_le (Nat.two_pow_pos _)).mpr (hpow ▸ hreach)
  have h2 : initialIndex info ipa < 512 * 2 ^ info.rootPageOrder := by
    rw [initialIndex, Nat.mod_eq_of_lt hpa]
    exact Nat.div_lt_of_lt_mul hend
  -- entry `initialIndex` of the block is entry `i` of its page `j`
  have hzero := ht.rest_zero (initialIndex info ipa / 512) (by omega) (by omega)
    ⟨initialIndex info ipa % 512, Nat.mod_lt _ (by decide)⟩
  have haddr : rootPhys L info + 8 * initialIndex info ipa =
      slot (L.physPage (q + initialIndex info ipa / 512)) (initialIndex info ipa % 512) := by
    rw [ht.rootPhys_eq]
    simp only [slot, Layout.physPage, pageSize]
    omega
  rw [mmuSlot, haddr, hzero]
  rfl

/-! ## Mapping two pages -/

/-- A call of `stage2_map` for one page. -/
theorem stage2Map_page (L : Layout) {info : Stage2MmInfo} (hl : info.lookupLevel ≤ 3)
    {vaddr : Nat} (hv : vaddr < 2 ^ 64) (paddr : Nat) (attr : MemType) (acc : MemAccess) :
    stage2Map L info vaddr paddr pageSize attr acc =
      (s2Mapper L).mapPage info.rootTable (3 - info.lookupLevel) (s2Index info.lookupLevel vaddr)
        (makeStage2Entry (paddr % 2 ^ 64) attr acc) := by
  rw [stage2Map_eq L info vaddr paddr pageSize attr acc hl, Mapper.mapPages,
    show pageCount pageSize = 1 by decide, forRounds, forRounds, pure_bind, Nat.mul_zero,
    Nat.add_zero, Nat.add_zero, Nat.mod_eq_of_lt hv]

/-- Mapping two pages with room for their tables: where the two entries go. -/
theorem stage2Map_two (ht : Stage2Tree L info h q) {a b : Nat} (ha : a < 2 ^ 64) (hb : b < 2 ^ 64)
    (pa pb : Nat) (attr : MemType) (acc : MemAccess)
    (hfree : pairNeeded L info h a b ≤ evenFree h.bitmap (2 ^ 17)) :
    ∃ h₁ h₂ ta tb, stage2Map L info a pa pageSize attr acc h = .ok () h₁ ∧
      stage2Map L info b pb pageSize attr acc h₁ = .ok () h₂ ∧ Stage2Tree L info h₂ q ∧
      tableAt (s2Mapper L).format h₂.mem (L.physPage q) (s2Index info.lookupLevel a)
        (3 - info.lookupLevel) = some ta ∧
      tableAt (s2Mapper L).format h₂.mem (L.physPage q) (s2Index info.lookupLevel b)
        (3 - info.lookupLevel) = some tb ∧
      WritesLeaf h h₁ (slot ta (s2Index info.lookupLevel a (3 - info.lookupLevel))) ∧
      WritesLeaf h₁ h₂ (slot tb (s2Index info.lookupLevel b (3 - info.lookupLevel))) := by
  rw [pairNeeded, ht.rootPhys_eq] at hfree
  have hfirst : missing (s2Mapper L) (L.physPage q) h (s2Index info.lookupLevel a)
      (3 - info.lookupLevel) ≤ evenFree h.bitmap (s2Mapper L).half := by
    refine Nat.le_trans ?_ hfree
    rw [needed, missing_first ht.tables]
    exact Nat.le_add_right _ _
  obtain ⟨h₁, ta, l, hrun, hta, hlog, hof, hg, -⟩ := mapPage_good ht.tables ht.at_root (ht.sees _)
    (makeStage2Entry (pa % 2 ^ 64) attr acc) hfirst
  have ht₁ := ht.grown hg
  have hcount := hg.count (Nat.le_refl _)
  have hnext : missing (s2Mapper L) (L.physPage q) h₁ (s2Index info.lookupLevel b)
      (3 - info.lookupLevel) ≤ evenFree h₁.bitmap (s2Mapper L).half := by
    rw [needed_pair ht.tables hg] at hfree
    rw [s2Mapper_half] at hcount ⊢
    omega
  obtain ⟨h₂, tb, l', hrun', htb, hlog', hof', hg', -⟩ := mapPage_good ht₁.tables ht₁.at_root
    (ht₁.sees _) (makeStage2Entry (pb % 2 ^ 64) attr acc) hnext
  refine ⟨h₁, h₂, ta, tb, ?_, ?_, ht₁.grown hg', hg'.old (Nat.le_refl _) hta, htb, ⟨l, hlog, hof⟩,
    ⟨l', hlog', hof'⟩⟩
  · rw [stage2Map_page L ht.level ha]
    exact hrun
  · rw [stage2Map_page L ht.level hb]
    exact hrun'

end

/-- Without room in the direct map one of the two calls faults. -/
theorem stage2Map_two_faults {L : Layout} {info : Stage2MmInfo} {h h₁ h₂ : Host} {q : Nat}
    (ht : Stage2Tree L info h q) {a b : Nat} (ha : a < 2 ^ 64) (hb : b < 2 ^ 64) (pa pb : Nat)
    (attr : MemType) (acc : MemAccess)
    (hlow : evenFree h.bitmap (2 ^ 17) < pairNeeded L info h a b)
    (hsome : pairNeeded L info h a b ≤ evenFree h.bitmap (2 ^ 19))
    (hrunA : stage2Map L info a pa pageSize attr acc h = .ok () h₁) :
    stage2Map L info b pb pageSize attr acc h₁ ≠ .ok () h₂ := by
  intro hrunB
  rw [pairNeeded, ht.rootPhys_eq] at hlow hsome
  rw [stage2Map_page L ht.level ha] at hrunA
  rw [stage2Map_page L ht.level hb] at hrunB
  let e : Nat → Word := fun i => if i = 0 then makeStage2Entry (pa % 2 ^ 64) attr acc
    else makeStage2Entry (pb % 2 ^ 64) attr acc
  have hspoiled := mapPages_spoiled ht.tables ht.at_root e (fun i _ => ht.sees _) hlow hsome
  have hrun : (s2Mapper L).mapPages info.rootTable (3 - info.lookupLevel)
      (pairOf (s2Index info.lookupLevel a) (s2Index info.lookupLevel b)) e 2 h = .ok () h₂ := by
    rw [Mapper.mapPages, forRounds, forRounds, forRounds, pure_bind]
    exact (bind_ok hrunA).trans hrunB
  rw [hrun] at hspoiled
  exact hspoiled.1 (s2Mapper_faultsHigh L)

/-- Different pages that the indices tell apart have different slots. -/
theorem slot_ne_of_tree {L : Layout} {m : Nat → Word} {root depth ta tb : Nat}
    {idxA idxB : Nat → Fin 512} (ht : Tree (s2Mapper L).format m root depth)
    (ha : tableAt (s2Mapper L).format m root idxA depth = some ta)
    (hb : tableAt (s2Mapper L).format m root idxB depth = some tb)
    (hne : ¬ AgreeTo (depth + 1) idxA idxB) : slot ta (idxA depth) ≠ slot tb (idxB depth) := by
  intro he
  obtain ⟨rfl, hi⟩ := slot_inj (ht.aligned (Nat.le_refl _) ha) (ht.aligned (Nat.le_refl _) hb) he
  exact hne ((ht.inj (Nat.le_refl _) (Nat.le_refl _) ha hb).2.succ hi)

/-- The root block has room for every initial index. -/
theorem Geometry.block {code : Fin 8} {info : Stage2MmInfo} (hg : Geometry code info) :
    info.lookupLevel ≤ 2 ∧ info.paSize ≤ reachBits info + info.rootPageOrder ∧
      info.paSize ≤ 64 := by
  rw [reachBits, hg.paSize, hg.level, hg.order]
  clear hg
  revert code
  decide

/-- Two pages of a machine with a supported PARange, with enough free pages in the
allocator: they are mapped apart, each where the MMU looks, exactly when both lie below
the reach of the 9-bit indices and the missing tables fit into the direct map. -/
theorem concat_root_slots {L : Layout} {code : Fin 8} {info : Stage2MmInfo} {h : Host}
    (hb : Built L code info h) {a b : Nat} (ha : a % 4096 = 0)
    (ha' : a < 2 ^ info.paSize) (hb0 : b % 4096 = 0) (hb' : b < 2 ^ info.paSize) (hne : a ≠ b)
    (pa pb : Nat) (attr : MemType) (acc : MemAccess)
    (henough : pairNeeded L info h a b ≤ evenFree h.bitmap (totalPages / 2)) :
    MapsApart L info h a b pa pb attr acc ↔
      a < 2 ^ reachBits info ∧ b < 2 ^ reachBits info ∧
        pairNeeded L info h a b ≤ evenFree h.bitmap (2 ^ 17) := by
  obtain ⟨q, ht, hg⟩ := hb.tree
  obtain ⟨hlevel, hblock, h64⟩ := hg.block
  have ha64 := Nat.lt_of_lt_of_le ha' (pow_bits_le h64)
  have hb64 := Nat.lt_of_lt_of_le hb' (pow_bits_le h64)
  rcases Nat.lt_or_ge (evenFree h.bitmap (2 ^ 17)) (pairNeeded L info h a b) with hlow | hfree
  · refine ⟨fun ⟨h₁, h₂, _, _, hrunA, hrunB, _⟩ => ?_, fun hc => absurd hc.2.2 (Nat.not_le.mpr hlow)⟩
    exact absurd hrunB (stage2Map_two_faults ht ha64 hb64 pa pb attr acc hlow henough hrunA)
  obtain ⟨h₁, h₂, ta, tb, hrunA, hrunB, ht₂, hta, htb, hwa, hwb⟩ :=
    stage2Map_two ht ha64 hb64 pa pb attr acc hfree
  constructor
  · rintro ⟨h₁', h₂', sa, sb, hrunA', hrunB', -, -, -, hma, hmb⟩
    cases hrunA.symm.trans hrunA'
    cases hrunB.symm.trans hrunB'
    refine ⟨Nat.lt_of_not_le fun hge => ?_, Nat.lt_of_not_le fun hge => ?_, hfree⟩
    · rw [mmuSlot_past ht₂ hlevel hblock ha' hge] at hma
      cases hma
    · rw [mmuSlot_past ht₂ hlevel hblock hb' hge] at hmb
      cases hmb
  · rintro ⟨hra, hrb, -⟩
    refine ⟨h₁, h₂, _, _, hrunA, hrunB, hwa, hwb, ?_, mmuSlot_eq ht₂ hlevel ha' hra hta,
      mmuSlot_eq ht₂ hlevel hb' hrb htb⟩
    refine slot_ne_of_tree ht₂.tables.tree hta htb fun hag => hne ?_
    have := page_eq_of_agree ht.level hra hrb hag
    omega

/-- The pair 1 GB and 513 GB on a machine with 40-bit addresses: both are below
`2 ^ pabits`, but the MMU does not find the entry of the second. -/
theorem concat_root_second_page_unused :
    Built imageLayout 2 (bootInfo 2) (clearHost rootTaken) ∧
    0x40000000 < 2 ^ (bootInfo 2).paSize ∧ 0x8040000000 < 2 ^ (bootInfo 2).paSize ∧
    pairNeeded imageLayout (bootInfo 2) (clearHost rootTaken) 0x40000000 0x8040000000 ≤
      evenFree (clearHost rootTaken).bitmap (2 ^ 17) ∧
    ¬ MapsApart imageLayout (bootInfo 2) (clearHost rootTaken) 0x40000000 0x8040000000
      0x40000000 0x50000000 .normalRw .rwx := by
  have hb : Built imageLayout 2 (bootInfo 2) (clearHost rootTaken) :=
    built_boot imageLayout (by decide) ⟨bit_rootTaken 2, bit_rootTaken 3⟩
  have hle : pairNeeded imageLayout (bootInfo 2) (clearHost rootTaken) 0x40000000 0x8040000000 ≤
      2 * 2 := needed_le _
  have hfree := Nat.le_trans (Nat.le_trans hle (by decide)) evenFree_rootTaken
  refine ⟨hb, by decide, by decide, hfree, fun hok => ?_⟩
  obtain ⟨q, ht, hg⟩ := hb.tree
  obtain ⟨hlevel, hblock, -⟩ := hg.block
  obtain ⟨h₁, h₂, ta, tb, hrunA, hrunB, ht₂, -⟩ := stage2Map_two ht (by decide) (by decide)
    0x40000000 0x50000000 .normalRw .rwx hfree
  obtain ⟨h₁', h₂', sa, sb, hrunA', hrunB', -, -, -, -, hmb⟩ := hok
  cases hrunA.symm.trans hrunA'
  cases hrunB.symm.trans hrunB'
  rw [mmuSlot_past ht₂ hlevel hblock (by decide) (by decide)] at hmb
  cases hmb

/-- Two pages in the first 4 GB of the same machine. -/
theorem concat_root_slots_low :
    MapsApart imageLayout (bootInfo 2) (clearHost rootTaken) 0x40000000 0x40001000
      0x40000000 0x50000000 .normalRw .rwx := by
  have hle : pairNeeded imageLayout (bootInfo 2) (clearHost rootTaken) 0x40000000 0x40001000 ≤
      2 * 2 := needed_le _
  have hlow : pairNeeded imageLayout (bootInfo 2) (clearHost rootTaken) 0x40000000 0x40001000 ≤
      evenFree rootTaken (2 ^ 17) :=
    Nat.le_trans (Nat.le_trans hle (by decide)) evenFree_rootTaken
  exact (concat_root_slots (built_boot imageLayout (by decide) ⟨bit_rootTaken 2, bit_rootTaken 3⟩)
    rfl (by decide) rfl (by decide) (by decide) _ _ _ _
    (Nat.le_trans hlow (evenFree_mono (by decide)))).mpr ⟨by decide, by decide, hlow⟩

end HyperCore.AArch64
