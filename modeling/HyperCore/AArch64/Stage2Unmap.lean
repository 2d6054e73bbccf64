import HyperCore.AArch64.ConcatRoot
import HyperCore.Core.TableUndo

/-!
# Unmapping in the stage-2 tables

`stage2_unmap_page` and the host's `__ptw_unmap_4k_page` have one body: both read `valid` and `base`
only, which every kind of entry has at the same place. `Worked` are the stage-2 trees that
`stage2_map` and `stage2_unmap` make, in any order; `Stage2Inv` is the invariant they keep.

The MMU sees the tree through `mmuWalk`, from the concatenated root.
-/

namespace HyperCore.AArch64

open RadixTable Bitmap PageAlloc ArchPage TableMap

/-! ## The code -/

/-- The scan for a valid entry among the first `n` of a table. -/
def anyValid (L : Layout) (table : Nat) : Nat → HostM Bool
  | 0 => pure false
  | n + 1 => do
    let found ← anyValid L table n
    let e ← load L.hostTranslate (table + 8 * n)
    pure (found || validBit e)

/-- The body of the two unmappers at level `3 - n`. -/
def unmapPage (L : Layout) (virAddr : Nat) : Nat → Nat → HostM Unit
  | 0, preTbl =>
    if preTbl = 0 then pure ()
    else do
      let cur ← load L.hostTranslate (preTbl + 8 * pteOffset virAddr 3)
      if !validBit cur || baseField cur == 0 then fatal
      clearEntry L.hostTranslate (preTbl + 8 * pteOffset virAddr 3)
  | n + 1, preTbl =>
    if preTbl = 0 then pure ()
    else do
      let cur ← load L.hostTranslate (preTbl + 8 * pteOffset virAddr (2 - n))
      if !validBit cur || baseField cur == 0 then fatal
      let nextTbl := L.phyToVir (tableBase cur)
      unmapPage L virAddr n nextTbl
      let found ← anyValid L nextTbl 512
      unless found do
        givePage (L.phyToFn (tableBase cur))
        clearEntry L.hostTranslate (preTbl + 8 * pteOffset virAddr (2 - n))

/-- `stage2_unmap_page` at level `3 - n`. -/
def stage2UnmapPage (L : Layout) (virAddr n preTbl : Nat) : HostM Unit := unmapPage L virAddr n preTbl

/-- `stage2_unmap` -/
def stage2Unmap (L : Layout) (info : Stage2MmInfo) (vaddr mapSize : Nat) : HostM Unit :=
  forRounds (fun i => stage2UnmapPage L ((vaddr + pageSize * i) % 2 ^ 64) (3 - info.lookupLevel)
    info.rootTable) (pageCount mapSize)

/-! ## The code as a mapper -/

theorem tableBase_eq_zero (e : Word) : (tableBase e == 0) = (baseField e == 0) := by
  rw [tableBase, Bool.eq_iff_iff, beq_iff_eq, beq_iff_eq, Nat.mul_eq_zero]
  exact or_iff_left (by decide)

theorem anyValid_eq (L : Layout) (table n : Nat) :
    anyValid L table n = (s2Mapper L).anyLive table n := by
  induction n with
  | zero => rfl
  | succ n ih =>
    rw [anyValid, Mapper.anyLive, ih]
    rfl

/-- From level `startLevel` on, the unmapper is that of the mapper. -/
theorem unmapPage_eq (L : Layout) (virAddr : Nat) {startLevel depth : Nat}
    (hd : startLevel + depth = 3) (n : Nat) : ∀ {k preTbl : Nat}, k + n = depth →
      unmapPage L virAddr n preTbl =
        (s2Mapper L).unmapAt (s2Index startLevel virAddr) n k preTbl := by
  induction n with
  | zero =>
    intro k preTbl hk
    obtain rfl : k = depth := hk
    simp only [unmapPage, Mapper.unmapAt, s2Mapper, tableBase_eq_zero, s2Index, hd]
  | succ n ih =>
    intro k preTbl hk
    have hlevel : 2 - n = startLevel + k := by omega
    have hnext (t : Nat) : unmapPage L virAddr n t =
        (s2Mapper L).unmapAt (s2Index startLevel virAddr) n (k + 1) t := ih (by omega)
    simp only [unmapPage, Mapper.unmapAt, hlevel, hnext, anyValid_eq, s2Index]
    simp only [s2Mapper, tableBase_eq_zero]

/-- `stage2_unmap` is the mapper on the pages of the range. -/
theorem stage2Unmap_eq (L : Layout) (info : Stage2MmInfo) (vaddr mapSize : Nat)
    (hs : info.lookupLevel ≤ 3) :
    stage2Unmap L info vaddr mapSize =
      forRounds (fun i => (s2Mapper L).unmapAt (rangeIndex info vaddr i) (3 - info.lookupLevel) 0
        info.rootTable) (pageCount mapSize) := by
  have hd : info.lookupLevel + (3 - info.lookupLevel) = 3 := Nat.add_sub_cancel' hs
  simp only [stage2Unmap, stage2UnmapPage, rangeIndex,
    unmapPage_eq L _ hd (3 - info.lookupLevel) (Nat.zero_add _)]

/-! ## The MMU's walk through the concatenated root -/

/-- The walk of `ipa`: the bits past the reach of one page choose the page of the root block, and
an address past the input size faults. -/
def mmuWalk (L : Layout) (info : Stage2MmInfo) (m : Nat → Word) (ipa : Nat) :
    Option (Nat × S2Attr) :=
  if ipa < 2 ^ info.paSize then
    s2WalkFrom m ipa (rootPhys L info + 4096 * (ipa / 2 ^ reachBits info)) (3 - info.lookupLevel)
  else none

section

variable {L : Layout} {info : Stage2MmInfo} {h h' : Host} {q ipa : Nat}

/-- Below the reach of one page it is the walk of the tree. -/
theorem mmuWalk_low (ht : Stage2Tree L info h q) (hpa : ipa < 2 ^ info.paSize)
    (hreach : ipa < 2 ^ reachBits info) :
    mmuWalk L info h.mem ipa = lookup (s2Mapper L).format (s2Leaf ipa) h.mem (L.physPage q)
      (3 - info.lookupLevel) (s2Index info.lookupLevel ipa) := by
  rw [mmuWalk, if_pos hpa, Nat.div_eq_of_lt hreach, ht.rootPhys_eq, Nat.mul_zero, Nat.add_zero]
  exact s2Walk_eq ht.level ht.tables.tree ipa

/-- Past it there is nothing. -/
theorem mmuWalk_past (ht : Stage2Tree L info h q) (hl : info.lookupLevel ≤ 2)
    (hblock : info.paSize ≤ reachBits info + info.rootPageOrder)
    (hreach : 2 ^ reachBits info ≤ ipa) : mmuWalk L info h.mem ipa = none := by
  rw [mmuWalk]
  split
  · next hpa =>
    have hend : ipa < 2 ^ reachBits info * 2 ^ info.rootPageOrder := by
      rw [← Nat.pow_add]
      exact Nat.lt_of_lt_of_le hpa (pow_bits_le hblock)
    have hpos : 0 < ipa / 2 ^ reachBits info := Nat.div_pos hreach (Nat.two_pow_pos _)
    have hzero := ht.rest_zero (ipa / 2 ^ reachBits info) hpos (Nat.div_lt_of_lt_mul hend)
    have hdepth : 3 - info.lookupLevel = 2 - info.lookupLevel + 1 := by omega
    have hentry : rootPhys L info + 4096 * (ipa / 2 ^ reachBits info) +
        8 * mmuIndex ipa (2 - (2 - info.lookupLevel)) =
        slot (L.physPage (q + ipa / 2 ^ reachBits info))
          (mmuIndex ipa (2 - (2 - info.lookupLevel))) := by
      rw [ht.rootPhys_eq]
      simp only [slot, Layout.physPage, pageSize]
      omega
    have hd := hzero ⟨mmuIndex ipa (2 - (2 - info.lookupLevel)), Nat.mod_lt _ (by decide)⟩
    rw [hdepth, s2WalkFrom, hentry, hd]
    rfl
  · rfl

/-- The indices see the address up to the reach of one page. -/
theorem s2Index_mod (hl : info.lookupLevel ≤ 3) (ipa : Nat) :
    AgreeTo (3 - info.lookupLevel + 1) (s2Index info.lookupLevel (ipa % 2 ^ reachBits info))
      (s2Index info.lookupLevel ipa) := agree_mod hl ipa

end

/-! ## The invariant -/

/-- A descriptor that the last level of the MMU's walk accepts. -/
def s2Page (e : Word) : Option Unit := if validBit e && tableBit e then some () else none

/-- A stage-2 tree without idle tables, whose live last-level entries are pages to the MMU. -/
structure Stage2Inv (L : Layout) (info : Stage2MmInfo) (h : Host) (q : Nat) : Prop where
  tree : Stage2Tree L info h q
  trim : Trim (s2Mapper L).format (s2Mapper L).alive h.mem (L.physPage q) (3 - info.lookupLevel)
  pages : ∀ idx, (lookup (s2Mapper L).format (s2Mapper L).alive h.mem (L.physPage q)
      (3 - info.lookupLevel) idx).isSome →
    (lookup (s2Mapper L).format s2Page h.mem (L.physPage q) (3 - info.lookupLevel) idx).isSome

section

variable {L : Layout} {info : Stage2MmInfo} {h h' : Host} {q vaddr paddr mapSize : Nat}
variable {idx : Nat → Fin 512}

theorem s2Page_dead {e : Word} (he : (s2Mapper L).live e = false) : s2Page e = none := by
  have hv : validBit e = false := he
  rw [s2Page, hv]
  rfl

theorem s2Page_make (pa : Nat) (attr : MemType) (acc : MemAccess) :
    s2Page (makeStage2Entry pa attr acc) = some () := by
  rw [s2Page, validBit_make, tableBit_make]
  rfl

theorem s2Leaf_dead {ipa : Nat} {e : Word} (he : (s2Mapper L).live e = false) :
    s2Leaf ipa e = none := by
  have hv : validBit e = false := he
  rw [s2Leaf, hv]
  rfl

theorem Stage2Tree.root_ne (ht : Stage2Tree L info h q) : info.rootTable ≠ 0 := by
  rw [ht.root, pageVirtOffset]
  omega

/-- Unmapping a page keeps the root block. -/
theorem Stage2Tree.pruned (ht : Stage2Tree L info h q)
    (hp : Pruned (s2Mapper L) (L.physPage q) (3 - info.lookupLevel) idx 0 h h') :
    Stage2Tree L info h' q where
  level := ht.level
  root := ht.root
  block := ht.block
  tables := hp.tables
  sees idx' j b h0 hj hb := ht.sees idx' j b h0 hj (hp.old hj hb)
  rest_taken j h0 hj := by
    refine (hp.bits _).mpr ⟨ht.rest_taken j h0 hj, ?_⟩
    rintro ⟨j', -, hj', hb, -⟩
    exact ht.rest_apart j h0 hj idx j' hj' hb
  rest_zero j h0 hj i := by
    rw [hp.frame (ht.tables.not_in_apart (ht.rest_apart j h0 hj)), ht.rest_zero j h0 hj]
  rest_apart j h0 hj idx' k hk hb := ht.rest_apart j h0 hj idx' k hk (hp.old hk hb)

theorem Stage2Inv.pruned (hi : Stage2Inv L info h q)
    (hp : Pruned (s2Mapper L) (L.physPage q) (3 - info.lookupLevel) idx 0 h h') :
    Stage2Inv L info h' q := by
  refine ⟨hi.tree.pruned hp, trim_pruned hi.trim hp, fun idx' => ?_⟩
  rw [hp.walks _ fun _ => alive_dead, hp.walks _ fun _ => s2Page_dead]
  split
  · exact id
  · exact hi.pages idx'

/-- `stage2_map` with room for its tables keeps the invariant. -/
theorem stage2Map_inv (hi : Stage2Inv L info h q)
    (hin : InputRange (reachBits info) vaddr mapSize) {attr : MemType} {acc : MemAccess}
    (hfree : s2Needed L info h vaddr mapSize ≤ evenFree h.bitmap (2 ^ 17))
    (hrun : stage2Map L info vaddr paddr mapSize attr acc h = .ok () h') :
    Stage2Inv L info h' q := by
  have ht := hi.tree
  have hdist := range_distinct ht.level (Nat.le_refl _) hin
  rw [s2Needed, ht.rootPhys_eq] at hfree
  rw [stage2Map_eq L info vaddr paddr mapSize attr acc ht.level] at hrun
  have htrim := mapPages_trim ht.tables hi.trim ht.at_root (fun i _ => ht.sees _) hfree hdist
    (fun i _ => validBit_make _ attr acc) hrun
  obtain ⟨h₁, hrun₁, hg, hw⟩ := mapPages_good ht.tables ht.at_root
    (fun i => makeStage2Entry ((paddr + pageSize * i) % 2 ^ 64) attr acc) (fun i _ => ht.sees _)
    hfree
  cases hrun₁.symm.trans hrun
  refine ⟨ht.grown hg, htrim, fun idx hl => ?_⟩
  rcases Classical.em (∃ i, i < pageCount mapSize ∧
    AgreeTo (3 - info.lookupLevel + 1) idx (rangeIndex info vaddr i)) with ⟨i, hi', hag⟩ | hno
  · rw [lookup_congr hag, (hw s2Page (s2Page_dead (L := L) validBit_zero)).1 hdist i hi', s2Page_make]
    rfl
  · have hapart (i : Nat) (hi' : i < pageCount mapSize) :
        ¬ AgreeTo (3 - info.lookupLevel + 1) idx (rangeIndex info vaddr i) :=
      fun hag => hno ⟨i, hi', hag⟩
    rw [(hw s2Page (s2Page_dead (L := L) validBit_zero)).2 idx hapart]
    rw [(hw (s2Mapper L).alive alive_zero).2 idx hapart] at hl
    exact hi.pages idx hl

/-- `stage2_unmap` of mapped pages succeeds, keeps the invariant, and ends exactly their walks. -/
theorem stage2Unmap_good (hi : Stage2Inv L info h q)
    (hin : InputRange (reachBits info) vaddr mapSize)
    (hm : ∀ i, i < pageCount mapSize →
      Mapped (s2Mapper L) (L.physPage q) (3 - info.lookupLevel) h (rangeIndex info vaddr i)) :
    ∃ h', stage2Unmap L info vaddr mapSize h = .ok () h' ∧ Stage2Inv L info h' q ∧
      ∀ {O : Type} (leaf : Word → Option O), (∀ e, (s2Mapper L).live e = false → leaf e = none) →
        (∀ i, i < pageCount mapSize → lookup (s2Mapper L).format leaf h'.mem (L.physPage q)
          (3 - info.lookupLevel) (rangeIndex info vaddr i) = none) ∧
        ∀ idx, (∀ i, i < pageCount mapSize →
            ¬ AgreeTo (3 - info.lookupLevel + 1) idx (rangeIndex info vaddr i)) →
          lookup (s2Mapper L).format leaf h'.mem (L.physPage q) (3 - info.lookupLevel) idx =
            lookup (s2Mapper L).format leaf h.mem (L.physPage q) (3 - info.lookupLevel) idx := by
  have ht := hi.tree
  have hdist := range_distinct ht.level (Nat.le_refl _) hin
  rw [stage2Unmap_eq L info vaddr mapSize ht.level]
  obtain ⟨h', hrun, -, hinv, -, hw⟩ := unmapPages_keeps (I := fun h => Stage2Inv L info h q)
    ht.tables ht.at_root ht.root_ne (fun i _ => ht.sees _)
    (fun i j hij hj hag => hdist i j hij hj hag.symm) hm hi fun _ hi hp => hi.pruned hp
  exact ⟨h', hrun, hinv, hw⟩

end

/-! ## Trees built by the code -/

/-- The stage-2 trees of a machine with PARange `code`: the root block of `s2_alloc_root_pages`,
then calls of `stage2_map` with room for their tables and calls of `stage2_unmap`, in any order,
with other code running in between. -/
inductive Worked (L : Layout) (code : Fin 8) : Stage2MmInfo → Host → Prop
  | root {info : Stage2MmInfo} {h h' : Host} :
      RootRoom h.bitmap (paRangeInfo code).rootOrder →
      s2AllocRootPages L (s2SetupInfo code) h = .ok info h' → Worked L code info h'
  | map {info : Stage2MmInfo} {h h' : Host} {vaddr paddr mapSize : Nat} {attr : MemType}
      {acc : MemAccess} : Worked L code info h → InputRange (reachBits info) vaddr mapSize →
      s2Needed L info h vaddr mapSize ≤ evenFree h.bitmap (2 ^ 17) →
      stage2Map L info vaddr paddr mapSize attr acc h = .ok () h' → Worked L code info h'
  | unmap {info : Stage2MmInfo} {h h' : Host} {vaddr mapSize : Nat} : Worked L code info h →
      InputRange (reachBits info) vaddr mapSize → stage2Unmap L info vaddr mapSize h = .ok () h' →
      Worked L code info h'
  | other {info : Stage2MmInfo} {h h' : Host} : Worked L code info h → Stage2Idle L info h h' →
      Worked L code info h'

theorem s2Mapper_blindHigh (L : Layout) : (s2Mapper L).BlindHigh := by
  intro p h1 h2 i
  rw [s2Mapper_half] at h1
  exact L.hostTranslate_slot_high (Nat.le_trans (by decide) h1) h2 i

section

variable {L : Layout} {info : Stage2MmInfo} {h h' : Host} {q vaddr mapSize : Nat}

/-- `stage2_unmap` returns only for mapped pages. -/
theorem stage2Unmap_mapped (ht : Stage2Tree L info h q)
    (hin : InputRange (reachBits info) vaddr mapSize)
    (hrun : stage2Unmap L info vaddr mapSize h = .ok () h') (i : Nat) (hi : i < pageCount mapSize) :
    Mapped (s2Mapper L) (L.physPage q) (3 - info.lookupLevel) h (rangeIndex info vaddr i) := by
  rw [stage2Unmap_eq L info vaddr mapSize ht.level] at hrun
  have hdist := range_distinct ht.level (Nat.le_refl _) hin
  exact (unmapPages_ok ht.tables ht.at_root ht.root_ne (s2Mapper_blindHigh L)
    (fun i j hij hj hag => hdist i j hij hj hag.symm) hrun i hi).1

theorem Stage2Inv.idle (hi : Stage2Inv L info h q) (hidle : Stage2Idle L info h h') :
    Stage2Inv L info h' q := by
  have hsame := hidle.tables.words
  rw [hi.tree.rootPhys_eq] at hsame
  refine ⟨hi.tree.idle hidle, hi.trim.sameOn hsame, fun idx => ?_⟩
  rw [hsame.lookup_eq, hsame.lookup_eq]
  exact hi.pages idx

end

/-- Every worked tree keeps the invariant. -/
theorem Worked.inv {L : Layout} {code : Fin 8} {info : Stage2MmInfo} {h : Host}
    (hw : Worked L code info h) : ∃ q, Stage2Inv L info h q ∧ Geometry code info := by
  induction hw with
  | root hroom hrun =>
    have hlevel : (s2SetupInfo code).lookupLevel ≤ 3 := Nat.le_trans (Nat.sub_le _ _) (by decide)
    obtain ⟨q, ht, hinfo, hz⟩ := stage2Tree_root L hlevel (rootOrder_le code) hroom hrun
    refine ⟨q, ⟨ht, .of_clear hz, fun idx hl => ?_⟩, ?_⟩
    · -- an empty root has no entry at any level
      rw [lookup_of_clear hz alive_zero] at hl
      cases hl
    · rw [hinfo]
      exact ⟨rfl, rfl, rfl⟩
  | map _ hin hfree hrun ih =>
    obtain ⟨q, hi, hg⟩ := ih
    exact ⟨q, stage2Map_inv hi hin hfree hrun, hg⟩
  | unmap _ hin hrun ih =>
    obtain ⟨q, hi, hg⟩ := ih
    obtain ⟨h₁, hrun₁, hinv, -⟩ := stage2Unmap_good hi hin (stage2Unmap_mapped hi.tree hin hrun)
    cases hrun₁.symm.trans hrun
    exact ⟨q, hinv, hg⟩
  | other _ hidle ih =>
    obtain ⟨q, hi, hg⟩ := ih
    exact ⟨q, hi.idle hidle, hg⟩

end HyperCore.AArch64
