import HyperCore.AArch64.PageTable

/-!
# `page_table.c`: the tables built at boot

The two builders that fill static tables, before the allocator runs: with pages (three levels) and
with 2 MB blocks (two levels). They run on tables that are identity mapped, so the tables are their
physical addresses and the builders are functions of the memory.

Both map exactly their range (`threeLevel_exact`, `twoLevel_exact`).
-/

namespace HyperCore.AArch64

open RadixTable Bitmap PageAlloc ArchPage TableMap

/-! ## The code -/

/-- `MT_NORMAL` -/
def mtNormal : Nat := 7

/-- `pt.table = n` -/
def setTable (w : Word) (n : Nat) : Word :=
  BitVec.ofNat 64 (w.toNat % 2 + 2 * (n % 2) + 4 * (w.toNat / 4))

/-- `pt.xn = n` -/
def setXn (w : Word) (n : Nat) : Word :=
  BitVec.ofNat 64 (w.toNat % 2 ^ 54 + 2 ^ 54 * (n % 2) + 2 ^ 55 * (w.toNat / 2 ^ 55))

/-- `build_hyper_table` -/
def buildHyperTable (L : Layout) (tableCurrentLevel nextTbl virt level attr : Nat)
    (m : Nat → Word) : Nat → Word :=
  setMem m (tableCurrentLevel + 8 * pteOffset virt level)
    (makeStage1Entry (L.virToPhy nextTbl) attr)

/-- The loops `do { *entry = e(out); } while (entry++, out += outStep, addr += step, addr < bound)`. -/
def fillEntries (e : Nat → Word) (outStep : Nat) {step : Nat} (hs : 0 < step) (bound : Nat)
    (m : Nat → Word) (entry out addr : Nat) : Nat → Word :=
  let m := setMem m entry (e out)
  if addr + step < bound then
    fillEntries e outStep hs bound m (entry + 8) (out + outStep) (addr + step)
  else m
termination_by bound - addr

theorem twoMB_pos : 0 < 2 ^ 21 := by decide

/-- `__build_hyp_two_level_page_table`, or `none` for `hyper_fatal`. -/
def buildHypTwoLevelPageTable (L : Layout) (virtStart physStart memSize attr t0 t1 t2 : Nat)
    (m : Nat → Word) : Option (Nat → Word) :=
  let m := buildHyperTable L t0 t1 virtStart 0 attr m
  let m := buildHyperTable L t1 t2 virtStart 1 attr m
  let nextPhyAddr := physStart / 2 ^ 21 * 2 ^ 21
  if nextPhyAddr % 2 ^ 21 ≠ 0 then none
  else
    some (fillEntries (fun a => setXn (setTable (makeStage1Entry a mtNormal) 0) 0) (2 ^ 21) twoMB_pos
      (physStart + memSize) m (t2 + 8 * pteOffset virtStart 2) nextPhyAddr nextPhyAddr)

/-- `__build_hyp_three_level_page_table` -/
def buildHypThreeLevelPageTable (L : Layout) (virtStart physStart memSize attr t0 t1 t2 t3 : Nat)
    (m : Nat → Word) : Nat → Word :=
  let m := buildHyperTable L t0 t1 virtStart 0 attr m
  let m := buildHyperTable L t1 t2 virtStart 1 attr m
  -- level 2: one table of level 3 for each 2 MB slot that the range touches
  let m := fillEntries (fun a => setXn (makeStage1Entry a mtNormal) 0) 4096 twoMB_pos
    (virtStart + memSize) m (t2 + 8 * pteOffset virtStart 2) t3 (virtStart / 2 ^ 21 * 2 ^ 21)
  -- level 3: one entry for each page, through the tables one after the other
  let addr := physStart / 2 ^ 12 * 2 ^ 12
  fillEntries (fun a => setXn (makeStage1Entry a mtNormal) 0) 4096 (show 0 < 4096 by decide)
    (physStart + memSize) m (t3 + 8 * pteOffset virtStart 3) addr addr

/-! ## What they are called with -/

/-- A range of pages inside one 1 GB slot of the 48-bit address space. -/
structure BootRange where
  virt : Nat
  phys : Nat
  size : Nat
  virt_aligned : virt % 4096 = 0
  phys_aligned : phys % 4096 = 0
  size_aligned : size % 4096 = 0
  size_pos : 0 < size
  virt_lt : virt < 2 ^ 48
  one_slot : virt % 2 ^ 30 + size ≤ 2 ^ 30
  phys_le : phys + size ≤ 2 ^ 48

/-- The tables of levels 0 to 2 and the `n` tables of level 3, apart from each other and below the
window, where addresses are physical. -/
structure BootTables (t0 t1 t2 t3 n : Nat) : Prop where
  aligned : t0 % 4096 = 0 ∧ t1 % 4096 = 0 ∧ t2 % 4096 = 0 ∧ t3 % 4096 = 0
  apart : t0 ≠ t1 ∧ t0 ≠ t2 ∧ t1 ≠ t2
  outside : ∀ t, t = t0 ∨ t = t1 ∨ t = t2 → t < t3 ∨ t3 + 4096 * n ≤ t
  below : t0 < pageVirtOffset ∧ t1 < pageVirtOffset ∧ t2 < pageVirtOffset ∧
    t3 + 4096 * n ≤ pageVirtOffset

/-- The attributes of boot mappings: normal memory, writable and executable. -/
def bootAttr : S1Attr where
  ai := 7
  ns := true
  up := true
  ro := false
  sh := 0x3
  af := true
  ng := true
  contig := false
  pxn := false
  xn := false

namespace BootRange

/-- The range touches the 2 MB slot behind entry `i` of level 2. -/
def Touches (r : BootRange) (i : Nat) : Prop := ∃ x, x < r.size ∧ mmuIndex (r.virt + x) 2 = i

/-- The place of the first page in the tables of level 3. -/
def first (r : BootRange) : Nat := mmuIndex r.virt 3

/-- The number of pages. -/
def pages (r : BootRange) : Nat := r.size / 4096

end BootRange

/-! ## Entries -/

theorem toNat_setTable (w : Word) (n : Nat) :
    (setTable w n).toNat = w.toNat % 2 + 2 * (n % 2) + 4 * (w.toNat / 4) := by
  have hw := w.isLt
  rw [setTable, BitVec.toNat_ofNat]
  omega

/-- `xn` is clear already. -/
theorem setXn_eq {w : Word} (hw : w.toNat / 2 ^ 54 % 2 = 0) : setXn w 0 = w := by
  have hlt := w.isLt
  refine BitVec.eq_of_toNat_eq ?_
  rw [setXn, BitVec.toNat_ofNat]
  omega

theorem xn_make1 (pa attr : Nat) : (makeStage1Entry pa attr).toNat / 2 ^ 54 % 2 = 0 := by
  rw [makeStage1Entry, Pt.toNat_bits]
  simp only [stage1Fields]
  omega

/-- A page entry of the builders. -/
theorem page_entry (pa : Nat) : setXn (makeStage1Entry pa mtNormal) 0 = makeStage1Entry pa mtNormal :=
  setXn_eq (xn_make1 pa mtNormal)

/-- A block entry of the builders. -/
def blockEntry (pa : Nat) : Word := setTable (makeStage1Entry pa mtNormal) 0

theorem block_entry (pa : Nat) :
    setXn (setTable (makeStage1Entry pa mtNormal) 0) 0 = blockEntry pa := by
  have hxn := xn_make1 pa mtNormal
  refine setXn_eq ?_
  rw [toNat_setTable]
  omega

theorem s1AttrOf_make1 (pa : Nat) : s1AttrOf (makeStage1Entry pa mtNormal) = bootAttr := by
  rw [s1AttrOf, makeStage1Entry, Pt.toNat_bits]
  simp only [stage1Fields, mtNormal, stage1Shareability, bootAttr, S1Attr.mk.injEq, beq_iff_eq,
    beq_eq_false_iff_ne]
  omega

section

variable (pa : Nat)

theorem validBit_block : validBit (blockEntry pa) = true := by
  have hvalid := validBit_make1 pa mtNormal
  rw [validBit, beq_iff_eq] at hvalid ⊢
  rw [blockEntry, toNat_setTable]
  omega

theorem tableBit_block : tableBit (blockEntry pa) = false := by
  rw [tableBit, beq_eq_false_iff_ne, blockEntry, toNat_setTable]
  omega

theorem baseField_block : baseField (blockEntry pa) = pa / 2 ^ 12 % 2 ^ 36 := by
  rw [← baseField_make1 pa mtNormal, baseField, baseField, blockEntry, toNat_setTable]
  omega

theorem s1AttrOf_block : s1AttrOf (blockEntry pa) = bootAttr := by
  rw [← s1AttrOf_make1 pa, s1AttrOf, s1AttrOf, blockEntry, toNat_setTable]
  simp only [S1Attr.mk.injEq]
  refine ⟨by omega, ?_, ?_, ?_, by omega, ?_, ?_, ?_, ?_, ?_⟩ <;> (congr 1; omega)

end

/-! ## The loops -/

section

variable (e : Nat → Word) (outStep : Nat) {step : Nat} (hs : 0 < step) (bound : Nat) (m : Nat → Word)
  (entry out addr : Nat)

/-- The loop runs `n + 1` times; round `k` writes entry `k`. -/
theorem fillEntries_at {n : Nat} (hn : n = 0 ∨ addr + n * step < bound)
    (hb : bound ≤ addr + (n + 1) * step) :
    (∀ k, k ≤ n → fillEntries e outStep hs bound m entry out addr (entry + 8 * k) =
      e (out + k * outStep)) ∧
    ∀ a, (∀ k, k ≤ n → a ≠ entry + 8 * k) →
      fillEntries e outStep hs bound m entry out addr a = m a := by
  induction n generalizing m entry out addr with
  | zero =>
    have hend : ¬ addr + step < bound := by omega
    rw [fillEntries]
    simp only [hend, if_false]
    refine ⟨fun k hk => ?_, fun a ha => ?_⟩
    · rw [Nat.le_zero.mp hk, Nat.mul_zero, Nat.zero_mul, Nat.add_zero, Nat.add_zero, setMem,
        if_pos rfl]
    · have hfirst := ha 0 (Nat.le_refl 0)
      rw [setMem, if_neg (by omega)]
  | succ n ih =>
    have hgo := hn.resolve_left (Nat.succ_ne_zero n)
    rw [Nat.succ_mul] at hgo hb
    have hmore : addr + step < bound := Nat.lt_of_le_of_lt (by omega) hgo
    rw [fillEntries]
    simp only [hmore, if_true]
    obtain ⟨hat, hoff⟩ := ih (setMem m entry (e out)) (entry + 8) (out + outStep)
      (addr + step) (.inr (by omega)) (by omega)
    refine ⟨fun k hk => ?_, fun a ha => ?_⟩
    · cases k with
      | zero =>
        rw [hoff _ fun k _ => by omega, Nat.mul_zero, Nat.zero_mul, Nat.add_zero, Nat.add_zero, setMem,
          if_pos rfl]
      | succ k =>
        have hround := hat k (Nat.le_of_succ_le_succ hk)
        have hplace : entry + 8 * (k + 1) = entry + 8 + 8 * k := by omega
        rw [hplace, hround, Nat.succ_mul]
        congr 1
        omega
    · have hskip : ∀ k, k ≤ n → a ≠ entry + 8 + 8 * k := fun k hk => by
        have := ha (k + 1) (Nat.succ_le_succ hk)
        omega
      have hfirst := ha 0 (Nat.zero_le _)
      rw [hoff a hskip, setMem, if_neg (by omega)]

end

/-! ## The walk -/

section

variable {m : Nat → Word} {va t : Nat}

theorem hostWalkFrom_link {n t' attr : Nat} (ht' : t' % 4096 = 0) (hlt : t' < 2 ^ 48)
    (hd : m (t + 8 * mmuIndex va (2 - n)) = makeStage1Entry t' attr) :
    hostWalkFrom m va t (n + 1) = hostWalkFrom m va t' n := by
  have hbase := tableBase_make1 attr ht' hlt
  rw [tableBase] at hbase
  rw [hostWalkFrom]
  simp only [hd, validBit_make1, tableBit_make1, hbase, Bool.not_true, Bool.false_eq_true, if_false,
    if_true]

theorem hostWalkFrom_page {pa : Nat} (hpa : pa % 4096 = 0) (hlt : pa < 2 ^ 48)
    (hd : m (t + 8 * mmuIndex va 3) = makeStage1Entry pa mtNormal) :
    hostWalkFrom m va t 0 = some (pa + va % 4096, bootAttr) := by
  have hbase := tableBase_make1 mtNormal hpa hlt
  rw [tableBase] at hbase
  rw [hostWalkFrom]
  simp only [hd, validBit_make1, tableBit_make1, hbase, s1AttrOf_make1, Bool.and_self, if_true]

theorem hostWalkFrom_block {pa : Nat} (hpa : pa % 2 ^ 21 = 0) (hlt : pa < 2 ^ 48)
    (hd : m (t + 8 * mmuIndex va 2) = blockEntry pa) :
    hostWalkFrom m va t 1 = some (pa + va % 2 ^ 21, bootAttr) := by
  have hbase : baseField (blockEntry pa) * 4096 / 2 ^ 21 * 2 ^ 21 = pa := by
    rw [baseField_block]
    omega
  rw [hostWalkFrom]
  simp only [hd, validBit_block, tableBit_block, s1AttrOf_block, Bool.not_true, Bool.false_eq_true,
    if_false]
  exact congrArg (fun b => some (b + va % 2 ^ 21, bootAttr)) hbase

end

theorem virToPhy_low (L : Layout) {t : Nat} (ht : t < pageVirtOffset) : L.virToPhy t = t := by
  rw [Layout.virToPhy, if_pos ht]

theorem pteOffset_val (va k : Nat) : (pteOffset va k : Nat) = mmuIndex va k := rfl

/-! ## The top of the tree -/

section

variable {L : Layout} {m : Nat → Word} {t0 t1 t2 t3 n attr : Nat} {r : BootRange}

/-- The memory after the two entries that link the tables of levels 1 and 2. -/
def linkTop (L : Layout) (virt attr t0 t1 t2 : Nat) (m : Nat → Word) : Nat → Word :=
  buildHyperTable L t1 t2 virt 1 attr (buildHyperTable L t0 t1 virt 0 attr m)

theorem linkTop_at (L : Layout) (m : Nat → Word) (attr : Nat) (hb : BootTables t0 t1 t2 t3 n)
    (virt : Nat) :
    linkTop L virt attr t0 t1 t2 m (t0 + 8 * mmuIndex virt 0) = makeStage1Entry t1 attr ∧
      linkTop L virt attr t0 t1 t2 m (t1 + 8 * mmuIndex virt 1) = makeStage1Entry t2 attr ∧
      ∀ a, a ≠ t0 + 8 * mmuIndex virt 0 → a ≠ t1 + 8 * mmuIndex virt 1 →
        linkTop L virt attr t0 t1 t2 m a = m a := by
  obtain ⟨h0, h1, -, -⟩ := hb.aligned
  obtain ⟨-, hlt1, hlt2, -⟩ := hb.below
  have hi0 : mmuIndex virt 0 < 512 := Nat.mod_lt _ (by decide)
  have hi1 : mmuIndex virt 1 < 512 := Nat.mod_lt _ (by decide)
  have hne : t0 + 8 * mmuIndex virt 0 ≠ t1 + 8 * mmuIndex virt 1 := by
    have := hb.apart.1
    omega
  simp only [linkTop, buildHyperTable, virToPhy_low L hlt1, virToPhy_low L hlt2, pteOffset_val]
  refine ⟨?_, ?_, fun a ha0 ha1 => ?_⟩
  · rw [setMem, if_neg hne, setMem, if_pos rfl]
  · rw [setMem, if_pos rfl]
  · rw [setMem, if_neg ha1, setMem, if_neg ha0]

/-- The walk through the top of the tree, in a memory that has its two links. -/
theorem hostWalk_top (hb : BootTables t0 t1 t2 t3 n) {x : Nat} (hx : x < r.size)
    (hl0 : m (t0 + 8 * mmuIndex r.virt 0) = makeStage1Entry t1 attr)
    (hl1 : m (t1 + 8 * mmuIndex r.virt 1) = makeStage1Entry t2 attr) :
    hostWalk m t0 (r.virt + x) = hostWalkFrom m (r.virt + x) t2 1 := by
  obtain ⟨-, ha1, ha2, -⟩ := hb.aligned
  obtain ⟨-, hlt1, hlt2, -⟩ := hb.below
  have hslot := r.one_slot
  have hv0 : mmuIndex (r.virt + x) 0 = mmuIndex r.virt 0 := by
    simp only [mmuIndex]
    omega
  have hv1 : mmuIndex (r.virt + x) 1 = mmuIndex r.virt 1 := by
    simp only [mmuIndex]
    omega
  rw [← hv0] at hl0
  rw [← hv1] at hl1
  simp only [pageVirtOffset] at hlt1 hlt2
  have hwalk0 : hostWalkFrom m (r.virt + x) t0 3 = hostWalkFrom m (r.virt + x) t1 2 :=
    hostWalkFrom_link (n := 2) ha1 (by omega) hl0
  have hwalk1 : hostWalkFrom m (r.virt + x) t1 2 = hostWalkFrom m (r.virt + x) t2 1 :=
    hostWalkFrom_link (n := 1) ha2 (by omega) hl1
  rw [hostWalk, hwalk0, hwalk1]

end

/-! ## Three levels -/

/-- The entries that the builder writes. -/
def ThreeLevelWrites (r : BootRange) (t0 t1 t2 t3 a : Nat) : Prop :=
  a = t0 + 8 * mmuIndex r.virt 0 ∨ a = t1 + 8 * mmuIndex r.virt 1 ∨
    (∃ i, r.Touches i ∧ a = t2 + 8 * i) ∨
    ∃ j, r.first ≤ j ∧ j < r.first + r.pages ∧ a = t3 + 8 * j

/-- `m'` is `m` with exactly the range mapped by pages, through `n` tables of level 3. -/
structure ThreeLevelExact (r : BootRange) (t0 t1 t2 t3 n : Nat) (m m' : Nat → Word) : Prop where
  walk : ∀ x, x < r.size → hostWalk m' t0 (r.virt + x) = some (r.phys + x, bootAttr)
  level2 : ∀ i, i < 512 → ¬ r.Touches i → m' (t2 + 8 * i) = m (t2 + 8 * i)
  level3 : ∀ j, j < 512 * n → ¬ (r.first ≤ j ∧ j < r.first + r.pages) →
    m' (t3 + 8 * j) = m (t3 + 8 * j)
  others : ∀ a, ¬ ThreeLevelWrites r t0 t1 t2 t3 a → m' a = m a

section

variable {L : Layout} {m : Nat → Word} {t0 t1 t2 t3 n attr : Nat} {r : BootRange}

/-- The number of 2 MB slots after the first that the range touches. -/
def BootRange.lastSlot (r : BootRange) : Nat := (r.virt % 2 ^ 21 + r.size - 1) / 2 ^ 21

theorem BootRange.Touches.lt {i : Nat} (h : r.Touches i) : i < 512 := by
  obtain ⟨x, -, rfl⟩ := h
  exact Nat.mod_lt _ (by decide)

theorem BootRange.slots_lt (r : BootRange) : mmuIndex r.virt 2 + r.lastSlot < 512 := by
  have hsize := r.size_pos
  have hslot := r.one_slot
  simp only [mmuIndex, BootRange.lastSlot]
  omega

/-- The slot of an address of the range. -/
theorem BootRange.slot_of (r : BootRange) {x k : Nat} (hx : x < r.size)
    (hk : k = (r.virt % 2 ^ 21 + x) / 2 ^ 21) :
    k ≤ r.lastSlot ∧ mmuIndex (r.virt + x) 2 = mmuIndex r.virt 2 + k := by
  have hslot := r.one_slot
  subst hk
  refine ⟨Nat.div_le_div_right (by omega), ?_⟩
  simp only [mmuIndex]
  omega

/-- The slots that the range touches are consecutive. -/
theorem touches_iff (r : BootRange) (i : Nat) :
    r.Touches i ↔ ∃ k, k ≤ r.lastSlot ∧ i = mmuIndex r.virt 2 + k := by
  have hsize := r.size_pos
  have hslot := r.one_slot
  constructor
  · rintro ⟨x, hx, rfl⟩
    exact ⟨_, r.slot_of hx rfl⟩
  · rintro ⟨k, hk, rfl⟩
    simp only [BootRange.Touches, BootRange.lastSlot, mmuIndex] at hk ⊢
    cases k with
    | zero => exact ⟨0, hsize, rfl⟩
    | succ k =>
      refine ⟨2 ^ 21 * (k + 1) - r.virt % 2 ^ 21, ?_, ?_⟩
      · omega
      · omega

/-- The entries after the three-level builder. -/
theorem threeLevel_entries (L : Layout) (m : Nat → Word) (attr : Nat)
    (hb : BootTables t0 t1 t2 t3 n) (hfit : r.first + r.pages ≤ 512 * n) {m' : Nat → Word}
    (hm : m' = buildHypThreeLevelPageTable L r.virt r.phys r.size attr t0 t1 t2 t3 m) :
    m' (t0 + 8 * mmuIndex r.virt 0) = makeStage1Entry t1 attr ∧
      m' (t1 + 8 * mmuIndex r.virt 1) = makeStage1Entry t2 attr ∧
      (∀ k, k ≤ r.lastSlot →
        m' (t2 + 8 * (mmuIndex r.virt 2 + k)) = makeStage1Entry (t3 + 4096 * k) mtNormal) ∧
      (∀ j, j < r.pages → m' (t3 + 8 * (r.first + j)) = makeStage1Entry (r.phys + 4096 * j) mtNormal) ∧
      ∀ a, ¬ ThreeLevelWrites r t0 t1 t2 t3 a → m' a = m a := by
  obtain ⟨ha0, ha1, ha2, ha3⟩ := hb.aligned
  obtain ⟨h01, h02, h12⟩ := hb.apart
  have hout0 := hb.outside t0 (.inl rfl)
  have hout1 := hb.outside t1 (.inr (.inl rfl))
  have hout2 := hb.outside t2 (.inr (.inr rfl))
  have hva := r.virt_aligned
  have hpa := r.phys_aligned
  have hsa := r.size_aligned
  have hsize := r.size_pos
  have hslot := r.one_slot
  have hi0 : mmuIndex r.virt 0 < 512 := Nat.mod_lt _ (by decide)
  have hi1 : mmuIndex r.virt 1 < 512 := Nat.mod_lt _ (by decide)
  have hi2 := r.slots_lt
  have hpages : r.pages = r.pages - 1 + 1 := by
    simp only [BootRange.pages]
    omega
  have hphys : r.phys / 2 ^ 12 * 2 ^ 12 = r.phys := by omega
  obtain ⟨htop0, htop1, htop⟩ := linkTop_at L m attr hb r.virt
  -- the loop over level 2
  obtain ⟨hmid, hmidoff⟩ := fillEntries_at (fun a => setXn (makeStage1Entry a mtNormal) 0) 4096
    twoMB_pos (r.virt + r.size) (linkTop L r.virt attr t0 t1 t2 m) (t2 + 8 * mmuIndex r.virt 2) t3
    (r.virt / 2 ^ 21 * 2 ^ 21) (n := r.lastSlot) (by simp only [BootRange.lastSlot]; omega)
    (by simp only [BootRange.lastSlot]; omega)
  generalize hmm : fillEntries _ _ _ _ _ _ _ _ = mid at hmid hmidoff
  -- the loop over level 3
  obtain ⟨hlow, hlowoff⟩ := fillEntries_at (fun a => setXn (makeStage1Entry a mtNormal) 0) 4096
    (show 0 < 4096 by decide) (r.phys + r.size) mid (t3 + 8 * mmuIndex r.virt 3) r.phys r.phys
    (n := r.pages - 1) (by simp only [BootRange.pages]; omega) (by simp only [BootRange.pages]; omega)
  have hmem : m' = fillEntries (fun a => setXn (makeStage1Entry a mtNormal) 0) 4096
      (show 0 < 4096 by decide) (r.phys + r.size) mid (t3 + 8 * mmuIndex r.virt 3) r.phys r.phys := by
    rw [hm, ← hmm, buildHypThreeLevelPageTable, hphys]
    rfl
  rw [← hmem] at hlow hlowoff
  have hfirst : r.first = mmuIndex r.virt 3 := rfl
  -- what lies outside the tables of level 3 is as after the loop over level 2
  have hup {a : Nat} (ha : a < t3 ∨ t3 + 4096 * n ≤ a) : m' a = mid a :=
    hlowoff a fun k hk => by omega
  refine ⟨?_, ?_, fun k hk => ?_, fun j hj => ?_, fun a ha => ?_⟩
  · rw [hup (by omega), hmidoff _ fun k hk => by omega, htop0]
  · rw [hup (by omega), hmidoff _ fun k hk => by omega, htop1]
  · have hk' := hmid k hk
    rw [page_entry, Nat.mul_comm k] at hk'
    rw [hup (by omega), Nat.mul_add, ← Nat.add_assoc]
    exact hk'
  · have hj' := hlow j (by omega)
    rw [page_entry, Nat.mul_comm j] at hj'
    rw [Nat.mul_add, ← Nat.add_assoc]
    exact hj'
  · simp only [ThreeLevelWrites, not_or] at ha
    obtain ⟨hn0, hn1, hn2, hn3⟩ := ha
    rw [hlowoff a fun k hk he => hn3 ⟨r.first + k, by omega, by omega, by omega⟩,
      hmidoff a fun k hk he => hn2 ⟨_, (touches_iff r _).mpr ⟨k, hk, rfl⟩, by omega⟩, htop a hn0 hn1]

/-- The three-level builder maps exactly its range. -/
theorem threeLevel_exact (L : Layout) (r : BootRange) (t0 t1 t2 t3 n attr : Nat) (m : Nat → Word)
    (hb : BootTables t0 t1 t2 t3 n) (hfit : r.first + r.pages ≤ 512 * n) :
    ThreeLevelExact r t0 t1 t2 t3 n m
      (buildHypThreeLevelPageTable L r.virt r.phys r.size attr t0 t1 t2 t3 m) := by
  obtain ⟨h0, h1, h2, h3, hoff⟩ := threeLevel_entries L m attr hb hfit rfl
  obtain ⟨ha0, ha1, ha2, ha3⟩ := hb.aligned
  obtain ⟨h01, h02, h12⟩ := hb.apart
  have hout0 := hb.outside t0 (.inl rfl)
  have hout1 := hb.outside t1 (.inr (.inl rfl))
  have hout2 := hb.outside t2 (.inr (.inr rfl))
  have hbelow := hb.below.2.2.2
  have hva := r.virt_aligned
  have hpa := r.phys_aligned
  have hsa := r.size_aligned
  have hslot := r.one_slot
  have hple := r.phys_le
  have hi0 : mmuIndex r.virt 0 < 512 := Nat.mod_lt _ (by decide)
  have hi1 : mmuIndex r.virt 1 < 512 := Nat.mod_lt _ (by decide)
  refine ⟨fun x hx => ?_, fun i hi hno => hoff _ ?_, fun j hj hno => hoff _ ?_, hoff⟩
  · -- slot `k` of the range, page `j` of the range
    obtain ⟨k, hk⟩ : ∃ k, k = (r.virt % 2 ^ 21 + x) / 2 ^ 21 := ⟨_, rfl⟩
    obtain ⟨j, hj⟩ : ∃ j, j = x / 4096 := ⟨_, rfl⟩
    obtain ⟨hklast, hk2⟩ := r.slot_of hx hk
    have hjlast : j < r.pages := by
      simp only [BootRange.pages]
      omega
    have hplace : t3 + 4096 * k + 8 * mmuIndex (r.virt + x) 3 = t3 + 8 * (r.first + j) := by
      simp only [mmuIndex, BootRange.first]
      omega
    have hlink := h2 k hklast
    rw [← hk2] at hlink
    have hpage := h3 j hjlast
    rw [← hplace] at hpage
    have hwalk : hostWalkFrom _ (r.virt + x) t2 1 = hostWalkFrom _ (r.virt + x) (t3 + 4096 * k) 0 :=
      hostWalkFrom_link (n := 0) (by omega) (by simp only [pageVirtOffset] at hbelow; omega) hlink
    rw [hostWalk_top hb hx h0 h1, hwalk, hostWalkFrom_page (by omega) (by omega) hpage]
    have hsum : r.phys + 4096 * j + (r.virt + x) % 4096 = r.phys + x := by omega
    rw [hsum]
  · simp only [ThreeLevelWrites]
    rintro (he | he | ⟨i', ht, he⟩ | ⟨j, hj1, hj2, he⟩)
    · omega
    · omega
    · rw [show i = i' by omega] at hno
      exact hno ht
    · omega
  · simp only [ThreeLevelWrites]
    rintro (he | he | ⟨i', ht, he⟩ | ⟨j', hj1, hj2, he⟩)
    · omega
    · omega
    · have := ht.lt
      omega
    · exact hno ⟨by omega, by omega⟩

end

/-! ## Two levels -/

/-- The range is made of 2 MB blocks. -/
structure BootRange.Blocks (r : BootRange) : Prop where
  virt : r.virt % 2 ^ 21 = 0
  phys : r.phys % 2 ^ 21 = 0
  size : r.size % 2 ^ 21 = 0

/-- The entries that the builder writes. -/
def TwoLevelWrites (r : BootRange) (t0 t1 t2 a : Nat) : Prop :=
  a = t0 + 8 * mmuIndex r.virt 0 ∨ a = t1 + 8 * mmuIndex r.virt 1 ∨ ∃ i, r.Touches i ∧ a = t2 + 8 * i

/-- `m'` is `m` with exactly the range mapped by blocks. -/
structure TwoLevelExact (r : BootRange) (t0 t1 t2 : Nat) (m m' : Nat → Word) : Prop where
  walk : ∀ x, x < r.size → hostWalk m' t0 (r.virt + x) = some (r.phys + x, bootAttr)
  level2 : ∀ i, i < 512 → ¬ r.Touches i → m' (t2 + 8 * i) = m (t2 + 8 * i)
  others : ∀ a, ¬ TwoLevelWrites r t0 t1 t2 a → m' a = m a

section

variable {L : Layout} {m : Nat → Word} {t0 t1 t2 t3 n attr : Nat} {r : BootRange}

/-- The entries after the two-level builder. -/
theorem twoLevel_entries (L : Layout) (m : Nat → Word) (attr : Nat) (hb : BootTables t0 t1 t2 t3 n)
    (hr : r.Blocks) :
    ∃ m', buildHypTwoLevelPageTable L r.virt r.phys r.size attr t0 t1 t2 m = some m' ∧
      m' (t0 + 8 * mmuIndex r.virt 0) = makeStage1Entry t1 attr ∧
      m' (t1 + 8 * mmuIndex r.virt 1) = makeStage1Entry t2 attr ∧
      (∀ k, k ≤ r.lastSlot → m' (t2 + 8 * (mmuIndex r.virt 2 + k)) =
        blockEntry (r.phys + 2 ^ 21 * k)) ∧
      ∀ a, ¬ TwoLevelWrites r t0 t1 t2 a → m' a = m a := by
  obtain ⟨ha0, ha1, ha2, -⟩ := hb.aligned
  obtain ⟨h01, h02, h12⟩ := hb.apart
  obtain ⟨hbv, hbp, hbs⟩ := hr
  have hsize := r.size_pos
  have hslot := r.one_slot
  have hi0 : mmuIndex r.virt 0 < 512 := Nat.mod_lt _ (by decide)
  have hi1 : mmuIndex r.virt 1 < 512 := Nat.mod_lt _ (by decide)
  have hi2 := r.slots_lt
  have hphys : r.phys / 2 ^ 21 * 2 ^ 21 = r.phys := by omega
  obtain ⟨htop0, htop1, htop⟩ := linkTop_at L m attr hb r.virt
  obtain ⟨hmid, hmidoff⟩ := fillEntries_at
    (fun a => setXn (setTable (makeStage1Entry a mtNormal) 0) 0) (2 ^ 21) twoMB_pos (r.phys + r.size)
    (linkTop L r.virt attr t0 t1 t2 m) (t2 + 8 * mmuIndex r.virt 2) r.phys r.phys (n := r.lastSlot)
    (by simp only [BootRange.lastSlot]; omega) (by simp only [BootRange.lastSlot]; omega)
  have hrun : buildHypTwoLevelPageTable L r.virt r.phys r.size attr t0 t1 t2 m =
      some (fillEntries (fun a => setXn (setTable (makeStage1Entry a mtNormal) 0) 0) (2 ^ 21) twoMB_pos
        (r.phys + r.size) (linkTop L r.virt attr t0 t1 t2 m) (t2 + 8 * mmuIndex r.virt 2) r.phys
        r.phys) := by
    simp only [buildHypTwoLevelPageTable, hphys, hbp, ne_eq, not_true_eq_false, if_false]
    rfl
  refine ⟨_, hrun, ?_, ?_, fun k hk => ?_, fun a ha => ?_⟩
  · rw [hmidoff _ fun k hk => by omega, htop0]
  · rw [hmidoff _ fun k hk => by omega, htop1]
  · have hk' := hmid k hk
    rw [block_entry, Nat.mul_comm k] at hk'
    rw [Nat.mul_add, ← Nat.add_assoc]
    exact hk'
  · simp only [TwoLevelWrites, not_or] at ha
    obtain ⟨hn0, hn1, hn2⟩ := ha
    rw [hmidoff a fun k hk he => hn2 ⟨_, (touches_iff r _).mpr ⟨k, hk, rfl⟩, by omega⟩, htop a hn0 hn1]

/-- The two-level builder maps exactly its range. -/
theorem twoLevel_exact (L : Layout) (m : Nat → Word) (attr : Nat) (hb : BootTables t0 t1 t2 t3 n)
    (hr : r.Blocks) :
    ∃ m', buildHypTwoLevelPageTable L r.virt r.phys r.size attr t0 t1 t2 m = some m' ∧
      TwoLevelExact r t0 t1 t2 m m' := by
  obtain ⟨m', hm, h0, h1, h2, hoff⟩ := twoLevel_entries L m attr hb hr
  obtain ⟨ha0, ha1, ha2, -⟩ := hb.aligned
  obtain ⟨h01, h02, h12⟩ := hb.apart
  obtain ⟨hbv, hbp, hbs⟩ := hr
  have hslot := r.one_slot
  have hple := r.phys_le
  have hi0 : mmuIndex r.virt 0 < 512 := Nat.mod_lt _ (by decide)
  have hi1 : mmuIndex r.virt 1 < 512 := Nat.mod_lt _ (by decide)
  refine ⟨m', hm, fun x hx => ?_, fun i hi hno => hoff _ ?_, hoff⟩
  · obtain ⟨k, hk⟩ : ∃ k, k = (r.virt % 2 ^ 21 + x) / 2 ^ 21 := ⟨_, rfl⟩
    obtain ⟨hklast, hk2⟩ := r.slot_of hx hk
    have hblock := h2 k hklast
    rw [← hk2] at hblock
    rw [hostWalk_top hb hx h0 h1, hostWalkFrom_block (by omega) (by omega) hblock]
    have hsum : r.phys + 2 ^ 21 * k + (r.virt + x) % 2 ^ 21 = r.phys + x := by omega
    rw [hsum]
  · simp only [TwoLevelWrites]
    rintro (he | he | ⟨i', ht, he⟩)
    · omega
    · omega
    · rw [show i = i' by omega] at hno
      exact hno ht

end

/-- The image of the hypervisor in its first 2 MB. -/
def imageRange : BootRange where
  virt := 0x40000000
  phys := 0x40000000
  size := 0x200000
  virt_aligned := rfl
  phys_aligned := rfl
  size_aligned := rfl
  size_pos := by decide
  virt_lt := by decide
  one_slot := by decide
  phys_le := by decide

end HyperCore.AArch64
