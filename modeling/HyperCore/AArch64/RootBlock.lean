import HyperCore.AArch64.Stage2Map

/-!
# The root block of the stage-2 tables

`s2_alloc_root_pages` asks the allocator for the concatenated root tables. The allocator aligns to two
pages, whatever the order, and `PAGE_VIR` calls it twice. The block is one that `VTTBR_EL2` can name
exactly if the second run of free pages lies in the direct map and happens to be aligned
(`root_usable_iff`); one and two pages are aligned always, the sixteen pages of 52-bit addresses are
not.
-/

namespace HyperCore.AArch64

open RadixTable Bitmap PageAlloc ArchPage TableMap

/-- The address that `enable_stage2_traslation` writes to `VTTBR_EL2`. -/
def vttbr (L : Layout) (info : Stage2MmInfo) : Nat := rootPhys L info / 4096 * 4096

/-- The root of `info`, made between `h` and `h'`, is the block of pages from page `q` on: pages that
were free and are taken now, all clear, at an address aligned to the size of the block. -/
structure UsableRoot (L : Layout) (info : Stage2MmInfo) (h h' : Host) (q : Nat) : Prop where
  names : vttbr L info = L.physPage q
  inside : q + 2 ^ info.rootPageOrder ≤ totalPages
  owned : ∀ j, j < 2 ^ info.rootPageOrder →
    bit h.bitmap (q + j) = false ∧ bit h'.bitmap (q + j) = true
  clear : ∀ x, L.physPage q ≤ x → x < L.physPage q + 4096 * 2 ^ info.rootPageOrder → h'.mem x = 0
  aligned : L.physPage q % (4096 * 2 ^ info.rootPageOrder) = 0

/-- `s2_alloc_root_pages` returns with a usable root. -/
def RootUsable (L : Layout) (info : Stage2MmInfo) (h : Host) : Prop :=
  ∃ info' h' q, s2AllocRootPages L info h = .ok info' h' ∧
    info'.rootPageOrder = info.rootPageOrder ∧ UsableRoot L info' h h' q

/-- The second run of free pages is aligned and in the direct map; or there is no second run, and the
first one starts at page 0, which the failed call then names. -/
def RootFound (bm : Bitmap) (order : Nat) : Prop :=
  (∃ p q : Nat, LeastRun bm (2 ^ order) p ∧
    LeastRun (setBits bm p (2 ^ order : Nat)) (2 ^ order) q ∧ q + 2 ^ order ≤ 2 ^ 18 ∧
    q % 2 ^ order = 0) ∨
  (LeastRun bm (2 ^ order) 0 ∧
    ∀ q, ¬ FreeRun (setBits bm (0 : Nat) (2 ^ order : Nat)) (2 ^ order) q)

/-! ## Runs -/

section

variable {L : Layout} {info : Stage2MmInfo} {h h' : Host} {p q : Nat}

/-- Every round of a loop that returns has returned. -/
theorem forRounds_round {body : Nat → HostM Unit} {n : Nat} {g g' : Host}
    (hrun : forRounds body n g = .ok () g') {i : Nat} (hi : i < n) :
    ∃ h₁ h₂, body i h₁ = .ok () h₂ := by
  induction n generalizing g' with
  | zero => exact absurd hi (Nat.not_lt_zero i)
  | succ n ih =>
    rw [forRounds] at hrun
    obtain ⟨_, g₁, hfirst, hlast⟩ := bind_eq_ok hrun
    rcases Nat.lt_or_ge i n with hlt | hge
    · exact ih hfirst hlt
    · rw [Nat.le_antisymm (Nat.le_of_lt_succ hi) hge]
      exact ⟨g₁, g', hlast⟩

theorem allocPages_none {bm : Bitmap} {order : Nat} (ho : order ≤ 4)
    (hno : ∀ p, ¬ FreeRun bm (2 ^ order) p) : allocPages bm order = ((totalPages : Int), bm) := by
  have hle : 2 ^ order ≤ totalPages := Nat.le_trans (pow_order_le ho) (by decide)
  rw [allocPages, toInt32_pow_order ho]
  rcases allocPagesCnt_spec bm Nat.one_le_two_pow hle with ⟨p, hp, -⟩ | ⟨he, -⟩
  · exact absurd hp.1 (hno p)
  · exact he

/-- One call finds the lowest run or finds none. -/
theorem allocPages_cases (bm : Bitmap) {order : Nat} (ho : order ≤ 4) :
    (∃ p, LeastRun bm (2 ^ order) p ∧
      allocPages bm order = ((p : Int), setBits bm p (2 ^ order : Nat))) ∨
      (∀ p, ¬ FreeRun bm (2 ^ order) p) ∧ allocPages bm order = ((totalPages : Int), bm) := by
  have hle : 2 ^ order ≤ totalPages := Nat.le_trans (pow_order_le ho) (by decide)
  rcases allocPagesCnt_spec bm Nat.one_le_two_pow hle with ⟨p, hp, -⟩ | ⟨-, hno⟩
  · exact .inl ⟨p, hp, allocPages_run ho hp⟩
  · exact .inr ⟨hno, allocPages_none ho hno⟩

/-- The call after its two allocations: the block at `fn` is cleared. -/
theorem s2AllocRootPages_eq (ho : info.rootPageOrder ≤ 4) {fn₁ fn₂ : Int} {bm₁ bm₂ : Bitmap}
    (h1 : allocPages h.bitmap info.rootPageOrder = (fn₁, bm₁)) (hn1 : ¬ fn₁ < 0)
    (h2 : allocPages bm₁ info.rootPageOrder = (fn₂, bm₂)) (hn2 : ¬ fn₂ < 0) :
    s2AllocRootPages L info h =
      ((forRounds (fun i => clearPage L.hostTranslate (pageVir fn₂ + pageSize * i))
        (2 ^ info.rootPageOrder) >>= fun _ => pure { info with rootTable := pageVir fn₂ }) :
          HostM Stage2MmInfo) { h with bitmap := bm₂ } := by
  have htake₁ : takePages info.rootPageOrder h = .ok fn₁ { h with bitmap := bm₁ } := by
    rw [takePages, h1]
  have htake₂ : takePages info.rootPageOrder { h with bitmap := bm₁ } =
      .ok fn₂ { h with bitmap := bm₂ } := by
    simp only [takePages, h2]
  have hord : ¬ info.rootPageOrder > 4 := Nat.not_lt.mpr ho
  rw [pageVir, if_neg hn2, s2AllocRootPages]
  simp only [hord, if_false]
  rw [bind_ok htake₁]
  simp only [hn1, if_false]
  rw [bind_ok htake₂, pure_bind]

/-- The block of a call that returns lies in the direct map. -/
theorem cleared_inside {n : Nat} {g g' : Host} (hq : q < 2 ^ 20) (hn : 0 < n)
    (hrun : forRounds (fun i => clearPage L.hostTranslate (pageVir (q : Int) + pageSize * i)) n g =
      .ok () g') : q + n ≤ 2 ^ 18 := by
  have hreach {i : Nat} (hi : i < n) : L.hostTranslate (pageVir (q : Int) + pageSize * i) ≠ none := by
    intro hnone
    obtain ⟨h₁, h₂, hbody⟩ := forRounds_round hrun hi
    rw [clearPage, hnone] at hbody
    cases hbody
  refine Nat.le_of_not_lt fun hgt => ?_
  have hlt := L.pagePhysOffset_lt
  rcases Nat.lt_or_ge q (2 ^ 18) with hlow | hhigh
  · -- the page right after the window
    refine hreach (show 2 ^ 18 - q < n by omega) ?_
    have hend : pageVir (q : Int) + pageSize * (2 ^ 18 - q) = pageVirtOffset + directMappingSize := by
      rw [pageVir_low (by omega)]
      simp only [pageSize, directMappingSize]
      omega
    rw [hend, Layout.hostTranslate, if_neg (by omega), if_neg]
    simp only [pageVirtOffset]
    omega
  · refine hreach hn ?_
    rw [Nat.mul_zero, Nat.add_zero]
    exact L.hostTranslate_pageVir_high hhigh hq

theorem clearPages_bitmap {v n : Nat} {g g' : Host}
    (hrun : forRounds (fun i => clearPage L.hostTranslate (v + pageSize * i)) n g = .ok () g') :
    g'.bitmap = g.bitmap := by
  induction n generalizing g' with
  | zero =>
    cases hrun
    rfl
  | succ n ih =>
    rw [forRounds] at hrun
    obtain ⟨_, g₁, hfirst, hlast⟩ := bind_eq_ok hrun
    rw [← ih hfirst]
    rw [clearPage] at hlast
    split at hlast
    · cases hlast
    · cases hlast
      rfl

theorem vttbr_window (hq : q < 2 ^ 20) :
    vttbr L { info with rootTable := pageVirtOffset + pageSize * q } = L.physPage q := by
  have hphys : rootPhys L { info with rootTable := pageVirtOffset + pageSize * q } = L.physPage q :=
    L.virToPhy_window hq
  have hmod := L.physPage_mod q
  rw [vttbr, hphys]
  omega

/-- The pool starts at a multiple of 2 MB, so a block is aligned as its first page number is. -/
theorem physPage_aligned {order : Nat} (ho : order ≤ 4) (L : Layout) (q : Nat) :
    L.physPage q % (4096 * 2 ^ order) = 0 ↔ q % 2 ^ order = 0 := by
  have hbase : L.pagePhysOffset = (L.hyperEnd + 2 ^ 20 + 2 ^ 21 - 1) / 2 ^ 21 * 2 ^ 21 := rfl
  rw [Layout.physPage, hbase, pageSize]
  have hcases : order = 0 ∨ order = 1 ∨ order = 2 ∨ order = 3 ∨ order = 4 := by omega
  rcases hcases with rfl | rfl | rfl | rfl | rfl <;> omega

/-- Clearing a block in the direct map after it was taken. -/
theorem rootUsable_of_clear (ho : info.rootPageOrder ≤ 4) {bm : Bitmap}
    (hin : q + 2 ^ info.rootPageOrder ≤ 2 ^ 18) (halign : q % 2 ^ info.rootPageOrder = 0)
    (hown : ∀ j, j < 2 ^ info.rootPageOrder → bit h.bitmap (q + j) = false ∧ bit bm (q + j) = true)
    {fn : Int} (hfn : pageVir fn = pageVirtOffset + pageSize * q)
    (hrun : s2AllocRootPages L info h =
      ((forRounds (fun i => clearPage L.hostTranslate (pageVir fn + pageSize * i))
        (2 ^ info.rootPageOrder) >>= fun _ => pure { info with rootTable := pageVir fn }) :
          HostM Stage2MmInfo) { h with bitmap := bm }) : RootUsable L info h := by
  obtain ⟨h', hclear, hbm, hmem⟩ := clearPages_ok L hin { h with bitmap := bm }
  rw [← hfn] at hclear
  rw [bind_ok hclear, hfn] at hrun
  have hpow : 1 ≤ 2 ^ info.rootPageOrder := Nat.one_le_two_pow
  refine ⟨_, h', q, hrun, rfl, vttbr_window (by omega), ?_, fun j hj => ?_, fun x h1 h2 => ?_,
    (physPage_aligned ho L q).mpr halign⟩
  · exact Nat.le_trans hin (by decide)
  · rw [hbm]
    exact hown j hj
  · rw [hmem x, if_pos ⟨h1, h2⟩]

/-- The root block of a call that returns a usable root. -/
theorem rootFound_of_usable (ho : info.rootPageOrder ≤ 4) (hu : RootUsable L info h) :
    RootFound h.bitmap info.rootPageOrder := by
  obtain ⟨info', h', q', hrun, horder, huse⟩ := hu
  have hpow : 0 < 2 ^ info.rootPageOrder := Nat.two_pow_pos _
  have hzero : pageVir totalPages = pageVirtOffset + pageSize * 0 := pageVir_total
  have howned := huse.owned 0 (horder ▸ hpow)
  rcases allocPages_cases h.bitmap ho with ⟨p, hp, h1⟩ | ⟨hno, h1⟩
  · have hn1 : ¬ ((p : Int) < 0) := by omega
    rcases allocPages_cases (setBits h.bitmap p (2 ^ info.rootPageOrder : Nat)) ho with
      ⟨q, hq, h2⟩ | ⟨hno, h2⟩
    · have hqt := hq.1.2.1
      simp only [totalPages] at hqt
      rw [s2AllocRootPages_eq ho h1 hn1 h2 (by omega)] at hrun
      obtain ⟨_, g, hclear, hret⟩ := bind_eq_ok hrun
      cases hret
      have hin := cleared_inside (by omega) hpow hclear
      have hname := huse.names
      rw [pageVir_low (by omega), vttbr_window (by omega)] at hname
      have hqq := L.physPage_inj hname
      refine .inl ⟨p, q, hp, hq, hin, (physPage_aligned ho L q).mp ?_⟩
      rw [hqq]
      exact huse.aligned
    · -- the second call failed, and its answer names page 0
      rw [s2AllocRootPages_eq ho h1 hn1 h2 (by decide)] at hrun
      obtain ⟨_, g, hclear, hret⟩ := bind_eq_ok hrun
      cases hret
      have hname := huse.names
      rw [hzero, vttbr_window (by decide)] at hname
      have hbm := clearPages_bitmap hclear
      dsimp only at hbm
      rw [← L.physPage_inj hname, Nat.zero_add, hbm, bit_setBits _ (int_of_inside hp.1.2.1)] at howned
      rw [howned.1, Bool.or_false, decide_eq_true_eq] at howned
      have hp0 : p = 0 := by omega
      rw [hp0] at hp hno
      exact .inr ⟨hp, hno⟩
  · rw [s2AllocRootPages_eq ho h1 (by decide) h1 (by decide)] at hrun
    obtain ⟨_, g, hclear, hret⟩ := bind_eq_ok hrun
    cases hret
    have hbm := clearPages_bitmap hclear
    dsimp only at hbm
    rw [hbm, howned.1] at howned
    cases howned.2

theorem rootUsable_of_found (ho : info.rootPageOrder ≤ 4)
    (hf : RootFound h.bitmap info.rootPageOrder) : RootUsable L info h := by
  rcases hf with ⟨p, q, hp, hq, hin, halign⟩ | ⟨hp, hno⟩
  · have hpi := int_of_inside hp.1.2.1
    have hqi := int_of_inside hq.1.2.1
    have hpow : 0 < 2 ^ info.rootPageOrder := Nat.two_pow_pos _
    refine rootUsable_of_clear ho hin halign (fun j hj => ?_) (pageVir_low (by omega))
      (s2AllocRootPages_eq ho (allocPages_run ho hp) (by omega) (allocPages_run ho hq) (by omega))
    have hfree := hq.1.2.2 (q + j) (by omega) (by omega)
    rw [bit_setBits _ hpi, Bool.or_eq_false_iff] at hfree
    refine ⟨hfree.2, ?_⟩
    rw [bit_setBits _ hqi, decide_eq_true (by omega), Bool.true_or]
  · have hpi := int_of_inside hp.1.2.1
    have hin : 0 + 2 ^ info.rootPageOrder ≤ 2 ^ 18 := by
      rw [Nat.zero_add]
      exact Nat.le_trans (pow_order_le ho) (by decide)
    refine rootUsable_of_clear (q := 0) ho hin (Nat.zero_mod _) (fun j hj => ?_)
      (show pageVir totalPages = pageVirtOffset + pageSize * 0 from pageVir_total)
      (s2AllocRootPages_eq ho (allocPages_run ho hp) (by decide) (allocPages_none ho hno) (by decide))
    refine ⟨hp.1.2.2 (0 + j) (by omega) (by omega), ?_⟩
    rw [bit_setBits _ hpi, decide_eq_true (by omega), Bool.true_or]

end

/-- For every `PARange` code and every allocator state: the root is usable exactly if the block that the
second call finds is aligned and lies in the direct map, or if that call fails after a first one that
found page 0. -/
theorem root_usable_iff (L : Layout) (code : Fin 8) (h : Host) :
    RootUsable L (s2SetupInfo code) h ↔ RootFound h.bitmap (paRangeInfo code).rootOrder :=
  ⟨rootFound_of_usable (rootOrder_le code),
    fun hf => rootUsable_of_found (rootOrder_le code) hf⟩

/-- The lowest run in a bitmap whose set bits are the first `n`. -/
theorem leastRun_prefix {bm : Bitmap} {n : Nat} (cnt : Nat) (hbits : ∀ k, bit bm k = decide (k < n))
    (heven : n % 2 = 0) (h1 : 1 ≤ cnt) (hin : n + cnt ≤ totalPages) : LeastRun bm cnt n := by
  refine ⟨⟨heven, hin, fun k hk _ => ?_⟩, fun q hq => Nat.le_of_not_lt fun hlt => ?_⟩
  · rw [hbits, decide_eq_false (Nat.not_lt.mpr hk)]
  · have hclear := hq.2.2 q (Nat.le_refl _) (by omega)
    rw [hbits, decide_eq_true hlt] at hclear
    cases hclear

/-- 52-bit addresses, two pages taken before: the sixteen root pages start at page 18, which is not
aligned. -/
theorem root_not_aligned : ∃ info' h',
    s2AllocRootPages imageLayout (s2SetupInfo 6)
        (clearHost (setBits initPageAllocator (0 : Nat) (2 : Nat))) = .ok info' h' ∧
      vttbr imageLayout info' = imageLayout.physPage 18 ∧
      imageLayout.physPage 18 % (4096 * 2 ^ 4) ≠ 0 ∧
    ¬ RootUsable imageLayout (s2SetupInfo 6)
      (clearHost (setBits initPageAllocator (0 : Nat) (2 : Nat))) := by
  have hbits (k : Nat) : bit (setBits initPageAllocator (0 : Nat) (2 : Nat)) k = decide (k < 2) := by
    rw [bit_setBits _ (by decide), initPageAllocator, bit_initBitmap, Bool.or_false]
    simp only [Nat.zero_le, true_and, Nat.zero_add]
  have hp := leastRun_prefix 16 hbits rfl (by decide) (by decide)
  have hbits₂ (k : Nat) : bit (setBits (setBits initPageAllocator (0 : Nat) (2 : Nat)) (2 : Nat)
      (16 : Nat)) k = decide (k < 18) := by
    rw [bit_setBits _ (by decide), hbits, ← Bool.decide_or]
    exact decide_eq_decide.mpr (by omega)
  have hq := leastRun_prefix 16 hbits₂ rfl (by decide) (by decide)
  have halign : imageLayout.physPage 18 % (4096 * 2 ^ 4) ≠ 0 := fun hc =>
    absurd ((physPage_aligned (by decide) imageLayout 18).mp hc) (by decide)
  obtain ⟨h', hrun, -, -⟩ : ∃ h', s2AllocRootPages imageLayout (s2SetupInfo 6)
      (clearHost (setBits initPageAllocator (0 : Nat) (2 : Nat))) = .ok _ h' ∧ _ :=
    s2AllocRootPages_ok imageLayout (by decide) hp hq (by decide)
  refine ⟨_, h', hrun, vttbr_window (by decide), halign, fun hu => ?_⟩
  rcases rootFound_of_usable (by decide) hu with ⟨p', q', hp', hq', -, hal⟩ | ⟨hp', -⟩
  · cases hp'.unique hp
    cases hq'.unique hq
    exact absurd hal (by decide)
  · exact absurd (hp'.unique hp) (by decide)

end HyperCore.AArch64
