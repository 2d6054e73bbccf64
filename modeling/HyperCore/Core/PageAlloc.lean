import HyperCore.Core.Bitmap

/-!
# `page_alloc.c`: the page allocator

One bitmap bit per page of the 4 GB pool, first fit with even alignment (the
callers pass the align mask 1). `allocPagesCnt` and `freePagesCnt` are the two
functions every page table, stack and heap of the hypervisor rests on; the
spinlock around their bodies makes each call one step.

`allocPagesCnt_spec` is the single fact later proofs use about an allocation.
Over whole runs the allocator keeps `Inv`: the outstanding blocks are disjoint,
lie inside the pool, and are exactly the set bits.
-/

namespace HyperCore.PageAlloc

open Scan MachineInt Bitmap

/-- `TOTAL_PAGES`: 1M pages of 4 KB. -/
def totalPages : Nat := 1024 * 1024

/-- `alloc_pages_cnt`: the first page number and the updated bitmap. The `int`
conversions are those of the source: `cnt` becomes a `uint32_t` argument and the
`uint64_t` result becomes an `int`. -/
def allocPagesCnt (bm : Bitmap) (cnt : Int) : Int × Bitmap :=
  let start := toInt32 (findNextZeroArea bm totalPages 0 (toUInt32 cnt) 1)
  if start ≥ totalPages then (totalPages, bm) else (start, setBits bm start cnt)

/-- `free_pages_cnt` -/
def freePagesCnt (bm : Bitmap) (pfn cnt : Int) : Bitmap := clearBits bm pfn cnt

/-- `alloc_pages`: `1ul << order` converted to `int`. -/
def allocPages (bm : Bitmap) (order : Nat) : Int × Bitmap :=
  allocPagesCnt bm (toInt32 (2 ^ order))

/-- `alloc_one_page` -/
def allocOnePage (bm : Bitmap) : Int × Bitmap := allocPagesCnt bm 1

/-- `free_one_page` -/
def freeOnePage (bm : Bitmap) (pfn : Int) : Bitmap := freePagesCnt bm pfn 1

/-- `free_pages`: `1ul << order` converted to `int`. The shift takes the low six bits of the order. -/
def freePages (bm : Bitmap) (pfn : Int) (order : Nat) : Bitmap :=
  freePagesCnt bm pfn (toInt32 (2 ^ (order % 64)))

/-- `init_page_allocator` -/
def initPageAllocator : Bitmap := initBitmap

/-! ## One call -/

/-- The pages `[p, p + cnt)` lie in the pool, are all free, and start at an even
page. -/
def FreeRun (bm : Bitmap) (cnt p : Nat) : Prop :=
  p % 2 = 0 ∧ p + cnt ≤ totalPages ∧ ∀ n, p ≤ n → n < p + cnt → bit bm n = false

/-- `p` is the lowest start of a free run. -/
def LeastRun (bm : Bitmap) (cnt p : Nat) : Prop :=
  FreeRun bm cnt p ∧ ∀ q, FreeRun bm cnt q → p ≤ q

theorem fits_iff_freeRun {bm : Bitmap} {cnt p : Nat} :
    Fits (fun i => bit bm i = true) totalPages cnt (2 ^ 1) 0 p ↔ FreeRun bm cnt p := by
  constructor
  · rintro ⟨ha, hi, hc⟩
    exact ⟨by omega, hi, fun n h1 h2 => by simpa using hc n h1 h2⟩
  · rintro ⟨ha, hi, hc⟩
    exact ⟨by omega, hi, fun n h1 h2 => by simp [hc n h1 h2]⟩

/-- The value of the search never passes the pool by more than the request. -/
theorem findNextZeroAreaOff_le (map : Bitmap) (size start nr m off : Nat) :
    findNextZeroAreaOff map size start nr m off ≤ size + m + nr := by
  have hal : ∀ s, alignMask (findNextZeroBit map size s + off) m - off ≤ size + m := by
    intro s
    have := (findNextZeroBit_first map size s).le_hi
    unfold alignMask
    omega
  fun_induction findNextZeroAreaOff map size start nr m off with
  | case1 start index fin hfin =>
    have := hal start
    omega
  | case2 start index fin hfin i hi ih => exact ih
  | case3 start index fin hfin i hi =>
    have := hal start
    omega

/-- What one allocation does: it takes the lowest free run, or there is none and
nothing changes. -/
theorem allocPagesCnt_spec (bm : Bitmap) {cnt : Nat} (h1 : 1 ≤ cnt) (h2 : cnt ≤ totalPages) :
    (∃ p, LeastRun bm cnt p ∧ allocPagesCnt bm cnt = ((p : Int), setBits bm p cnt)) ∨
      (allocPagesCnt bm cnt = ((totalPages : Int), bm) ∧ ∀ p, ¬ FreeRun bm cnt p) := by
  have hnr : toUInt32 (cnt : Int) = cnt := by
    simp only [toUInt32, totalPages] at h2 ⊢
    omega
  have hle := findNextZeroAreaOff_le bm totalPages 0 cnt 1 0
  have hint : toInt32 (findNextZeroAreaOff bm totalPages 0 cnt 1 0) =
      findNextZeroAreaOff bm totalPages 0 cnt 1 0 :=
    toInt32_eq (by omega) (by simp only [totalPages] at *; omega)
  rcases findNextZeroAreaOff_spec bm totalPages 0 1 0 h1 with hfit | ⟨hlt, hno⟩
  · refine .inl ⟨_, ⟨fits_iff_freeRun.mp hfit.fits, fun q hq => ?_⟩, ?_⟩
    · exact hfit.least q (Nat.zero_le _) (fits_iff_freeRun.mpr hq)
    · have hin := hfit.fits.inside
      have hlt : ¬ ((findNextZeroAreaOff bm totalPages 0 cnt 1 0 : Int) ≥ totalPages) := by
        simp only [Nat.reducePow, Nat.reduceSub] at hin
        omega
      simp only [allocPagesCnt, findNextZeroArea, hnr, hint, hlt, if_false, Nat.reducePow, Nat.reduceSub]
  · refine .inr ⟨?_, fun p hp => hno p (Nat.zero_le _) (fits_iff_freeRun.mpr hp)⟩
    have hge : (findNextZeroAreaOff bm totalPages 0 cnt 1 0 : Int) ≥ totalPages := by
      simp only [Nat.reducePow, Nat.reduceSub] at hlt
      omega
    simp only [allocPagesCnt, findNextZeroArea, hnr, hint, hge, if_true]

/-- Blocks inside the pool never meet the `int` limits. -/
theorem int_of_inside {p cnt : Nat} (h : p + cnt ≤ totalPages) : p + cnt < 2 ^ 31 := by
  simp only [totalPages] at h
  omega

theorem LeastRun.unique {bm : Bitmap} {cnt p q : Nat} (hp : LeastRun bm cnt p)
    (hq : LeastRun bm cnt q) : p = q :=
  Nat.le_antisymm (hp.2 q hq.1) (hq.2 p hp.1)

theorem LeastRun.lt_total {bm : Bitmap} {cnt p : Nat} (h1 : 1 ≤ cnt) (hp : LeastRun bm cnt p) :
    p < totalPages := by
  have := hp.1.2.1
  omega

/-- Freeing a block that was clear before it was set gives the old bitmap back. -/
theorem free_setBits {bm : Bitmap} {cnt p : Nat} (h : FreeRun bm cnt p) :
    freePagesCnt (setBits bm p cnt) p cnt = bm := by
  have hint := int_of_inside h.2.1
  apply ext_bit
  intro n
  rw [freePagesCnt, bit_clearBits _ hint, bit_setBits _ hint]
  by_cases hn : p ≤ n ∧ n < p + cnt
  · simp [hn, h.2.2 n hn.1 hn.2]
  · simp [hn]

/-! ## Single pages

`alloc_one_page` hands out even pages only, lowest first. `evenFree bm n` counts
what it still has below page `2 * n`. -/

/-- The number of free even pages below page `2 * n`. -/
def evenFree (bm : Bitmap) (n : Nat) : Nat := (List.range n).countP fun k => !bit bm (2 * k)

/-- Counting after one index stopped satisfying the predicate. -/
theorem countP_range_drop {p q : Nat → Bool} {k : Nat} (hp : p k = true) (hq : q k = false)
    (hne : ∀ j, j ≠ k → q j = p j) (n : Nat) :
    (List.range n).countP q + (if k < n then 1 else 0) = (List.range n).countP p := by
  induction n with
  | zero => simp
  | succ n ih =>
    simp only [List.range_succ, List.countP_append, List.countP_singleton]
    rcases Nat.lt_trichotomy k n with hlt | rfl | hgt
    · rw [hne n (by omega)]
      simp only [hlt, if_true, Nat.lt_succ_of_lt hlt] at ih ⊢
      omega
    · simp only [Nat.lt_irrefl, if_false, Nat.lt_succ_self, if_true, hp, hq] at ih ⊢
      simp only [Bool.false_eq_true, if_false]
      omega
    · rw [hne n (by omega)]
      have h1 : ¬ k < n := by omega
      have h2 : ¬ k < n + 1 := by omega
      simp only [h1, h2, if_false] at ih ⊢
      omega

theorem exists_of_evenFree_pos {bm : Bitmap} {n : Nat} (h : 0 < evenFree bm n) :
    ∃ k, k < n ∧ bit bm (2 * k) = false := by
  obtain ⟨k, hk, hb⟩ := List.countP_pos_iff.mp h
  exact ⟨k, List.mem_range.mp hk, by simpa using hb⟩

theorem evenFree_pos {bm : Bitmap} {n k : Nat} (hk : k < n) (hb : bit bm (2 * k) = false) :
    0 < evenFree bm n :=
  List.countP_pos_iff.mpr ⟨k, List.mem_range.mpr hk, by simp [hb]⟩

theorem evenFree_succ (bm : Bitmap) (n : Nat) :
    evenFree bm (n + 1) = evenFree bm n + if bit bm (2 * n) then 0 else 1 := by
  simp only [evenFree, List.range_succ, List.countP_append, List.countP_singleton]
  cases bit bm (2 * n) <;> rfl

theorem evenFree_mono {bm : Bitmap} {m n : Nat} (h : m ≤ n) : evenFree bm m ≤ evenFree bm n := by
  induction n with
  | zero => exact Nat.le_of_eq (by rw [Nat.le_zero.mp h])
  | succ n ih =>
    rcases Nat.lt_or_ge n m with hlt | hge
    · exact Nat.le_of_eq (by rw [Nat.le_antisymm h hlt])
    · rw [evenFree_succ]
      exact Nat.le_trans (ih hge) (Nat.le_add_right _ _)

/-- A stretch of free even pages is counted in full. -/
theorem evenFree_stretch {bm : Bitmap} {m c : Nat}
    (h : ∀ k, m ≤ k → k < m + c → bit bm (2 * k) = false) :
    evenFree bm (m + c) = evenFree bm m + c := by
  induction c with
  | zero => rfl
  | succ c ih =>
    rw [← Nat.add_assoc, evenFree_succ, ih fun k h1 h2 => h k h1 (by omega),
      h (m + c) (by omega) (by omega)]
    rfl

theorem freeRun_one {bm : Bitmap} {p : Nat} :
    FreeRun bm 1 p ↔ p % 2 = 0 ∧ p < totalPages ∧ bit bm p = false := by
  constructor
  · rintro ⟨h1, h2, h3⟩
    exact ⟨h1, by omega, h3 p (Nat.le_refl _) (by omega)⟩
  · rintro ⟨h1, h2, h3⟩
    refine ⟨h1, by omega, fun n hn hlt => ?_⟩
    rw [show n = p by omega]
    exact h3

/-- What `alloc_one_page` does: it marks the lowest free even page, or there is
none and it answers `TOTAL_PAGES`. -/
theorem allocOnePage_spec (bm : Bitmap) :
    (∃ p, LeastRun bm 1 p ∧ allocOnePage bm = ((p : Int), setBits bm p 1)) ∨
      (allocOnePage bm = ((totalPages : Int), bm) ∧ evenFree bm (totalPages / 2) = 0) := by
  rcases allocPagesCnt_spec bm (Nat.le_refl 1) (by decide) with ⟨p, hp, he⟩ | ⟨he, hno⟩
  · exact .inl ⟨p, hp, he⟩
  · refine .inr ⟨he, Nat.eq_zero_of_not_pos fun hpos => ?_⟩
    obtain ⟨k, hk, hb⟩ := exists_of_evenFree_pos hpos
    exact hno (2 * k) (freeRun_one.mpr ⟨by omega, by omega, hb⟩)

theorem allocPages_zero (bm : Bitmap) : allocPages bm 0 = allocOnePage bm := by
  have hone : toInt32 (2 ^ 0) = 1 := by decide
  rw [allocPages, hone, allocOnePage]

/-- `alloc_one_page` never answers a negative number, so the `fn < 0` tests of its
callers never hold. -/
theorem allocOnePage_nonneg (bm : Bitmap) : ¬ (allocOnePage bm).1 < 0 := by
  rcases allocOnePage_spec bm with ⟨p, -, he⟩ | ⟨he, -⟩
  · rw [congrArg Prod.fst he]
    exact Int.not_lt.mpr (Int.natCast_nonneg p)
  · rw [congrArg Prod.fst he]
    exact Int.not_lt.mpr (Int.natCast_nonneg totalPages)

theorem bit_setBits_one {bm : Bitmap} {p : Nat} (hp : p < totalPages) (n : Nat) :
    bit (setBits bm p 1) n = (decide (n = p) || bit bm n) := by
  have h := bit_setBits bm (c := 1) (int_of_inside (show p + 1 ≤ totalPages from hp)) n
  rw [show ((1 : Nat) : Int) = 1 from rfl] at h
  rw [h]
  congr 1
  apply decide_eq_decide.mpr
  omega

theorem bit_freeOnePage {bm : Bitmap} {p : Nat} (hp : p < totalPages) (n : Nat) :
    bit (freeOnePage bm p) n = (!decide (n = p) && bit bm n) := by
  have h := bit_clearBits bm (c := 1) (int_of_inside (show p + 1 ≤ totalPages from hp)) n
  rw [freeOnePage, freePagesCnt, show (1 : Int) = ((1 : Nat) : Int) from rfl, h]
  congr 2
  apply decide_eq_decide.mpr
  omega

/-- An allocation below the bound lowers the count by one. -/
theorem evenFree_setBits {bm : Bitmap} {p : Nat} (hp : FreeRun bm 1 p) (n : Nat) :
    evenFree (setBits bm p 1) n + (if p < 2 * n then 1 else 0) = evenFree bm n := by
  obtain ⟨heven, hlt, hclear⟩ := freeRun_one.mp hp
  have h2 : 2 * (p / 2) = p := by omega
  have hd := countP_range_drop (p := fun k => !bit bm (2 * k))
    (q := fun k => !bit (setBits bm p 1) (2 * k)) (k := p / 2)
    (by simp [h2, hclear]) (by simp [h2, bit_setBits_one hlt])
    (fun j hj => by
      have : 2 * j ≠ p := by omega
      simp [bit_setBits_one hlt, this]) n
  have hiff : p / 2 < n ↔ p < 2 * n := by omega
  simpa only [evenFree, hiff] using hd

/-! ## Runs -/

/-- The allocator's bitmap with the blocks handed out and not yet freed, as
`(first page, page count)`. -/
structure AllocState where
  bitmap : Bitmap
  blocks : List (Nat × Nat)

/-- After `init_page_allocator`. -/
def AllocState.init : AllocState := ⟨initPageAllocator, []⟩

/-- A call of `alloc_pages_cnt`: on success the block becomes outstanding. -/
def AllocState.alloc (s : AllocState) (cnt : Nat) : AllocState :=
  let r := allocPagesCnt s.bitmap cnt
  if r.1 = totalPages then ⟨r.2, s.blocks⟩ else ⟨r.2, (r.1.toNat, cnt) :: s.blocks⟩

/-- A call of `free_pages_cnt` on an outstanding block. -/
def AllocState.free (s : AllocState) (b : Nat × Nat) : AllocState :=
  ⟨freePagesCnt s.bitmap b.1 b.2, s.blocks.erase b⟩

/-- The states reached by allocations of 1 to `TOTAL_PAGES` pages and frees of
outstanding blocks, in any order. -/
inductive Reachable : AllocState → Prop
  | init : Reachable .init
  | alloc {s : AllocState} {cnt : Nat} : Reachable s → 1 ≤ cnt → cnt ≤ totalPages →
      Reachable (s.alloc cnt)
  | free {s : AllocState} {b : Nat × Nat} : Reachable s → b ∈ s.blocks → Reachable (s.free b)

/-- Page `n` belongs to block `b`. -/
def InBlock (b : Nat × Nat) (n : Nat) : Prop := b.1 ≤ n ∧ n < b.1 + b.2

/-- The two blocks share no page. -/
def Apart (b c : Nat × Nat) : Prop := b.1 + b.2 ≤ c.1 ∨ c.1 + c.2 ≤ b.1

/-- The run invariant of the allocator. -/
structure Inv (s : AllocState) : Prop where
  nonempty : ∀ b ∈ s.blocks, 1 ≤ b.2
  inside : ∀ b ∈ s.blocks, b.1 + b.2 ≤ totalPages
  apart : s.blocks.Pairwise Apart
  bits : ∀ n, bit s.bitmap n = true ↔ ∃ b ∈ s.blocks, InBlock b n

theorem Apart.symm {b c : Nat × Nat} (h : Apart b c) : Apart c b := Or.symm h

theorem inv_init : Inv .init :=
  ⟨nofun, nofun, .nil, fun n => by simp [AllocState.init, initPageAllocator]⟩

theorem inv_alloc {s : AllocState} {cnt : Nat} (h : Inv s) (h1 : 1 ≤ cnt)
    (h2 : cnt ≤ totalPages) : Inv (s.alloc cnt) := by
  rcases allocPagesCnt_spec s.bitmap h1 h2 with ⟨p, hp, he⟩ | ⟨he, -⟩
  · have hlt := hp.lt_total h1
    have hne : ((p : Int) = totalPages) = False := by simp; omega
    have hs : s.alloc cnt = ⟨setBits s.bitmap p cnt, (p, cnt) :: s.blocks⟩ := by
      simp [AllocState.alloc, he, hne]
    obtain ⟨-, hin, hclear⟩ := hp.1
    rw [hs]
    refine ⟨?_, ?_, ?_, fun n => ?_⟩
    · intro b hb
      rcases List.mem_cons.mp hb with rfl | hb
      · exact h1
      · exact h.nonempty b hb
    · intro b hb
      rcases List.mem_cons.mp hb with rfl | hb
      · exact hin
      · exact h.inside b hb
    · refine List.pairwise_cons.mpr ⟨fun b hb => ?_, h.apart⟩
      -- a common page would be both clear and set
      have hb1 := h.nonempty b hb
      rcases Nat.lt_or_ge b.1 (p + cnt) with hx | hx
      · rcases Nat.lt_or_ge p (b.1 + b.2) with hy | hy
        · have hset := (h.bits (max p b.1)).mpr ⟨b, hb, by constructor <;> omega⟩
          rw [hclear (max p b.1) (by omega) (by omega)] at hset
          exact Bool.noConfusion hset
        · exact .inr hy
      · exact .inl hx
    · rw [bit_setBits _ (int_of_inside hin)]
      simp only [Bool.or_eq_true, decide_eq_true_eq, h.bits n, List.mem_cons, exists_eq_or_imp,
        InBlock]
  · have hs : s.alloc cnt = s := by simp [AllocState.alloc, he]
    rw [hs]
    exact h

theorem inv_free {s : AllocState} {b : Nat × Nat} (h : Inv s) (hb : b ∈ s.blocks) :
    Inv (s.free b) := by
  have hperm := List.perm_cons_erase hb
  have hpair := List.pairwise_cons.mp (hperm.pairwise_iff Apart.symm |>.mp h.apart)
  have hsub : ∀ c, c ∈ s.blocks.erase b → c ∈ s.blocks := fun c => List.mem_of_mem_erase
  refine ⟨fun c hc => h.nonempty c (hsub c hc), fun c hc => h.inside c (hsub c hc), hpair.2,
    fun n => ?_⟩
  simp only [AllocState.free, freePagesCnt]
  rw [bit_clearBits _ (int_of_inside (h.inside b hb))]
  simp only [Bool.and_eq_true, Bool.not_eq_true', decide_eq_false_iff_not, h.bits n]
  constructor
  · rintro ⟨hnot, c, hc, hin⟩
    rcases List.mem_cons.mp (hperm.mem_iff.mp hc) with rfl | hc'
    · exact absurd hin hnot
    · exact ⟨c, hc', hin⟩
  · rintro ⟨c, hc, hin⟩
    refine ⟨fun hbn => ?_, c, hsub c hc, hin⟩
    have := hpair.1 c hc
    simp only [Apart, InBlock] at this hin
    omega

theorem Reachable.inv {s : AllocState} (h : Reachable s) : Inv s := by
  induction h with
  | init => exact inv_init
  | alloc _ h1 h2 ih => exact inv_alloc ih h1 h2
  | free _ hb ih => exact inv_free ih hb

/-- The allocator's contract at every point of every run: the outstanding blocks
are disjoint, inside the pool and exactly the set bits; the next allocation takes
the lowest free run, or reports `TOTAL_PAGES` and leaves the bitmap alone exactly
when there is none; and freeing what it returned restores the bitmap. -/
theorem alloc_contract (s : AllocState) (h : Reachable s) :
    (s.blocks.Pairwise Apart ∧ ∀ b ∈ s.blocks, b.1 + b.2 ≤ totalPages) ∧
    (∀ n, bit s.bitmap n = true ↔ ∃ b ∈ s.blocks, InBlock b n) ∧
    (∀ cnt, 1 ≤ cnt → cnt ≤ totalPages →
      (∀ p : Nat, (allocPagesCnt s.bitmap cnt).1 = p ∧ p < totalPages ↔ LeastRun s.bitmap cnt p) ∧
      (allocPagesCnt s.bitmap cnt = ((totalPages : Int), s.bitmap) ↔
        ¬ ∃ p, FreeRun s.bitmap cnt p)) ∧
    (∀ cnt, 1 ≤ cnt → cnt ≤ totalPages → (allocPagesCnt s.bitmap cnt).1 ≠ totalPages →
      freePagesCnt (allocPagesCnt s.bitmap cnt).2 (allocPagesCnt s.bitmap cnt).1 cnt =
        s.bitmap) := by
  refine ⟨⟨h.inv.apart, h.inv.inside⟩, h.inv.bits, fun cnt h1 h2 => ?_, fun cnt h1 h2 hne => ?_⟩
  · rcases allocPagesCnt_spec s.bitmap h1 h2 with ⟨p, hp, he⟩ | ⟨he, hno⟩
    · have hlt := hp.lt_total h1
      refine ⟨fun q => ⟨fun hq => ?_, fun hq => ?_⟩, fun hf => ?_, fun hf => ?_⟩
      · have : q = p := by rw [he] at hq; simp at hq; omega
        rw [this]
        exact hp
      · rw [he, hq.unique hp]
        exact ⟨rfl, hlt⟩
      · rw [he] at hf
        have := (Prod.mk.inj hf).1
        omega
      · exact absurd ⟨p, hp.1⟩ hf
    · refine ⟨fun q => ⟨fun hq => ?_, fun hq => ?_⟩, fun _ hf => ?_, fun _ => he⟩
      · rw [he] at hq
        simp at hq
        omega
      · exact absurd hq.1 (hno q)
      · obtain ⟨p, hp⟩ := hf
        exact hno p hp
  · rcases allocPagesCnt_spec s.bitmap h1 h2 with ⟨p, hp, he⟩ | ⟨he, -⟩
    · simp only [he]
      exact free_setBits hp.1
    · exact absurd (congrArg Prod.fst he) hne

/-- The contract at a state with one two-page block out. -/
theorem alloc_contract_two : (AllocState.init.alloc 2).blocks.Pairwise Apart ∧
    ∀ b ∈ (AllocState.init.alloc 2).blocks, b.1 + b.2 ≤ totalPages :=
  (alloc_contract _ (.alloc .init (by decide) (by decide))).1

/-! ## How far up a few allocations reach -/

/-- The states after allocations of at most `n` pages in all, each count rounded up to
even, with frees in between. -/
inductive Allocated : Nat → Bitmap → Prop
  | init : Allocated 0 initPageAllocator
  | alloc {n cnt : Nat} {bm : Bitmap} : Allocated n bm → 1 ≤ cnt →
      Allocated (n + (cnt + cnt % 2)) (allocPagesCnt bm cnt).2
  | free {n pfn cnt : Nat} {bm : Bitmap} : Allocated n bm → pfn + cnt ≤ totalPages →
      Allocated n (freePagesCnt bm pfn cnt)

/-- First fit keeps the pages from `n` on free. -/
theorem Allocated.fresh {n : Nat} {bm : Bitmap} (h : Allocated n bm) :
    n % 2 = 0 ∧ (n ≤ totalPages → ∀ m, n ≤ m → m < totalPages → bit bm m = false) := by
  induction h with
  | init => exact ⟨rfl, fun _ m _ _ => bit_initBitmap m⟩
  | @alloc n cnt bm _ h1 ih =>
    refine ⟨by omega, fun hn m hm hlt => ?_⟩
    have hold := ih.2 (by omega)
    have hrun : FreeRun bm cnt n := ⟨ih.1, by omega, fun k h1 h2 => hold k h1 (by omega)⟩
    rcases allocPagesCnt_spec bm h1 (by omega) with ⟨p, hp, ha⟩ | ⟨-, hno⟩
    · have hle := hp.2 n hrun
      rw [ha, bit_setBits _ (int_of_inside hp.1.2.1), hold m (by omega) hlt, Bool.or_false]
      exact decide_eq_false (by omega)
    · exact absurd hrun (hno n)
  | free _ hin ih =>
    refine ⟨ih.1, fun hn m hm hlt => ?_⟩
    rw [freePagesCnt, bit_clearBits _ (int_of_inside hin), ih.2 hn m hm hlt, Bool.and_false]

end HyperCore.PageAlloc
