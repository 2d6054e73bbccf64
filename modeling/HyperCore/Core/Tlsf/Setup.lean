import HyperCore.Core.Tlsf.Alloc

/-!
# Making a heap

`tlsf_create_with_pool` puts the control structure at the start of the memory it is given, and one
free block into the rest. `tlsfCreateWithPool_spec` goes through all sizes: the pool is there, or
the size is refused and the heap has none. The largest pool that passes the check of
`tlsf_add_pool` is neither (`tlsfAddPool_max`): its one block is filed past the end of the table.
-/

namespace HyperCore.Tlsf

open ByteMem MachineInt Segregated

/-! ## The code -/

/-- `tlsf_size`: `sizeof(control_t)` -/
def tlsfSize : Nat := sizeofBlockHeader + 4 + 4 * flIndexCount + 8 * (flIndexCount * slIndexCount)

/-- `tlsf_create` -/
def tlsfCreate (h : Heap) (mem : Nat) : Heap × Nat :=
  if mem % alignSize ≠ 0 then (h, 0) else (controlConstruct mem h.bytes, mem)

/-- `tlsf_create_with_pool` -/
def tlsfCreateWithPool (h : Heap) (mem : Nat) (bytes : SizeT) : Option (Heap × Nat) := do
  let (h, tlsf) := tlsfCreate h mem
  let (h, _) ← tlsfAddPool tlsf h (mem + tlsfSize) (bytes - BitVec.ofNat 64 tlsfSize)
  pure (h, tlsf)

/-- `tlsf_get_pool` -/
def tlsfGetPool (tlsf : Nat) : Nat := tlsf + tlsfSize

/-- `tlsf_remove_pool` -/
def tlsfRemovePool (null : Nat) (h : Heap) (pool : Nat) : Option Heap := do
  let block := offsetToBlock pool (-(blockHeaderOverhead : Int))
  tlsfAssert (blockIsFree h block)
  let next ← blockNext h block
  tlsfAssert (¬ blockIsFree h next)
  let next ← blockNext h block
  tlsfAssert (blockSize h next = 0)
  let (fl, sl) := mappingInsert (blockSize h block)
  removeFreeBlock null h block fl sl

/-! ## An empty table -/

/-- A heap without free blocks. -/
def NoPool (null : Nat) (h : Heap) : Prop := Index null h (fun _ _ => False) fun _ _ => []

section

variable {null mem b c n : Nat} {h : Heap} {bytes size : SizeT}

theorem controlConstruct_noPool (null : Nat) (m : Nat → BitVec 8) :
    NoPool null (controlConstruct null m) := by
  refine ⟨fun i j _ _ => rfl, fun i j a _ _ => ?_, fun i j _ _ => List.nodup_nil,
    Occupancy.empty.congr fun i j _ _ => ?_⟩
  · refine iff_of_false List.not_mem_nil ?_
    rintro ⟨n, hn, -⟩
    exact hn
  · exact iff_of_false not_false fun hne => hne rfl

theorem filed_empty (hpos : 0 < null) (hlt : null + 32 ≤ 2 ^ 64) :
    Filed null fun _ _ => False :=
  ⟨fun h => h.elim, fun h => h.elim, fun h => h.elim, fun h => h.elim, fun h => h.elim, hpos, hlt⟩

/-- A heap without a pool hands nothing out. -/
theorem NoPool.malloc (hno : NoPool null h) (hpos : 0 < null) (hlt : null + 32 ≤ 2 ^ 64)
    (size : SizeT) : tlsfMalloc null h size = some (h, 0) := by
  obtain ⟨s, hs⟩ : ∃ s, s = adjusted size.toNat := ⟨_, rfl⟩
  have hadjust := adjustRequestSize_eq size
  rw [← hs] at hadjust
  have hloc : blockLocateFree null h s = some (h, 0) := by
    by_cases h0 : s = 0
    · rw [blockLocateFree, if_pos h0]
      rfl
    · have hbounds := adjusted_bounds (hs ▸ h0)
      rw [← hs] at hbounds
      rcases blockLocateFree_spec hno (filed_empty hpos hlt) (fun _ _ h => h.elim) h0
        (hs ▸ adjusted_dvd _) (Nat.le_of_lt hbounds.2) with ⟨c, n, h', hsuits, -⟩ | ⟨hloc, -⟩
      · exact hsuits.filed.elim
      · exact hloc
  simp only [tlsfMalloc, hadjust, Option.bind_eq_bind, Option.bind_some, hloc, blockPrepareUsed,
    ne_eq, not_true, if_false, Option.pure_def]

/-! ## Adding a pool -/

/-- The bytes of the block that a pool of `bytes` starts with. -/
def poolBytes (bytes : SizeT) : Nat := (bytes - 16#64).toNat / 8 * 8

theorem alignDown_eight (v : SizeT) : ∃ w, alignDown v (BitVec.ofNat 64 alignSize) = some w ∧
    w.toNat = v.toNat / 8 * 8 := by
  have hseven : (BitVec.ofNat 64 (2 ^ 3) - 1).toNat = 2 ^ 3 - 1 := by decide
  have hlt := v.isLt
  refine ⟨v - (v &&& (BitVec.ofNat 64 (2 ^ 3) - 1)), ?_, ?_⟩
  · rw [alignDown, alignSize_eq, tlsfAssert_true (pow_two_mask (by decide))]
    rfl
  · rw [BitVec.toNat_sub, BitVec.toNat_and, hseven, Nat.and_two_pow_sub_one_eq_mod]
    omega

theorem tlsfAddPool_unfold (null : Nat) (h : Heap) (mem : Nat) (bytes : SizeT) :
    tlsfAddPool null h mem bytes =
      if mem % 8 ≠ 0 then some (h, 0)
      else if poolBytes bytes < 24 ∨ poolBytes bytes > 2 ^ 32 then some (h, 0)
      else (do
        let block := offsetToBlock mem (-8)
        let h := blockSetPrevUsed (blockSetFree (blockSetSize h block (poolBytes bytes)) block) block
        let h ← blockInsert null h block
        let (h, next) ← blockLinkNext h block
        pure (blockSetPrevFree (blockSetUsed (blockSetSize h next 0) next) next, mem)) := by
  obtain ⟨w, hw, hwn⟩ := alignDown_eight (bytes - 16#64)
  have hoverhead : BitVec.ofNat 64 (2 * blockHeaderOverhead) = 16#64 := rfl
  rw [tlsfAddPool, hoverhead, hw]
  simp only [Option.bind_eq_bind, Option.bind_some, hwn]
  rfl

/-- The size field of the one block. -/
theorem poolHeader (h : Heap) (c : Nat) (hn : 8 ∣ n) :
    ∃ m, blockSetPrevUsed (blockSetFree (blockSetSize h c n) c) c = { h with bytes := m } ∧
      Header m c ⟨n, true⟩ false ∧ Differ (Within (c + 8) 8) h.bytes m := by
  obtain ⟨f, p, hset⟩ := blockSetSize_any h c n
  obtain ⟨m₁, hm₁⟩ : ∃ m, m = put h.bytes (c + 8) (sizeWord n f p).toNat 8 := ⟨_, rfl⟩
  have hh₁ : Header m₁ c ⟨n, f⟩ p := hm₁ ▸ header_store _ _ _ _ _
  have hset₁ : blockSetSize h c n = { h with bytes := m₁ } := by rw [hset, hm₁]; rfl
  obtain ⟨m₂, hm₂⟩ : ∃ m, m = put m₁ (c + 8) (sizeWord n true p).toNat 8 := ⟨_, rfl⟩
  have hh₂ : Header m₂ c ⟨n, true⟩ p := hm₂ ▸ header_store _ _ _ _ _
  have hset₂ : blockSetFree { h with bytes := m₁ } c = { h with bytes := m₂ } := by
    rw [Header.setFree (h := { h with bytes := m₁ }) hh₁, hm₂]; rfl
  refine ⟨put m₂ (c + 8) (sizeWord n true false).toNat 8, ?_, header_store _ _ _ _ _, fun y hy => ?_⟩
  · rw [hset₁, hset₂, Header.setPrevUsed (h := { h with bytes := m₂ }) hh₂ hn]
    rfl
  · have hout : ¬ (c + 8 ≤ y ∧ y < c + 8 + 8) := hy
    rw [put_apart hout, hm₂, put_apart hout, hm₁, put_apart hout]

/-- The block of size zero at the end. -/
theorem poolSentinel (h : Heap) (c : Nat) :
    ∃ m, blockSetPrevFree (blockSetUsed (blockSetSize h c 0) c) c = { h with bytes := m } ∧
      Header m c sentinel true ∧ Differ (Within (c + 8) 8) h.bytes m := by
  obtain ⟨f, p, hset⟩ := blockSetSize_any h c 0
  obtain ⟨m₁, hm₁⟩ : ∃ m, m = put h.bytes (c + 8) (sizeWord 0 f p).toNat 8 := ⟨_, rfl⟩
  have hh₁ : Header m₁ c ⟨0, f⟩ p := hm₁ ▸ header_store _ _ _ _ _
  have hset₁ : blockSetSize h c 0 = { h with bytes := m₁ } := by rw [hset, hm₁]; rfl
  obtain ⟨m₂, hm₂⟩ : ∃ m, m = put m₁ (c + 8) (sizeWord 0 false p).toNat 8 := ⟨_, rfl⟩
  have hh₂ : Header m₂ c sentinel p := hm₂ ▸ header_store _ _ _ _ _
  have hset₂ : blockSetUsed { h with bytes := m₁ } c = { h with bytes := m₂ } := by
    rw [Header.setUsed (h := { h with bytes := m₁ }) hh₁ (Nat.dvd_zero 8), hm₂]; rfl
  refine ⟨put m₂ (c + 8) (sizeWord 0 false true).toNat 8, ?_, header_store _ _ _ _ _, fun y hy => ?_⟩
  · rw [hset₁, hset₂, Header.setPrevFree (h := { h with bytes := m₂ }) hh₂]
    rfl
  · have hout : ¬ (c + 8 ≤ y ∧ y < c + 8 + 8) := hy
    rw [put_apart hout, hm₂, put_apart hout, hm₁, put_apart hout]

theorem blockInsert_eq {f p : Bool} (hh : Header h.bytes c ⟨n, f⟩ p) (hn : 8 ∣ n)
    (hlt : n < 2 ^ 64) :
    blockInsert null h c = insertFreeBlock null h c (mappingInsert n).1 (mappingInsert n).2 := by
  rw [blockInsert, hh.blockSize_eq hn hlt]

/-- The sizes that make a pool. -/
theorem tlsfAddPool_spec (hno : NoPool null h) (hroom : Room null b (8 + poolBytes bytes))
    (hmin : 24 ≤ poolBytes bytes) :
    ∃ h' L, tlsfAddPool null h (b + 8) bytes = some (h', b + 8) ∧
      Pool null b h' [⟨poolBytes bytes, true⟩] L := by
  obtain ⟨n, hn⟩ : ∃ n, n = poolBytes bytes := ⟨_, rfl⟩
  have hn8 : 8 ∣ n := by
    rw [hn, poolBytes]
    exact Nat.dvd_mul_left _ _
  have hunfold := tlsfAddPool_unfold null h (b + 8) bytes
  rw [← hn] at hroom hmin hunfold ⊢
  have hb8 := hroom.dvd
  have hfin := hroom.fin_le
  have hmax := hroom.bytes_le
  have hnull := hroom.null_le
  have hpos := hroom.null_pos
  have hoff : offsetToBlock (b + 8) (-8) = b := by
    simp only [offsetToBlock, toUInt64]
    omega
  -- the one block, and its place in the table
  obtain ⟨m₁, hset, hhead, hdiff₁⟩ := poolHeader h b hn8
  have hI₁ : NoPool null { h with bytes := m₁ } := by
    refine hno.congr fun y hy => hdiff₁ y ?_
    rcases hy with hy | ⟨a, k, hfalse, -⟩
    · simp only [Within] at hy ⊢
      omega
    · exact hfalse.elim
  have hfiled : Filed null fun a k => a = b ∧ k = n := by
    refine ⟨fun h h' => h.2.trans h'.2.symm, fun h h' => Or.inl (h.1.trans h'.1.symm), ?_, ?_, ?_,
      hpos, by omega⟩
    · rintro a k ⟨rfl, rfl⟩
      exact hnull
    · rintro a k ⟨rfl, rfl⟩
      change k < 2 ^ 32
      omega
    · rintro a k ⟨rfl, rfl⟩
      omega
  obtain ⟨h₂, hins, hI₂, hdiff₂⟩ := insertFreeBlock_spec hI₁ hfiled
    (fun a k => (or_iff_right not_false).symm) (fun _ hf => hf) hb8
  obtain ⟨L, hL⟩ : ∃ L, Index null h₂ (fun a k => a = b ∧ k = n) L := ⟨_, hI₂⟩
  have hkeep₂ : ∀ y, b + 8 ≤ y → ¬ Within (b + 16) 16 y → h₂.bytes y = m₁ y := by
    intro y hy hout
    refine hdiff₂ y ?_
    rintro (hy' | ⟨a, k, ⟨rfl, -⟩, hy'⟩)
    · simp only [Within] at hy'
      omega
    · exact hout hy'
  have hhead₂ : Header h₂.bytes b ⟨n, true⟩ false := by
    refine hhead.congr fun y h1 h2 => hkeep₂ y h1 ?_
    simp only [Within]
    omega
  -- the block that ends the pool
  have hlink := hhead₂.blockLinkNext_eq hn8 (show 0 < n by omega) (show b + 8 + n < 2 ^ 64 by omega)
  simp only at hlink
  obtain ⟨r, hr⟩ : ∃ r, r = b + 8 + n := ⟨_, rfl⟩
  obtain ⟨m₃, hm₃⟩ : ∃ m, m = put h₂.bytes r b 8 := ⟨_, rfl⟩
  rw [← hr, ← hm₃] at hlink
  obtain ⟨m₄, hlast, hsent, hdiff₄⟩ := poolSentinel { h₂ with bytes := m₃ } r
  have hkeep₄ : ∀ y, ¬ Within r 16 y → m₄ y = h₂.bytes y := by
    intro y hy
    simp only [Within] at hy
    rw [hdiff₄ y (by simp only [Within]; omega)]
    change m₃ y = _
    rw [hm₃, put_apart (by omega)]
  have htiles : Tiles m₄ b false [⟨n, true⟩] := by
    refine tiles_cons.mpr ⟨⟨hn8, hmin⟩, hhead₂.congr fun y h1 h2 => hkeep₄ y ?_, fun _ => ?_,
      trivial, ?_⟩
    · simp only [Within]
      omega
    · simp only
      rw [← hr, hdiff₄.word fun y h1 h2 => by simp only [Within]; omega]
      change word m₃ r = b
      rw [hm₃, word_put _ _ (by omega)]
    · simp only [span_nil, Nat.add_zero, lastFree]
      rw [← hr]
      exact hsent
  have hspan : span [(⟨n, true⟩ : Blk)] = 8 + n := rfl
  have hI₄ : Index null { h₂ with bytes := m₄ } (FreeIn b [⟨n, true⟩]) L := by
    refine Index.congr_set (hL.congr fun y hy => hkeep₄ y ?_) fun a k => ?_
    · rcases hy with hy | ⟨a, k, ⟨rfl, -⟩, hy⟩
      · simp only [Within] at hy ⊢
        omega
      · simp only [Within] at hy ⊢
        omega
    · simp only [FreeIn, At, Blk.mk.injEq, and_true, or_false]
  refine ⟨{ h₂ with bytes := m₄ }, L, ?_, hspan ▸ hroom, htiles,
    ⟨fun hcon => Bool.false_ne_true hcon.1, trivial⟩, hI₄⟩
  rw [hunfold, if_neg (by omega), if_neg (by omega)]
  simp only [hoff, hset, Option.bind_eq_bind]
  rw [blockInsert_eq (h := { h with bytes := m₁ }) hhead hn8 (by omega), hins]
  simp only [Option.bind_some, hlink]
  rw [hlast]
  rfl

theorem tlsfAddPool_refused (hsize : poolBytes bytes < 24 ∨ poolBytes bytes > 2 ^ 32) :
    tlsfAddPool null h mem bytes = some (h, 0) := by
  rw [tlsfAddPool_unfold, if_pos hsize, ite_self]

/-- `block_size_max` itself passes the check, and has no list. -/
theorem tlsfAddPool_max (h8 : 8 ∣ mem) (hsize : poolBytes bytes = 2 ^ 32) :
    tlsfAddPool null h mem bytes = none := by
  obtain ⟨m₁, hset, hhead, -⟩ := poolHeader (n := 2 ^ 32) h (offsetToBlock mem (-8)) (by decide)
  have hfl : ¬ ((mappingInsert (2 ^ 32)).1 < flIndexCount ∧
      (mappingInsert (2 ^ 32)).2 < slIndexCount) := fun hcon =>
    absurd ((mappingInsert_fst_lt (by decide)).mp hcon.1) (by decide)
  rw [tlsfAddPool_unfold, hsize, if_neg (by omega), if_neg (by decide)]
  simp only [hset, Option.bind_eq_bind]
  rw [blockInsert_eq (h := { h with bytes := m₁ }) hhead (by decide) (by decide), insertFreeBlock,
    show tlsfAssert ((mappingInsert (2 ^ 32)).1 < flIndexCount ∧
      (mappingInsert (2 ^ 32)).2 < slIndexCount) = none from if_neg hfl]
  rfl

/-! ## Taking a pool away -/

theorem Index.noPool {F : Nat → Nat → Prop} {L : Nat → Nat → List Nat} (hI : Index null h F L)
    (hF : ∀ a n, ¬ F a n) : NoPool null h := by
  have hempty : ∀ i j, i < 25 → j < 32 → L i j = [] := by
    intro i j hi hj
    refine List.eq_nil_iff_forall_not_mem.mpr fun a ha => ?_
    obtain ⟨n, hn, -⟩ := (hI.mem i j a hi hj).mp ha
    exact hF a n hn
  refine ⟨fun i j hi hj => ?_, fun i j a _ _ => ?_, fun i j _ _ => List.nodup_nil,
    hI.bits.congr fun i j hi hj => ?_⟩
  · have hchain := hI.chain i j hi hj
    rwa [hempty i j hi hj] at hchain
  · refine iff_of_false List.not_mem_nil ?_
    rintro ⟨n, hn, -⟩
    exact hn
  · rw [hempty i j hi hj]

/-- A pool in which nothing is in use can be taken away. -/
theorem tlsfRemovePool_free {L : Nat → Nat → List Nat} (hp : Pool null b h [⟨n, true⟩] L) :
    ∃ h', tlsfRemovePool null h (b + 8) = some h' ∧ NoPool null h' := by
  have hnull := hp.room.null_le
  have hpos := hp.room.null_pos
  have hfin := hp.room.fin_le
  simp only [span_cons, span_nil] at hfin
  have hat : FreeIn b [⟨n, true⟩] b n := Or.inl ⟨rfl, rfl⟩
  obtain ⟨hsized, hhead, -, hrest⟩ := tiles_cons.mp hp.tiles
  have hend : Header h.bytes (b + 8 + n) sentinel true := hrest.2
  have hn8 := hsized.dvd
  have hmin := hsized.min
  simp only at hn8 hmin
  have hoff : offsetToBlock (b + 8) (-(blockHeaderOverhead : Int)) = b := by
    simp only [offsetToBlock, toUInt64, blockHeaderOverhead]
    omega
  have hsize : blockSize h b = n := hhead.blockSize_eq hn8 (show n < 2 ^ 64 by omega)
  have hstep : blockNext h b = some (b + 8 + n) :=
    hhead.blockNext_eq hn8 (show 0 < n by omega) (show b + 8 + n < 2 ^ 64 by omega)
  have hfree : tlsfAssert (blockIsFree h b = true) = some () :=
    tlsfAssert_true (hhead.blockIsFree_eq hn8)
  have hused : tlsfAssert (¬ blockIsFree h (b + 8 + n) = true) = some () := by
    refine tlsfAssert_true ?_
    rw [hend.blockIsFree_eq (Nat.dvd_zero 8)]
    exact Bool.false_ne_true
  have hzero : tlsfAssert (blockSize h (b + 8 + n) = 0) = some () :=
    tlsfAssert_true (hend.blockSize_eq (Nat.dvd_zero 8) (by decide))
  obtain ⟨h', hrem, hI', -⟩ := removeFreeBlock_spec hp.index (hp.tiles.filed hp.room) hat
  refine ⟨h', ?_, hI'.noPool fun a k hk => ?_⟩
  · simp only [tlsfRemovePool, hoff, hfree, hstep, hused, hzero, hsize, hrem, Option.bind_eq_bind,
      Option.bind_some]
  · rcases hk.1 with ⟨ha, -⟩ | hfalse
    · exact hk.2 ha
    · exact hfalse.elim

/-- One in which a block is in use cannot. -/
theorem tlsfRemovePool_used {L : Nat → Nat → List Nat} {l : List Blk} {a : Nat}
    (hp : Pool null b h l L) (hu : UsedIn b l a n) : tlsfRemovePool null h (b + 8) = none := by
  have hnull := hp.room.null_le
  have hpos := hp.room.null_pos
  have hfin := hp.room.fin_le
  have hoff : offsetToBlock (b + 8) (-(blockHeaderOverhead : Int)) = b := by
    simp only [offsetToBlock, toUInt64, blockHeaderOverhead]
    omega
  rcases l with _ | ⟨⟨k, f⟩, l⟩
  · exact hu.elim
  · obtain ⟨hsized, hhead, -, hrest⟩ := tiles_cons.mp hp.tiles
    have hn8 := hsized.dvd
    have hmin := hsized.min
    simp only [span_cons] at hn8 hmin hfin
    have hisfree : blockIsFree h b = f := hhead.blockIsFree_eq hn8
    cases f with
    | false =>
      have hassert : tlsfAssert (blockIsFree h b = true) = none := by
        rw [hisfree]
        rfl
      simp only [tlsfRemovePool, hoff, hassert, Option.bind_eq_bind, Option.bind_none]
    | true =>
      have hfree : tlsfAssert (blockIsFree h b = true) = some () := tlsfAssert_true hisfree
      have hstep : blockNext h b = some (b + 8 + k) :=
        hhead.blockNext_eq hn8 (show 0 < k by omega) (show b + 8 + k < 2 ^ 64 by omega)
      rcases l with _ | ⟨z, l⟩
      · rcases hu with ⟨-, he⟩ | hfalse
        · cases he
        · exact hfalse.elim
      · -- the block after the first is in use, and not the last
        obtain ⟨hz, hheadz, -, -⟩ := tiles_cons.mp hrest
        have hzmin := hz.min
        simp only [span_cons] at hfin
        have hzero : tlsfAssert (blockSize h (b + 8 + k) = 0) = none := by
          refine if_neg ?_
          have hsize : blockSize h (b + 8 + k) = z.size := hheadz.blockSize_eq hz.dvd (by omega)
          omega
        have hused : tlsfAssert (¬ blockIsFree h (b + 8 + k) = true) = some () := by
          refine tlsfAssert_true ?_
          have hzfree : blockIsFree h (b + 8 + k) = z.free := hheadz.blockIsFree_eq hz.dvd
          rw [hzfree]
          exact fun hf => hp.coalesced.2.1 ⟨rfl, hf⟩
        simp only [tlsfRemovePool, hoff, hfree, hstep, hused, hzero, Option.bind_eq_bind,
          Option.bind_some, Option.bind_none]

/-! ## Creating a heap with its pool -/

theorem tlsfSize_eq : tlsfSize = 6536 := rfl

/-- The usable bytes of the memory that a heap is made in. -/
theorem poolBytes_sub (bytes : SizeT) : poolBytes (bytes - BitVec.ofNat 64 tlsfSize) =
    (bytes.toNat + (2 ^ 64 - 6552)) % 2 ^ 64 / 8 * 8 := by
  rw [poolBytes, BitVec.toNat_sub, BitVec.toNat_sub, tlsfSize_eq,
    show (BitVec.ofNat 64 6536).toNat = 6536 from rfl, show (16#64).toNat = 16 from rfl]
  have hlt := bytes.isLt
  omega

/-- What is left of the memory, as a size that is rounded down. -/
theorem tlsfCreateWithPool_unfold (h : Heap) (h8 : 8 ∣ mem) (bytes : SizeT) :
    tlsfCreateWithPool h mem bytes = (do
      let (h, _) ← tlsfAddPool mem (controlConstruct mem h.bytes) (mem + tlsfSize)
        (bytes - BitVec.ofNat 64 tlsfSize)
      pure (h, mem)) := by
  have hcreate : tlsfCreate h mem = (controlConstruct mem h.bytes, mem) := by
    rw [tlsfCreate, show alignSize = 8 from rfl, if_neg (by omega)]
  rw [tlsfCreateWithPool, hcreate]

/-- The sizes of memory that a pool fits into. -/
structure Fits (mem : Nat) (bytes : SizeT) : Prop where
  dvd : 8 ∣ mem
  pos : 0 < mem
  min : tlsfSize + 40 ≤ bytes.toNat
  max : bytes.toNat < tlsfSize + 16 + 2 ^ 32
  fin : mem + bytes.toNat ≤ 2 ^ 64

/-- The bytes of the block that the heap starts with. -/
def usable (bytes : SizeT) : Nat := (bytes.toNat - (tlsfSize + 16)) / 8 * 8

theorem tlsfCreateWithPool_pool (h : Heap) (hf : Fits mem bytes) :
    ∃ h' L, tlsfCreateWithPool h mem bytes = some (h', mem) ∧
      Pool mem (tlsfGetPool mem - 8) h' [⟨usable bytes, true⟩] L := by
  obtain ⟨h8, hpos, hmin, hmax, hfit⟩ := hf
  have hlt := bytes.isLt
  have hsub := poolBytes_sub bytes
  have hn : poolBytes (bytes - BitVec.ofNat 64 tlsfSize) = usable bytes := by
    rw [hsub, usable]
    rw [tlsfSize_eq] at *
    omega
  have hb : tlsfGetPool mem - 8 + 8 = mem + tlsfSize := by
    rw [tlsfGetPool, tlsfSize_eq]
    omega
  have hroom : Room mem (tlsfGetPool mem - 8) (8 + poolBytes (bytes - BitVec.ofNat 64 tlsfSize)) := by
    rw [hn, usable, tlsfGetPool]
    rw [tlsfSize_eq] at *
    exact ⟨hpos, by omega, by omega, by omega, by omega⟩
  have hmin' : 24 ≤ poolBytes (bytes - BitVec.ofNat 64 tlsfSize) := by
    rw [hn, usable]
    rw [tlsfSize_eq] at *
    omega
  obtain ⟨h', L, hadd, hp⟩ := tlsfAddPool_spec (controlConstruct_noPool mem h.bytes) hroom hmin'
  rw [hb] at hadd
  rw [hn] at hp
  refine ⟨h', L, ?_, hp⟩
  rw [tlsfCreateWithPool_unfold h h8, hadd]
  rfl

/-- All sizes: the pool is there, or the heap hands nothing out. The sizes that round to
`block_size_max` leave the table. -/
theorem tlsfCreateWithPool_spec (h : Heap) (h8 : 8 ∣ mem) (hpos : 0 < mem)
    (hctl : mem + tlsfSize < 2 ^ 64) (hfit : mem + bytes.toNat ≤ 2 ^ 64) :
    (bytes.toNat < tlsfSize + 40 → ∃ h', tlsfCreateWithPool h mem bytes = some (h', mem) ∧
      ∀ size, tlsfMalloc mem h' size = some (h', 0)) ∧
    (tlsfSize + 40 ≤ bytes.toNat → bytes.toNat < tlsfSize + 16 + 2 ^ 32 →
      ∃ h' L, tlsfCreateWithPool h mem bytes = some (h', mem) ∧
        Pool mem (tlsfGetPool mem - 8) h' [⟨usable bytes, true⟩] L) ∧
    (tlsfSize + 16 + 2 ^ 32 ≤ bytes.toNat → bytes.toNat < tlsfSize + 24 + 2 ^ 32 →
      tlsfCreateWithPool h mem bytes = none) ∧
    (tlsfSize + 24 + 2 ^ 32 ≤ bytes.toNat → ∃ h', tlsfCreateWithPool h mem bytes = some (h', mem) ∧
      ∀ size, tlsfMalloc mem h' size = some (h', 0)) := by
  have hlt := bytes.isLt
  have hunfold := tlsfCreateWithPool_unfold h h8 bytes
  have hsub := poolBytes_sub bytes
  have hno := controlConstruct_noPool mem h.bytes
  have hsize := tlsfSize_eq
  have hrefused : poolBytes (bytes - BitVec.ofNat 64 tlsfSize) < 24 ∨
      poolBytes (bytes - BitVec.ofNat 64 tlsfSize) > 2 ^ 32 →
      ∃ h', tlsfCreateWithPool h mem bytes = some (h', mem) ∧
        ∀ size, tlsfMalloc mem h' size = some (h', 0) := by
    intro hsize
    refine ⟨_, ?_, hno.malloc hpos (by omega)⟩
    rw [hunfold, tlsfAddPool_refused hsize]
    rfl
  refine ⟨fun hsmall => hrefused ?_, fun hmin hmax => ?_, fun hge hle => ?_,
    fun hlarge => hrefused ?_⟩
  · omega
  · exact tlsfCreateWithPool_pool h ⟨h8, hpos, hmin, hmax, hfit⟩
  · rw [hunfold, tlsfAddPool_max (by omega) (by omega)]
    rfl
  · omega

/-- Heaps of memory that holds zeros. -/
def blank : Heap := ⟨fun _ => 0, 0, fun _ => 0, fun _ _ => 0⟩

theorem tlsfCreateWithPool_spec_page :
    ∃ h' L, tlsfCreateWithPool blank 4096 65536#64 = some (h', 4096) ∧
      Pool 4096 10624 h' [⟨58984, true⟩] L :=
  (tlsfCreateWithPool_spec blank (by decide) (by decide) (by decide) (by decide)).2.1
    (by decide) (by decide)

end

end HyperCore.Tlsf
