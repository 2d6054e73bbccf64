import HyperCore.Core.Tlsf.Setup

/-!
# `tlsf_check`, `tlsf_check_pool`

The two checks of the allocator read the heap block by block: one along the pool, the other along
the free lists. On a heap with the invariant both finish, and find nothing.

The loops of the code have no bound; here they take one, and `none` is also a loop that needs more.
-/

namespace HyperCore.Tlsf

open ByteMem MachineInt Segregated

/-! ## The code -/

/-- `tlsf_insist` -/
def tlsfInsist (status : Int) (p : Prop) [Decidable p] : Option Int := do
  tlsfAssert p
  pure (if p then status else status - 1)

structure Integrity where
  prevStatus : Int
  status : Int
deriving DecidableEq, Repr

/-- `integrity_walker` -/
def integrityWalker (h : Heap) (ptr size : Nat) (_used : Bool) (integ : Integrity) :
    Option Integrity := do
  let block := blockFromPtr ptr
  let thisPrevStatus : Int := if blockIsPrevFree h block then 1 else 0
  let thisStatus : Int := if blockIsFree h block then 1 else 0
  let thisBlockSize := blockSize h block
  let status ← tlsfInsist 0 (integ.prevStatus = thisPrevStatus)
  let status ← tlsfInsist status (size = thisBlockSize)
  pure ⟨thisStatus, integ.status + status⟩

/-- The loop of `tlsf_walk_pool` -/
def walkFrom {σ : Type} (h : Heap) (walker : Nat → Nat → Bool → σ → Option σ) :
    Nat → Nat → σ → Option σ
  | 0, _, _ => none
  | fuel + 1, block, user => do
    if block ≠ 0 ∧ ¬ blockIsLast h block then
      let user ← walker (blockToPtr block) (blockSize h block) (!blockIsFree h block) user
      let block ← blockNext h block
      walkFrom h walker fuel block user
    else pure user

/-- `tlsf_walk_pool` -/
def tlsfWalkPool {σ : Type} (fuel : Nat) (h : Heap) (pool : Nat)
    (walker : Nat → Nat → Bool → σ → Option σ) (user : σ) : Option σ :=
  walkFrom h walker fuel (offsetToBlock pool (-(blockHeaderOverhead : Int))) user

/-- `tlsf_check_pool` -/
def tlsfCheckPool (fuel : Nat) (h : Heap) (pool : Nat) : Option Int := do
  let integ ← tlsfWalkPool fuel h pool (integrityWalker h) ⟨0, 0⟩
  pure integ.status

/-- The body of the inner loop of `tlsf_check` -/
def checkBlock (h : Heap) (i j block : Nat) (status : Int) : Option Int := do
  let status ← tlsfInsist status (blockIsFree h block)
  let status ← tlsfInsist status (¬ blockIsPrevFree h block)
  let next ← blockNext h block
  let status ← tlsfInsist status (¬ blockIsFree h next)
  let status ← tlsfInsist status (blockIsPrevFree h next)
  let status ← tlsfInsist status (blockSize h block ≥ blockSizeMin)
  let (fli, sli) := mappingInsert (blockSize h block)
  tlsfInsist status (fli = i ∧ sli = j)

/-- `while (block != &control->block_null)` -/
def checkList (null : Nat) (h : Heap) (i j : Nat) : Nat → Nat → Int → Option Int
  | 0, _, _ => none
  | fuel + 1, block, status => do
    if block ≠ null then
      let status ← checkBlock h i j block status
      checkList null h i j fuel (h.nextFree block) status
    else pure status

/-- One list of `tlsf_check` -/
def checkEntry (null fuel : Nat) (h : Heap) (i j : Nat) (status : Int) : Option Int := do
  let flMap := h.flBitmap &&& (1#32 <<< i)
  let slList := h.slBitmap i
  let slMap := slList &&& (1#32 <<< j)
  let block := h.blocks i j
  let status ← if flMap = 0 then tlsfInsist status (slMap = 0) else pure status
  if slMap = 0 then tlsfInsist status (block = null)
  else
    let status ← tlsfInsist status (slList ≠ 0)
    let status ← tlsfInsist status (block ≠ null)
    checkList null h i j fuel block status

/-- `tlsf_check` -/
def tlsfCheck (null fuel : Nat) (h : Heap) : Option Int :=
  (List.range flIndexCount).foldlM (fun status i =>
    (List.range slIndexCount).foldlM (fun status j => checkEntry null fuel h i j status) status) 0

/-! ## Along the pool -/

/-- The blocks with their addresses. -/
def places (b : Nat) : List Blk → List (Nat × Blk)
  | [] => []
  | x :: l => (b, x) :: places (b + 8 + x.size) l

section

variable {null b c n i j fuel : Nat} {h : Heap} {prevFree : Bool} {x : Blk} {l l₁ l₂ : List Blk}
  {L : Nat → Nat → List Nat} {σ : Type} {status : Int} {p : Prop}

theorem mem_places {a : Nat} : (a, x) ∈ places b l ↔ At b l a x := by
  induction l generalizing b with
  | nil => exact iff_of_false List.not_mem_nil not_false
  | cons z l ih => rw [places, List.mem_cons, Prod.mk.injEq, At, ih]

theorem length_places : (places b l).length = l.length := by
  induction l generalizing b with
  | nil => rfl
  | cons z l ih => rw [places, List.length_cons, List.length_cons, ih]

theorem tlsfInsist_true [Decidable p] (hp : p) : tlsfInsist status p = some status := by
  rw [tlsfInsist, tlsfAssert_true hp, if_pos hp]
  rfl

theorem walkFrom_eq (ht : Tiles h.bytes b prevFree l) (hpos : 0 < b)
    (hlt : b + span l + 16 ≤ 2 ^ 64) (hfuel : l.length < fuel)
    (walker : Nat → Nat → Bool → σ → Option σ) (user : σ) :
    walkFrom h walker fuel b user =
      (places b l).foldlM (fun u r => walker (r.1 + 16) r.2.size (!r.2.free) u) user := by
  induction l generalizing b prevFree fuel user with
  | nil =>
    obtain ⟨fuel, rfl⟩ := Nat.exists_eq_succ_of_ne_zero (Nat.ne_of_gt hfuel)
    have hend : Header h.bytes b sentinel prevFree := ht.2
    have hlast : blockIsLast h b = true := by
      rw [hend.blockIsLast_eq (Nat.dvd_zero 8) (by decide)]
      rfl
    rw [walkFrom, if_neg fun hcon => hcon.2 hlast]
    rfl
  | cons x l ih =>
    obtain ⟨fuel, rfl⟩ := Nat.exists_eq_succ_of_ne_zero (Nat.ne_of_gt (Nat.zero_lt_of_lt hfuel))
    obtain ⟨hsized, hhead, -, hrest⟩ := tiles_cons.mp ht
    have hmin := hsized.min
    rw [span_cons] at hlt
    have hlast : ¬ blockIsLast h b = true := by
      rw [hhead.blockIsLast_eq hsized.dvd (by omega), beq_iff_eq]
      omega
    rw [walkFrom, if_pos ⟨Nat.ne_of_gt hpos, hlast⟩, hhead.blockSize_eq hsized.dvd (by omega),
      hhead.blockIsFree_eq hsized.dvd, hhead.blockNext_eq hsized.dvd (by omega) (by omega), places,
      List.foldlM_cons]
    refine bind_congr fun u => ?_
    exact ih hrest (by omega) (by omega) (Nat.lt_of_succ_lt_succ hfuel) u

/-- A walk visits the blocks of the pool, in order. -/
theorem tlsfWalkPool_eq (hp : Pool null b h l L) (hfuel : l.length < fuel)
    (walker : Nat → Nat → Bool → σ → Option σ) (user : σ) :
    tlsfWalkPool fuel h (b + 8) walker user =
      (places b l).foldlM (fun u r => walker (r.1 + 16) r.2.size (!r.2.free) u) user := by
  have hnull := hp.room.null_le
  have hpos := hp.room.null_pos
  have hfin := hp.room.fin_le
  have hoff : offsetToBlock (b + 8) (-(blockHeaderOverhead : Int)) = b := by
    simp only [offsetToBlock, toUInt64, blockHeaderOverhead]
    omega
  rw [tlsfWalkPool, hoff]
  exact walkFrom_eq hp.tiles (by omega) hfin hfuel walker user

/-- The walker meets the flags that the blocks before gave it. -/
theorem integrityWalker_run (ht : Tiles h.bytes b prevFree l) (hlt : b + span l + 16 ≤ 2 ^ 64) :
    ∃ f, (places b l).foldlM (fun u r => integrityWalker h (r.1 + 16) r.2.size (!r.2.free) u)
      ⟨prevFree.toNat, 0⟩ = some ⟨f, 0⟩ := by
  induction l generalizing b prevFree with
  | nil => exact ⟨_, rfl⟩
  | cons x l ih =>
    obtain ⟨hsized, hhead, -, hrest⟩ := tiles_cons.mp ht
    rw [span_cons] at hlt
    have hstep : integrityWalker h (b + 16) x.size (!x.free) ⟨prevFree.toNat, 0⟩ =
        some ⟨x.free.toNat, 0⟩ := by
      have hblock : blockFromPtr (b + 16) = b := rfl
      have hprev : ((prevFree.toNat : Nat) : Int) = if prevFree = true then 1 else 0 := by
        cases prevFree <;> rfl
      have hfree : ((x.free.toNat : Nat) : Int) = if x.free = true then 1 else 0 := by
        cases x.free <;> rfl
      simp only [integrityWalker, hblock, hhead.blockIsPrevFree_eq hsized.dvd,
        hhead.blockIsFree_eq hsized.dvd, hhead.blockSize_eq hsized.dvd (show x.size < 2 ^ 64 by omega),
        hprev, hfree, tlsfInsist_true, Option.bind_eq_bind, Option.bind_some]
      rfl
    rw [places, List.foldlM_cons]
    simp only [hstep, Option.bind_eq_bind, Option.bind_some]
    exact ih hrest (by omega)

theorem tlsfCheckPool_spec (hp : Pool null b h l L) (hfuel : l.length < fuel) :
    tlsfCheckPool fuel h (b + 8) = some 0 := by
  obtain ⟨f, hrun⟩ := integrityWalker_run hp.tiles hp.room.fin_le
  have hstart : (⟨(false.toNat : Nat), 0⟩ : Integrity) = ⟨0, 0⟩ := rfl
  rw [hstart] at hrun
  rw [tlsfCheckPool, tlsfWalkPool_eq hp hfuel, hrun]
  rfl

/-! ## Along the lists -/

/-- Lists are no longer than the pool has blocks. -/
theorem Pool.list_length (hp : Pool null b h l L) (hi : i < 25) (hj : j < 32) :
    (L i j).length ≤ l.length := by
  have hsub : L i j ⊆ (places b l).map Prod.fst := by
    intro a ha
    obtain ⟨n, hn, -⟩ := (hp.index.mem i j a hi hj).mp ha
    exact List.mem_map.mpr ⟨(a, ⟨n, true⟩), mem_places.mpr hn, rfl⟩
  have hle := ((hp.index.nodup i j hi hj).subperm hsub).length_le
  rwa [List.length_map, length_places] at hle

/-- The successor of a free block is in use, and knows of it. -/
theorem Pool.next_used (hp : Pool null b h l L) (hc : FreeIn b l c n) :
    ∃ x, Header h.bytes (c + 8 + n) x true ∧ x.free = false ∧ 8 ∣ x.size := by
  obtain ⟨l₁, l₂, rfl, rfl⟩ := at_split.mp hc
  obtain ⟨-, -, hco⟩ := coalesced_append.mp hp.coalesced
  obtain ⟨-, -, -, hrest⟩ := tiles_cons.mp (tiles_append.mp hp.tiles).2
  refine ⟨first l₂, hrest.header_first, ?_, hrest.first_dvd⟩
  cases l₂ with
  | nil => rfl
  | cons z l₂ => exact Bool.eq_false_iff.mpr fun hf => hco.1 ⟨rfl, hf⟩

/-- The predecessor of a free block is in use. -/
theorem Pool.header_free (hp : Pool null b h l L) (hc : FreeIn b l c n) :
    Header h.bytes c ⟨n, true⟩ false := by
  obtain ⟨l₁, l₂, rfl, rfl⟩ := at_split.mp hc
  obtain ⟨-, hco, -⟩ := coalesced_append.mp hp.coalesced
  have hlast : lastFree false l₁ = false := Bool.eq_false_iff.mpr fun hf => hco ⟨hf, rfl⟩
  exact hlast ▸ (tiles_cons.mp (tiles_append.mp hp.tiles).2).2.1

theorem checkBlock_spec (hp : Pool null b h l L) (hc : FreeIn b l c n)
    (hmap : mappingInsert n = (i, j)) : checkBlock h i j c status = some status := by
  have hsized := hp.tiles.sized hc
  have hhead := hp.header_free hc
  obtain ⟨x, hnext, hused, hdvd⟩ := hp.next_used hc
  have hbounds := hc.bounds
  have hfin := hp.room.fin_le
  have hmin := hsized.min
  have hn8 := hsized.dvd
  simp only at hbounds hmin hn8
  have hsize : blockSize h c = n := hhead.blockSize_eq hn8 (show n < 2 ^ 64 by omega)
  have hstep : blockNext h c = some (c + 8 + n) :=
    hhead.blockNext_eq hn8 (show 0 < n by omega) (show c + 8 + n < 2 ^ 64 by omega)
  have hge : n ≥ blockSizeMin := hmin
  rw [checkBlock, tlsfInsist_true (hhead.blockIsFree_eq hn8), hhead.blockIsPrevFree_eq hn8, hstep,
    hsize, hmap]
  simp only [Option.bind_eq_bind, Option.bind_some, hnext.blockIsFree_eq hdvd,
    hnext.blockIsPrevFree_eq hdvd, hused, tlsfInsist_true, hge, Bool.false_eq_true, not_false_eq_true,
    and_self]

theorem checkList_spec (hp : Pool null b h l L) {p a : Nat} {t : List Nat}
    (ht : Chain h.nextFree h.prevFree null p a t)
    (hmem : ∀ a ∈ t, ∃ n, FreeIn b l a n ∧ mappingInsert n = (i, j)) (hfuel : t.length < fuel) :
    checkList null h i j fuel a status = some status := by
  induction t generalizing p a fuel with
  | nil =>
    obtain ⟨fuel, rfl⟩ := Nat.exists_eq_succ_of_ne_zero (Nat.ne_of_gt hfuel)
    have hnull : a = null := ht
    rw [checkList, if_neg (not_not.mpr hnull)]
    rfl
  | cons c t ih =>
    obtain ⟨fuel, rfl⟩ := Nat.exists_eq_succ_of_ne_zero (Nat.ne_of_gt (Nat.zero_lt_of_lt hfuel))
    obtain ⟨rfl, hne, -, hrest⟩ := ht
    obtain ⟨n, hn, hmap⟩ := hmem a List.mem_cons_self
    rw [checkList, if_pos hne, checkBlock_spec hp hn hmap]
    exact ih hrest (fun d hd => hmem d (List.mem_cons_of_mem _ hd)) (Nat.lt_of_succ_lt_succ hfuel)

theorem and_bit_eq_zero (w : BitVec 32) (hi : i < 32) :
    w &&& (1#32 <<< i) = 0#32 ↔ w.getLsbD i = false := by
  constructor
  · intro h0
    have hbit := congrArg (fun v => v.getLsbD i) h0
    simpa [getLsbD_bit, hi] using hbit
  · intro h0
    refine BitVec.eq_of_getLsbD_eq fun k hk => ?_
    rw [BitVec.getLsbD_and, getLsbD_bit, BitVec.getLsbD_zero]
    by_cases hki : k = i
    · rw [hki, h0, Bool.false_and]
    · rw [decide_eq_false hki, Bool.and_false, Bool.and_false]

theorem checkEntry_spec (hp : Pool null b h l L) (hi : i < 25) (hj : j < 32)
    (hfuel : l.length < fuel) : checkEntry null fuel h i j status = some status := by
  have hchain := hp.index.chain i j hi hj
  have hcol := hp.index.bits.col i j hi hj
  have hsl := and_bit_eq_zero (h.slBitmap i) hj
  simp only [checkEntry, Option.pure_def, Option.bind_eq_bind, Option.bind_some]
  by_cases hl : L i j = []
  · have hbit : (h.slBitmap i).getLsbD j = false := Bool.eq_false_iff.mpr fun hset => hcol.mp hset hl
    have hz : h.slBitmap i &&& (1#32 <<< j) = 0 := hsl.mpr hbit
    have hhead : h.blocks i j = null := hchain.head_null.mpr hl
    have hfirst : tlsfInsist status (h.slBitmap i &&& (1#32 <<< j) = 0) = some status :=
      tlsfInsist_true hz
    have hempty : tlsfInsist status (h.blocks i j = null) = some status := tlsfInsist_true hhead
    rw [hfirst, Option.bind_some, if_pos hz, hempty, ite_self]
  · have hbit : (h.slBitmap i).getLsbD j = true := hcol.mpr hl
    have hz : ¬ h.slBitmap i &&& (1#32 <<< j) = 0 := fun hz => by
      rw [hsl.mp hz] at hbit
      cases hbit
    have hmark := hp.index.bits.marked hi hj hl
    have hfl : ¬ h.flBitmap &&& (1#32 <<< i) = 0 := fun hz => by
      rw [(and_bit_eq_zero h.flBitmap (by omega)).mp hz] at hmark
      cases hmark
    have hsl0 : h.slBitmap i ≠ 0 := ne_zero_iff.mpr ⟨j, hj, hbit⟩
    have hhead : h.blocks i j ≠ null := fun hn => hl (hchain.head_null.mp hn)
    have hsome : tlsfInsist status (h.slBitmap i ≠ 0) = some status := tlsfInsist_true hsl0
    have hblock : tlsfInsist status (h.blocks i j ≠ null) = some status := tlsfInsist_true hhead
    rw [if_neg hfl, if_neg hz, hsome, Option.bind_some, hblock, Option.bind_some]
    exact checkList_spec hp hchain (fun a ha => (hp.index.mem i j a hi hj).mp ha)
      (Nat.lt_of_le_of_lt (hp.list_length hi hj) hfuel)

theorem foldlM_same {α : Type} {t : List α} {f : Int → α → Option Int}
    (hf : ∀ a ∈ t, ∀ s, f s a = some s) (s : Int) : t.foldlM f s = some s := by
  induction t with
  | nil => rfl
  | cons a t ih =>
    rw [List.foldlM_cons, hf a List.mem_cons_self]
    exact ih fun a' ha' => hf a' (List.mem_cons_of_mem _ ha')

theorem tlsfCheck_spec (hp : Pool null b h l L) (hfuel : l.length < fuel) :
    tlsfCheck null fuel h = some 0 := by
  refine foldlM_same (fun i hi s => foldlM_same (fun j hj s => ?_) s) 0
  exact checkEntry_spec hp (List.mem_range.mp hi) (List.mem_range.mp hj) hfuel

/-- As many blocks as there are bytes are enough. -/
theorem Pool.length_lt (hp : Pool null b h l L) : l.length ≤ span l := by
  have hlen : ∀ {b f l}, Tiles h.bytes b f l → l.length ≤ span l := by
    intro b f l ht
    induction l generalizing b f with
    | nil => exact Nat.le_refl _
    | cons x l ih =>
      have := ih (tiles_cons.mp ht).2.2.2
      rw [List.length_cons, span_cons]
      omega
  exact hlen hp.tiles

end

end HyperCore.Tlsf
